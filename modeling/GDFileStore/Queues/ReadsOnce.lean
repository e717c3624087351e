import GDFileStore.Queues.DataServer

/-! Every read request is in one place at a time and is answered once, with one datum for each
block it asked for. -/
namespace GDFileStore
open Sequences Program Prog
variable {σ : Type}

/-- An answer to a read: under its own id, object and blocks, with one datum for each block. -/
def ROpeLog.Answer (ropelog : ROpeLog) (reply : Reply) : Prop :=
  ∃ datas : List Bytes, datas.length = ropelog.rope.blocks.length ∧ reply =
    .repRead ropelog ⟨ropelog.opeId,ropelog.rope.ghobj,ropelog.rope.blocks,datas⟩

namespace ROpeLog
variable (ropelog : ROpeLog)

def allowed : Option Reply → Action → Prop
  | none,.request _ => True
  | none,.httpSend reply => ropelog.Answer reply
  | _,_ => False

def next : Option Reply → (a : Action) → a.Resp → Option Reply
  | none,.httpSend reply,_ => some reply
  | v,_,_ => v

/-- The life of a read at its worker, as the reply that has been sent. -/
def life : Protocol Action.Resp (Option Reply) := ⟨ropelog.allowed,next⟩

/-- `do_rope` ends when it has sent its answer. -/
def Answered (_ : Unit) (v : Option Reply) : Prop := ∃ reply, v = some reply ∧ ropelog.Answer reply

variable {ropelog} {v : Option Reply} {a : Action}

lemma eq_none_of_allowed (h : ropelog.allowed v a) : v = none := by
  cases v with
  | none => rfl
  | some reply => exact h.elim

/-- A read puts nothing into the queue of writes, and what it sends is the view it reaches. -/
lemma sent_of_allowed (h : ropelog.allowed v a) (answer : a.Resp) :
    a.queued = [] ∧ a.sent = (ropelog.life.next v a answer).toList := by
  obtain rfl := eq_none_of_allowed h
  cases a with
  | request => exact ⟨rfl,rfl⟩
  | httpSend => exact ⟨rfl,rfl⟩
  | _ => exact h.elim

end ROpeLog

namespace FileStore
variable (fs : FileStore) (ropelog : ROpeLog)

lemma readBlocks_answers (serials : List Int64) {last : List Bytes → Job Unit} (blocks : List Int32)
    (hlast : ∀ datas, datas.length = blocks.length →
      Follows ropelog.life (fs.jobActions (last datas)) none ropelog.Answered) :
    Follows ropelog.life (fs.jobActions (fs.readBlocks serials blocks >>= last)) none
      ropelog.Answered := by
  induction blocks generalizing last with
  | nil => exact hlast [] rfl
  | cons block blocks ih =>
    rw [readBlocks]
    split
    · exact ⟨trivial,fun e => e.elim⟩
    · split
      · simp only [ask_eq,call_bind,done_bind]
        refine ⟨trivial,fun data => ?_⟩
        change Follows _ (fs.jobActions (fs.readBlocks serials blocks >>= _ >>= last)) none _
        rw [bind_bind]
        exact ih (fun datas hdatas => hlast (data::datas) (congrArg (·+1) hdatas))
      · exact ⟨trivial,fun e => e.elim⟩

theorem doRope_answers :
    Follows ropelog.life (fs.jobActions (fs.doRope ropelog)) none ropelog.Answered := by
  simp only [doRope,ask_eq,call_bind,done_bind]
  refine ⟨trivial,fun orb => fs.readBlocks_answers ropelog _ _ ?_⟩
  intro datas hdatas
  exact ⟨⟨datas,hdatas,rfl⟩,fun _ => ⟨_,rfl,datas,hdatas,rfl⟩⟩

end FileStore

/-- An asked read as some place holds it. -/
inductive ReadPresence where
  | queued (ropelog : ROpeLog)
  | reading (p : Activity Unit)
  | finished

/-- A presence agrees with the read that was asked and with the replies so far. -/
def ReadPresence.Agrees (ropelog : ROpeLog) (replies : List Reply) : ReadPresence → Prop
  | .queued ro => ro = ropelog ∧ replies = []
  | .reading p => ∃ a rest, p = .call a rest ∧ Follows ropelog.life p none ropelog.Answered ∧
      replies = []
  | .finished => ∃ reply, ropelog.Answer reply ∧ replies = [reply]

namespace DataServer

def queuedEntries (l : List (ℕ × ROpeLog)) : List (ℕ × ReadPresence) :=
  l.map (fun ro => (ro.1,.queued ro.2))

def readingEntries (l : List (ℕ × Activity Unit)) : List (ℕ × ReadPresence) :=
  l.map (fun p => (p.1,.reading p.2))

def finishedEntries (l : List ℕ) : List (ℕ × ReadPresence) := l.map (fun t => (t,.finished))

/-- All the entries of all the places of reads. -/
def entries (d : DataServer σ) : List (ℕ × ReadPresence) :=
  queuedEntries d.ropeLogs ++ queuedEntries d.rtmp ++ queuedEntries d.jobs ++
    readingEntries d.reading ++ finishedEntries d.finished

/-- What an entry of ticket `t` has to satisfy. -/
def Good (d : DataServer σ) (t : ℕ) (p : ReadPresence) : Prop :=
  ∃ ropelog, d.asked[t]? = some ropelog ∧ p.Agrees ropelog (d.answersTo t)

structure Inv (d : DataServer σ) : Prop where
  writes : d.writes.Inv
  round : d.half = .ropes → d.rtmp = []
  register : Register d.Good d.asked.length d.entries
  unissued : ∀ t, d.asked.length ≤ t → d.answersTo t = []

lemma timesHeld_eq (d : DataServer σ) (t : ℕ) : d.timesHeld t = (d.entries.map Prod.fst).count t := by
  simp only [timesHeld,entries,queuedEntries,readingEntries,finishedEntries,List.map_append,
    List.count_append,List.map_map,Function.comp_def,List.map_id']

lemma answersTo_actRope (d : DataServer σ) (before after : List (ℕ × Activity Unit)) (t : ℕ)
    (a : Action) (p : Activity Unit) (world : σ) :
    (d.actRope before after t a p world).answersTo t = d.answersTo t ++ a.sent := by
  simp [answersTo,actRope,List.filterMap_append,List.filterMap_map]

lemma answersTo_actRope_ne (d : DataServer σ) (before after : List (ℕ × Activity Unit)) {t u : ℕ}
    (a : Action) (p : Activity Unit) (world : σ) (hne : u ≠ t) :
    (d.actRope before after t a p world).answersTo u = d.answersTo u := by
  simp [answersTo,actRope,List.filterMap_append,List.filterMap_map,Ne.symm hne]

/-- The entries of read `t` after an action that leaves `p` to do. -/
def moved (t : ℕ) (p : Activity Unit) : List (ℕ × ReadPresence) :=
  readingEntries (Server.occupied t p) ++ finishedEntries (Server.ended t p [])

/-- What agrees with the reply that a program has sent is the one entry the program leaves. -/
lemma moved_settles {ropelog : ROpeLog} {p : Activity Unit} {v : Option Reply} (t : ℕ)
    (hfollow : Follows ropelog.life p v ropelog.Answered) :
    ∃ e, moved t p = [(t,e)] ∧ e.Agrees ropelog v.toList := by
  cases p with
  | done u =>
    obtain ⟨reply,rfl,hreply⟩ := hfollow
    exact ⟨.finished,rfl,reply,hreply,rfl⟩
  | call a rest =>
    obtain rfl := ROpeLog.eq_none_of_allowed hfollow.1
    exact ⟨.reading (.call a rest),rfl,a,rest,rfl,hfollow,rfl⟩

/-- The entries with read `t` at a worker, apart from that one. -/
def others (d : DataServer σ) (before after : List (ℕ × Activity Unit)) :
    List (ℕ × ReadPresence) :=
  queuedEntries d.ropeLogs ++ queuedEntries d.rtmp ++ queuedEntries d.jobs ++
    readingEntries (before ++ after) ++ finishedEntries d.finished

lemma entries_at_worker {d : DataServer σ} {before after : List (ℕ × Activity Unit)} {t : ℕ}
    {p : Activity Unit} (hreading : d.reading = before ++ (t,p)::after) :
    d.entries.Perm ((t,.reading p)::d.others before after) := by
  classical
  rw [List.perm_iff_count]
  intro e
  simp only [entries,others,hreading,readingEntries,List.map_append,List.map_cons,
    List.count_append,List.count_cons]
  omega

lemma entries_actRope (d : DataServer σ) (before after : List (ℕ × Activity Unit)) (t : ℕ)
    {a : Action} (p : Activity Unit) (world : σ) (hqueued : a.queued = []) :
    (d.actRope before after t a p world).entries.Perm (moved t p ++ d.others before after) := by
  classical
  rw [List.perm_iff_count]
  intro e
  simp only [entries,others,moved,actRope,hqueued,queuedEntries,readingEntries,finishedEntries,
    List.map_append,List.count_append]
  omega

lemma entries_takeRope (fs : FileStore) (d : DataServer σ) (ro : ℕ × ROpeLog)
    (jobs : List (ℕ × ROpeLog)) : (d.takeRope fs ro jobs).entries.Perm
      (moved ro.1 (fs.jobActions (fs.doRope ro.2)) ++ { d with jobs := jobs }.entries) := by
  classical
  rw [List.perm_iff_count]
  intro e
  simp only [entries,moved,takeRope,queuedEntries,readingEntries,finishedEntries,List.map_append,
    List.count_append]
  omega

lemma entries_of_jobs {d : DataServer σ} {ro : ℕ × ROpeLog} {jobs : List (ℕ × ROpeLog)}
    (hjobs : d.jobs = ro::jobs) :
    d.entries.Perm ((ro.1,.queued ro.2)::{ d with jobs := jobs }.entries) := by
  classical
  rw [List.perm_iff_count]
  intro e
  simp only [entries,queuedEntries,hjobs,List.map_cons,List.count_append,List.count_cons]
  omega

lemma entries_reqRead (d : DataServer σ) (ropelog : ROpeLog) : (d.reqRead ropelog).entries.Perm
    ((d.asked.length,.queued ropelog)::d.entries) := by
  classical
  rw [List.perm_iff_count]
  intro e
  simp only [entries,reqRead,queuedEntries,List.map_append,List.map_cons,List.map_nil,
    List.count_append,List.count_cons,List.count_nil]
  omega

lemma entries_swapRopes {d : DataServer σ} (hround : d.rtmp = []) :
    d.swapRopes.entries.Perm d.entries := by
  classical
  rw [List.perm_iff_count]
  intro e
  simp only [entries,swapRopes,queuedEntries,hround,List.map_nil,List.count_append,List.count_nil]
  omega

lemma entries_enqueueRope {d : DataServer σ} {ro : ℕ × ROpeLog} {rtmp : List (ℕ × ROpeLog)}
    (hbatch : d.rtmp = ro::rtmp) : (d.enqueueRope ro rtmp).entries.Perm d.entries := by
  classical
  rw [List.perm_iff_count]
  intro e
  simp only [entries,enqueueRope,queuedEntries,hbatch,List.map_append,List.map_cons,List.map_nil,
    List.count_append,List.count_cons,List.count_nil]
  omega

namespace Inv
variable {d : DataServer σ}

lemma start (world₀ : σ) : Inv { writes := { world := world₀ } } :=
  ⟨.start world₀,fun _ => rfl,.empty,fun _ _ => rfl⟩

/-- A step of the write side. -/
lemma of_writes (h : d.Inv) {writes : Server σ} (hwrites : writes.Inv) (sent : List Reply) :
    Inv { d with writes := writes, sent := sent } := ⟨hwrites,h.round,h.register,h.unissued⟩

lemma reqRead (h : d.Inv) (ropelog : ROpeLog) : (d.reqRead ropelog).Inv := by
  have hlength : (d.reqRead ropelog).asked.length = d.asked.length+1 := by
    simp [DataServer.reqRead]
  have hstays : ∀ u < d.asked.length, ∀ p, d.Good u p → (d.reqRead ropelog).Good u p := by
    rintro u hu p ⟨log,hlog,hagrees⟩
    exact ⟨log,(List.getElem?_append_left hu).trans hlog,hagrees⟩
  have hnew : (d.reqRead ropelog).Good d.asked.length (.queued ropelog) :=
    ⟨ropelog,List.getElem?_concat_length,rfl,h.unissued _ le_rfl⟩
  refine ⟨h.writes,h.round,?_,?_⟩
  · rw [hlength]
    exact (h.register.issue hstays hnew).perm (d.entries_reqRead ropelog)
  · intro t ht
    rw [hlength] at ht
    exact h.unissued t (by omega)

lemma swapRopes (h : d.Inv) (hhalf : d.half = .ropes) : d.swapRopes.Inv :=
  ⟨h.writes,fun hropes => Half.noConfusion hropes,h.register.perm (entries_swapRopes (h.round hhalf)),
    h.unissued⟩

lemma enqueueRope (h : d.Inv) {ro : ℕ × ROpeLog} {rtmp : List (ℕ × ROpeLog)}
    (hbatch : d.rtmp = ro::rtmp) : (d.enqueueRope ro rtmp).Inv := by
  refine ⟨h.writes,?_,h.register.perm (entries_enqueueRope hbatch),h.unissued⟩
  intro hhalf
  cases hbatch.symm.trans (h.round hhalf)

/-- A worker takes a read: it follows the life of a read from its beginning. -/
lemma takeRope (fs : FileStore) (h : d.Inv) {ro : ℕ × ROpeLog} {jobs : List (ℕ × ROpeLog)}
    (hjobs : d.jobs = ro::jobs) : (d.takeRope fs ro jobs).Inv := by
  have hregister := h.register.perm (entries_of_jobs hjobs).symm
  obtain ⟨ropelog,hlog,rfl,hnone⟩ := hregister.good _ List.mem_cons_self
  obtain ⟨e,hmoved,hagrees⟩ := moved_settles ro.1 (fs.doRope_answers ro.2)
  refine ⟨h.writes,h.round,?_,h.unissued⟩
  apply Register.perm _ (d.entries_takeRope fs ro jobs)
  rw [hmoved]
  exact hregister.move (fun _ _ _ hgood => hgood) ⟨ro.2,hlog,hnone ▸ hagrees⟩

lemma actRope (h : d.Inv) {before after : List (ℕ × Activity Unit)} {t : ℕ} {a : Action}
    {rest : a.Resp → Activity Unit} (hreading : d.reading = before ++ (t,.call a rest)::after)
    (answer : a.Resp) (world : σ) : (d.actRope before after t a (rest answer) world).Inv := by
  have hregister := h.register.perm (entries_at_worker hreading).symm
  obtain ⟨ropelog,hlog,_,_,_,hfollow,hnone⟩ := hregister.good _ List.mem_cons_self
  obtain ⟨hqueued,hsent⟩ := ROpeLog.sent_of_allowed hfollow.1 answer
  obtain ⟨e,hmoved,hagrees⟩ := moved_settles t (hfollow.2 answer)
  have ht : t < d.asked.length := (List.getElem?_eq_some_iff.1 hlog).1
  refine ⟨⟨h.writes.register,h.writes.init,h.writes.unissued⟩,h.round,?_,?_⟩
  · apply Register.perm _ (d.entries_actRope before after t (rest answer) world hqueued)
    rw [hmoved]
    apply hregister.move
    · rintro u hne p ⟨log,hu,hp⟩
      refine ⟨log,hu,?_⟩
      rwa [answersTo_actRope_ne d before after a _ world hne]
    · refine ⟨ropelog,hlog,?_⟩
      rwa [answersTo_actRope,hnone,List.nil_append,hsent]
  · intro u hu
    have hne : u ≠ t := (ht.trans_le hu).ne'
    rw [answersTo_actRope_ne d before after a _ world hne]
    exact h.unissued u hu

end Inv

variable {fs : FileStore} {threads : ℕ} {outcome : (r : Request) → σ → r.Resp → σ → Prop}

theorem Inv.step {d d' : DataServer σ} (h : d.Inv) (hstep : Step fs threads outcome d d') :
    d'.Inv := by
  cases hstep with
  | reqWrite opeId wope fromNode => exact h.of_writes (h.writes.reqWrite opeId wope fromNode) _
  | reqRead ropelog => exact h.reqRead ropelog
  | swapWopes _ hround hreads =>
    exact ⟨h.writes.swap hround,fun _ => hreads,h.register,h.unissued⟩
  | swapRopes hhalf _ => exact h.swapRopes hhalf
  | enqueueWope hbatch => exact h.of_writes (h.writes.enqueue hbatch) _
  | enqueueRope hbatch => exact h.enqueueRope hbatch
  | takeWope hjobs _ => exact h.of_writes (h.writes.take fs hjobs) _
  | takeRope hjobs _ => exact h.takeRope fs hjobs
  | actWope before after answer hrunning _ => exact h.of_writes (h.writes.act hrunning answer _) _
  | actRope before after answer hreading _ => exact h.actRope hreading answer _

theorem Reachable.inv {world₀ : σ} {d : DataServer σ} (h : Reachable fs threads outcome world₀ d) :
    d.Inv := by
  induction h with
  | start => exact .start world₀
  | step _ hstep ih => exact ih.step hstep

namespace Inv
variable {d : DataServer σ}

/-- A worker of the read pool is at some request. -/
lemma at_call (h : d.Inv) {t : ℕ} {p : Activity Unit} (hm : (t,p) ∈ d.reading) :
    ∃ a rest, p = .call a rest := by
  have hentry : (t,ReadPresence.reading p) ∈ d.entries := by
    simp only [entries]
    exact List.mem_append_left _ (List.mem_append_right _ (List.mem_map.2 ⟨_,hm,rfl⟩))
  obtain ⟨_,_,a,rest,hp,_⟩ := h.register.good _ hentry
  exact ⟨a,rest,hp⟩

/-- A read is finished when it has been answered. -/
lemma answered (h : d.Inv) {t : ℕ} {ropelog : ROpeLog} (hasked : d.asked[t]? = some ropelog) :
    d.answersTo t = [] ∧ t ∉ d.finished ∨ t ∈ d.finished ∧ ∃ datas : List Bytes,
      datas.length = ropelog.rope.blocks.length ∧ d.answersTo t =
        [.repRead ropelog ⟨ropelog.opeId,ropelog.rope.ghobj,ropelog.rope.blocks,datas⟩] := by
  obtain ⟨ht,_⟩ := List.getElem?_eq_some_iff.1 hasked
  obtain ⟨p,hmem,log,hlog,hagrees⟩ := h.register.exists_entry ht
  obtain rfl : log = ropelog := Option.some.inj (hlog.symm.trans hasked)
  have hfinished : t ∈ d.finished ↔ p = .finished := by
    constructor
    · intro hm
      exact h.register.unique hmem (List.mem_append_right _ (List.mem_map.2 ⟨t,hm,rfl⟩))
    · rintro rfl
      simpa [entries,queuedEntries,readingEntries,finishedEntries] using hmem
  rw [hfinished]
  cases p with
  | queued ro => exact .inl ⟨hagrees.2,by simp⟩
  | reading p =>
    obtain ⟨_,_,_,_,hnone⟩ := hagrees
    exact .inl ⟨hnone,by simp⟩
  | finished =>
    obtain ⟨reply,⟨datas,hlen,rfl⟩,hreplies⟩ := hagrees
    exact .inr ⟨rfl,datas,hlen,hreplies⟩

end Inv

/-- In every state a server can reach, each read that was asked of it is in exactly one place, is
kept there as it was asked, and is finished exactly when it has been answered: once, under its own
id, object and blocks, with one datum for each block. -/
theorem rope_exactly_once {world₀ : σ} {d : DataServer σ}
    (hreach : Reachable fs threads outcome world₀ d) {t : ℕ} {ropelog : ROpeLog}
    (hasked : d.asked[t]? = some ropelog) :
    d.timesHeld t = 1 ∧ (∀ ro, (t,ro) ∈ d.ropeLogs ++ d.rtmp ++ d.jobs → ro = ropelog) ∧
    (d.answersTo t = [] ∧ t ∉ d.finished ∨ t ∈ d.finished ∧ ∃ datas : List Bytes,
      datas.length = ropelog.rope.blocks.length ∧ d.answersTo t =
        [.repRead ropelog ⟨ropelog.opeId,ropelog.rope.ghobj,ropelog.rope.blocks,datas⟩]) := by
  have hinv := hreach.inv
  obtain ⟨ht,_⟩ := List.getElem?_eq_some_iff.1 hasked
  refine ⟨?_,?_,hinv.answered hasked⟩
  · rw [timesHeld_eq]
    exact hinv.register.count_eq_one ht
  · intro ro hro
    have hentry : (t,ReadPresence.queued ro) ∈ d.entries := by
      simp only [entries,queuedEntries,← List.map_append]
      exact List.mem_append_left _ (List.mem_append_left _ (List.mem_map_of_mem hro))
    obtain ⟨other,hother,rfl,_⟩ := hinv.register.good _ hentry
    exact Option.some.inj (hother.symm.trans hasked)

/-- A block is read twice, once before it is copied to the disk and once after. -/
theorem rope_exactly_once_early : ∃ d : DataServer World,
    Reachable sampleStore 1 Request.Gives (World.fresh [7]) d ∧
    d.timesHeld 0 = 1 ∧ d.timesHeld 1 = 1 ∧
    d.answersTo 0 = [.repRead readFirst ⟨lit "2",generation 0,[0],[[]]⟩] ∧
    d.answersTo 1 = [.repRead readFirst ⟨lit "2",generation 0,[0],[lit "x"]⟩] := by
  have r0 : Reachable sampleStore 1 Request.Gives (World.fresh [7])
      { writes := { world := World.fresh [7] } } := .start
  have r1 := (r0.step (.reqWrite _ firstWrite.opeId firstWrite.wope {})).step (.swapWopes rfl rfl rfl)
  have r2 := (r1.step (.enqueueWope rfl)).step (.takeWope rfl (by decide))
  have r3 := (r2.step (.actWope [] [] () rfl rfl)).step (.actWope [] [] _ rfl rfl)
  have r4 := (r3.step (.actWope [] [] _ rfl rfl)).step (.actWope [] [] _ rfl rfl)
  have r5 := (r4.step (.actWope [] [] _ rfl rfl)).step (.actWope [] [] _ rfl rfl)
  have r6 := (r5.step (.actWope [] [] _ rfl rfl)).step (.actWope [] [] _ rfl rfl)
  have r7 := (r6.step (.actWope [] [] () rfl rfl)).step (.actWope [] [] true rfl rfl)
  have r8 := r7.step (.actWope [] [] () rfl rfl)
  -- The block is in the journal only.
  have r9 := ((r8.step (.reqRead _ readFirst)).step (.swapRopes rfl rfl)).step (.enqueueRope rfl)
  have r10 := (r9.step (.takeRope rfl (by decide))).step (.actRope [] [] _ rfl rfl)
  have r11 := (r10.step (.actRope [] [] _ rfl rfl)).step (.actRope [] [] true rfl rfl)
  have r12 := (r11.step (.swapWopes rfl rfl rfl)).step (.enqueueWope rfl)
  have r13 := (r12.step (.takeWope rfl (by decide))).step (.actWope [] [] _ rfl rfl)
  have r14 := (r13.step (.actWope [] [] _ rfl rfl)).step (.actWope [] [] _ rfl rfl)
  have r15 := ((r14.step (.reqRead _ readFirst)).step (.swapRopes rfl rfl)).step (.enqueueRope rfl)
  have r16 := (r15.step (.takeRope rfl (by decide))).step (.actRope [] [] _ rfl rfl)
  have r17 := (r16.step (.actRope [] [] _ rfl rfl)).step (.actRope [] [] true rfl rfl)
  exact ⟨_,r17,(rope_exactly_once r17 rfl).1,(rope_exactly_once r17 rfl).1,rfl,rfl⟩
end DataServer
end GDFileStore
