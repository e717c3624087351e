import GDFileStore.Blocks.Tidy
import GDFileStore.Queues.Lifecycle

/-! The invariant of a server over all its runs: one entry for each accepted request, at a stage
that agrees with what has happened to it. -/
namespace GDFileStore
open Sequences Program Prog
variable {σ : Type}

/-- An accepted request as some place holds it. -/
inductive Presence where
  | queued (wopelog : WOpeLog)
  | running (p : Activity Unit)
  | finished

/-- A presence agrees with the accepted log and with the events so far. -/
def Presence.Agrees (wopelog : WOpeLog) (events : List Event) : Presence → Prop
  | .queued wo => ∃ state stage, wo = { wopelog with wopeState := state } ∧
      Progress.entry state = some stage ∧ events = stage.events wopelog
  | .running p => ∃ a rest stage, p = .call a rest ∧
      Follows (lifeProtocol wopelog) p stage Progress.Ended ∧ events = stage.events wopelog
  | .finished => events = Progress.closed.events wopelog

namespace Server

def queuedEntries (l : List (ℕ × WOpeLog)) : List (ℕ × Presence) :=
  l.map (fun wo => (wo.1,.queued wo.2))

def runningEntries (l : List (ℕ × Activity Unit)) : List (ℕ × Presence) :=
  l.map (fun p => (p.1,.running p.2))

def finishedEntries (l : List ℕ) : List (ℕ × Presence) := l.map (fun t => (t,.finished))

/-- All the entries of all the places. -/
def entries (s : Server σ) : List (ℕ × Presence) :=
  queuedEntries s.wopeLogs ++ queuedEntries s.wtmp ++ queuedEntries s.jobs ++
    runningEntries s.running ++ finishedEntries s.finished

/-- What an entry of ticket `t` has to satisfy. -/
def Good (s : Server σ) (t : ℕ) (p : Presence) : Prop :=
  ∃ wopelog, s.accepted[t]? = some wopelog ∧ p.Agrees wopelog (s.eventsOf t)

structure Inv (s : Server σ) : Prop where
  register : Register s.Good s.accepted.length s.entries
  init : ∀ wopelog ∈ s.accepted, wopelog.wopeState = .init
  unissued : ∀ t, s.accepted.length ≤ t → s.eventsOf t = []

lemma map_fst_queuedEntries (l : List (ℕ × WOpeLog)) :
    (queuedEntries l).map Prod.fst = l.map Prod.fst := by
  rw [queuedEntries,List.map_map]
  rfl

lemma map_fst_runningEntries (l : List (ℕ × Activity Unit)) :
    (runningEntries l).map Prod.fst = l.map Prod.fst := by
  rw [runningEntries,List.map_map]
  rfl

lemma map_fst_finishedEntries (l : List ℕ) : (finishedEntries l).map Prod.fst = l := by
  rw [finishedEntries,List.map_map]
  exact List.map_id l

lemma timesHeld_eq (s : Server σ) (t : ℕ) : s.timesHeld t = (s.entries.map Prod.fst).count t := by
  simp only [timesHeld,entries,List.map_append,List.count_append,map_fst_queuedEntries,
    map_fst_runningEntries,map_fst_finishedEntries]

lemma eventsOf_act (s : Server σ) (before after : List (ℕ × Activity Unit)) (t : ℕ) (a : Action)
    (p : Activity Unit) (world : σ) :
    (s.act before after t a p world).eventsOf t = s.eventsOf t ++ a.events := by
  simp [eventsOf,act,List.filterMap_append,List.filterMap_map]

lemma eventsOf_act_ne (s : Server σ) (before after : List (ℕ × Activity Unit)) {t u : ℕ}
    (a : Action) (p : Activity Unit) (world : σ) (hne : u ≠ t) :
    (s.act before after t a p world).eventsOf u = s.eventsOf u := by
  simp [eventsOf,act,List.filterMap_append,List.filterMap_map,Ne.symm hne]

/-- The entries of request `t` after an action that leaves `p` to do. -/
def moved (t : ℕ) (wopeLogs : List WOpeLog) (p : Activity Unit) : List (ℕ × Presence) :=
  queuedEntries (wopeLogs.map (fun wo => (t,wo))) ++ runningEntries (occupied t p) ++
    finishedEntries (ended t p wopeLogs)

/-- What agrees with the stage a program has reached is the one entry the program leaves. -/
lemma moved_settles {wopelog : WOpeLog} {p : Activity Unit} {stage : Progress}
    {wopeLogs : List WOpeLog} (t : ℕ)
    (hfollow : Follows (lifeProtocol wopelog) p stage Progress.Ended)
    (hqueued : (stage = .handedOn ∧ ∃ state, Progress.entry state = some .answered ∧
      wopeLogs = [{ wopelog with wopeState := state }]) ∨ (stage ≠ .handedOn ∧ wopeLogs = [])) :
    ∃ e, moved t wopeLogs p = [(t,e)] ∧ e.Agrees wopelog (stage.events wopelog) := by
  rcases hqueued with ⟨rfl,state,hentry,rfl⟩ | ⟨hne,rfl⟩
  · cases p with
    | done u => exact ⟨.queued { wopelog with wopeState := state },rfl,state,.answered,rfl,hentry,rfl⟩
    | call a rest =>
      have hallowed : Progress.allowed wopelog .handedOn a := hfollow.1
      exact absurd rfl (Progress.not_handedOn_of_allowed hallowed)
  · cases p with
    | done u =>
      rcases hfollow with rfl | rfl
      · exact absurd rfl hne
      · exact ⟨.finished,rfl,rfl⟩
    | call a rest => exact ⟨.running (.call a rest),rfl,a,rest,stage,rfl,hfollow,rfl⟩

/-- The entries with request `t` at a worker, apart from that one. -/
def others (s : Server σ) (before after : List (ℕ × Activity Unit)) : List (ℕ × Presence) :=
  queuedEntries s.wopeLogs ++ queuedEntries s.wtmp ++ queuedEntries s.jobs ++
    runningEntries (before ++ after) ++ finishedEntries s.finished

lemma entries_at_worker {s : Server σ} {before after : List (ℕ × Activity Unit)} {t : ℕ}
    {p : Activity Unit} (hrunning : s.running = before ++ (t,p)::after) :
    s.entries.Perm ((t,.running p)::s.others before after) := by
  classical
  rw [List.perm_iff_count]
  intro e
  simp only [entries,others,hrunning,runningEntries,List.map_append,List.map_cons,
    List.count_append,List.count_cons]
  omega

lemma entries_act (s : Server σ) (before after : List (ℕ × Activity Unit)) (t : ℕ) (a : Action)
    (p : Activity Unit) (world : σ) : (s.act before after t a p world).entries.Perm
      (moved t a.queued p ++ s.others before after) := by
  classical
  rw [List.perm_iff_count]
  intro e
  simp only [entries,others,moved,act,queuedEntries,runningEntries,finishedEntries,
    List.map_append,List.count_append]
  omega

lemma entries_take (fs : FileStore) (s : Server σ) (wo : ℕ × WOpeLog) (jobs : List (ℕ × WOpeLog)) :
    (s.take fs wo jobs).entries.Perm (moved wo.1 [] (fs.jobActions (fs.doWope wo.2)) ++
      { s with jobs := jobs }.entries) := by
  classical
  rw [List.perm_iff_count]
  intro e
  simp only [entries,moved,take,queuedEntries,runningEntries,finishedEntries,List.map_append,
    List.map_nil,List.count_append,List.count_nil]
  omega

lemma entries_of_jobs {s : Server σ} {wo : ℕ × WOpeLog} {jobs : List (ℕ × WOpeLog)}
    (hjobs : s.jobs = wo::jobs) :
    s.entries.Perm ((wo.1,.queued wo.2)::{ s with jobs := jobs }.entries) := by
  classical
  rw [List.perm_iff_count]
  intro e
  simp only [entries,queuedEntries,hjobs,List.map_cons,List.count_append,List.count_cons]
  omega

lemma entries_reqWrite (s : Server σ) (opeId : Bytes) (wope : WOPE) (fromNode : InfoForNetNode) :
    (s.reqWrite opeId wope fromNode).entries.Perm
      ((s.accepted.length,.queued ⟨opeId,wope,fromNode,.init⟩)::s.entries) := by
  classical
  rw [List.perm_iff_count]
  intro e
  simp only [entries,reqWrite,queuedEntries,List.map_append,List.map_cons,List.map_nil,
    List.count_append,List.count_cons,List.count_nil]
  omega

/-- The dispatcher moves logs from one place to the next and touches nothing else. -/
lemma entries_swap {s : Server σ} (hround : s.wtmp = []) : s.swap.entries.Perm s.entries := by
  classical
  rw [List.perm_iff_count]
  intro e
  simp only [entries,swap,queuedEntries,hround,List.map_nil,List.count_append,List.count_nil]
  omega

lemma entries_enqueue {s : Server σ} {wo : ℕ × WOpeLog} {wtmp : List (ℕ × WOpeLog)}
    (hbatch : s.wtmp = wo::wtmp) : (s.enqueue wo wtmp).entries.Perm s.entries := by
  classical
  rw [List.perm_iff_count]
  intro e
  simp only [entries,enqueue,queuedEntries,hbatch,List.map_append,List.map_cons,List.map_nil,
    List.count_append,List.count_cons,List.count_nil]
  omega

namespace Inv
variable {s : Server σ}

lemma start (world₀ : σ) : Inv { world := world₀ } := ⟨.empty,nofun,fun _ _ => rfl⟩

lemma reqWrite (h : s.Inv) (opeId : Bytes) (wope : WOPE) (fromNode : InfoForNetNode) :
    (s.reqWrite opeId wope fromNode).Inv := by
  let opelog : WOpeLog := ⟨opeId,wope,fromNode,.init⟩
  have hlength : (s.reqWrite opeId wope fromNode).accepted.length = s.accepted.length+1 := by
    simp [Server.reqWrite]
  have hstays : ∀ u < s.accepted.length, ∀ p, s.Good u p →
      (s.reqWrite opeId wope fromNode).Good u p := by
    rintro u hu p ⟨wopelog,hlog,hagrees⟩
    exact ⟨wopelog,(List.getElem?_append_left hu).trans hlog,hagrees⟩
  have hnew : (s.reqWrite opeId wope fromNode).Good s.accepted.length (.queued opelog) := by
    refine ⟨opelog,List.getElem?_concat_length,.init,.received,rfl,rfl,?_⟩
    exact h.unissued _ le_rfl
  refine ⟨?_,?_,?_⟩
  · rw [hlength]
    exact (h.register.issue hstays hnew).perm (s.entries_reqWrite opeId wope fromNode)
  · intro wopelog hm
    rcases List.mem_append.1 hm with hold | hone
    · exact h.init wopelog hold
    · obtain rfl := List.mem_singleton.1 hone
      rfl
  · intro t ht
    exact h.unissued t (by omega)

lemma swap (h : s.Inv) (hround : s.wtmp = []) : s.swap.Inv :=
  ⟨h.register.perm (entries_swap hround),h.init,h.unissued⟩

lemma enqueue (h : s.Inv) {wo : ℕ × WOpeLog} {wtmp : List (ℕ × WOpeLog)}
    (hbatch : s.wtmp = wo::wtmp) : (s.enqueue wo wtmp).Inv :=
  ⟨h.register.perm (entries_enqueue hbatch),h.init,h.unissued⟩

lemma take (fs : FileStore) (h : s.Inv) {wo : ℕ × WOpeLog} {jobs : List (ℕ × WOpeLog)}
    (hjobs : s.jobs = wo::jobs) : (s.take fs wo jobs).Inv := by
  have hregister := h.register.perm (entries_of_jobs hjobs).symm
  obtain ⟨wopelog,hlog,state,stage,hwo,hentry,hevents⟩ := hregister.good _ List.mem_cons_self
  have hfollow := fs.doWope_follows (h.init wopelog (List.mem_of_getElem? hlog)) hentry
  rw [← hwo] at hfollow
  have hne : stage ≠ .handedOn := by
    rintro rfl
    cases state <;> cases hentry
  obtain ⟨e,hmoved,hagrees⟩ := moved_settles wo.1 hfollow (.inr ⟨hne,rfl⟩)
  have hperm := entries_take fs s wo jobs
  rw [hmoved] at hperm
  refine ⟨(hregister.move (fun u _ p hp => hp) ?_).perm hperm,h.init,h.unissued⟩
  exact ⟨wopelog,hlog,hevents ▸ hagrees⟩

lemma act (h : s.Inv) {before after : List (ℕ × Activity Unit)} {t : ℕ} {a : Action}
    {rest : a.Resp → Activity Unit} (hrunning : s.running = before ++ (t,.call a rest)::after)
    (answer : a.Resp) (world : σ) : (s.act before after t a (rest answer) world).Inv := by
  have hregister := h.register.perm (entries_at_worker hrunning).symm
  obtain ⟨wopelog,hlog,_,_,stage,_,hfollow,hevents⟩ := hregister.good _ List.mem_cons_self
  have hallowed : Progress.allowed wopelog stage a := hfollow.1
  obtain ⟨e,hmoved,hagrees⟩ := moved_settles t (hfollow.2 answer)
    (Progress.queued_of_next hallowed answer)
  have hperm := s.entries_act before after t a (rest answer) world
  rw [hmoved] at hperm
  refine ⟨(hregister.move ?_ ?_).perm hperm,h.init,?_⟩
  · rintro u hne p ⟨wo,hwo,hp⟩
    refine ⟨wo,hwo,?_⟩
    rw [s.eventsOf_act_ne before after a (rest answer) world hne]
    exact hp
  · refine ⟨wopelog,hlog,?_⟩
    rw [s.eventsOf_act before after t a (rest answer) world,hevents,
      ← Progress.events_next hallowed answer]
    exact hagrees
  · intro u hu
    have hne : u ≠ t := by
      rintro rfl
      exact absurd (hregister.lt_of_mem List.mem_cons_self) (Nat.not_lt.2 hu)
    rw [s.eventsOf_act_ne before after a (rest answer) world hne]
    exact h.unissued u hu

end Inv
variable {fs : FileStore} {threads : ℕ} {outcome : (r : Request) → σ → r.Resp → σ → Prop}

/-- Every step of the handler, the dispatcher and the workers keeps the invariant. -/
theorem Inv.step {s s' : Server σ} (h : s.Inv) (hstep : Step fs threads outcome s s') : s'.Inv := by
  cases hstep with
  | reqWrite opeId wope fromNode => exact h.reqWrite opeId wope fromNode
  | swap hround => exact h.swap hround
  | enqueue hbatch => exact h.enqueue hbatch
  | take hjobs _ => exact h.take fs hjobs
  | act before after answer hrunning _ => exact h.act hrunning answer _

theorem Reachable.inv {world₀ : σ} {s : Server σ} (h : Reachable fs threads outcome world₀ s) :
    s.Inv := by
  induction h with
  | start => exact .start world₀
  | step _ hstep ih => exact ih.step hstep

end Server

namespace Progress
variable {wopelog : WOpeLog}

lemma begun_once (stage : Progress) : (stage.events wopelog).count .doWOPEBegun ≤ 1 := by
  cases stage <;> simp [events]

lemma replies_prefix (stage : Progress) : replies (stage.events wopelog) <+: wopelog.owed := by
  cases stage with
  | received => exact List.nil_prefix
  | writing => exact List.nil_prefix
  | written => exact List.nil_prefix
  | answered => exact ⟨_,rfl⟩
  | handedOn => exact ⟨_,rfl⟩
  | closed => exact List.prefix_refl _

lemma replies_eq_owed (stage : Progress) :
    replies (stage.events wopelog) = wopelog.owed ↔ stage = .closed := by
  cases stage <;> simp [events,replies,WOpeLog.owed]

lemma finished_before_sent {stage : Progress} {before after : List Event} {reply : Reply}
    (h : stage.events wopelog = before ++ .sent reply::after) : .doWOPEFinished ∈ before := by
  -- The first two events are no replies, and the second is the end of `do_WOPE`.
  match before with
  | [] => cases stage <;> simp [events] at h
  | [_] => cases stage <;> simp [events] at h
  | _::e::before =>
    have he : e = .doWOPEFinished := by cases stage <;> simp_all [events]
    exact he ▸ List.mem_cons_of_mem _ List.mem_cons_self

end Progress

namespace Server
variable {fs : FileStore} {threads : ℕ} {outcome : (r : Request) → σ → r.Resp → σ → Prop}

/-- The stage of an accepted request: it accounts for all its events, and it is the last one
exactly when the request is finished. -/
lemma Inv.stage {s : Server σ} (h : s.Inv) {t : ℕ} {wopelog : WOpeLog}
    (haccepted : s.accepted[t]? = some wopelog) :
    ∃ stage : Progress, s.eventsOf t = stage.events wopelog ∧ (stage = .closed ↔ t ∈ s.finished) := by
  obtain ⟨ht,_⟩ := List.getElem?_eq_some_iff.1 haccepted
  obtain ⟨p,hmem,wo,hwo,hagrees⟩ := h.register.exists_entry ht
  obtain rfl : wo = wopelog := Option.some.inj (hwo.symm.trans haccepted)
  have hfinished : t ∈ s.finished ↔ p = .finished := by
    constructor
    · intro hm
      exact h.register.unique hmem (List.mem_append_right _ (List.mem_map.2 ⟨t,hm,rfl⟩))
    · rintro rfl
      simpa [entries,queuedEntries,runningEntries,finishedEntries] using hmem
  cases p with
  | queued log =>
    obtain ⟨state,stage,_,hentry,hevents⟩ := hagrees
    refine ⟨stage,hevents,?_⟩
    rw [hfinished]
    refine ⟨?_,nofun⟩
    rintro rfl
    cases state <;> cases hentry
  | running p =>
    obtain ⟨a,rest,stage,rfl,hfollow,hevents⟩ := hagrees
    refine ⟨stage,hevents,?_⟩
    rw [hfinished]
    exact ⟨fun hclosed => absurd hclosed (Progress.not_closed_of_allowed hfollow.1),nofun⟩
  | finished => exact ⟨.closed,hagrees,by simp [hfinished]⟩

/-- What a place holds for a request is its accepted log, but for the phase it is in. -/
lemma Inv.held {s : Server σ} (h : s.Inv) {t : ℕ} {wopelog wo : WOpeLog}
    (haccepted : s.accepted[t]? = some wopelog) (hwo : (t,wo) ∈ s.wopeLogs ++ s.wtmp ++ s.jobs) :
    wo = { wopelog with wopeState := wo.wopeState } := by
  have hentry : (t,Presence.queued wo) ∈ s.entries := by
    simp only [entries,queuedEntries,← List.map_append]
    exact List.mem_append_left _ (List.mem_append_left _ (List.mem_map_of_mem hwo))
  obtain ⟨log,hlog,state,_,rfl,_⟩ := h.register.good _ hentry
  obtain rfl : log = wopelog := Option.some.inj (hlog.symm.trans haccepted)
  rfl

/-- In every state a server can reach, each accepted request is in exactly one place, has been
journaled at most once, has been sent a beginning of the replies it is owed, none before its
journal write was over, and has been sent all of them exactly when it is finished. -/
theorem wope_exactly_once {world₀ : σ} {s : Server σ}
    (hreach : Reachable fs threads outcome world₀ s) {t : ℕ} {wopelog : WOpeLog}
    (haccepted : s.accepted[t]? = some wopelog) :
    s.timesHeld t = 1 ∧
    (∀ wo, (t,wo) ∈ s.wopeLogs ++ s.wtmp ++ s.jobs →
      wo = { wopelog with wopeState := wo.wopeState }) ∧
    (s.eventsOf t).count .doWOPEBegun ≤ 1 ∧
    s.repliesTo t <+: [.repWrite wopelog .primaryJournalWrite,
      .repWrite { wopelog with wopeState := .onDisk } .primaryDiskWrite] ∧
    (∀ before reply after, s.eventsOf t = before ++ .sent reply::after →
      .doWOPEFinished ∈ before) ∧
    (s.repliesTo t = [.repWrite wopelog .primaryJournalWrite,
      .repWrite { wopelog with wopeState := .onDisk } .primaryDiskWrite] ↔ t ∈ s.finished) := by
  have hinv := hreach.inv
  obtain ⟨ht,_⟩ := List.getElem?_eq_some_iff.1 haccepted
  obtain ⟨stage,hevents,hclosed⟩ := hinv.stage haccepted
  rw [repliesTo,hevents,timesHeld_eq]
  refine ⟨hinv.register.count_eq_one ht,fun wo hwo => hinv.held haccepted hwo,stage.begun_once,
    stage.replies_prefix,?_,?_⟩
  · intro before reply after h
    exact Progress.finished_before_sent h
  · exact stage.replies_eq_owed.trans hclosed

/-- The lives of two writes of a block each, served side by side by two workers. Nobody takes the
journal reply for the second. -/
theorem wope_exactly_once_two : ∃ s : Server World,
    Reachable sampleStore 2 Request.Gives (World.fresh [7,9]) s ∧
    s.world.occurrences 7 = 1 ∧ s.world.occurrences 9 = 1 ∧
    s.repliesTo 0 = [.repWrite firstWrite .primaryJournalWrite,
      .repWrite { firstWrite with wopeState := .onDisk } .primaryDiskWrite] ∧
    s.repliesTo 1 = [.repWrite writeOne .primaryJournalWrite,
      .repWrite { writeOne with wopeState := .onDisk } .primaryDiskWrite] := by
  have r0 : Reachable sampleStore 2 Request.Gives (World.fresh [7,9])
      { world := World.fresh [7,9] } := .start
  have r1 := (r0.step (.reqWrite _ firstWrite.opeId firstWrite.wope {})).step
    (.reqWrite _ writeOne.opeId writeOne.wope {})
  have r2 := ((r1.step (.swap rfl)).step (.enqueue rfl)).step (.enqueue rfl)
  have r3 := (r2.step (.take rfl (by decide))).step (.take rfl (by decide))
  -- The journal phases, turn by turn.
  have r4 := (r3.step (.act [] _ () rfl rfl)).step (.act [_] [] () rfl rfl)
  have r5 := (r4.step (.act [] _ _ rfl rfl)).step (.act [_] [] _ rfl rfl)
  have r6 := (r5.step (.act [] _ _ rfl rfl)).step (.act [_] [] _ rfl rfl)
  have r7 := (r6.step (.act [] _ _ rfl rfl)).step (.act [_] [] _ rfl rfl)
  have r8 := (r7.step (.act [] _ _ rfl rfl)).step (.act [_] [] _ rfl rfl)
  have r9 := (r8.step (.act [] _ _ rfl rfl)).step (.act [_] [] _ rfl rfl)
  have r10 := (r9.step (.act [] _ _ rfl rfl)).step (.act [_] [] _ rfl rfl)
  have r11 := (r10.step (.act [] _ _ rfl rfl)).step (.act [_] [] _ rfl rfl)
  have r12 := (r11.step (.act [] _ () rfl rfl)).step (.act [_] [] () rfl rfl)
  have r13 := (r12.step (.act [] _ true rfl rfl)).step (.act [_] [] false rfl rfl)
  have r14 := (r13.step (.act [] _ () rfl rfl)).step (.act [] [] () rfl rfl)
  -- The second phase of both copies their blocks.
  have r15 := ((r14.step (.swap rfl)).step (.enqueue rfl)).step (.enqueue rfl)
  have r16 := (r15.step (.take rfl (by decide))).step (.take rfl (by decide))
  have r17 := (r16.step (.act [] _ _ rfl rfl)).step (.act [_] [] _ rfl rfl)
  have r18 := (r17.step (.act [] _ _ rfl rfl)).step (.act [_] [] _ rfl rfl)
  have r19 := (r18.step (.act [] _ _ rfl rfl)).step (.act [_] [] _ rfl rfl)
  have r20 := (r19.step (.act [] _ () rfl rfl)).step (.act [] [] () rfl rfl)
  have r21 := ((r20.step (.swap rfl)).step (.enqueue rfl)).step (.enqueue rfl)
  have r22 := (r21.step (.take rfl (by decide))).step (.take rfl (by decide))
  have r23 := (r22.step (.act [_] [] true rfl rfl)).step (.act [] [] true rfl rfl)
  have hfinished : (0 ∈ [1,0] ∧ 1 ∈ [1,0] : Prop) := by decide
  exact ⟨_,r23,by decide,by decide,(wope_exactly_once r23 rfl).2.2.2.2.2.2 hfinished.1,
    (wope_exactly_once r23 rfl).2.2.2.2.2.2 hfinished.2⟩

end Server
end GDFileStore
