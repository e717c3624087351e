import GDFileStore.Blocks.OnRecords

/-! Reads give back what was written, on the records of a `RocksKV`: each write runs through its
three phases on them before the next begins. -/
namespace GDFileStore
open Sequences Program Prog

/-- A store on records, with its queue of writes and the replies it has sent. -/
structure RecordNode where
  records : RecordWorld
  wopeLogs : List WOpeLog := []
  sent : List Reply := []

/-- The outcome of a call on records when every file operation and every send succeeds. -/
def Call.Stores (headers : TypeHeaders) (fs : FileStore) :
    (c : Call) → RecordNode → c.Resp → RecordNode → Prop
  | .journal wopelog,m,_,m' => ∃ raw, Makes (Request.Stores headers) (fs.doWOPE wopelog) m.records
      (.done ()) raw ∧ m' = { m with records := raw }
  | .request r,m,answer,m' =>
    ∃ raw, r.Stores headers m.records answer raw ∧ m' = { m with records := raw }
  | .httpSend reply,m,ok,m' => ok = true ∧ m' = { m with sent := m.sent ++ [reply] }
  | .addWope wopelog,m,_,m' => m' = { m with wopeLogs := m.wopeLogs ++ [wopelog] }

/-- The records hold the attributes, and the queue and the replies are the same. -/
structure NodeRecorded (headers : TypeHeaders) (n : Node) (m : RecordNode) : Prop where
  world : Recorded headers n.world m.records
  wopeLogs : m.wopeLogs = n.wopeLogs
  sent : m.sent = n.sent

/-- The requests of the call are within the sizes. -/
def Call.Sized : Call → Node → Prop
  | .journal wopelog,n => wopelog.wope.Small (n.world.newList wopelog.wope)
  | .request r,_ => r.Sized
  | _,_ => True

section Embed
variable {headers : TypeHeaders} {fs : FileStore} {n n' : Node} {m m' : RecordNode} {α : Type}
  {p : Job α} {a : α}

theorem calls_embed : Embeds (Call.Stores headers fs)
    (fun c n answer n' => Call.handle fs c n = some (answer,n'))
    (fun m n => NodeRecorded headers n m) := by
  intro c m m' n answer h hop
  obtain ⟨hworld,hlogs,hsent⟩ := h
  cases c with
  | journal wopelog =>
    obtain ⟨raw,hmade,rfl⟩ := hop
    obtain ⟨w,hw,hrecorded⟩ := hmade.embed stores_embeds hworld
    refine ⟨{ n with world := w },?_,hrecorded,hlogs,hsent⟩
    change (run Request.handle (fs.doWOPE wopelog) n.world).map _ = _
    rw [hw.steps.run]
    rfl
  | request r =>
    obtain ⟨raw,hstores,rfl⟩ := hop
    obtain ⟨w,hw,hrecorded⟩ := stores_embeds hworld hstores
    rw [Request.Gives] at hw
    refine ⟨{ n with world := w },?_,hrecorded,hlogs,hsent⟩
    change (r.handle n.world).map _ = _
    rw [hw]
    rfl
  | httpSend reply =>
    obtain ⟨rfl,rfl⟩ := hop
    exact ⟨_,rfl,hworld,hlogs,by rw [hsent]⟩
  | addWope wopelog =>
    obtain rfl : m' = _ := hop
    exact ⟨_,rfl,hworld,by rw [hlogs],hsent⟩

theorem handle_embeds : Embeds
    (fun (c : Call) n answer n' => c.Sized n ∧ Call.handle fs c n = some (answer,n'))
    (Call.Stores headers fs) (NodeRecorded headers) := by
  rintro c n n' m answer ⟨hworld,hlogs,hsent⟩ ⟨hsized,hop⟩
  cases c with
  | journal wopelog =>
    obtain ⟨⟨_,w⟩,hrun,heq⟩ := Option.map_eq_some_iff.1 hop
    obtain ⟨-,rfl⟩ := Prod.mk.inj heq
    obtain ⟨raw,hmade,hrecorded⟩ := fs.doWOPE_on_records hworld hsized (steps_of_run hrun)
    exact ⟨_,⟨raw,hmade,rfl⟩,hrecorded,hlogs,hsent⟩
  | request r =>
    obtain ⟨⟨_,w⟩,hrun,heq⟩ := Option.map_eq_some_iff.1 hop
    obtain ⟨rfl,rfl⟩ := Prod.mk.inj heq
    obtain ⟨raw,hstores,hrecorded⟩ := gives_embeds hworld ⟨hsized,hrun⟩
    exact ⟨_,⟨raw,hstores,rfl⟩,hrecorded,hlogs,hsent⟩
  | httpSend reply =>
    obtain ⟨rfl,rfl⟩ := Prod.mk.inj (Option.some.inj hop)
    exact ⟨_,⟨rfl,rfl⟩,hworld,hlogs,by rw [hsent]⟩
  | addWope wopelog =>
    obtain ⟨-,rfl⟩ := Prod.mk.inj (Option.some.inj hop)
    exact ⟨_,rfl,hworld,by rw [hlogs],hsent⟩

/-- A run on records is the one on the attributes that they hold. -/
lemma NodeRecorded.run_of_makes (h : NodeRecorded headers n m)
    (hmade : Makes (Call.Stores headers fs) p m (.done a) m') :
    ∃ n', run (Call.handle fs) p n = some (a,n') ∧ NodeRecorded headers n' m' := by
  obtain ⟨n',hn',hrecorded⟩ := hmade.embed calls_embed h
  exact ⟨n',hn'.steps.run,hrecorded⟩

/-- A run within the sizes is one on records. -/
lemma NodeRecorded.makes_of_run (h : NodeRecorded headers n m)
    (hrun : run (Call.handle fs) p n = some (a,n'))
    (hsized : Requests (Call.handle fs) Call.Sized p n) :
    ∃ m', Makes (Call.Stores headers fs) p m (.done a) m' ∧ NodeRecorded headers n' m' :=
  (Makes.of_steps (steps_of_run hrun) hsized).embed handle_embeds h

end Embed

namespace FileStore
variable (fs : FileStore)

lemma copyLoop_sized (l : List Int64) (n : Node) :
    Requests (Call.handle fs) Call.Sized (fs.copyLoop l) n := by
  induction l generalizing n with
  | nil => trivial
  | cons s l ih =>
    simp only [copyLoop,ask_eq,call_bind,done_bind]
    refine ⟨trivial,fun answer n' _ => ?_⟩
    beta_reduce
    split
    · exact ⟨trivial,fun _ _ _ => ih _⟩
    · exact ih _

lemma doWope_sized {wopelog : WOpeLog} {n : Node} (hnew : wopelog.wope.newGhobj.Sized)
    (hinit : wopelog.wopeState = .init → wopelog.wope.Small (n.world.newList wopelog.wope)) :
    Requests (Call.handle fs) Call.Sized (fs.doWope wopelog) n := by
  cases hstate : wopelog.wopeState with
  | init =>
    simp only [doWope,hstate,ask_eq,call_bind,done_bind]
    exact ⟨hinit hstate,fun _ _ _ => ⟨trivial,fun _ _ _ => ⟨trivial,fun _ _ _ => trivial⟩⟩⟩
  | onJournal =>
    simp only [doWope,hstate,ask_eq,call_bind,done_bind]
    refine ⟨hnew,fun answer n' _ => Requests.bind_iff.2 ⟨fs.copyLoop_sized _ _,fun _ _ _ => ?_⟩⟩
    exact ⟨trivial,fun _ _ _ => trivial⟩
  | onDisk =>
    simp only [doWope,hstate,ask_eq,call_bind,done_bind]
    exact ⟨trivial,fun _ _ _ => trivial⟩
  | other =>
    simp only [doWope,hstate]
    trivial

lemma readBlocks_sized (serials : List Int64) (blocks : List Int32) (n : Node) :
    Requests (Call.handle fs) Call.Sized (fs.readBlocks serials blocks) n := by
  induction blocks generalizing n with
  | nil => trivial
  | cons block blocks ih =>
    rw [readBlocks]
    split
    · exact ⟨trivial,fun e => e.elim⟩
    · split
      · simp only [ask_eq,call_bind,done_bind]
        exact ⟨trivial,fun _ _ _ => Requests.bind_iff.2 ⟨ih _,fun _ _ _ => trivial⟩⟩
      · exact ⟨trivial,fun e => e.elim⟩

lemma doRope_sized {ropelog : ROpeLog} (h : ropelog.rope.ghobj.Sized) (n : Node) :
    Requests (Call.handle fs) Call.Sized (fs.doRope ropelog) n := by
  simp only [doRope,ask_eq,call_bind,done_bind]
  refine ⟨h,fun answer n' _ => Requests.bind_iff.2 ⟨fs.readBlocks_sized _ _ _,fun _ _ _ => ?_⟩⟩
  exact ⟨trivial,fun _ _ _ => trivial⟩

end FileStore

namespace RecordNode

/-- The server accepts a write. -/
def accept (m : RecordNode) (wopelog : WOpeLog) : RecordNode :=
  { m with wopeLogs := m.wopeLogs ++ [{ wopelog with wopeState := .init }] }

/-- A worker takes the first queued write and runs its next phase. -/
def Phase (headers : TypeHeaders) (fs : FileStore) (m m' : RecordNode) : Prop :=
  ∃ wopelog wopeLogs, m.wopeLogs = wopelog::wopeLogs ∧ Makes (Call.Stores headers fs)
    (fs.doWope wopelog) { m with wopeLogs := wopeLogs } (.done ()) m'

/-- Writes accepted one after another, each run through its three phases. -/
def ServesAll (headers : TypeHeaders) (fs : FileStore) :
    RecordNode → List WOpeLog → RecordNode → Prop
  | m,[],m' => m' = m
  | m,wopelog::wopelogs,m' => ∃ m₁ m₂ m₃, Phase headers fs (m.accept wopelog) m₁ ∧
      Phase headers fs m₁ m₂ ∧ Phase headers fs m₂ m₃ ∧ ServesAll headers fs m₃ wopelogs m'

end RecordNode

namespace NodeRecorded
variable {headers : TypeHeaders} {fs : FileStore} {n n' : Node} {m m' : RecordNode}

lemma accept (h : NodeRecorded headers n m) (wopelog : WOpeLog) :
    NodeRecorded headers (n.accept wopelog) (m.accept wopelog) :=
  ⟨h.world,by rw [RecordNode.accept,Node.accept,h.wopeLogs],h.sent⟩

lemma phase (h : NodeRecorded headers n m) (hphase : RecordNode.Phase headers fs m m') :
    ∃ n', n.phase fs = some n' ∧ NodeRecorded headers n' m' := by
  obtain ⟨wopelog,wopeLogs,hlogs,hmade⟩ := hphase
  have htaken : NodeRecorded headers { n with wopeLogs := wopeLogs }
      { m with wopeLogs := wopeLogs } := ⟨h.world,rfl,h.sent⟩
  obtain ⟨n',hrun,hrecorded⟩ := htaken.run_of_makes hmade
  refine ⟨n',?_,hrecorded⟩
  rw [Node.phase,← h.wopeLogs,hlogs]
  exact congrArg (Option.map Prod.snd) hrun

/-- The phases that writes go through on records are those on the attributes. -/
theorem servesAll {wopelogs : List WOpeLog} (h : NodeRecorded headers n m)
    (hserve : RecordNode.ServesAll headers fs m wopelogs m') :
    ∃ n', n.serveAll fs wopelogs = some n' ∧ NodeRecorded headers n' m' := by
  induction wopelogs generalizing n m with
  | nil =>
    obtain rfl := hserve
    exact ⟨n,rfl,h⟩
  | cons wopelog wopelogs ih =>
    obtain ⟨m₁,m₂,m₃,h₁,h₂,h₃,hrest⟩ := hserve
    obtain ⟨n₁,hn₁,hr₁⟩ := (h.accept wopelog).phase h₁
    obtain ⟨n₂,hn₂,hr₂⟩ := hr₁.phase h₂
    obtain ⟨n₃,hn₃,hr₃⟩ := hr₂.phase h₃
    obtain ⟨n',hn',hrecorded⟩ := ih hr₃ hrest
    refine ⟨n',?_,hrecorded⟩
    rw [Node.serveAll,Node.serve,hn₁,Option.bind_some,hn₂,Option.bind_some,hn₃,Option.bind_some]
    exact hn'

/-- A phase within the sizes runs on records. -/
lemma exists_phase {wopelog : WOpeLog} {wopeLogs : List WOpeLog} (h : NodeRecorded headers n m)
    (hlogs : n.wopeLogs = wopelog::wopeLogs)
    (hrun : run (Call.handle fs) (fs.doWope wopelog) { n with wopeLogs := wopeLogs } =
      some ((),n')) (hnew : wopelog.wope.newGhobj.Sized)
    (hinit : wopelog.wopeState = .init → wopelog.wope.Small (n.world.newList wopelog.wope)) :
    ∃ m', RecordNode.Phase headers fs m m' ∧ NodeRecorded headers n' m' := by
  have htaken : NodeRecorded headers { n with wopeLogs := wopeLogs }
      { m with wopeLogs := wopeLogs } := ⟨h.world,rfl,h.sent⟩
  obtain ⟨m',hmade,hrecorded⟩ := htaken.makes_of_run hrun (fs.doWope_sized hnew hinit)
  exact ⟨m',⟨wopelog,wopeLogs,h.wopeLogs.trans hlogs,hmade⟩,hrecorded⟩

/-- The three phases of one write whose names and list are small. -/
lemma exists_phases {wopelog : WOpeLog} (h : NodeRecorded headers n m) (hqueue : n.wopeLogs = [])
    (htidy : n.world.Tidy) (hrange : n.world.Admits wopelog.wope)
    (henough : n.world.Enough wopelog.wope)
    (hsmall : wopelog.wope.Small (n.world.newList wopelog.wope)) :
    ∃ sent m₁ m₂ m₃, RecordNode.Phase headers fs (m.accept wopelog) m₁ ∧
      RecordNode.Phase headers fs m₁ m₂ ∧ RecordNode.Phase headers fs m₂ m₃ ∧
      NodeRecorded headers ⟨n.world.settled fs wopelog.wope,[],sent⟩ m₃ := by
  obtain ⟨w,logs,sent⟩ := n
  subst hqueue
  have hinit := fs.run_doWope_init { wopelog with wopeState := .init } ⟨w,[],sent⟩ rfl hrange henough
  obtain ⟨m₁,hphase₁,h₁⟩ := (h.accept wopelog).exists_phase rfl hinit hsmall.new (fun _ => hsmall)
  have hjournal := fs.run_doWope_onJournal { wopelog with wopeState := .onJournal }
    ⟨w.afterWOPE fs wopelog.wope,[],
      sent ++ [.repWrite { wopelog with wopeState := .init } .primaryJournalWrite]⟩
    (htidy.afterWOPE fs henough) rfl
  obtain ⟨m₂,hphase₂,h₂⟩ := h₁.exists_phase rfl hjournal hsmall.new (fun hno => by cases hno)
  obtain ⟨m₃,hphase₃,h₃⟩ := h₂.exists_phase rfl (fs.run_doWope_onDisk _ _ rfl) hsmall.new
    (fun hno => by cases hno)
  have hlist : (w.afterWOPE fs wopelog.wope).serials wopelog.wope.newGhobj.key =
      w.newList wopelog.wope := by rw [World.afterWOPE_serials,if_pos rfl]
  rw [hlist] at h₃
  exact ⟨_,m₁,m₂,m₃,hphase₁,hphase₂,hphase₃,h₃⟩

end NodeRecorded

/-- The strings of the keys are shorter than `2^31`, and each list that a write makes has fewer than
`2^28` blocks. -/
def Versions.Short : Versions → List WOpeLog → Prop
  | _,[] => True
  | v,wopelog::wopelogs => wopelog.wope.ghobj.Sized ∧ wopelog.wope.newGhobj.Sized ∧
    (applyEdits wopelog.wope.edits (v.blocks wopelog.wope.ghobj.key)).length < 2^28 ∧
      Short (v.write wopelog.wope) wopelogs

section ReadBack
variable {headers : TypeHeaders} {fs : FileStore} {n : Node} {m : RecordNode} {v : Versions}

lemma exists_servesAll [fs.hash.Separates] {wopelogs : List WOpeLog}
    (hrecorded : NodeRecorded headers n m) (hqueue : n.wopeLogs = []) (h : Shows fs n.world v)
    (hadm : v.Admissible wopelogs) (hshort : v.Short wopelogs)
    (hclock : newBlocks wopelogs ≤ n.world.clock.length) :
    ∃ m', RecordNode.ServesAll headers fs m wopelogs m' := by
  induction wopelogs generalizing n m v with
  | nil => exact ⟨m,rfl⟩
  | cons wopelog wopelogs ih =>
    obtain ⟨hrange,hrest⟩ := hadm
    obtain ⟨hbase,hnew,hlist,hshort⟩ := hshort
    rw [newBlocks,List.map_cons,List.sum_cons] at hclock
    have henough : n.world.Enough wopelog.wope := by
      rw [World.Enough]
      omega
    have hlen := congrArg List.length (h.serials wopelog.wope.ghobj.key)
    rw [List.length_map,List.length_map] at hlen
    rw [← hlen] at hrange
    have hlength := congrArg List.length (h.newList_journal henough)
    rw [List.length_map,List.length_map] at hlength
    obtain ⟨sent,m₁,m₂,m₃,h₁,h₂,h₃,hsettled⟩ := hrecorded.exists_phases hqueue h.tidy
      hrange henough ⟨hbase,hnew,hlength ▸ hlist⟩
    have hnews : (n.world.news wopelog.wope).length = (values wopelog.wope.edits).length := by
      rw [World.news,List.length_zip,Nat.min_eq_right henough]
    obtain ⟨m',hm'⟩ := ih hsettled rfl (h.settled henough) hrest hshort (by
      simp only [World.settled,World.copyAll_clock,World.afterWOPE_clock,List.length_drop,hnews,
        newBlocks]
      omega)
    exact ⟨m',m₁,m₂,m₃,h₁,h₂,h₃,hm'⟩

/-- On records, every sequence of writes from an empty store, each through its three phases before
the next begins, runs as long as its names and lists are small; and a read of a version returns,
index by index, the blocks that the list edits of its last write left. -/
theorem doRope_reads_back_on_records (headers : TypeHeaders) (fs : FileStore) [fs.hash.Separates]
    {clock : List Int64} {wopelogs : List WOpeLog} (hclock : clock.Nodup)
    (hadm : Versions.Admissible (fun _ => none) wopelogs)
    (hshort : Versions.Short (fun _ => none) wopelogs) (henough : newBlocks wopelogs ≤ clock.length) :
    (∃ m, RecordNode.ServesAll headers fs { records := { clock := clock } } wopelogs m) ∧
    ∀ m, RecordNode.ServesAll headers fs { records := { clock := clock } } wopelogs m →
      ∀ (ropelog : ROpeLog) (contents : List Bytes), ropelog.rope.ghobj.Sized →
        Versions.writes (fun _ => none) wopelogs ropelog.rope.ghobj.key = some contents →
        (∀ b ∈ ropelog.rope.blocks, 0 ≤ b.toInt ∧ b.toInt < contents.length) →
        (∃ m', Makes (Call.Stores headers fs) (fs.doRope ropelog) m (.done ()) m') ∧
        ∀ m', Makes (Call.Stores headers fs) (fs.doRope ropelog) m (.done ()) m' →
          m'.sent = m.sent ++ [.repRead ropelog ⟨ropelog.opeId,ropelog.rope.ghobj,
            ropelog.rope.blocks,ropelog.rope.blocks.map (fun b => contents.getD b.toInt.toNat [])⟩] := by
  have hstart : NodeRecorded headers { world := World.fresh clock } { records := { clock := clock } } :=
    ⟨Recorded.start headers clock,rfl,rfl⟩
  refine ⟨exists_servesAll hstart rfl (shows_fresh fs hclock) hadm hshort henough,?_⟩
  intro m hserve ropelog contents hsized hcontents hblocks
  obtain ⟨n,hn,hrecorded⟩ := hstart.servesAll hserve
  obtain ⟨n',hn',-,hreads⟩ := serveAll_reads fs hclock hadm henough
  obtain rfl := Option.some.inj (hn'.symm.trans hn)
  have hrun := hreads ropelog contents hcontents hblocks
  constructor
  · obtain ⟨m',hmade,-⟩ := hrecorded.makes_of_run hrun (fs.doRope_sized hsized n')
    exact ⟨m',hmade⟩
  · intro m' hmade
    obtain ⟨u,hu,hrecorded'⟩ := hrecorded.run_of_makes hmade
    obtain ⟨-,rfl⟩ := Prod.mk.inj (Option.some.inj (hu.symm.trans hrun))
    rw [hrecorded'.sent,hrecorded.sent]

end ReadBack
end GDFileStore
