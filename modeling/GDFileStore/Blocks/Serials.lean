import GDFileStore.Blocks.Phases
import GDFileStore.Program.Pool

/-! The serials that the edits of writes are given. A serial is a reading of the clock, so two
edits are given one serial when the clock has not moved on between them, and the second then
replaces the data of the first. -/
namespace GDFileStore
open Sequences Program Prog

namespace FileStore
variable (fs : FileStore)

/-- The requests of a job, those of its journal calls among them. A send and the queue ask
nothing of the database, the files and the clock. -/
def requests {α : Type} : Job α → Task α
  | .done a => .done a
  | .call (.journal wopelog) rest => fs.doWOPE wopelog >>= fun _ => requests (rest ())
  | .call (.request r) rest => .call r (fun answer => requests (rest answer))
  | .call (.httpSend _) rest => requests (rest true)
  | .call (.addWope _) rest => requests (rest ())

/-- One execution of `do_wope` on a worker. -/
def phase (wopelog : WOpeLog) : Task Unit := fs.requests (fs.doWope wopelog)

/-- Between two edits, and for the copies, a phase only copies from the journal root to the disk
root; with a reading drawn it writes the file of that serial first. -/
def allowsData : Option Int64 → Request → Prop
  | none,.writeFile _ _ => False
  | none,.copy source directory =>
    ∃ s, source = fs.journalFile s ∧ directory = getParentStr (fs.diskFile s)
  | none,_ => True
  | some serial,.writeFile path _ => path = fs.journalFile serial
  | some _,_ => False

/-- The reading drawn for which no file is written yet. -/
def drawn : Option Int64 → (r : Request) → r.Resp → Option Int64
  | none,.now,serial => some serial
  | some _,.writeFile _ _,_ => none
  | v,_,_ => v

def dataProtocol : Protocol Request.Resp (Option Int64) := ⟨fs.allowsData,drawn⟩

/-- A program that ends between two edits. -/
abbrev KeepsData {α : Type} (p : Task α) : Prop := Follows fs.dataProtocol p none (fun _ v => v = none)

lemma keepsData_outOfRange {α : Type} : fs.KeepsData (outOfRange : Task α) :=
  ⟨trivial,fun e => e.elim⟩

/-- A new block: the reading, its file, and then the rest. -/
lemma keepsData_newBlock {α : Type} {data : Bytes} {rest : ReferedBlock → Task α}
    (h : ∀ rb, fs.KeepsData (rest rb)) :
    fs.KeepsData (fs.addNewReferedBlock data fs.getJournalRBRoot >>= rest) :=
  ⟨trivial,fun _ => ⟨rfl,fun _ => h _⟩⟩

lemma editLoop_keepsData (types : List OpeType) (blockNums : List Int32) (blockDatas : List Bytes)
    (l : List Int64) : fs.KeepsData (fs.editLoop types blockNums blockDatas l) := by
  induction blockNums generalizing types blockDatas l with
  | nil =>
    rw [editLoop]
    exact rfl
  | cons blockNum blockNums ih =>
    cases types with
    | nil => exact fs.keepsData_outOfRange
    | cons opetype types =>
      cases blockDatas with
      | nil => exact fs.keepsData_outOfRange
      | cons blockData blockDatas =>
        simp only [editLoop]
        split
        · exact fs.keepsData_outOfRange
        · cases opetype with
          | delete =>
            simp only
            split
            · exact ih _ _ _
            · exact fs.keepsData_outOfRange
          | insert => exact fs.keepsData_newBlock (fun _ => ⟨trivial,fun _ => ih _ _ _⟩)
          | overWrite =>
            apply fs.keepsData_newBlock
            intro rb
            split
            · exact ⟨trivial,fun _ => ih _ _ _⟩
            · exact fs.keepsData_outOfRange

lemma countLoop_keepsData (l : List Int64) : fs.KeepsData (countLoop l) := by
  induction l with
  | nil => exact rfl
  | cons rb l ih => exact ⟨trivial,fun _ => ⟨trivial,fun _ => ih⟩⟩

lemma doWOPE_keepsData (wopelog : WOpeLog) : fs.KeepsData (fs.doWOPE wopelog) := by
  simp only [doWOPE,ask_eq,call_bind,done_bind]
  refine ⟨trivial,fun orb => Follows.bind (fs.editLoop_keepsData _ _ _ _) ?_⟩
  rintro l _ rfl
  apply Follows.bind (fs.countLoop_keepsData l)
  rintro _ _ rfl
  exact ⟨trivial,fun _ => rfl⟩

lemma copyLoop_keepsData (rest : Unit → Job Unit) (h : fs.KeepsData (fs.requests (rest ())))
    (l : List Int64) : fs.KeepsData (fs.requests (fs.copyLoop l >>= rest)) := by
  induction l with
  | nil => exact h
  | cons rbs l ih =>
    refine ⟨trivial,fun rbAttr => ?_⟩
    change fs.KeepsData (fs.requests ((if rbAttr.1.referCount = 1 then _ else _) >>= rest))
    split
    · exact ⟨⟨rbAttr.1.serial,rfl,rfl⟩,fun _ => ih⟩
    · exact ih

/-- Every phase of a write keeps to the protocol, whatever its requests return. -/
theorem phase_keepsData (wopelog : WOpeLog) : fs.KeepsData (fs.phase wopelog) := by
  cases hstate : wopelog.wopeState with
  | init =>
    simp only [phase,doWope,hstate]
    apply Follows.bind (fs.doWOPE_keepsData wopelog)
    rintro _ _ rfl
    exact rfl
  | onJournal =>
    simp only [phase,doWope,hstate]
    exact ⟨trivial,fun _ => fs.copyLoop_keepsData (fun _ => Job.addWope _) rfl _⟩
  | onDisk =>
    simp only [phase,doWope,hstate]
    exact rfl
  | other =>
    simp only [phase,doWope,hstate]
    exact rfl

end FileStore

/-- Everything a run asked of the store, with the answers. -/
abbrev Log := List (Event Request.Resp)

namespace Log

/-- The serials given to the edits, in the order in which they were. -/
def serials (log : Log) : List Int64 :=
  log.filterMap fun
    | ⟨.now,serial⟩ => some serial
    | _ => none

/-- What the edits wrote, each under its path. -/
def written (log : Log) : List (Bytes × Bytes) :=
  log.filterMap fun
    | ⟨.writeFile path content,_⟩ => some (path,content)
    | _ => none

variable (log : Log)

@[simp] lemma serials_now (serial : Int64) :
    serials (log ++ [⟨.now,serial⟩]) = log.serials ++ [serial] := List.filterMap_append

@[simp] lemma written_writeFile (path content : Bytes) (done : Bool) :
    written (log ++ [⟨.writeFile path content,done⟩]) = log.written ++ [(path,content)] :=
  List.filterMap_append

lemma serials_other {e : Event Request.Resp} (h : e.1 ≠ .now) :
    serials (log ++ [e]) = log.serials := by
  obtain ⟨op,answer⟩ := e
  cases op with
  | now => exact absurd rfl h
  | _ => exact List.filterMap_append.trans (List.append_nil _)

lemma written_other {e : Event Request.Resp} (h : ∀ path content, e.1 ≠ .writeFile path content) :
    written (log ++ [e]) = log.written := by
  obtain ⟨op,answer⟩ := e
  cases op with
  | writeFile path content => exact absurd rfl (h path content)
  | _ => exact List.filterMap_append.trans (List.append_nil _)

end Log

/-- No two edits were given one serial; what each edit wrote is still in its file, and a file
under the disk root has the data of the one under the journal root. -/
structure OwnData (fs : FileStore) (w : World) (log : Log) : Prop where
  serials : log.serials.Nodup
  journal : ∀ b ∈ log.written, w.files b.1 = some b.2
  disk : ∀ s data, w.files (fs.diskFile s) = some data → w.files (fs.journalFile s) = some data

/-- The data while phases are under way: a reading for which no file is written yet belongs to
one phase only, and every file has the data that was written for its block. -/
structure DataInv (fs : FileStore) (vs : List (Option Int64)) (w : World) (log : Log) : Prop where
  drawn : ∀ t ∈ vs.reduceOption, t ∈ log.serials
  drawn_nodup : vs.reduceOption.Nodup
  named : ∀ b ∈ log.written, ∃ t ∈ log.serials, b.1 = fs.journalFile t ∧ t ∉ vs.reduceOption
  journal : ∀ b ∈ log.written, w.files b.1 = some b.2
  journal_written : ∀ s data, w.files (fs.journalFile s) = some data →
    (fs.journalFile s,data) ∈ log.written
  disk_written : ∀ s data, w.files (fs.diskFile s) = some data →
    (fs.journalFile s,data) ∈ log.written

namespace DataInv
variable {fs : FileStore} {vs others : List (Option Int64)} {w w' : World} {log : Log}
  {serial : Int64}

lemma perm {us : List (Option Int64)} (hp : us.Perm vs) (h : DataInv fs us w log) :
    DataInv fs vs w log := by
  have hdrawn : us.reduceOption.Perm vs.reduceOption := hp.filterMap id
  constructor
  · intro t ht
    exact h.drawn t (hdrawn.mem_iff.2 ht)
  · exact hdrawn.nodup_iff.1 h.drawn_nodup
  · intro b hb
    obtain ⟨t,ht,hpath,hother⟩ := h.named b hb
    exact ⟨t,ht,hpath,fun hm => hother (hdrawn.mem_iff.2 hm)⟩
  · exact h.journal
  · exact h.journal_written
  · exact h.disk_written

/-- A request that leaves the files alone, beside a clock reading. -/
lemma other (h : DataInv fs vs w log) {e : Event Request.Resp} (hnow : e.1 ≠ .now)
    (hwrite : ∀ path content, e.1 ≠ .writeFile path content) (hfiles : w'.files = w.files) :
    DataInv fs vs w' (log ++ [e]) := by
  obtain ⟨hdrawn,hnodup,hnamed,hjournal,hwritten,hdisk⟩ := h
  have hserials := Log.serials_other log hnow
  have hlog := Log.written_other log hwrite
  constructor
  · rwa [hserials]
  · exact hnodup
  · rwa [hserials,hlog]
  · rwa [hlog,hfiles]
  · rwa [hlog,hfiles]
  · rwa [hlog,hfiles]

/-- A reading that no edit was given yet. -/
lemma now (h : DataInv fs (none::others) w log) (hnew : serial ∉ log.serials)
    (hfiles : w'.files = w.files) :
    DataInv fs (some serial::others) w' (log ++ [⟨.now,serial⟩]) := by
  have hlog : Log.written (log ++ [⟨.now,serial⟩]) = log.written :=
    Log.written_other log (by simp)
  constructor
  · intro t ht
    rw [Log.serials_now]
    rcases List.mem_cons.1 ht with rfl | ht
    · exact List.mem_append_right _ (List.mem_singleton_self t)
    · exact List.mem_append_left _ (h.drawn t ht)
  · exact List.nodup_cons.2 ⟨fun hm => hnew (h.drawn serial hm),h.drawn_nodup⟩
  · intro b hb
    rw [hlog] at hb
    obtain ⟨t,ht,hpath,hother⟩ := h.named b hb
    refine ⟨t,?_,hpath,?_⟩
    · rw [Log.serials_now]
      exact List.mem_append_left _ ht
    · intro hm
      rcases List.mem_cons.1 hm with rfl | hm
      · exact hnew ht
      · exact hother hm
  · rw [hlog,hfiles]
    exact h.journal
  · rw [hlog,hfiles]
    exact h.journal_written
  · rw [hlog,hfiles]
    exact h.disk_written

/-- The file of the reading drawn: no edit has written it before. -/
lemma write [fs.hash.Separates] (h : DataInv fs (some serial::others) w log) (content : Bytes)
    (done : Bool) :
    DataInv fs (none::others)
      { w with files := Function.update w.files (fs.journalFile serial) (some content) }
      (log ++ [⟨.writeFile (fs.journalFile serial) content,done⟩]) := by
  obtain ⟨hserial,hnodup⟩ := List.nodup_cons.1 h.drawn_nodup
  have hserials : Log.serials (log ++ [⟨.writeFile (fs.journalFile serial) content,done⟩]) =
      log.serials := Log.serials_other log (by simp)
  constructor
  · rw [hserials]
    exact fun t ht => h.drawn t (List.mem_cons_of_mem _ ht)
  · exact hnodup
  · intro b hb
    rw [hserials]
    rw [Log.written_writeFile] at hb
    rcases List.mem_append.1 hb with hold | hnew
    · obtain ⟨t,ht,hpath,hother⟩ := h.named b hold
      exact ⟨t,ht,hpath,fun hm => hother (List.mem_cons_of_mem _ hm)⟩
    · obtain rfl := List.mem_singleton.1 hnew
      exact ⟨serial,h.drawn serial List.mem_cons_self,rfl,hserial⟩
  · intro b hb
    rw [Log.written_writeFile] at hb
    rcases List.mem_append.1 hb with hold | hnew
    · obtain ⟨t,-,hpath,hother⟩ := h.named b hold
      have hne : b.1 ≠ fs.journalFile serial := by
        rw [hpath]
        intro heq
        exact hother (fs.journalFile_inj.1 heq ▸ List.mem_cons_self)
      exact (Function.update_of_ne hne _ _).trans (h.journal b hold)
    · obtain rfl := List.mem_singleton.1 hnew
      exact Function.update_self _ _ _
  · intro s data hs
    dsimp only at hs
    rw [Log.written_writeFile]
    by_cases hss : s = serial
    · subst hss
      rw [Function.update_self] at hs
      cases hs
      exact List.mem_append_right _ (List.mem_singleton_self _)
    · have hne : fs.journalFile s ≠ fs.journalFile serial := fun heq => hss (fs.journalFile_inj.1 heq)
      rw [Function.update_of_ne hne] at hs
      exact List.mem_append_left _ (h.journal_written s data hs)
  · intro s data hs
    dsimp only at hs
    rw [Function.update_of_ne (fs.diskFile_ne_journalFile s serial)] at hs
    rw [Log.written_writeFile]
    exact List.mem_append_left _ (h.disk_written s data hs)

/-- The copy of a block takes what its journal file has. -/
lemma copyFile [fs.hash.Separates] (h : DataInv fs vs w log) (s : Int64) : DataInv fs vs
    (w.copyFile fs s) log := by
  have hjournal : ∀ t, (w.copyFile fs s).files (fs.journalFile t) = w.files (fs.journalFile t) := by
    intro t
    rw [World.copyFile_eq]
    exact Function.update_of_ne (fs.journalFile_ne_diskFile t s) _ _
  constructor
  · exact h.drawn
  · exact h.drawn_nodup
  · exact h.named
  · intro b hb
    obtain ⟨t,-,hpath,-⟩ := h.named b hb
    rw [hpath,hjournal,← hpath]
    exact h.journal b hb
  · intro t data ht
    exact h.journal_written t data (hjournal t ▸ ht)
  · intro t data ht
    rw [World.copyFile_eq] at ht
    dsimp only at ht
    by_cases hts : t = s
    · subst hts
      rw [Function.update_self,Option.or_eq_some_iff] at ht
      rcases ht with hfile | ⟨-,hold⟩
      · exact h.journal_written t data hfile
      · exact h.disk_written t data hold
    · rw [Function.update_of_ne (fun heq => hts (fs.diskFile_inj.1 heq))] at ht
      exact h.disk_written t data ht

lemma ownData (h : DataInv fs vs w log) (hserials : log.serials.Nodup) : OwnData fs w log where
  serials := hserials
  journal := h.journal
  disk := fun s data hs => h.journal _ (h.disk_written s data hs)

end DataInv

/-- The readings of the clock go to the edits in turn, and while none of them repeats the data is
as `DataInv` says. -/
structure SerialRun (fs : FileStore) (clock : List Int64) (vs : List (Option Int64))
    (s : World × Log) : Prop where
  taken : s.2.serials ++ s.1.clock = clock
  data : s.2.serials.Nodup → DataInv fs vs s.1 s.2

namespace SerialRun
variable {fs : FileStore} {clock : List Int64} {vs others : List (Option Int64)}
  {s s' : World × Log}

lemma perm {us : List (Option Int64)} (hp : us.Perm vs) (h : SerialRun fs clock us s) :
    SerialRun fs clock vs s := ⟨h.taken,fun hnodup => (h.data hnodup).perm hp⟩

/-- A request that leaves the files and the clock alone. -/
lemma other (h : SerialRun fs clock vs s) {e : Event Request.Resp} (hnow : e.1 ≠ .now)
    (hwrite : ∀ path content, e.1 ≠ .writeFile path content) (hfiles : s'.1.files = s.1.files)
    (hclock : s'.1.clock = s.1.clock) (hlog : s'.2 = s.2 ++ [e]) : SerialRun fs clock vs s' := by
  have hserials : s'.2.serials = s.2.serials := by
    rw [hlog]
    exact Log.serials_other s.2 hnow
  refine ⟨?_,fun hnodup => ?_⟩
  · rw [hserials,hclock]
    exact h.taken
  · rw [hlog]
    exact (h.data (hserials ▸ hnodup)).other hnow hwrite hfiles

end SerialRun

/-- One request of one phase, beside any others. -/
theorem SerialRun.step {fs : FileStore} [fs.hash.Separates] {clock : List Int64}
    {may : Task Unit → List (Task Unit) → Prop} {others : Seen Request.Resp Unit (Option Int64)}
    {v : Option Int64} {op : Request} {s s' : World × Log} {r : op.Resp}
    (hstep : SeenStep fs.dataProtocol (recorded Request.handle) may (fun _ v => v = none) others v
      op s s' r) (h : SerialRun fs clock (v::others.views) s) :
    SerialRun fs clock (fs.dataProtocol.next v op r::others.views) s' := by
  obtain ⟨w,log⟩ := s
  obtain ⟨w',log'⟩ := s'
  obtain ⟨hop,hlog⟩ := recorded_eq_some hstep.outcome
  have hallowed := hstep.allowed
  dsimp only at hop hlog
  subst hlog
  cases v with
  | none =>
    cases op with
    | now =>
      cases hclock : w.clock with
      | nil => simp [Request.handle,hclock] at hop
      | cons t rest =>
        simp only [Request.handle,hclock,Option.some.injEq,Prod.mk.injEq] at hop
        obtain ⟨rfl,rfl⟩ := hop
        have htaken : log.serials ++ t::rest = clock := hclock ▸ h.taken
        refine ⟨?_,fun hnodup => ?_⟩
        · rw [Log.serials_now,List.append_assoc]
          exact htaken
        · rw [Log.serials_now] at hnodup
          obtain ⟨hold,-,hnew⟩ := List.nodup_append.1 hnodup
          exact (h.data hold).now (fun hm => hnew t hm t (List.mem_singleton_self t) rfl) rfl
    | writeFile path content => exact hallowed.elim
    | copy source directory =>
      obtain ⟨t,rfl,rfl⟩ := hallowed
      rw [World.handle_copy] at hop
      cases hop
      have hcopied : SerialRun fs clock (none::others.views) (w.copyFile fs t,log) := by
        refine ⟨?_,fun hnodup => (h.data hnodup).copyFile t⟩
        rw [World.copyFile_eq]
        exact h.taken
      exact hcopied.other (by simp) (by simp) rfl rfl rfl
    | outOfRange => cases hop
    | _ =>
      cases hop
      exact h.other (by simp) (by simp) rfl rfl rfl
  | some serial =>
    cases op with
    | writeFile path content =>
      obtain rfl : path = fs.journalFile serial := hallowed
      cases hop
      have hserials : Log.serials (log ++ [⟨.writeFile (fs.journalFile serial) content,true⟩]) =
          log.serials := Log.serials_other log (by simp)
      refine ⟨?_,fun hnodup => ?_⟩
      · dsimp only
        rw [hserials]
        exact h.taken
      · dsimp only at hnodup
        rw [hserials] at hnodup
        exact (h.data hnodup).write content true
    | _ => exact hallowed.elim

lemma SerialRun.fresh (fs : FileStore) (clock : List Int64) {vs : List (Option Int64)}
    (hvs : ∀ v ∈ vs, v = none) : SerialRun fs clock vs (World.fresh clock,[]) := by
  have hnone : vs.reduceOption = [] := List.filterMap_eq_nil_iff.2 hvs
  refine ⟨rfl,fun _ => ?_⟩
  constructor
  · simp [hnone]
  · simp [hnone]
  · exact fun b hb => absurd hb List.not_mem_nil
  · exact fun b hb => absurd hb List.not_mem_nil
  · exact fun s data hs => absurd hs (by simp [World.fresh])
  · exact fun s data hs => absurd hs (by simp [World.fresh])

lemma run_serialRun (fs : FileStore) [fs.hash.Separates] {clock : List Int64}
    {wopelogs : List WOpeLog}
    {ps : List (Task Unit)} {w : World} {log : Log}
    (hrun : PoolRun (recorded Request.handle) (fun _ _ => True) (wopelogs.map fs.phase)
      (World.fresh clock,[]) ps (w,log)) : ∃ vs, SerialRun fs clock vs (w,log) := by
  let ts₀ : Seen Request.Resp Unit (Option Int64) :=
    wopelogs.map (fun wopelog => (fs.phase wopelog,none))
  have hprograms : ts₀.programs = wopelogs.map fs.phase := by simp [ts₀,Seen.programs]
  have hfollow : ∀ t ∈ ts₀, Follows fs.dataProtocol t.1 t.2 (fun _ v => v = none) := by
    intro t ht
    obtain ⟨wopelog,_,rfl⟩ := List.mem_map.1 ht
    exact fs.phase_keepsData wopelog
  have hstart : SerialRun fs clock ts₀.views (World.fresh clock,[]) := by
    apply SerialRun.fresh
    intro v hv
    obtain ⟨t,ht,rfl⟩ := List.mem_map.1 hv
    obtain ⟨wopelog,_,rfl⟩ := List.mem_map.1 ht
    rfl
  rw [← hprograms] at hrun
  obtain ⟨ts,_,_,hinv⟩ := PoolRun.invariant (SerialRun fs clock) SerialRun.perm SerialRun.step
    hfollow hstart hrun
  exact ⟨_,hinv⟩

lemma pairwise_lt_iff {l : List Int64} (h : l.Pairwise (· ≤ ·)) : l.Pairwise (· < ·) ↔ l.Nodup := by
  simp only [Int64.lt_iff_le_and_ne,List.pairwise_and_iff,h,true_and]
  rfl

/-- In every state of every run of phases on any number of workers, the edits have serials and
data of their own exactly when the readings drawn so far increase strictly. -/
theorem ownData_iff (fs : FileStore) [fs.hash.Separates] {clock drawn : List Int64}
    {wopelogs : List WOpeLog}
    {ps : List (Task Unit)} {w : World} {log : Log} (hclock : clock.Pairwise (· ≤ ·))
    (hrun : PoolRun (recorded Request.handle) (fun _ _ => True) (wopelogs.map fs.phase)
      (World.fresh clock,[]) ps (w,log)) (hdrawn : clock = drawn ++ w.clock) :
    OwnData fs w log ↔ drawn.Pairwise (· < ·) := by
  obtain ⟨vs,hinv⟩ := run_serialRun fs hrun
  have hserials : log.serials = drawn := List.append_cancel_right (hinv.taken.trans hdrawn)
  have hsorted : drawn.Pairwise (· ≤ ·) := (List.pairwise_append.1 (hdrawn ▸ hclock)).1
  rw [pairwise_lt_iff hsorted,← hserials]
  exact ⟨fun h => h.serials,fun hnodup => (hinv.data hnodup).ownData hnodup⟩

/-- A write that puts `data` into a version of its own. -/
def newVersion (n : ℕ) (data : Bytes) : WOpeLog :=
  ⟨[],⟨generation n,generation n,[.insert],[0],[data]⟩,{},.init⟩

/-- Two writes, one after the other. -/
def oneAfterTheOther (clock : List Int64) : Option (List (Task Unit) × World × Log) :=
  schedule (recorded Request.handle) (fun _ _ => True) ([0,0,0,0,0,0,0] ++ [1,1,1,1,1,1,1])
    ([newVersion 0 (lit "x"),newVersion 1 (lit "y")].map sampleStore.phase) (World.fresh clock,[])

lemma run_oneAfterTheOther {clock : List Int64} {ps : List (Task Unit)} {s : World × Log}
    (h : oneAfterTheOther clock = some (ps,s)) :
    PoolRun (recorded Request.handle) (fun _ _ => True)
      ([newVersion 0 (lit "x"),newVersion 1 (lit "y")].map sampleStore.phase)
      (World.fresh clock,[]) ps s := PoolRun.start.of_schedule h

/-- The clock moves on between the two. -/
theorem ownData_iff_moved : ∃ w log, log.serials = [7,8] ∧ OwnData sampleStore w log := by
  have heval : (oneAfterTheOther [7,8]).any (fun r =>
      decide (r.2.2.serials = [7,8] ∧ [7,8] = [7,8] ++ r.2.1.clock)) = true := by decide +kernel
  obtain ⟨⟨ps,w,log⟩,hr,hend⟩ := (Option.any_eq_true _ _).1 heval
  obtain ⟨hserials,hclock⟩ := of_decide_eq_true hend
  have hiff := ownData_iff sampleStore (by decide) (run_oneAfterTheOther hr) hclock
  exact ⟨w,log,hserials,hiff.2 (by decide)⟩

/-- The clock has not moved on between the two: both blocks get one serial, and the version of
the first write has the data of the second. -/
theorem serial_given_twice : ∃ (wopelogs : List WOpeLog) (ps : List (Task Unit)) (w : World)
    (log : Log), ([7,7] : List Int64).Pairwise (· ≤ ·) ∧
    PoolRun (recorded Request.handle) (fun _ _ => True) (wopelogs.map sampleStore.phase)
      (World.fresh [7,7],[]) ps (w,log) ∧
    log.serials = [7,7] ∧ w.serials (generation 0).key = [7] ∧
    (sampleStore.journalFile 7,lit "x") ∈ log.written ∧
    w.files (sampleStore.journalFile 7) = some (lit "y") := by
  have heval : (oneAfterTheOther [7,7]).any (fun r =>
      decide (r.2.2.serials = [7,7] ∧ r.2.1.serials (generation 0).key = [7] ∧
        (sampleStore.journalFile 7,lit "x") ∈ r.2.2.written ∧
        r.2.1.files (sampleStore.journalFile 7) = some (lit "y"))) = true := by decide +kernel
  obtain ⟨⟨ps,w,log⟩,hr,hend⟩ := (Option.any_eq_true _ _).1 heval
  exact ⟨_,ps,w,log,by decide,run_oneAfterTheOther hr,of_decide_eq_true hend⟩

end GDFileStore
