import GDFileStore.Blocks.Phases

/-! Reads give back what was written. The store is compared with a table of plain block lists:
each write runs through its three phases before the next begins, and a read of any version
returns the blocks that the list edits of its last write left. -/
namespace GDFileStore
open Sequences Program Prog

/-- The purpose of the store: every version has its blocks. -/
abbrev Versions := GHKey → Option (List Bytes)

namespace Versions

/-- The blocks of a version, none for one that was never written. -/
def blocks (v : Versions) (key : GHKey) : List Bytes := (v key).getD []

/-- The plain meaning of a write: its list edits on the base version's blocks. -/
def write (v : Versions) (wope : WOPE) : Versions :=
  Function.update v wope.newGhobj.key (some (applyEdits wope.edits (v.blocks wope.ghobj.key)))

def writes (v : Versions) (wopelogs : List WOpeLog) : Versions :=
  wopelogs.foldl (fun v wopelog => v.write wopelog.wope) v

/-- Every write is in range of its base version's blocks when it comes. -/
def Admissible : Versions → List WOpeLog → Prop
  | _,[] => True
  | v,wopelog::wopelogs => wopelog.wope.InRange (v.blocks wopelog.wope.ghobj.key).length ∧
    Admissible (v.write wopelog.wope) wopelogs

end Versions

namespace Node

/-- The server accepts a write. -/
def accept (n : Node) (wopelog : WOpeLog) : Node :=
  { n with wopeLogs := n.wopeLogs ++ [{ wopelog with wopeState := .init }] }

/-- A worker takes the first queued write and runs its next phase. -/
def phase (fs : FileStore) (n : Node) : Option Node :=
  match n.wopeLogs with
  | [] => none
  | wopelog::wopeLogs =>
    (run (Call.handle fs) (fs.doWope wopelog) { n with wopeLogs := wopeLogs }).map Prod.snd

/-- A write accepted and run through its three phases. -/
def serve (fs : FileStore) (n : Node) (wopelog : WOpeLog) : Option Node :=
  ((n.accept wopelog).phase fs).bind (fun n => (n.phase fs).bind (phase fs))

def serveAll (fs : FileStore) : Node → List WOpeLog → Option Node
  | n,[] => some n
  | n,wopelog::wopelogs => (n.serve fs wopelog).bind (fun n => serveAll fs n wopelogs)

end Node

/-- A list of blocks, through the files it is read from. -/
lemma World.map_serials {w : World} {v : Versions} {key : GHKey} {file : Int64 → Option Bytes}
    (h : (w.objs.lookup key).map (fun orb => orb.serialsList.map file) =
      (v key).map (List.map some)) : (w.serials key).map file = (v.blocks key).map some := by
  rw [World.serials,Versions.blocks]
  cases hl : w.objs.lookup key <;> cases hv : v key <;> simp_all

lemma World.Tidy.afterWOPE_journalFile {w : World} (h : w.Tidy) (fs : FileStore)
    [fs.hash.Separates] (wope : WOPE) {s : Int64} (hs : w.Listed s) :
    (w.afterWOPE fs wope).files (fs.journalFile s) = w.files (fs.journalFile s) := by
  rw [World.afterWOPE_files]
  exact World.addBlocks_journalFile_of_notMem fs w _ (fun hm => h.news_unlisted wope hm hs)

/-- The new list, read through the journal, has the write's edits. -/
theorem World.Tidy.newList_journal {w : World} (h : w.Tidy) (fs : FileStore)
    [fs.hash.Separates] {wope : WOPE} (henough : w.Enough wope) {contents : List Bytes}
    (hbase : (w.serials wope.ghobj.key).map (fun s => w.files (fs.journalFile s)) =
      contents.map some) :
    (w.newList wope).map (fun s => (w.afterWOPE fs wope).files (fs.journalFile s)) =
      (applyEdits wope.edits contents).map some := by
  have hnew : ∀ b ∈ w.clock.zip (values wope.edits),
      (w.afterWOPE fs wope).files (fs.journalFile b.1) = some b.2 := by
    intro b hb
    rw [World.afterWOPE_files]
    exact World.addBlocks_journalFile_of_mem fs w _ (h.news_nodup wope) hb
  have hkept : (w.serials wope.ghobj.key).map
      (fun s => (w.afterWOPE fs wope).files (fs.journalFile s)) = contents.map some := by
    rw [← hbase]
    apply List.map_congr_left
    intro s hs
    exact h.afterWOPE_journalFile fs wope ⟨_,hs⟩
  rw [World.newList,map_applyEdits_nameEdits henough hnew,hkept,map_applyEdits]

/-- The world a whole write leaves, once its new blocks are copied. -/
def World.settled (fs : FileStore) (w : World) (wope : WOPE) : World :=
  (w.afterWOPE fs wope).copyAll fs (w.newList wope)

/-- The world keeps the versions `v`: every listed block is under both roots, and the disk files
along each list are the blocks of the version. -/
structure Shows (fs : FileStore) (w : World) (v : Versions) : Prop where
  tidy : w.Tidy
  journal : ∀ s, w.Listed s → w.files (fs.journalFile s) = w.files (fs.diskFile s)
  lists : ∀ key, (w.objs.lookup key).map
    (fun orb => orb.serialsList.map (fun s => w.files (fs.diskFile s))) = (v key).map (List.map some)

namespace Shows
variable {fs : FileStore} {w : World} {v : Versions}

lemma serials (h : Shows fs w v) (key : GHKey) :
    (w.serials key).map (fun s => w.files (fs.diskFile s)) = (v.blocks key).map some :=
  World.map_serials (h.lists key)

lemma onDisk (h : Shows fs w v) {s : Int64} (hs : w.Listed s) :
    ∃ data, w.files (fs.diskFile s) = some data := by
  obtain ⟨key,hkey⟩ := hs
  have hmem : w.files (fs.diskFile s) ∈ (v.blocks key).map some :=
    h.serials key ▸ List.mem_map_of_mem hkey
  obtain ⟨data,_,hdata⟩ := List.mem_map.1 hmem
  exact ⟨data,hdata.symm⟩

variable {wope : WOPE}

/-- Under the journal root every block of the new list has its data. -/
lemma newList_journal [fs.hash.Separates] (h : Shows fs w v) (henough : w.Enough wope) :
    (w.newList wope).map (fun s => (w.afterWOPE fs wope).files (fs.journalFile s)) =
      (applyEdits wope.edits (v.blocks wope.ghobj.key)).map some := by
  apply h.tidy.newList_journal fs henough
  rw [← h.serials wope.ghobj.key]
  apply List.map_congr_left
  intro s hs
  exact h.journal s ⟨_,hs⟩

/-- After the copies, a block of the new list has under the disk root what it has in the
journal, and every block listed before still has what it had. -/
lemma settled_diskFile [fs.hash.Separates] (h : Shows fs w v) (wope : WOPE) {s : Int64}
    (hs : s ∈ w.newList wope ∨ w.Listed s) :
    (w.settled fs wope).files (fs.diskFile s) =
      (w.afterWOPE fs wope).files (fs.journalFile s) := by
  rw [World.settled,World.copyAll_diskFile]
  by_cases hnew : s ∈ (w.news wope).map Prod.fst
  · have hlist : s ∈ w.newList wope := hs.resolve_right (h.tidy.news_unlisted wope hnew)
    obtain ⟨b,hb,rfl⟩ := List.mem_map.1 hnew
    rw [if_pos ⟨hlist,h.tidy.refCount_new fs hlist hnew⟩,World.afterWOPE_files,
      World.addBlocks_journalFile_of_mem fs w _ (h.tidy.news_nodup wope) hb]
    rfl
  · have hlisted : w.Listed s := by
      rcases hs with hlist | hlisted
      · exact ⟨_,(World.mem_newList wope hlist).resolve_right hnew⟩
      · exact hlisted
    obtain ⟨data,hdata⟩ := h.onDisk hlisted
    rw [h.tidy.afterWOPE_journalFile fs wope hlisted,h.journal s hlisted,World.afterWOPE_files,
      World.addBlocks_diskFile,hdata]
    simp

/-- One write keeps the store and the table of versions in step. -/
theorem settled [fs.hash.Separates] (h : Shows fs w v) (henough : w.Enough wope) :
    Shows fs (w.settled fs wope) (v.write wope) where
  tidy := (h.tidy.afterWOPE fs henough).copyAll fs _
  journal := by
    rintro s ⟨key,hkey⟩
    rw [World.settled,World.copyAll_serials,World.afterWOPE_serials] at hkey
    rw [h.settled_diskFile wope,World.settled,World.copyAll_journalFile]
    split at hkey
    · exact .inl hkey
    · exact .inr ⟨key,hkey⟩
  lists := by
    intro key
    rw [World.settled,World.copyAll_objs,World.afterWOPE_lookup,Versions.write]
    by_cases hkey : key = wope.newGhobj.key
    · rw [if_pos hkey,hkey,Function.update_self,Option.map_some,Option.map_some,
        ← h.newList_journal henough]
      congr 1
      apply List.map_congr_left
      intro s hs
      exact h.settled_diskFile wope (.inl hs)
    · rw [if_neg hkey,Function.update_of_ne hkey,← h.lists key]
      cases hl : w.objs.lookup key with
      | none => rfl
      | some orb =>
        rw [Option.map_some,Option.map_some]
        congr 1
        apply List.map_congr_left
        intro s hs
        have hlisted : w.Listed s := ⟨key,World.serials_of_lookup hl ▸ hs⟩
        have hdisk := h.settled_diskFile wope (.inr hlisted)
        rw [h.tidy.afterWOPE_journalFile fs wope hlisted,h.journal s hlisted] at hdisk
        exact hdisk

end Shows

lemma shows_fresh (fs : FileStore) {clock : List Int64} (h : clock.Nodup) :
    Shows fs (World.fresh clock) (fun _ => none) where
  tidy := World.tidy_fresh h
  journal := by
    rintro s ⟨key,hkey⟩
    simp [World.serials,World.fresh] at hkey
  lists := fun _ => rfl

/-- The three phases of one write, from an empty queue. -/
theorem serve_eq (fs : FileStore) {n : Node} {wopelog : WOpeLog} (hqueue : n.wopeLogs = [])
    (htidy : n.world.Tidy)
    (hrange : wopelog.wope.InRange (n.world.serials wopelog.wope.ghobj.key).length)
    (henough : n.world.Enough wopelog.wope) :
    n.serve fs wopelog = some
      { world := n.world.settled fs wopelog.wope
        wopeLogs := []
        sent := n.sent ++ [.repWrite { wopelog with wopeState := .init } .primaryJournalWrite,
          .repWrite { wopelog with wopeState := .onDisk } .primaryDiskWrite] } := by
  obtain ⟨w,logs,sent⟩ := n
  subst hqueue
  have hinit := fs.run_doWope_init { wopelog with wopeState := .init } ⟨w,[],sent⟩ rfl hrange henough
  have hlist : (w.afterWOPE fs wopelog.wope).serials wopelog.wope.newGhobj.key =
      w.newList wopelog.wope := by rw [World.afterWOPE_serials,if_pos rfl]
  have hjournal := fs.run_doWope_onJournal { wopelog with wopeState := .onJournal }
    ⟨w.afterWOPE fs wopelog.wope,[],
      sent ++ [.repWrite { wopelog with wopeState := .init } .primaryJournalWrite]⟩
    (htidy.afterWOPE fs henough) rfl
  simp only [Node.serve,Node.accept,Node.phase,List.nil_append,hinit,Option.map_some,
    Option.bind_some,hjournal,hlist]
  rw [fs.run_doWope_onDisk _ _ rfl]
  simp [World.settled]

/-- The new blocks that a run of writes asks for. -/
def newBlocks (wopelogs : List WOpeLog) : ℕ :=
  (wopelogs.map (fun wopelog => (values wopelog.wope.edits).length)).sum

theorem serveAll_shows (fs : FileStore) [fs.hash.Separates] {n : Node} {v : Versions}
    {wopelogs : List WOpeLog}
    (hqueue : n.wopeLogs = []) (h : Shows fs n.world v) (hadm : v.Admissible wopelogs)
    (hclock : newBlocks wopelogs ≤ n.world.clock.length) :
    ∃ n', n.serveAll fs wopelogs = some n' ∧ Shows fs n'.world (v.writes wopelogs) := by
  induction wopelogs generalizing n v with
  | nil => exact ⟨n,rfl,h⟩
  | cons wopelog wopelogs ih =>
    obtain ⟨hrange,hrest⟩ := hadm
    rw [newBlocks,List.map_cons,List.sum_cons] at hclock
    have henough : n.world.Enough wopelog.wope := by
      rw [World.Enough]
      omega
    have hlen := congrArg List.length (h.serials wopelog.wope.ghobj.key)
    rw [List.length_map,List.length_map] at hlen
    have hserve := serve_eq fs hqueue h.tidy (hlen ▸ hrange) henough
    have hnews : (n.world.news wopelog.wope).length = (values wopelog.wope.edits).length := by
      rw [World.news,List.length_zip,Nat.min_eq_right henough]
    rw [Node.serveAll,hserve,Option.bind_some]
    apply ih rfl (h.settled henough) hrest
    simp only [World.settled,World.copyAll_clock,World.afterWOPE_clock,List.length_drop,hnews,
      newBlocks]
    omega

/-- What a read of one index of a list finds under the disk root, nothing where there is no
file. -/
def World.diskData (fs : FileStore) (w : World) (serials : List Int64) (block : Int32) : Bytes :=
  (serials[block.toInt.toNat]?.bind (fun s => w.files (fs.diskFile s))).getD []

/-- The loop of a read over in-range indices. -/
lemma run_readBlocks (fs : FileStore) {n : Node} {serials : List Int64} {blocks : List Int32}
    (hblocks : ∀ b ∈ blocks, 0 ≤ b.toInt ∧ b.toInt < serials.length) :
    run (Call.handle fs) (fs.readBlocks serials blocks) n =
      some (blocks.map (n.world.diskData fs serials),n) := by
  induction blocks with
  | nil => rfl
  | cons b blocks ih =>
    obtain ⟨hlow,hhigh⟩ := hblocks b (by simp)
    obtain ⟨i,hi⟩ : ∃ i, b.toInt.toNat = i := ⟨_,rfl⟩
    have hs : i < serials.length := by omega
    have hread : Call.handle fs (.request (.readFile (getReferedBlockStoragePath fs.hash
        { serial := serials[i] } fs.getRBRoot))) n =
        some ((n.world.files (fs.diskFile serials[i])).getD [],n) := by
      rw [fs.storagePath_disk]
      rfl
    simp only [FileStore.readBlocks,hi,List.getElem?_eq_getElem hs,if_pos hlow,ask_eq,call_bind,
      done_bind]
    rw [run_call hread,run_bind,ih (fun c hc => hblocks c (List.mem_cons_of_mem b hc))]
    rw [List.map_cons,World.diskData,hi,List.getElem?_eq_getElem hs]
    rfl

/-- A read with every index in range of the stored list. -/
lemma run_doRope (fs : FileStore) {n : Node} (ropelog : ROpeLog)
    (hblocks : ∀ b ∈ ropelog.rope.blocks,
      0 ≤ b.toInt ∧ b.toInt < (n.world.serials ropelog.rope.ghobj.key).length) :
    run (Call.handle fs) (fs.doRope ropelog) n = some ((),{ n with
      sent := n.sent ++ [.repRead ropelog ⟨ropelog.opeId,ropelog.rope.ghobj,ropelog.rope.blocks,
        ropelog.rope.blocks.map
          (n.world.diskData fs (n.world.serials ropelog.rope.ghobj.key))⟩] }) := by
  simp only [FileStore.doRope,ask_eq,call_bind,done_bind]
  rw [run_call rfl,run_bind]
  change (run _ (fs.readBlocks (n.world.serials ropelog.rope.ghobj.key) _) n).bind _ = _
  rw [run_readBlocks fs hblocks]
  rfl

lemma diskData_eq (fs : FileStore) {w : World} {serials : List Int64} {contents : List Bytes}
    (hdisk : serials.map (fun s => w.files (fs.diskFile s)) = contents.map some) {b : Int32}
    (hb : b.toInt.toNat < contents.length) :
    w.diskData fs serials b = contents.getD b.toInt.toNat [] := by
  have hlen := congrArg List.length hdisk
  rw [List.length_map,List.length_map] at hlen
  have hfile := List.getElem_of_eq hdisk (i := b.toInt.toNat) (by simpa [hlen] using hb)
  simp only [List.getElem_map] at hfile
  rw [World.diskData,List.getElem?_eq_getElem (hlen ▸ hb),Option.bind_some,hfile,
    List.getD_eq_getElem?_getD,List.getElem?_eq_getElem hb]

lemma serveAll_reads (fs : FileStore) [fs.hash.Separates] {clock : List Int64}
    {wopelogs : List WOpeLog}
    (hclock : clock.Nodup) (hadm : Versions.Admissible (fun _ => none) wopelogs)
    (henough : newBlocks wopelogs ≤ clock.length) :
    ∃ n, Node.serveAll fs { world := World.fresh clock } wopelogs = some n ∧
      (∀ key, (n.world.objs.lookup key).isSome =
        (Versions.writes (fun _ => none) wopelogs key).isSome) ∧
      ∀ (ropelog : ROpeLog) (contents : List Bytes),
        Versions.writes (fun _ => none) wopelogs ropelog.rope.ghobj.key = some contents →
        (∀ b ∈ ropelog.rope.blocks, 0 ≤ b.toInt ∧ b.toInt < contents.length) →
        run (Call.handle fs) (fs.doRope ropelog) n = some ((),{ n with
          sent := n.sent ++ [.repRead ropelog ⟨ropelog.opeId,ropelog.rope.ghobj,ropelog.rope.blocks,
            ropelog.rope.blocks.map (fun b => contents.getD b.toInt.toNat [])⟩] }) := by
  obtain ⟨n,hn,hshows⟩ := serveAll_shows fs (n := { world := World.fresh clock }) rfl
    (shows_fresh fs hclock) hadm henough
  refine ⟨n,hn,?_,?_⟩
  · intro key
    have hkey := congrArg Option.isSome (hshows.lists key)
    simpa using hkey
  · intro ropelog contents hcontents hblocks
    have hdisk := hshows.serials ropelog.rope.ghobj.key
    rw [Versions.blocks,hcontents,Option.getD_some] at hdisk
    have hlen := congrArg List.length hdisk
    rw [List.length_map,List.length_map] at hlen
    have hdatas : ropelog.rope.blocks.map (n.world.diskData fs
        (n.world.serials ropelog.rope.ghobj.key)) =
        ropelog.rope.blocks.map (fun b => contents.getD b.toInt.toNat []) := by
      apply List.map_congr_left
      intro b hb
      have hrange := hblocks b hb
      exact diskData_eq fs hdisk (by omega)
    rw [← hdatas]
    exact run_doRope fs ropelog (by rwa [hlen])

/-- Every sequence of writes from an empty store, each through its three phases before the next
begins: a version has a record exactly when it was written, and a read of it returns, index by
index, the blocks that the list edits of its last write left. -/
theorem doRope_reads_back (fs : FileStore) [fs.hash.Separates] {clock : List Int64}
    {wopelogs : List WOpeLog}
    (hclock : clock.Nodup) (hadm : Versions.Admissible (fun _ => none) wopelogs)
    (henough : newBlocks wopelogs ≤ clock.length) :
    ∃ n, Node.serveAll fs { world := World.fresh clock } wopelogs = some n ∧
      (∀ key, (n.world.objs.lookup key).isSome =
        (Versions.writes (fun _ => none) wopelogs key).isSome) ∧
      ∀ (ropelog : ROpeLog) (contents : List Bytes),
        Versions.writes (fun _ => none) wopelogs ropelog.rope.ghobj.key = some contents →
        (∀ b ∈ ropelog.rope.blocks, 0 ≤ b.toInt ∧ b.toInt < contents.length) →
        run (Call.handle fs) (fs.doRope ropelog) n = some ((),{ n with
          sent := n.sent ++ [.repRead ropelog ⟨ropelog.opeId,ropelog.rope.ghobj,ropelog.rope.blocks,
            ropelog.rope.blocks.map (fun b => contents.getD b.toInt.toNat [])⟩] }) :=
  serveAll_reads fs hclock hadm henough

/-- A second version that overwrites one block of the first and adds one. -/
def secondWrite : WOpeLog :=
  ⟨[],⟨generation 0,generation 1,[.overWrite,.insert],[0,1],[lit "y",lit "z"]⟩,{},.init⟩

theorem doRope_reads_back_second : ∃ n,
    Node.serveAll sampleStore { world := World.fresh [7,9,5] } [firstWrite,secondWrite] = some n ∧
    run (Call.handle sampleStore) (sampleStore.doRope ⟨[],⟨generation 1,[1,0,1]⟩,{}⟩) n =
      some ((),{ n with sent := n.sent ++
        [.repRead ⟨[],⟨generation 1,[1,0,1]⟩,{}⟩
          ⟨[],generation 1,[1,0,1],[lit "z",lit "y",lit "z"]⟩] }) := by
  have hadm : Versions.Admissible (fun _ => none) [firstWrite,secondWrite] :=
    ⟨⟨rfl,rfl,by simp [firstWrite],by decide⟩,
      ⟨rfl,rfl,by simp [secondWrite],by decide⟩,trivial⟩
  have hclock : ([7,9,5] : List Int64).Nodup := by decide
  obtain ⟨n,hn,_,hread⟩ := doRope_reads_back sampleStore hclock hadm (by decide)
  exact ⟨n,hn,hread ⟨[],⟨generation 1,[1,0,1]⟩,{}⟩ [lit "y",lit "z"] (by decide) (by simp)⟩

end GDFileStore
