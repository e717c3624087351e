import GDFileStore.Blocks.DiskWrite
import GDFileStore.Blocks.ReadBack

/-! Reads between the phases of writes. A version can be read as soon as its list is stored, but
`do_rope` looks for the blocks under the disk root alone, where they come with a later phase. -/
namespace GDFileStore
open Sequences Program Prog

/-- A store that keeps the versions `v` in its journal: the journal files along each list are the
blocks of the version, and a listed block that is on disk has the same file there. No disk file
is kept under a serial that is still to be drawn. -/
structure Journaled (fs : FileStore) (w : World) (v : Versions) : Prop where
  tidy : w.Tidy
  lists : ∀ key, (w.objs.lookup key).map
    (fun orb => orb.serialsList.map (fun s => w.files (fs.journalFile s))) =
      (v key).map (List.map some)
  disk : ∀ s, w.Listed s → w.OnDisk fs s → w.files (fs.diskFile s) = w.files (fs.journalFile s)
  unused : ∀ s ∈ w.clock, ¬w.OnDisk fs s

namespace Journaled
variable {fs : FileStore} {w : World} {v : Versions} {wope : WOPE}

lemma serials (h : Journaled fs w v) (key : GHKey) :
    (w.serials key).map (fun s => w.files (fs.journalFile s)) = (v.blocks key).map some :=
  World.map_serials (h.lists key)

lemma journal_isSome (h : Journaled fs w v) {s : Int64} (hs : w.Listed s) :
    ∃ data, w.files (fs.journalFile s) = some data := by
  obtain ⟨key,hkey⟩ := hs
  have hmem : w.files (fs.journalFile s) ∈ (v.blocks key).map some :=
    h.serials key ▸ List.mem_map_of_mem hkey
  obtain ⟨data,_,hdata⟩ := List.mem_map.1 hmem
  exact ⟨data,hdata.symm⟩

/-- An init phase stores the new version in the journal. -/
theorem afterWOPE [fs.hash.Separates] (h : Journaled fs w v) (henough : w.Enough wope) :
    Journaled fs (w.afterWOPE fs wope) (v.write wope) where
  tidy := h.tidy.afterWOPE fs henough
  lists := by
    intro key
    rw [World.afterWOPE_lookup,Versions.write]
    by_cases hkey : key = wope.newGhobj.key
    · rw [if_pos hkey,hkey,Function.update_self,Option.map_some,Option.map_some,
        h.tidy.newList_journal fs henough (h.serials wope.ghobj.key)]
    · rw [if_neg hkey,Function.update_of_ne hkey,← h.lists key]
      cases hl : w.objs.lookup key with
      | none => rfl
      | some orb =>
        rw [Option.map_some,Option.map_some]
        congr 1
        apply List.map_congr_left
        intro s hs
        exact h.tidy.afterWOPE_journalFile fs wope ⟨key,World.serials_of_lookup hl ▸ hs⟩
  disk := by
    intro s hs hdisk
    rw [Stage.onDisk_afterWOPE] at hdisk
    have hold : w.Listed s := by
      apply (World.afterWOPE_listed fs w wope hs).resolve_right
      intro hnew
      exact h.unused s (World.mem_clock_of_mem_news wope hnew) hdisk
    rw [h.tidy.afterWOPE_journalFile fs wope hold,World.afterWOPE_files,World.addBlocks_diskFile]
    exact h.disk s hold hdisk
  unused := by
    intro s hs
    rw [World.afterWOPE_clock] at hs
    rw [Stage.onDisk_afterWOPE]
    exact h.unused s (List.mem_of_mem_drop hs)

/-- A copying phase over a stored list. -/
theorem copyAll [fs.hash.Separates] (h : Journaled fs w v) (key : GHKey) :
    Journaled fs (w.copyAll fs (w.serials key)) v where
  tidy := h.tidy.copyAll fs _
  lists := by
    intro k
    simp only [World.copyAll_objs,World.copyAll_journalFile]
    exact h.lists k
  disk := by
    intro s hs hdisk
    rw [World.listed_of_objs_eq w (World.copyAll_objs fs w _)] at hs
    rw [World.OnDisk,World.copyAll_diskFile] at hdisk
    rw [World.copyAll_diskFile,World.copyAll_journalFile]
    split at hdisk
    · obtain ⟨data,hdata⟩ := h.journal_isSome hs
      rw [hdata,Option.some_or]
      split
      · rfl
      · contradiction
    · rw [if_neg (by assumption)]
      exact h.disk s hs hdisk
  unused := by
    intro s hs hdisk
    rw [World.copyAll_clock] at hs
    have hunlisted : s ∉ w.serials key := fun hm => h.tidy.unlisted s hs ⟨key,hm⟩
    rw [World.OnDisk,World.copyAll_diskFile,if_neg (fun hand => hunlisted hand.1)] at hdisk
    exact h.unused s hs hdisk

end Journaled

/-- A store before its first write, with nothing under its disk root. -/
lemma journaled_fresh (fs : FileStore) {clock : List Int64} (h : clock.Nodup) :
    Journaled fs (World.fresh clock) (fun _ => none) where
  tidy := World.tidy_fresh h
  lists := fun _ => rfl
  disk := by
    intro s hs
    obtain ⟨key,hkey⟩ := hs
    simp [World.serials,World.fresh] at hkey
  unused := fun _ _ => Bool.false_ne_true

/-- Phases of writes and reads in any order, each as one step. The table of versions takes up a
write when its init phase is run, which is also when `primaryJournalWrite` is sent. -/
inductive ReadRun (fs : FileStore) (n₀ : Node) (v₀ : Versions) : Node → Versions → Prop
  | start : ReadRun fs n₀ v₀ n₀ v₀
  | phase {n n' : Node} {v : Versions} (wopelog : WOpeLog) : ReadRun fs n₀ v₀ n v →
      PhaseStep fs n wopelog n' →
      ReadRun fs n₀ v₀ n' (if wopelog.wopeState = .init then v.write wopelog.wope else v)
  | read {n n' : Node} {v : Versions} (ropelog : ROpeLog) : ReadRun fs n₀ v₀ n v →
      run (Call.handle fs) (fs.doRope ropelog) n = some ((),n') → ReadRun fs n₀ v₀ n' v

namespace FileStore
variable (fs : FileStore)

lemma readBlocks_frame {serials : List Int64} {blocks : List Int32} {n n' : Node}
    {datas : List Bytes}
    (h : run (Call.handle fs) (fs.readBlocks serials blocks) n = some (datas,n')) : n' = n := by
  induction blocks generalizing n datas with
  | nil =>
    cases h
    rfl
  | cons block blocks ih =>
    simp only [readBlocks,ask_eq,call_bind,done_bind] at h
    split at h
    · cases h
    · split at h
      · obtain ⟨⟨data,n1⟩,hread,h⟩ := Option.bind_eq_some_iff.1 h
        cases hread
        rw [run_bind] at h
        obtain ⟨⟨rest,n2⟩,hrest,h⟩ := Option.bind_eq_some_iff.1 h
        cases h
        exact ih hrest
      · cases h

/-- A read changes nothing but the replies that have been sent. -/
lemma doRope_frame {ropelog : ROpeLog} {n n' : Node}
    (h : run (Call.handle fs) (fs.doRope ropelog) n = some ((),n')) :
    n'.world = n.world ∧ n'.wopeLogs = n.wopeLogs ∧
      ∃ result, n'.sent = n.sent ++ [.repRead ropelog result] := by
  simp only [doRope,ask_eq,call_bind,done_bind] at h
  rw [run_call rfl,run_bind] at h
  obtain ⟨⟨datas,n1⟩,hblocks,h⟩ := Option.bind_eq_some_iff.1 h
  obtain rfl := fs.readBlocks_frame hblocks
  cases h
  exact ⟨rfl,rfl,_,rfl⟩

end FileStore

/-- What a phase does to the world and to the replies. -/
lemma PhaseStep.cases_on_state {fs : FileStore} {n n' : Node} {wopelog : WOpeLog}
    (htidy : n.world.Tidy) (h : PhaseStep fs n wopelog n') :
    (wopelog.wopeState = .init ∧ n.world.Enough wopelog.wope ∧
      n'.world = n.world.afterWOPE fs wopelog.wope ∧
      n'.sent = n.sent ++ [.repWrite wopelog .primaryJournalWrite]) ∨
    (wopelog.wopeState ≠ .init ∧ (n'.world = n.world ∨
      n'.world = n.world.copyAll fs (n.world.serials wopelog.newKey)) ∧
      (n'.sent = n.sent ∨ n'.sent = n.sent ++ [.repWrite wopelog .primaryDiskWrite])) := by
  obtain ⟨before,after,_,hrun⟩ := h
  cases hstate : wopelog.wopeState with
  | init =>
    obtain ⟨henough,rfl⟩ := fs.doWope_init hstate hrun
    exact .inl ⟨rfl,henough,rfl,rfl⟩
  | onJournal =>
    have htidy' : (Node.mk n.world (before ++ after) n.sent).world.Tidy := htidy
    rw [fs.run_doWope_onJournal wopelog _ htidy' hstate] at hrun
    cases hrun
    exact .inr ⟨WopeStateType.noConfusion,.inr rfl,.inl rfl⟩
  | onDisk =>
    rw [fs.run_doWope_onDisk wopelog _ hstate] at hrun
    cases hrun
    exact .inr ⟨WopeStateType.noConfusion,.inl rfl,.inr rfl⟩
  | other =>
    simp only [FileStore.doWope,hstate] at hrun
    cases hrun
    exact .inr ⟨WopeStateType.noConfusion,.inl rfl,.inl rfl⟩

namespace ReadRun
variable {fs : FileStore} {n₀ n : Node} {v₀ v : Versions}

theorem journaled [fs.hash.Separates] (hstart : Journaled fs n₀.world v₀)
    (hrun : ReadRun fs n₀ v₀ n v) :
    Journaled fs n.world v := by
  induction hrun with
  | start => exact hstart
  | @phase n n' v wopelog _ hphase ih =>
    rcases hphase.cases_on_state ih.tidy with ⟨hinit,henough,hworld,_⟩ | ⟨hlater,hworld,_⟩
    · rw [if_pos hinit,hworld]
      exact ih.afterWOPE henough
    · rw [if_neg hlater]
      rcases hworld with hsame | hcopied
      · exact hsame ▸ ih
      · exact hcopied ▸ ih.copyAll _
  | read ropelog _ hread ih => exact (fs.doRope_frame hread).1 ▸ ih

/-- A version whose `primaryJournalWrite` has been sent is in the table. -/
theorem journalWritten_stored [fs.hash.Separates] (hstart : Journaled fs n₀.world v₀)
    (hsent : n₀.sent = [])
    (hrun : ReadRun fs n₀ v₀ n v) {wopelog : WOpeLog}
    (hwritten : .repWrite wopelog .primaryJournalWrite ∈ n.sent) :
    (v wopelog.newKey).isSome := by
  induction hrun with
  | start => simp [hsent] at hwritten
  | @phase n n' v next hbefore hphase ih =>
    rcases hphase.cases_on_state (hbefore.journaled hstart).tidy with
      ⟨hinit,_,_,hreplies⟩ | ⟨hlater,_,hreplies⟩
    · rw [if_pos hinit,Versions.write]
      by_cases hkey : wopelog.newKey = next.wope.newGhobj.key
      · rw [hkey,Function.update_self]
        rfl
      · rw [Function.update_of_ne hkey]
        rw [hreplies,List.mem_append,List.mem_singleton] at hwritten
        rcases hwritten with hold | hnew
        · exact ih hold
        · cases hnew
          exact absurd rfl hkey
    · rw [if_neg hlater]
      apply ih
      rcases hreplies with hsame | hdisk
      · rwa [hsame] at hwritten
      · simpa [hdisk] using hwritten
  | read ropelog _ hread ih =>
    obtain ⟨_,_,result,hreplies⟩ := fs.doRope_frame hread
    exact ih (by simpa [hreplies] using hwritten)

/-- What a read of one index finds under the disk root, for a list that is in the journal: the
block where it is on disk, and nothing else. -/
lemma diskData_eq_iff (h : Journaled fs n.world v) {key : GHKey} {b : Int32}
    (hb : b.toInt.toNat < (v.blocks key).length) :
    n.world.diskData fs (n.world.serials key) b = (v.blocks key).getD b.toInt.toNat [] ↔
      (v.blocks key).getD b.toInt.toNat [] = [] ∨
        ∀ s ∈ (n.world.serials key)[b.toInt.toNat]?, n.world.OnDisk fs s := by
  have hserials := h.serials key
  have hlen := congrArg List.length hserials
  rw [List.length_map,List.length_map] at hlen
  obtain ⟨i,hi⟩ : ∃ i, b.toInt.toNat = i := ⟨_,rfl⟩
  rw [hi] at hb ⊢
  have hs : i < (n.world.serials key).length := by omega
  have hjournal : n.world.files (fs.journalFile (n.world.serials key)[i]) =
      some (v.blocks key)[i] := by
    have hfile := List.getElem_of_eq hserials (i := i) (by simpa using hs)
    simpa using hfile
  rw [World.diskData,hi,List.getElem?_eq_getElem hs,Option.bind_some,
    List.getD_eq_getElem?_getD,List.getElem?_eq_getElem hb,Option.getD_some]
  simp only [Option.mem_def,Option.some.injEq,forall_eq']
  by_cases hdisk : n.world.OnDisk fs (n.world.serials key)[i]
  · rw [h.disk _ ⟨key,List.getElem_mem hs⟩ hdisk,hjournal,Option.getD_some]
    exact iff_of_true rfl (.inr hdisk)
  · have hnone : n.world.files (fs.diskFile (n.world.serials key)[i]) = none := by
      rwa [World.OnDisk,Option.not_isSome_iff_eq_none] at hdisk
    rw [hnone,Option.getD_none,or_iff_left hdisk,eq_comm]

/-- A read of a version, with every index in range, at any point of any run: it returns the
version's blocks exactly when each block it asks for is empty or on disk. -/
theorem doRope_right_iff [fs.hash.Separates] (hstart : Journaled fs n₀.world v₀)
    (hrun : ReadRun fs n₀ v₀ n v)
    (ropelog : ROpeLog) (hblocks : ∀ b ∈ ropelog.rope.blocks,
      0 ≤ b.toInt ∧ b.toInt < (v.blocks ropelog.rope.ghobj.key).length) :
    ∃ datas, run (Call.handle fs) (fs.doRope ropelog) n = some ((),{ n with
        sent := n.sent ++ [.repRead ropelog
          ⟨ropelog.opeId,ropelog.rope.ghobj,ropelog.rope.blocks,datas⟩] }) ∧
      (datas = ropelog.rope.blocks.map
          (fun b => (v.blocks ropelog.rope.ghobj.key).getD b.toInt.toNat []) ↔
        ∀ b ∈ ropelog.rope.blocks,
          (v.blocks ropelog.rope.ghobj.key).getD b.toInt.toNat [] = [] ∨
          ∀ s ∈ (n.world.serials ropelog.rope.ghobj.key)[b.toInt.toNat]?, n.world.OnDisk fs s) := by
  have hinv := hrun.journaled hstart
  have hlen := congrArg List.length (hinv.serials ropelog.rope.ghobj.key)
  rw [List.length_map,List.length_map] at hlen
  refine ⟨_,run_doRope fs ropelog (by rwa [hlen]),List.map_inj_left.trans ?_⟩
  apply forall₂_congr
  intro b hb
  have hrange := hblocks b hb
  exact diskData_eq_iff hinv (by omega)

end ReadRun

/-- The store after the init phase of the first write. -/
def journaledOnly : World := (World.fresh [7]).afterWOPE sampleStore firstWrite.wope

lemma readRun_journaledOnly : ReadRun sampleStore ⟨World.fresh [7],[firstWrite],[]⟩ (fun _ => none)
    ⟨journaledOnly,[{ firstWrite with wopeState := .onJournal }],
      [.repWrite firstWrite .primaryJournalWrite]⟩
    (Versions.write (fun _ => none) firstWrite.wope) := by
  have hinit := sampleStore.run_doWope_init firstWrite ⟨World.fresh [7],[],[]⟩ rfl
    ⟨rfl,rfl,by simp [firstWrite],by decide⟩ (by decide)
  have r0 : ReadRun sampleStore ⟨World.fresh [7],[firstWrite],[]⟩ (fun _ => none)
      ⟨World.fresh [7],[firstWrite],[]⟩ (fun _ => none) := .start
  exact r0.phase firstWrite ⟨[],[],rfl,hinit⟩

/-- Read after its copying phase, the first write's version has its block. -/
theorem doRope_right_iff_copied : ∃ n v,
    ReadRun sampleStore ⟨World.fresh [7],[firstWrite],[]⟩ (fun _ => none) n v ∧
    v (generation 0).key = some [lit "x"] ∧
    run (Call.handle sampleStore) (sampleStore.doRope readFirst) n = some ((),{ n with
      sent := n.sent ++ [.repRead readFirst ⟨lit "2",generation 0,[0],[lit "x"]⟩] }) := by
  have hclock : ([7] : List Int64).Nodup := by decide
  have htidy : journaledOnly.Tidy := (World.tidy_fresh hclock).afterWOPE sampleStore (by decide)
  have hlist : journaledOnly.serials (generation 0).key = [7] := by decide
  have hcopy := sampleStore.run_doWope_onJournal { firstWrite with wopeState := .onJournal }
    ⟨journaledOnly,[],[.repWrite firstWrite .primaryJournalWrite]⟩ htidy rfl
  have r := readRun_journaledOnly.phase { firstWrite with wopeState := .onJournal }
    ⟨[],[],rfl,hcopy⟩
  rw [if_neg WopeStateType.noConfusion] at r
  have hversion : Versions.write (fun _ => none) firstWrite.wope (generation 0).key =
      some [lit "x"] := by decide +kernel
  obtain ⟨datas,hrun,hiff⟩ := r.doRope_right_iff (journaled_fresh sampleStore hclock) readFirst
    (List.forall_mem_singleton.2 (by decide +kernel))
  refine ⟨_,_,r,hversion,?_⟩
  have hdatas : datas = [lit "x"] := by
    apply hiff.2
    intro b hb
    obtain rfl := List.mem_singleton.1 hb
    right
    intro s hs
    change s ∈ ((journaledOnly.copyAll sampleStore _).serials (generation 0).key)[0]? at hs
    rw [World.copyAll_serials,hlist] at hs
    obtain rfl := Option.some.inj hs
    change (journaledOnly.copyAll sampleStore (journaledOnly.serials (generation 0).key)).OnDisk _ _
    rw [hlist,World.OnDisk,World.copyAll_diskFile,if_pos (by decide)]
    decide +kernel
  rw [hrun,hdatas]
  rfl

/-- The read comes between the first write's init phase and its copying: the version is listed and
answered for, and its block is read as empty. -/
theorem read_before_copy : ∃ n₀ n v wopelog ropelog,
    Journaled sampleStore n₀.world (fun _ => none) ∧ n₀.sent = [] ∧
    (∀ wope ∈ n₀.wopeLogs, wope.wopeState = .init) ∧ ReadRun sampleStore n₀ (fun _ => none) n v ∧
    .repWrite wopelog .primaryJournalWrite ∈ n.sent ∧ wopelog.newKey = ropelog.rope.ghobj.key ∧
    v ropelog.rope.ghobj.key = some [lit "x"] ∧ ropelog.rope.blocks = [0] ∧
    run (Call.handle sampleStore) (sampleStore.doRope ropelog) n = some ((),{ n with
      sent := n.sent ++
        [.repRead ropelog ⟨ropelog.opeId,ropelog.rope.ghobj,ropelog.rope.blocks,[[]]⟩] }) := by
  have hread : readFirst.rope.blocks.map (journaledOnly.diskData sampleStore
      (journaledOnly.serials readFirst.rope.ghobj.key)) = [[]] := by decide +kernel
  refine ⟨⟨World.fresh [7],[firstWrite],[]⟩,_,_,firstWrite,readFirst,
    journaled_fresh sampleStore (by decide),rfl,by decide,readRun_journaledOnly,by simp,rfl,
    by decide +kernel,rfl,?_⟩
  rw [run_doRope sampleStore readFirst (List.forall_mem_singleton.2 (by decide +kernel))]
  dsimp only
  rw [hread]

end GDFileStore
