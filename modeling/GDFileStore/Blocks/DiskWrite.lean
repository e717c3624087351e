import GDFileStore.Blocks.Phases

/-! When `primaryDiskWrite` can be believed. The phases of any number of writes run in any order,
each as one step. The copying phase takes a count of one for the mark of a new block, so it
misses a block that another write has begun to share in the meantime. -/
namespace GDFileStore
open Sequences Program Prog

namespace World

/-- The blocks of the base version that a write keeps: its edits are done with nothing in the
place of each new block. -/
def kept (w : World) (wope : WOPE) : List Int64 :=
  let edits := wope.edits.map (Edit.map (fun _ => (none : Option Int64)))
  (applyEdits edits ((w.serials wope.ghobj.key).map some)).filterMap id

variable {w : World} {wope : WOPE}

lemma mem_kept (hw : w.Tidy) (henough : w.Enough wope) {s : Int64} (hs : s ∈ w.newList wope)
    (hnew : s ∉ (w.news wope).map Prod.fst) : s ∈ w.kept wope := by
  let f : Int64 → Option Int64 := fun t => if t ∈ (w.news wope).map Prod.fst then none else some t
  let g : Bytes → Option Int64 := fun _ => none
  have hnone : ∀ b ∈ w.clock.zip (values wope.edits), f b.1 = g b.2 := by
    intro b hb
    exact if_pos (List.mem_map_of_mem hb)
  have hbase : (w.serials wope.ghobj.key).map f = (w.serials wope.ghobj.key).map some := by
    apply List.map_congr_left
    intro t ht
    exact if_neg (fun hm => hw.news_unlisted wope hm ⟨_,ht⟩)
  have hmap := map_applyEdits_nameEdits (l := w.serials wope.ghobj.key) henough hnone
  rw [hbase] at hmap
  have hmem : some s ∈ (w.newList wope).map f := List.mem_map.2 ⟨s,hs,if_neg hnew⟩
  rw [newList,hmap] at hmem
  exact List.mem_filterMap.2 ⟨some s,hmem,rfl⟩

end World

/-- The writes that have been answered with `primaryDiskWrite`. -/
def diskWritten (sent : List Reply) : List WOpeLog :=
  sent.filterMap (fun reply => match reply with
    | .repWrite wopelog .primaryDiskWrite => some wopelog
    | _ => none)

def WOpeLog.newKey (wopelog : WOpeLog) : GHKey := wopelog.wope.newGhobj.key

/-- A worker runs the next phase of one of the pending writes. -/
def PhaseStep (fs : FileStore) (n : Node) (wopelog : WOpeLog) (n' : Node) : Prop :=
  ∃ before after, n.wopeLogs = before ++ wopelog::after ∧
    run (Call.handle fs) (fs.doWope wopelog) { n with wopeLogs := before ++ after } = some ((),n')

/-- The nodes reached by phases that `allowed` lets run. -/
inductive PhaseRun (fs : FileStore) (allowed : Node → WOpeLog → Prop) (n₀ : Node) : Node → Prop
  | start : PhaseRun fs allowed n₀ n₀
  | step {n n' : Node} (wopelog : WOpeLog) : PhaseRun fs allowed n₀ n → allowed n wopelog →
      PhaseStep fs n wopelog n' → PhaseRun fs allowed n₀ n'

/-- Writes accepted by a store, none of them begun, each with its own new version. -/
structure Accepted (n : Node) : Prop where
  tidy : n.world.Tidy
  sent : n.sent = []
  init : ∀ wopelog ∈ n.wopeLogs, wopelog.wopeState = .init
  keys : (n.wopeLogs.map WOpeLog.newKey).Nodup

/-- An init phase runs on a base version that is journaled, with block numbers in range. -/
def BaseJournaled (n : Node) (wopelog : WOpeLog) : Prop :=
  wopelog.wopeState = .init → (n.world.objs.lookup wopelog.wope.ghobj.key).isSome ∧
    wopelog.wope.InRange (n.world.serials wopelog.wope.ghobj.key).length

/-- An init phase keeps only blocks that are on disk already. -/
def KeptOnDisk (fs : FileStore) (n : Node) (wopelog : WOpeLog) : Prop :=
  wopelog.wopeState = .init → ∀ s ∈ n.world.kept wopelog.wope, n.world.OnDisk fs s

/-- What the phases of a write have established for the list it published. -/
def Stage (fs : FileStore) (w : World) (wopelog : WOpeLog) : Prop :=
  match wopelog.wopeState with
  | .onJournal => ∀ s ∈ w.serials wopelog.newKey,
      w.OnDisk fs s ∨ w.refCount s = 1 ∧ (w.files (fs.journalFile s)).isSome
  | .onDisk => ∀ s ∈ w.serials wopelog.newKey, w.OnDisk fs s
  | _ => True

namespace Stage
variable {fs : FileStore} {w : World} {wope : WOPE} {wopelog : WOpeLog}

lemma onDisk_afterWOPE (s : Int64) :
    (w.afterWOPE fs wope).OnDisk fs s ↔ w.OnDisk fs s := by
  rw [World.OnDisk,World.OnDisk,World.afterWOPE_files,World.addBlocks_diskFile]

/-- Another write's init phase does not touch a block that is still to be copied, for it keeps
only blocks that are on disk. -/
lemma pending_afterWOPE [fs.hash.Separates] (htidy : w.Tidy) (henough : w.Enough wope)
    (hkept : ∀ s ∈ w.kept wope, w.OnDisk fs s) {s : Int64} (hs : w.Listed s)
    (h : w.OnDisk fs s ∨ w.refCount s = 1 ∧ (w.files (fs.journalFile s)).isSome) :
    (w.afterWOPE fs wope).OnDisk fs s ∨ (w.afterWOPE fs wope).refCount s = 1 ∧
      ((w.afterWOPE fs wope).files (fs.journalFile s)).isSome := by
  rw [onDisk_afterWOPE]
  by_cases hdisk : w.OnDisk fs s
  · exact .inl hdisk
  · obtain ⟨hcount,hfile⟩ := h.resolve_left hdisk
    have hnew : s ∉ (w.news wope).map Prod.fst := fun hm => htidy.news_unlisted wope hm hs
    have hlist : s ∉ w.newList wope :=
      fun hm => hdisk (hkept s (World.mem_kept htidy henough hm hnew))
    right
    rw [World.afterWOPE_refCount,World.addBlocks_refCount,if_neg hnew,
      List.count_eq_zero_of_not_mem hlist,World.afterWOPE_files,
      World.addBlocks_journalFile_of_notMem fs w _ hnew]
    exact ⟨by simpa using hcount,hfile⟩

lemma afterWOPE [fs.hash.Separates] (htidy : w.Tidy) (henough : w.Enough wope)
    (hkept : ∀ s ∈ w.kept wope, w.OnDisk fs s) (hkey : wopelog.newKey ≠ wope.newGhobj.key)
    (h : Stage fs w wopelog) : Stage fs (w.afterWOPE fs wope) wopelog := by
  have hserials : (w.afterWOPE fs wope).serials wopelog.newKey = w.serials wopelog.newKey := by
    rw [World.afterWOPE_serials,if_neg hkey]
  rw [Stage] at h ⊢
  cases hstate : wopelog.wopeState with
  | onJournal =>
    simp only [hstate,hserials] at h ⊢
    intro s hs
    exact pending_afterWOPE htidy henough hkept ⟨_,hs⟩ (h s hs)
  | onDisk =>
    simp only [hstate,hserials] at h ⊢
    intro s hs
    exact (onDisk_afterWOPE s).2 (h s hs)
  | init => trivial
  | other => trivial

/-- A write that has just been journaled: what it keeps is on disk, and each of its new blocks
counts one. -/
lemma journaled [fs.hash.Separates] (htidy : w.Tidy) (henough : w.Enough wopelog.wope)
    (hkept : ∀ s ∈ w.kept wopelog.wope, w.OnDisk fs s) :
    Stage fs (w.afterWOPE fs wopelog.wope) { wopelog with wopeState := .onJournal } := by
  intro s hs
  have hlist : s ∈ w.newList wopelog.wope := by
    rwa [WOpeLog.newKey,World.afterWOPE_serials,if_pos rfl] at hs
  by_cases hnew : s ∈ (w.news wopelog.wope).map Prod.fst
  · right
    obtain ⟨b,hb,rfl⟩ := List.mem_map.1 hnew
    rw [World.afterWOPE_files,World.addBlocks_journalFile_of_mem fs w _ (htidy.news_nodup _) hb]
    exact ⟨htidy.refCount_new fs hlist hnew,rfl⟩
  · exact .inl ((onDisk_afterWOPE s).2 (hkept s (World.mem_kept htidy henough hlist hnew)))

lemma onDisk_copyAll [fs.hash.Separates] {s : Int64} (l : List Int64) (h : w.OnDisk fs s) :
    (w.copyAll fs l).OnDisk fs s := by
  rw [World.OnDisk,World.copyAll_diskFile]
  split
  · rw [Option.isSome_or,h,Bool.or_true]
  · exact h

lemma copyAll [fs.hash.Separates] (l : List Int64) (h : Stage fs w wopelog) : Stage fs
    (w.copyAll fs l) wopelog := by
  rw [Stage] at h ⊢
  cases hstate : wopelog.wopeState with
  | onJournal =>
    simp only [hstate,World.copyAll_serials,World.copyAll_refCount,
      World.copyAll_journalFile] at h ⊢
    intro s hs
    exact (h s hs).imp_left (onDisk_copyAll l)
  | onDisk =>
    simp only [hstate,World.copyAll_serials] at h ⊢
    intro s hs
    exact onDisk_copyAll l (h s hs)
  | init => trivial
  | other => trivial

/-- The copying phase finishes the list it reads. -/
lemma copied [fs.hash.Separates] (hstate : wopelog.wopeState = .onJournal)
    (h : Stage fs w wopelog) :
    Stage fs (w.copyAll fs (w.serials wopelog.newKey)) { wopelog with wopeState := .onDisk } := by
  intro s hs
  rw [World.copyAll_serials] at hs
  simp only [Stage,hstate] at h
  rcases h s hs with hdisk | ⟨hcount,hfile⟩
  · exact onDisk_copyAll _ hdisk
  · rw [World.OnDisk,World.copyAll_diskFile,if_pos ⟨hs,hcount⟩,Option.isSome_or,hfile,Bool.true_or]

end Stage
/-- The writes of a node, pending or answered, each with what its phases have established. -/
structure PhaseInv (fs : FileStore) (n : Node) : Prop where
  tidy : n.world.Tidy
  written : ∀ wopelog ∈ diskWritten n.sent, wopelog.wopeState = .onDisk
  keys : ((n.wopeLogs ++ diskWritten n.sent).map WOpeLog.newKey).Nodup
  stages : ∀ wopelog ∈ n.wopeLogs ++ diskWritten n.sent, Stage fs n.world wopelog

namespace PhaseInv
variable {fs : FileStore} {n n' : Node} {wopelog : WOpeLog} {others : List WOpeLog}

/-- The invariant, with one write told apart from the others. -/
lemma of_perm (next : WOpeLog) (htidy : n'.world.Tidy)
    (hwritten : ∀ l ∈ diskWritten n'.sent, l.wopeState = .onDisk)
    (hperm : (n'.wopeLogs ++ diskWritten n'.sent).Perm (next::others))
    (hkey : next.newKey ∉ others.map WOpeLog.newKey) (hkeys : (others.map WOpeLog.newKey).Nodup)
    (hnext : Stage fs n'.world next) (hothers : ∀ l ∈ others, Stage fs n'.world l) :
    PhaseInv fs n' where
  tidy := htidy
  written := hwritten
  keys := ((hperm.map _).nodup_iff).2 (List.nodup_cons.2 ⟨hkey,hkeys⟩)
  stages := by
    intro l hl
    rcases List.mem_cons.1 (hperm.mem_iff.1 hl) with rfl | hm
    · exact hnext
    · exact hothers l hm

theorem step [fs.hash.Separates] (h : PhaseInv fs n) (hkept : KeptOnDisk fs n wopelog)
    (hstep : PhaseStep fs n wopelog n') : PhaseInv fs n' := by
  obtain ⟨before,after,hqueue,hrun⟩ := hstep
  obtain ⟨w,logs,sent⟩ := n
  change logs = before ++ wopelog::after at hqueue
  subst hqueue
  change run (Call.handle fs) (fs.doWope wopelog) ⟨w,before ++ after,sent⟩ = some ((),n') at hrun
  have hperm : (before ++ wopelog::after ++ diskWritten sent).Perm
      (wopelog::(before ++ after ++ diskWritten sent)) := by
    rw [List.append_assoc,List.append_assoc]
    exact List.perm_middle
  obtain ⟨hkey,hkeys⟩ := List.nodup_cons.1 ((hperm.map WOpeLog.newKey).nodup_iff.1 h.keys)
  have hself : Stage fs w wopelog := h.stages _ (hperm.mem_iff.2 (by simp))
  have hothers : ∀ l ∈ before ++ after ++ diskWritten sent, Stage fs w l :=
    fun l hl => h.stages l (hperm.mem_iff.2 (List.mem_cons_of_mem _ hl))
  -- The queue with the write put back at its end.
  have hback : ∀ next : WOpeLog, (before ++ after ++ [next] ++ diskWritten sent).Perm
      (next::(before ++ after ++ diskWritten sent)) := by
    intro next
    rw [List.append_assoc (before ++ after)]
    exact List.perm_middle
  cases hstate : wopelog.wopeState with
  | init =>
    obtain ⟨henough,rfl⟩ := fs.doWope_init hstate hrun
    have hsent : diskWritten (sent ++ [.repWrite wopelog .primaryJournalWrite]) =
        diskWritten sent := by simp [diskWritten]
    have hkept' := hkept hstate
    refine of_perm { wopelog with wopeState := .onJournal } (h.tidy.afterWOPE fs henough)
      (hsent.symm ▸ h.written) ?_ hkey hkeys
      (Stage.journaled h.tidy henough hkept') ?_
    · rw [hsent]
      exact hback _
    · intro l hl
      refine Stage.afterWOPE h.tidy henough hkept' ?_ (hothers l hl)
      exact fun heq => hkey (List.mem_map.2 ⟨l,hl,heq⟩)
  | onJournal =>
    have htidy : (Node.mk w (before ++ after) sent).world.Tidy := h.tidy
    rw [fs.run_doWope_onJournal wopelog _ htidy hstate] at hrun
    simp only [Option.some.injEq,Prod.mk.injEq,true_and] at hrun
    subst hrun
    exact of_perm { wopelog with wopeState := .onDisk } (h.tidy.copyAll fs _) h.written (hback _)
      hkey hkeys (Stage.copied hstate hself) (fun l hl => (hothers l hl).copyAll _)
  | onDisk =>
    rw [fs.run_doWope_onDisk wopelog _ hstate] at hrun
    simp only [Option.some.injEq,Prod.mk.injEq,true_and] at hrun
    subst hrun
    have hsent : diskWritten (sent ++ [.repWrite wopelog .primaryDiskWrite]) =
        diskWritten sent ++ [wopelog] := by simp [diskWritten]
    refine of_perm wopelog h.tidy ?_ ?_ hkey hkeys hself hothers
    · intro l hl
      rw [hsent,List.mem_append,List.mem_singleton] at hl
      rcases hl with hl | rfl
      · exact h.written l hl
      · exact hstate
    · rw [hsent,← List.append_assoc]
      exact List.perm_append_singleton _ _
  | other =>
    simp only [FileStore.doWope,hstate,pure_eq,run_done,Option.some.injEq,Prod.mk.injEq,
      true_and] at hrun
    subst hrun
    exact ⟨h.tidy,h.written,hkeys,hothers⟩

lemma of_accepted (h : Accepted n) : PhaseInv fs n where
  tidy := h.tidy
  written := by simp [h.sent,diskWritten]
  keys := by simpa [h.sent,diskWritten] using h.keys
  stages := by
    intro l hl
    have hinit := h.init l (by simpa [h.sent,diskWritten] using hl)
    simp [Stage,hinit]

end PhaseInv

lemma PhaseRun.inv {fs : FileStore} [fs.hash.Separates] {n₀ n : Node} (hstart : Accepted n₀)
    (hrun : PhaseRun fs (fun n wopelog => BaseJournaled n wopelog ∧ KeptOnDisk fs n wopelog) n₀ n) :
    PhaseInv fs n := by
  induction hrun with
  | start => exact .of_accepted hstart
  | step _ _ hallowed hstep ih => exact ih.step hallowed.2 hstep

/-- In every run whose init phases keep only blocks that are on disk already, a write that has
been answered with `primaryDiskWrite` has every block of its version under the disk root. -/
theorem primaryDiskWrite_onDisk (fs : FileStore) [fs.hash.Separates] {n₀ n : Node}
    (hstart : Accepted n₀)
    (hrun : PhaseRun fs (fun n wopelog => BaseJournaled n wopelog ∧ KeptOnDisk fs n wopelog) n₀ n)
    (wopelog : WOpeLog) (hsent : .repWrite wopelog .primaryDiskWrite ∈ n.sent) {s : Int64}
    (hs : s ∈ n.world.serials wopelog.wope.newGhobj.key) : n.world.OnDisk fs s := by
  have hinv := hrun.inv hstart
  have hmem : wopelog ∈ diskWritten n.sent := List.mem_filterMap.2 ⟨_,hsent,rfl⟩
  have hstage := hinv.stages wopelog (List.mem_append_right _ hmem)
  rw [Stage,hinv.written wopelog hmem] at hstage
  exact hstage s hs

/-- A store that holds one empty version. -/
def oneVersion : World := (World.fresh [7,9]).publish (generation 0).key []

/-- A third version that shares that block. -/
def shareOne : WOpeLog := ⟨lit "2",⟨generation 1,generation 2,[],[],[]⟩,{},.init⟩

/-- A third version that has a block of its own after that one. -/
def growOne : WOpeLog :=
  ⟨lit "3",⟨generation 1,generation 2,[.insert],[1],[lit "y"]⟩,{},.init⟩

lemma tidy_oneVersion : oneVersion.Tidy := by
  have hserials : ∀ key, oneVersion.serials key = [] := by
    intro key
    rw [oneVersion,World.publish_serials]
    split
    · rfl
    · simp [World.serials,World.fresh]
  refine ⟨by decide,?_,?_,?_⟩
  · intro key
    simp [hserials]
  · rintro s _ ⟨key,hkey⟩
    simp [hserials] at hkey
  · rintro s ⟨key,hkey⟩
    simp [hserials] at hkey

lemma inRange_writeOne :
    writeOne.wope.InRange (oneVersion.serials writeOne.wope.ghobj.key).length :=
  ⟨rfl,rfl,by simp [writeOne],by decide⟩

/-- The second write is journaled between the first one's journaling and its copying. The block
then counts two, is not copied, and the first write is answered with `primaryDiskWrite`. -/
theorem shared_block_not_copied : ∃ n₀ n wopelog s, Accepted n₀ ∧
    PhaseRun sampleStore BaseJournaled n₀ n ∧ .repWrite wopelog .primaryDiskWrite ∈ n.sent ∧
    s ∈ n.world.serials wopelog.wope.newGhobj.key ∧ ¬n.world.OnDisk sampleStore s := by
  let w1 := oneVersion.afterWOPE sampleStore writeOne.wope
  let w2 := w1.afterWOPE sampleStore shareOne.wope
  have htidy1 : w1.Tidy := tidy_oneVersion.afterWOPE sampleStore (by decide)
  have htidy2 : w2.Tidy := htidy1.afterWOPE sampleStore (by decide)
  have hcount : w2.refCount 7 = 2 := by decide
  have hlist : w2.serials (generation 1).key = [7] := by decide
  have h1 := sampleStore.run_doWope_init writeOne ⟨oneVersion,[shareOne],[]⟩ rfl
    inRange_writeOne (by decide)
  have h2 := sampleStore.run_doWope_init shareOne
    ⟨w1,[{ writeOne with wopeState := .onJournal }],[.repWrite writeOne .primaryJournalWrite]⟩ rfl
    (inRange_noEdits _ _ _) (by decide)
  have h3 := sampleStore.run_doWope_onJournal { writeOne with wopeState := .onJournal }
    ⟨w2,[{ shareOne with wopeState := .onJournal }],
      [.repWrite writeOne .primaryJournalWrite,.repWrite shareOne .primaryJournalWrite]⟩ htidy2 rfl
  have h4 := sampleStore.run_doWope_onDisk { writeOne with wopeState := .onDisk }
    ⟨w2.copyAll sampleStore (w2.serials (generation 1).key),
      [{ shareOne with wopeState := .onJournal }],
      [.repWrite writeOne .primaryJournalWrite,.repWrite shareOne .primaryJournalWrite]⟩ rfl
  have hstart : Accepted ⟨oneVersion,[writeOne,shareOne],[]⟩ :=
    ⟨tidy_oneVersion,rfl,by decide,by decide⟩
  have r0 : PhaseRun sampleStore BaseJournaled ⟨oneVersion,[writeOne,shareOne],[]⟩
      ⟨oneVersion,[writeOne,shareOne],[]⟩ := .start
  have r1 := r0.step writeOne (fun _ => ⟨rfl,inRange_writeOne⟩) ⟨[],[shareOne],rfl,h1⟩
  have r2 := r1.step shareOne (fun _ => ⟨by decide,inRange_noEdits _ _ _⟩)
    ⟨[],[{ writeOne with wopeState := .onJournal }],rfl,h2⟩
  have r3 := r2.step { writeOne with wopeState := .onJournal }
    nofun ⟨[],[{ shareOne with wopeState := .onJournal }],rfl,h3⟩
  have r4 := r3.step { writeOne with wopeState := .onDisk }
    nofun ⟨[{ shareOne with wopeState := .onJournal }],[],rfl,h4⟩
  refine ⟨_,_,{ writeOne with wopeState := .onDisk },7,hstart,r4,by simp,?_,?_⟩
  · change (7 : Int64) ∈ (w2.copyAll sampleStore _).serials (generation 1).key
    rw [World.copyAll_serials,hlist]
    exact List.mem_singleton.2 rfl
  · change ¬(w2.copyAll sampleStore _).OnDisk sampleStore 7
    rw [World.OnDisk,World.copyAll_diskFile,if_neg (by rw [hcount];decide),
      World.afterWOPE_files,World.addBlocks_diskFile,World.afterWOPE_files,
      World.addBlocks_diskFile]
    exact Bool.false_ne_true

/-- Two writes one after the other. The second keeps the block that the first has brought to disk. -/
theorem primaryDiskWrite_onDisk_both : ∃ n,
    PhaseRun sampleStore (fun n wopelog => BaseJournaled n wopelog ∧
      KeptOnDisk sampleStore n wopelog) ⟨oneVersion,[writeOne,growOne],[]⟩ n ∧
    n.world.serials growOne.newKey = [7,9] ∧
    ∀ s ∈ n.world.serials growOne.newKey, n.world.OnDisk sampleStore s := by
  let w1 := oneVersion.afterWOPE sampleStore writeOne.wope
  let w2 := w1.copyAll sampleStore (w1.serials (generation 1).key)
  let w3 := w2.afterWOPE sampleStore growOne.wope
  have htidy1 : w1.Tidy := tidy_oneVersion.afterWOPE sampleStore (by decide)
  have htidy2 : w2.Tidy := htidy1.copyAll sampleStore _
  have htidy3 : w3.Tidy := htidy2.afterWOPE sampleStore (by decide)
  have hnone : oneVersion.kept writeOne.wope = [] := by decide
  have hkept : w2.kept growOne.wope = [7] := by decide
  have hdisk : (w2.files (sampleStore.diskFile 7)).isSome := by decide +kernel
  have hlist : w3.serials growOne.newKey = [7,9] := by decide
  have hrange : growOne.wope.InRange (w2.serials growOne.wope.ghobj.key).length :=
    ⟨rfl,rfl,by simp [growOne],by decide⟩
  have hstart : Accepted ⟨oneVersion,[writeOne,growOne],[]⟩ :=
    ⟨tidy_oneVersion,rfl,by decide,by decide⟩
  let allowed := fun n wopelog => BaseJournaled n wopelog ∧ KeptOnDisk sampleStore n wopelog
  have r0 : PhaseRun sampleStore allowed ⟨oneVersion,[writeOne,growOne],[]⟩
      ⟨oneVersion,[writeOne,growOne],[]⟩ := .start
  have r1 := r0.step writeOne ⟨fun _ => ⟨rfl,inRange_writeOne⟩,fun _ s hs => by simp [hnone] at hs⟩
    ⟨[],[growOne],rfl,sampleStore.run_doWope_init writeOne _ rfl inRange_writeOne (by decide)⟩
  have r2 := r1.step { writeOne with wopeState := .onJournal } ⟨nofun,nofun⟩
    ⟨[growOne],[],rfl,sampleStore.run_doWope_onJournal _ _ htidy1 rfl⟩
  have r3 := r2.step { writeOne with wopeState := .onDisk } ⟨nofun,nofun⟩
    ⟨[growOne],[],rfl,sampleStore.run_doWope_onDisk _ _ rfl⟩
  have r4 := r3.step growOne ⟨fun _ => ⟨by decide,hrange⟩,fun _ s hs => by
      obtain rfl := List.mem_singleton.1 (hkept ▸ hs)
      exact hdisk⟩
    ⟨[],[],rfl,sampleStore.run_doWope_init growOne _ rfl hrange (by decide)⟩
  have r5 := r4.step { growOne with wopeState := .onJournal } ⟨nofun,nofun⟩
    ⟨[],[],rfl,sampleStore.run_doWope_onJournal _ _ htidy3 rfl⟩
  have r6 := r5.step { growOne with wopeState := .onDisk } ⟨nofun,nofun⟩
    ⟨[],[],rfl,sampleStore.run_doWope_onDisk _ _ rfl⟩
  refine ⟨_,r6,(w3.copyAll_serials sampleStore _ _).trans hlist,fun s hs => ?_⟩
  exact primaryDiskWrite_onDisk sampleStore hstart r6 { growOne with wopeState := .onDisk }
    (by simp) hs

end GDFileStore
