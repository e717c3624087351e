import GDFileStore.Blocks.Tidy

/-! What each phase of `do_wope` does to a node. -/
namespace GDFileStore
open Sequences Program Prog

namespace World
variable (fs : FileStore)

/-- The copy of a block's journal file, if it has one, to the disk root. -/
def copyFile (w : World) (s : Int64) : World :=
  match w.files (fs.journalFile s) with
  | none => w
  | some content => { w with files := Function.update w.files (fs.diskFile s) (some content) }

/-- The copy of a block, made only when its count is one. -/
def copyBlock (w : World) (s : Int64) : World := if w.refCount s = 1 then w.copyFile fs s else w

/-- The loop of the `onJournal` phase over a list. -/
def copyAll (w : World) (l : List Int64) : World := l.foldl (copyBlock fs) w

/-- The block has a file under the disk root. -/
def OnDisk (w : World) (s : Int64) : Prop := (w.files (fs.diskFile s)).isSome

variable (w : World)

lemma handle_copy (s : Int64) :
    Request.handle (.copy (fs.journalFile s) (getParentStr (fs.diskFile s))) w =
      some ((w.files (fs.journalFile s)).isSome,w.copyFile fs s) := by
  cases h : w.files (fs.journalFile s) <;> simp [Request.handle,copyFile,h,fs.copy_target]

/-- The copy changes nothing but the block's file under the disk root. -/
lemma copyFile_eq (s : Int64) : w.copyFile fs s = { w with
    files := Function.update w.files (fs.diskFile s)
      ((w.files (fs.journalFile s)).or (w.files (fs.diskFile s))) } := by
  cases h : w.files (fs.journalFile s) <;> simp [copyFile,h]

lemma copyBlock_objs (s : Int64) : (w.copyBlock fs s).objs = w.objs := by
  rw [copyBlock,copyFile_eq]
  split <;> rfl

lemma copyBlock_blocks (s : Int64) : (w.copyBlock fs s).blocks = w.blocks := by
  rw [copyBlock,copyFile_eq]
  split <;> rfl

lemma copyBlock_clock (s : Int64) : (w.copyBlock fs s).clock = w.clock := by
  rw [copyBlock,copyFile_eq]
  split <;> rfl

lemma copyBlock_journalFile (s t : Int64) :
    (w.copyBlock fs s).files (fs.journalFile t) = w.files (fs.journalFile t) := by
  rw [copyBlock,copyFile_eq]
  split
  · exact Function.update_of_ne (fs.journalFile_ne_diskFile t s) _ _
  · rfl

lemma copyBlock_diskFile [fs.hash.Separates] (s t : Int64) : (w.copyBlock fs s).files
    (fs.diskFile t) =
    if t = s ∧ w.refCount t = 1 then
      (w.files (fs.journalFile t)).or (w.files (fs.diskFile t))
    else w.files (fs.diskFile t) := by
  rw [copyBlock,copyFile_eq]
  by_cases hts : t = s
  · subst hts
    split <;> simp_all
  · simp only [hts,false_and,if_false]
    split
    · exact Function.update_of_ne (fun h => hts (fs.diskFile_inj.1 h)) _ _
    · rfl

@[simp] lemma copyAll_nil : w.copyAll fs [] = w := rfl
@[simp] lemma copyAll_cons (s : Int64) (l : List Int64) :
    w.copyAll fs (s::l) = (w.copyBlock fs s).copyAll fs l := rfl

@[simp] lemma copyAll_objs (l : List Int64) : (w.copyAll fs l).objs = w.objs := by
  induction l generalizing w with
  | nil => rfl
  | cons s l ih => rw [copyAll_cons,ih,copyBlock_objs]

@[simp] lemma copyAll_blocks (l : List Int64) : (w.copyAll fs l).blocks = w.blocks := by
  induction l generalizing w with
  | nil => rfl
  | cons s l ih => rw [copyAll_cons,ih,copyBlock_blocks]

@[simp] lemma copyAll_clock (l : List Int64) : (w.copyAll fs l).clock = w.clock := by
  induction l generalizing w with
  | nil => rfl
  | cons s l ih => rw [copyAll_cons,ih,copyBlock_clock]

@[simp] lemma copyAll_journalFile (l : List Int64) (t : Int64) :
    (w.copyAll fs l).files (fs.journalFile t) = w.files (fs.journalFile t) := by
  induction l generalizing w with
  | nil => rfl
  | cons s l ih => rw [copyAll_cons,ih,copyBlock_journalFile]

@[simp] lemma copyAll_refCount (l : List Int64) (s : Int64) :
    (w.copyAll fs l).refCount s = w.refCount s := by rw [refCount,copyAll_blocks,refCount]

@[simp] lemma copyAll_serials (l : List Int64) (key : GHKey) :
    (w.copyAll fs l).serials key = w.serials key := by rw [serials,copyAll_objs,serials]

/-- The loop copies exactly the listed blocks that count one. -/
theorem copyAll_diskFile [fs.hash.Separates] (l : List Int64) (t : Int64) : (w.copyAll fs l).files
    (fs.diskFile t) =
    if t ∈ l ∧ w.refCount t = 1 then
      (w.files (fs.journalFile t)).or (w.files (fs.diskFile t))
    else w.files (fs.diskFile t) := by
  induction l generalizing w with
  | nil => simp
  | cons s l ih =>
    have hcount : (w.copyBlock fs s).refCount t = w.refCount t := by
      rw [refCount,copyBlock_blocks,refCount]
    rw [copyAll_cons,ih,copyBlock_diskFile,copyBlock_journalFile,hcount]
    by_cases hts : t = s
    · subst hts
      by_cases hone : w.refCount t = 1
      · simp only [hone,and_true,List.mem_cons,true_or,if_true]
        split
        · rw [← Option.or_assoc,Option.or_self]
        · rfl
      · simp [hone]
    · simp [hts]

lemma Tidy.copyAll {w : World} (hw : w.Tidy) (l : List Int64) : (w.copyAll fs l).Tidy where
  clock_nodup := by simpa using hw.clock_nodup
  serials_nodup := by simpa using hw.serials_nodup
  unlisted := by
    intro s hs
    rw [listed_of_objs_eq w (copyAll_objs fs w l)]
    exact hw.unlisted s (by simpa using hs)
  recorded := by
    intro s hs
    rw [copyAll_blocks]
    exact hw.recorded s ((listed_of_objs_eq w (copyAll_objs fs w l) s).1 hs)

end World

namespace FileStore
variable (fs : FileStore)

/-- The `init` phase: the whole write, then the reply, then the queue. -/
theorem doWope_init {wopelog : WOpeLog} {n n' : Node} (hstate : wopelog.wopeState = .init)
    (h : run (Call.handle fs) (fs.doWope wopelog) n = some ((),n')) :
    n.world.Enough wopelog.wope ∧ n' =
      { world := n.world.afterWOPE fs wopelog.wope
        wopeLogs := n.wopeLogs ++ [{ wopelog with wopeState := .onJournal }]
        sent := n.sent ++ [.repWrite wopelog .primaryJournalWrite] } := by
  simp only [doWope,hstate,ask_eq,call_bind,done_bind] at h
  cases hrun : run Request.handle (fs.doWOPE wopelog) n.world with
  | none => simp [run,Call.handle,hrun] at h
  | some r =>
    obtain ⟨_,w⟩ := r
    obtain ⟨henough,rfl⟩ := fs.afterWOPE_of_run hrun
    simp [run,Call.handle,hrun] at h
    exact ⟨henough,h.symm⟩

theorem run_doWope_init (wopelog : WOpeLog) (n : Node) (hstate : wopelog.wopeState = .init)
    (hrange : wopelog.wope.InRange (n.world.serials wopelog.wope.ghobj.key).length)
    (henough : n.world.Enough wopelog.wope) :
    run (Call.handle fs) (fs.doWope wopelog) n = some ((),
      { world := n.world.afterWOPE fs wopelog.wope
        wopeLogs := n.wopeLogs ++ [{ wopelog with wopeState := .onJournal }]
        sent := n.sent ++ [.repWrite wopelog .primaryJournalWrite] }) := by
  simp only [doWope,hstate,ask_eq,call_bind,done_bind]
  simp [run,Call.handle,fs.run_doWOPE wopelog n.world hrange henough]

/-- One turn of the loop, for a block whose record carries its serial. -/
lemma run_copyLoop_cons {s : Int64} {l : List Int64} {n : Node} {rb : ReferedBlock}
    (hrb : n.world.blocks s = some rb) (hserial : rb.serial = s) :
    run (Call.handle fs) (fs.copyLoop (s::l)) n =
      run (Call.handle fs) (fs.copyLoop l) { n with world := n.world.copyBlock fs s } := by
  subst hserial
  have hget : Call.handle fs (.request (.getBlockAttr rb.serial)) n = some ((rb,true),n) := by
    simp [Call.handle,Request.handle,getAttr,hrb]
  have hcopy : Call.handle fs (.request (.copy (fs.journalFile rb.serial)
      (getParentStr (fs.diskFile rb.serial)))) n =
      some (_,{ n with world := n.world.copyFile fs rb.serial }) :=
    congrArg (Option.map _) (n.world.handle_copy fs rb.serial)
  have hcount : n.world.refCount rb.serial = rb.referCount := by simp [World.refCount,hrb]
  simp only [copyLoop,ask_eq,call_bind,done_bind]
  rw [run_call hget,World.copyBlock,hcount,fs.storagePath_journal,fs.storagePath_disk]
  by_cases hone : rb.referCount = 1
  · rw [if_pos hone,if_pos hone]
    exact run_call hcopy
  · rw [if_neg hone,if_neg hone]

lemma run_copyLoop {l : List Int64} {n : Node}
    (hl : ∀ s ∈ l, ∃ rb, n.world.blocks s = some rb ∧ rb.serial = s) :
    run (Call.handle fs) (fs.copyLoop l) n = some ((),{ n with world := n.world.copyAll fs l }) := by
  induction l generalizing n with
  | nil => rfl
  | cons s l ih =>
    obtain ⟨rb,hrb,hserial⟩ := hl s (by simp)
    rw [fs.run_copyLoop_cons hrb hserial,ih]
    · rfl
    · intro t ht
      rw [World.copyBlock_blocks]
      exact hl t (List.mem_cons_of_mem s ht)

/-- The `onJournal` phase. -/
theorem run_doWope_onJournal (wopelog : WOpeLog) (n : Node) (hn : n.world.Tidy)
    (hstate : wopelog.wopeState = .onJournal) :
    run (Call.handle fs) (fs.doWope wopelog) n = some ((),
      { world := n.world.copyAll fs (n.world.serials wopelog.wope.newGhobj.key)
        wopeLogs := n.wopeLogs ++ [{ wopelog with wopeState := .onDisk }]
        sent := n.sent }) := by
  have hrecords : ∀ s ∈ n.world.serials wopelog.wope.newGhobj.key,
      ∃ rb, n.world.blocks s = some rb ∧ rb.serial = s := by
    intro s hs
    exact hn.recorded s ⟨_,hs⟩
  simp only [doWope,hstate,ask_eq,call_bind,done_bind]
  rw [run_call rfl,run_bind]
  change (run _ (fs.copyLoop (n.world.serials wopelog.wope.newGhobj.key)) n).bind _ = _
  rw [fs.run_copyLoop hrecords]
  rfl

/-- The `onDisk` phase. -/
theorem run_doWope_onDisk (wopelog : WOpeLog) (n : Node) (hstate : wopelog.wopeState = .onDisk) :
    run (Call.handle fs) (fs.doWope wopelog) n = some ((),
      { n with sent := n.sent ++ [.repWrite wopelog .primaryDiskWrite] }) := by
  simp only [doWope,hstate]
  rfl

end FileStore
end GDFileStore
