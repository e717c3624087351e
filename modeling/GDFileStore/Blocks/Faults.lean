import GDFileStore.Blocks.Phases
import GDFileStore.Program.Simulation
import Mathlib.Data.List.TakeDrop

/-! The phases of a write when file operations fail. `addNewReferedBlock` ignores what `WriteFile`
returns and the copying loop catches what `filesystem::copy` throws, so both replies are sent
whatever has become of the files. -/
namespace GDFileStore
open Sequences Program Prog

/-- Which file operations fail: for each path none where the file cannot be opened for writing,
else how many bytes can be written to it. An operation that gets no further fails and leaves
what it has written. -/
abbrev Room := Bytes → Option ℕ

namespace Room
variable (room : Room)

/-- The whole content can be written at the path. -/
def Takes (path content : Bytes) : Prop := ∃ n ∈ room path, content.length ≤ n

/-- What is at a path with no file before once a content has been written there. -/
def left (path content : Bytes) : Option Bytes := (room path).map (fun n => content.take n)

lemma left_eq_some_iff {path content : Bytes} :
    room.left path content = some content ↔ room.Takes path content := by
  rw [left,Option.map_eq_some_iff,Takes]
  refine exists_congr fun n => and_congr_right fun _ => ?_
  exact List.take_eq_self_iff content

/-- A content that is written to one path, and what is left there to another. -/
lemma left_bind_left_iff {path path' content : Bytes} :
    (room.left path content).bind (room.left path') = some content ↔
      room.Takes path content ∧ room.Takes path' content := by
  rw [left,Takes,Takes]
  cases room path with
  | none => simp
  | some n =>
    cases hroom : room path' with
    | none => simp [left,hroom]
    | some m =>
      rw [Option.map_some,Option.bind_some,left,hroom,Option.map_some,List.take_take,
        Option.some.injEq,List.take_eq_self_iff,Nat.le_min]
      simp [and_comm]

end Room

namespace World

/-- A file is opened and written as far as there is room. -/
def store (room : Room) (w : World) (path content : Bytes) : World :=
  match room path with
  | none => w
  | some n => { w with files := Function.update w.files path (some (content.take n)) }

end World

/-- The outcome of a request when file operations fail as given: `WriteFile` returns false, and what
`copy` throws is caught where it is called. A `create_directories` that throws is not a case here. -/
def Request.handleFaulty (room : Room) : Handler Request.Resp World
  | .writeFile path content,w =>
    some ((room path).any (fun n => content.length ≤ n),w.store room path content)
  | .copy source directory,w =>
    match w.files source with
    | none => some (false,w)
    | some content =>
      let target := joinPath directory (fileName source)
      some ((room target).any (fun n => content.length ≤ n),w.store room target content)
  | .getObjAttr key,w => handle (.getObjAttr key) w
  | .setObjAttr key attr,w => handle (.setObjAttr key attr) w
  | .getBlockAttr serial,w => handle (.getBlockAttr serial) w
  | .setBlockAttr serial attr,w => handle (.setBlockAttr serial attr) w
  | .now,w => handle .now w
  | .readFile path,w => handle (.readFile path) w
  | .outOfRange,w => handle .outOfRange w

/-- The outcome of a call of `do_wope` when file operations fail as given. -/
def Call.handleFaulty (room : Room) (fs : FileStore) : Handler Call.Resp Node
  | .journal wopelog,n =>
    (run (Request.handleFaulty room) (fs.doWOPE wopelog) n.world).map
      (fun r => ((),{ n with world := r.2 }))
  | .request r,n =>
    (r.handleFaulty room n.world).map (fun a => (a.1,{ n with world := a.2 }))
  | .httpSend reply,n => some (true,{ n with sent := n.sent ++ [reply] })
  | .addWope wopelog,n => some ((),{ n with wopeLogs := n.wopeLogs ++ [wopelog] })

namespace World
variable {room : Room} {w : World}

@[simp] lemma store_objs (path content : Bytes) : (w.store room path content).objs = w.objs := by
  rw [store]
  split <;> rfl

@[simp] lemma store_blocks (path content : Bytes) :
    (w.store room path content).blocks = w.blocks := by
  rw [store]
  split <;> rfl

@[simp] lemma store_clock (path content : Bytes) :
    (w.store room path content).clock = w.clock := by
  rw [store]
  split <;> rfl

lemma store_files_ne {path other : Bytes} (content : Bytes) (h : other ≠ path) :
    (w.store room path content).files other = w.files other := by
  rw [store]
  split
  · rfl
  · exact Function.update_of_ne h _ _

/-- Where nothing can be opened there was no file. -/
lemma store_files_self {path : Bytes} (content : Bytes) (h : room path = none → w.files path = none) :
    (w.store room path content).files path = room.left path content := by
  rw [store,Room.left]
  cases hroom : room path with
  | none => exact h hroom
  | some n => exact Function.update_self _ _ _

/-- The world with failing file operations beside the one without: they differ in the files, and
at the given paths a file has what there was room for. -/
structure Beside (room : Room) (paths : Bytes → Prop) (v w : World) : Prop where
  objs : w.objs = v.objs
  blocks : w.blocks = v.blocks
  clock : w.clock = v.clock
  files : ∀ path, paths path → w.files path = (v.files path).bind (room.left path)

end World

namespace Request

/-- Neither a read nor a copy of a file. -/
def Blind : Request → Prop
  | .readFile _ => False
  | .copy _ _ => False
  | _ => True

/-- Answers that `do_WOPE` takes for equal: any two of `WriteFile`. -/
def Same (r : Request) (answer answer' : r.Resp) : Prop :=
  (∃ path content, r = .writeFile path content) ∨ answer = answer'

lemma eq_of_same {r : Request} (h : ∀ path content, r ≠ .writeFile path content)
    {answer answer' : r.Resp} (hs : r.Same answer answer') : answer = answer' := by
  rcases hs with ⟨path,content,hr⟩ | heq
  · exact absurd hr (h path content)
  · exact heq

/-- A failing write changes nothing but its own file. -/
lemma handleFaulty_beside {room : Room} {paths : Bytes → Prop} {r : Request} {v w v' : World}
    {answer : r.Resp} (hr : r.Blind) (h : World.Beside room paths v w)
    (hv : r.handle v = some (answer,v')) : ∃ answer' w',
      r.handleFaulty room w = some (answer',w') ∧ r.Same answer answer' ∧
        World.Beside room paths v' w' := by
  obtain ⟨hobjs,hblocks,hclock,hfiles⟩ := h
  cases r with
  | getObjAttr key =>
    cases hv
    refine ⟨_,w,rfl,.inr ?_,hobjs,hblocks,hclock,hfiles⟩
    rw [hobjs]
  | setObjAttr key attr =>
    cases hv
    exact ⟨(),_,rfl,.inr rfl,congrArg (AList.insert key attr) hobjs,hblocks,hclock,hfiles⟩
  | getBlockAttr serial =>
    cases hv
    refine ⟨_,w,rfl,.inr ?_,hobjs,hblocks,hclock,hfiles⟩
    rw [hblocks]
  | setBlockAttr serial attr =>
    cases hv
    exact ⟨(),_,rfl,.inr rfl,hobjs,by rw [hblocks],hclock,hfiles⟩
  | now =>
    cases hnow : v.clock with
    | nil => simp [handle,hnow] at hv
    | cons t clock =>
      simp only [handle,hnow,Option.some.injEq,Prod.mk.injEq] at hv
      obtain ⟨rfl,rfl⟩ := hv
      refine ⟨t,{ w with clock := clock },?_,.inr rfl,hobjs,hblocks,rfl,hfiles⟩
      simp [handleFaulty,handle,hclock,hnow]
  | writeFile path content =>
    cases hv
    refine ⟨_,w.store room path content,rfl,.inl ⟨path,content,rfl⟩,by simpa,by simpa,by simpa,?_⟩
    intro p hp
    change _ = (Function.update v.files path (some content) p).bind (room.left p)
    by_cases heq : p = path
    · subst heq
      rw [World.store_files_self,Function.update_self,Option.bind_some]
      intro hroom
      rw [hfiles p hp]
      cases v.files p with
      | none => rfl
      | some old => simp [Room.left,hroom]
    · rw [World.store_files_ne content heq,Function.update_of_ne heq]
      exact hfiles p hp
  | readFile path => exact hr.elim
  | copy source directory => exact hr.elim
  | outOfRange => cases hv

end Request

namespace FileStore
variable (fs : FileStore)

lemma outOfRange_insensitive {α : Type} :
    Insensitive Request.Blind Request.Same (outOfRange : Task α) :=
  .call_of_eq trivial (fun _ _ h => Request.eq_of_same (by simp) h) (fun answer => answer.elim)

lemma newBlock_insensitive {α : Type} (data : Bytes) {rest : ReferedBlock → Task α}
    (hrest : ∀ rb, Insensitive Request.Blind Request.Same (rest rb)) :
    Insensitive Request.Blind Request.Same
      (fs.addNewReferedBlock data fs.getJournalRBRoot >>= rest) := by
  simp only [addNewReferedBlock,ask_eq,call_bind,done_bind,pure_eq]
  refine .call_of_eq trivial (fun _ _ h => Request.eq_of_same (by simp) h) ?_
  intro serial
  exact ⟨trivial,fun _ _ _ => rfl,fun _ => hrest _⟩

lemma setBlockAttr_insensitive {α : Type} (serial : Int64) (attr : ReferedBlock) {rest : Task α}
    (hrest : Insensitive Request.Blind Request.Same rest) :
    Insensitive Request.Blind Request.Same
      (.call (.setBlockAttr serial attr) (fun _ => rest) : Task α) :=
  .call_of_eq trivial (fun _ _ h => Request.eq_of_same (by simp) h) (fun _ => hrest)

lemma editLoop_insensitive (types : List OpeType) (blockNums : List Int32)
    (blockDatas : List Bytes) (l : List Int64) :
    Insensitive Request.Blind Request.Same (fs.editLoop types blockNums blockDatas l) := by
  induction blockNums generalizing types blockDatas l with
  | nil =>
    rw [editLoop]
    trivial
  | cons blockNum blockNums ih =>
    cases types with
    | nil => exact outOfRange_insensitive
    | cons opetype types =>
      cases blockDatas with
      | nil => exact outOfRange_insensitive
      | cons blockData blockDatas =>
        simp only [editLoop]
        split
        · exact outOfRange_insensitive
        · cases opetype with
          | delete =>
            simp only
            split
            · exact ih types blockDatas _
            · exact outOfRange_insensitive
          | insert =>
            apply fs.newBlock_insensitive blockData
            intro rb
            exact setBlockAttr_insensitive _ _ (ih types blockDatas _)
          | overWrite =>
            apply fs.newBlock_insensitive blockData
            intro rb
            split
            · exact setBlockAttr_insensitive _ _ (ih types blockDatas _)
            · exact outOfRange_insensitive

lemma countLoop_insensitive (l : List Int64) :
    Insensitive Request.Blind Request.Same (countLoop l) := by
  induction l with
  | nil => trivial
  | cons rb l ih =>
    simp only [countLoop,ask_eq,call_bind,done_bind]
    refine .call_of_eq trivial (fun _ _ h => Request.eq_of_same (by simp) h) ?_
    intro answer
    exact setBlockAttr_insensitive _ _ ih

/-- `do_WOPE` does not look at what its writes return. -/
theorem doWOPE_insensitive (wopelog : WOpeLog) :
    Insensitive Request.Blind Request.Same (fs.doWOPE wopelog) := by
  simp only [doWOPE,ask_eq,call_bind,done_bind]
  refine .call_of_eq trivial (fun _ _ h => Request.eq_of_same (by simp) h) ?_
  intro answer
  refine .bind (fs.editLoop_insensitive _ _ _ _) ?_
  intro l
  refine .bind (countLoop_insensitive l) ?_
  intro _
  exact .call_of_eq trivial (fun _ _ h => Request.eq_of_same (by simp) h) (fun _ => trivial)

end FileStore

namespace World
variable (room : Room) (fs : FileStore)

/-- The copy of a block's journal file, if it has one, as far as there is room. -/
def copyFileFaulty (w : World) (s : Int64) : World :=
  match w.files (fs.journalFile s) with
  | none => w
  | some content => w.store room (fs.diskFile s) content

def copyBlockFaulty (w : World) (s : Int64) : World :=
  if w.refCount s = 1 then w.copyFileFaulty room fs s else w

def copyAllFaulty (w : World) (l : List Int64) : World := l.foldl (copyBlockFaulty room fs) w

/-- What a copy of the block can leave under the disk root. -/
def copied (w : World) (s : Int64) : Option Bytes :=
  (w.files (fs.journalFile s)).bind (room.left (fs.diskFile s))

variable (w : World)

lemma handleFaulty_copy (s : Int64) : ∃ ok,
    Request.handleFaulty room (.copy (fs.journalFile s) (getParentStr (fs.diskFile s))) w =
      some (ok,w.copyFileFaulty room fs s) := by
  rw [Request.handleFaulty,copyFileFaulty]
  cases w.files (fs.journalFile s) with
  | none => exact ⟨false,rfl⟩
  | some content =>
    refine ⟨(room (fs.diskFile s)).any (fun n => content.length ≤ n),?_⟩
    dsimp only
    rw [fs.copy_target]

lemma copyBlockFaulty_frame (s : Int64) : (w.copyBlockFaulty room fs s).objs = w.objs ∧
    (w.copyBlockFaulty room fs s).blocks = w.blocks ∧ ∀ t,
    (w.copyBlockFaulty room fs s).files (fs.journalFile t) = w.files (fs.journalFile t) := by
  rw [copyBlockFaulty,copyFileFaulty]
  split
  · split
    · exact ⟨rfl,rfl,fun _ => rfl⟩
    · refine ⟨store_objs _ _,store_blocks _ _,?_⟩
      intro t
      exact store_files_ne _ (fs.journalFile_ne_diskFile t s)
  · exact ⟨rfl,rfl,fun _ => rfl⟩

lemma copyBlockFaulty_refCount (s t : Int64) :
    (w.copyBlockFaulty room fs s).refCount t = w.refCount t := by
  rw [refCount,(copyBlockFaulty_frame room fs w s).2.1,refCount]

lemma copyBlockFaulty_copied (s t : Int64) :
    (w.copyBlockFaulty room fs s).copied room fs t = w.copied room fs t := by
  rw [copied,(copyBlockFaulty_frame room fs w s).2.2,copied]

/-- A block with no file under the disk root, or with what a copy leaves, has after the copy what
a copy leaves. -/
lemma copyBlockFaulty_diskFile [fs.hash.Separates] {t : Int64} (s : Int64)
    (h : w.files (fs.diskFile t) = none ∨ w.files (fs.diskFile t) = w.copied room fs t) :
    (w.copyBlockFaulty room fs s).files (fs.diskFile t) =
      if t = s ∧ w.refCount t = 1 then w.copied room fs t else w.files (fs.diskFile t) := by
  rw [copyBlockFaulty,copyFileFaulty]
  by_cases hts : t = s
  · subst hts
    by_cases hone : w.refCount t = 1
    · rw [if_pos hone,if_pos ⟨rfl,hone⟩]
      cases hfile : w.files (fs.journalFile t) with
      | none =>
        have hcopied : w.copied room fs t = none := by rw [copied,hfile,Option.bind_none]
        rcases h with h | h
        · exact h.trans hcopied.symm
        · exact h
      | some content =>
        rw [copied,hfile] at h ⊢
        apply store_files_self content
        intro hroom
        rcases h with h | h
        · exact h
        · rw [h,Option.bind_some,Room.left,hroom,Option.map_none]
    · simp [hone]
  · simp only [hts,false_and,if_false]
    split
    · split
      · rfl
      · exact store_files_ne _ (fun heq => hts (fs.diskFile_inj.1 heq))
    · rfl

lemma copyAllFaulty_diskFile [fs.hash.Separates] (l : List Int64) {t : Int64}
    (h : w.files (fs.diskFile t) = none ∨ w.files (fs.diskFile t) = w.copied room fs t) :
    (w.copyAllFaulty room fs l).files (fs.diskFile t) =
      if t ∈ l ∧ w.refCount t = 1 then w.copied room fs t else w.files (fs.diskFile t) := by
  induction l generalizing w with
  | nil => simp [copyAllFaulty]
  | cons s l ih =>
    have hstep := copyBlockFaulty_diskFile room fs w s h
    have hnext := ih (w.copyBlockFaulty room fs s) (by
      rw [copyBlockFaulty_copied,hstep]
      split
      · exact .inr rfl
      · exact h)
    rw [copyBlockFaulty_refCount,copyBlockFaulty_copied,hstep] at hnext
    apply hnext.trans
    by_cases hts : t = s
    · subst hts
      by_cases hone : w.refCount t = 1
      · simp [hone]
      · simp [hone]
    · simp [hts]

end World

namespace FileStore
variable (room : Room) (fs : FileStore)

/-- The init phase: the lists, the records and the clock are as without failures. -/
theorem doWope_init_faulty (wopelog : WOpeLog) (n : Node) (hstate : wopelog.wopeState = .init)
    (hrange : wopelog.wope.InRange (n.world.serials wopelog.wope.ghobj.key).length)
    (henough : n.world.Enough wopelog.wope) : ∃ w,
    run (Call.handleFaulty room fs) (fs.doWope wopelog) n = some ((),
      { world := w
        wopeLogs := n.wopeLogs ++ [{ wopelog with wopeState := .onJournal }]
        sent := n.sent ++ [.repWrite wopelog .primaryJournalWrite] }) ∧
    World.Beside room (fun path => n.world.files path = none)
      (n.world.afterWOPE fs wopelog.wope) w := by
  have hstart : World.Beside room (fun path => n.world.files path = none) n.world n.world := by
    refine ⟨rfl,rfl,rfl,?_⟩
    intro path hpath
    rw [hpath,Option.bind_none]
  obtain ⟨w,hrun,hbeside⟩ := run_simulates (World.Beside room _) Request.handleFaulty_beside
    (fs.doWOPE_insensitive wopelog) hstart (fs.run_doWOPE wopelog n.world hrange henough)
  refine ⟨w,?_,hbeside⟩
  simp only [doWope,hstate,ask_eq,call_bind,done_bind]
  simp [run,Call.handleFaulty,hrun]

lemma run_copyLoop_faulty {l : List Int64} {n : Node}
    (hl : ∀ s ∈ l, ∃ rb, n.world.blocks s = some rb ∧ rb.serial = s) :
    run (Call.handleFaulty room fs) (fs.copyLoop l) n =
      some ((),{ n with world := n.world.copyAllFaulty room fs l }) := by
  induction l generalizing n with
  | nil => rfl
  | cons s l ih =>
    obtain ⟨rb,hrb,hserial⟩ := hl s (by simp)
    subst hserial
    have hget : Call.handleFaulty room fs (.request (.getBlockAttr rb.serial)) n =
        some ((rb,true),n) := by
      simp [Call.handleFaulty,Request.handleFaulty,Request.handle,getAttr,hrb]
    have hcount : n.world.refCount rb.serial = rb.referCount := by simp [World.refCount,hrb]
    have hrest : ∀ w : World, w.blocks = n.world.blocks →
        run (Call.handleFaulty room fs) (fs.copyLoop l) { n with world := w } =
          some ((),{ n with world := w.copyAllFaulty room fs l }) := by
      intro w hw
      apply ih
      intro t ht
      rw [hw]
      exact hl t (List.mem_cons_of_mem _ ht)
    have hblocks := (World.copyBlockFaulty_frame room fs n.world rb.serial).2.1
    simp only [copyLoop,ask_eq,call_bind,done_bind]
    rw [run_call hget,fs.storagePath_journal,fs.storagePath_disk]
    change _ = some ((),{ n with
      world := World.copyAllFaulty room fs (n.world.copyBlockFaulty room fs rb.serial) l })
    rw [World.copyBlockFaulty,hcount] at hblocks ⊢
    by_cases hone : rb.referCount = 1
    · rw [if_pos hone] at hblocks ⊢
      rw [if_pos hone]
      obtain ⟨ok,hok⟩ := World.handleFaulty_copy room fs n.world rb.serial
      have hcopy : Call.handleFaulty room fs (.request (.copy (fs.journalFile rb.serial)
          (getParentStr (fs.diskFile rb.serial)))) n =
          some (ok,{ n with world := n.world.copyFileFaulty room fs rb.serial }) := by
        rw [Call.handleFaulty,hok]
        rfl
      rw [run_call hcopy]
      exact hrest _ hblocks
    · rw [if_neg hone,if_neg hone]
      exact hrest _ rfl

/-- The `onJournal` phase. -/
theorem doWope_onJournal_faulty (wopelog : WOpeLog) (n : Node)
    (hrecords : ∀ s ∈ n.world.serials wopelog.wope.newGhobj.key,
      ∃ rb, n.world.blocks s = some rb ∧ rb.serial = s)
    (hstate : wopelog.wopeState = .onJournal) :
    run (Call.handleFaulty room fs) (fs.doWope wopelog) n = some ((),
      { world := n.world.copyAllFaulty room fs (n.world.serials wopelog.wope.newGhobj.key)
        wopeLogs := n.wopeLogs ++ [{ wopelog with wopeState := .onDisk }]
        sent := n.sent }) := by
  simp only [doWope,hstate,ask_eq,call_bind,done_bind]
  rw [run_call rfl,run_bind]
  change (run _ (fs.copyLoop (n.world.serials wopelog.wope.newGhobj.key)) n).bind _ = _
  rw [fs.run_copyLoop_faulty room hrecords]
  rfl

end FileStore

/-- A worker runs the next phase of the first queued write while file operations fail. -/
def Node.faultyPhase (room : Room) (fs : FileStore) (n : Node) : Option Node :=
  match n.wopeLogs with
  | [] => none
  | wopelog::wopeLogs =>
    (run (Call.handleFaulty room fs) (fs.doWope wopelog) { n with wopeLogs := wopeLogs }).map
      Prod.snd

/-- The new blocks of a write that are still in its list when it is published. -/
def World.keptNews (w : World) (wope : WOPE) : List (Int64 × Bytes) :=
  (w.news wope).filter (fun b => b.1 ∈ w.newList wope)

/-- Each of the blocks has its complete file. -/
def World.Complete (w : World) (file : Int64 → Bytes) (blocks : List (Int64 × Bytes)) : Prop :=
  ∀ b ∈ blocks, w.files (file b.1) = some b.2

/-- No write of a journal file of one of the blocks fails. -/
def Room.Journals (room : Room) (fs : FileStore) (blocks : List (Int64 × Bytes)) : Prop :=
  ∀ b ∈ blocks, room.Takes (fs.journalFile b.1) b.2

/-- No copy of one of the blocks to its disk file fails. -/
def Room.Copies (room : Room) (fs : FileStore) (blocks : List (Int64 × Bytes)) : Prop :=
  ∀ b ∈ blocks, room.Takes (fs.diskFile b.1) b.2

/-- The three phases of a write under any pattern of failing file operations. Both replies are
sent; the first is true exactly when no `WriteFile` of a block that is still in the list has failed,
the second exactly when no copy of one has failed either. -/
theorem acknowledged_iff (fs : FileStore) [fs.hash.Separates] (room : Room) {w : World}
    {wopelog : WOpeLog}
    (htidy : w.Tidy) (hstate : wopelog.wopeState = .init)
    (hrange : wopelog.wope.InRange (w.serials wopelog.wope.ghobj.key).length)
    (henough : w.Enough wopelog.wope)
    (hfresh : ∀ s ∈ (w.news wopelog.wope).map Prod.fst,
      w.files (fs.journalFile s) = none ∧ w.files (fs.diskFile s) = none) :
    ∃ n₁ n₂ n₃, Node.faultyPhase room fs ⟨w,[wopelog],[]⟩ = some n₁ ∧
      n₁.faultyPhase room fs = some n₂ ∧ n₂.faultyPhase room fs = some n₃ ∧
      n₁.sent = [.repWrite wopelog .primaryJournalWrite] ∧
      n₃.sent = [.repWrite wopelog .primaryJournalWrite,
        .repWrite { wopelog with wopeState := .onDisk } .primaryDiskWrite] ∧
      (n₁.world.Complete fs.journalFile (w.keptNews wopelog.wope) ↔
        room.Journals fs (w.keptNews wopelog.wope)) ∧
      (n₃.world.Complete fs.diskFile (w.keptNews wopelog.wope) ↔
        room.Journals fs (w.keptNews wopelog.wope) ∧
        room.Copies fs (w.keptNews wopelog.wope)) := by
  obtain ⟨w₁,hinit,hbeside⟩ := fs.doWope_init_faulty room wopelog ⟨w,[],[]⟩ hstate hrange henough
  have hafter := htidy.afterWOPE fs henough
  have hlist : w₁.serials wopelog.wope.newGhobj.key = w.newList wopelog.wope := by
    rw [World.serials,hbeside.objs,World.afterWOPE_lookup,if_pos rfl]
    rfl
  have hrecords : ∀ s ∈ w₁.serials wopelog.wope.newGhobj.key,
      ∃ rb, w₁.blocks s = some rb ∧ rb.serial = s := by
    intro s hs
    rw [hbeside.blocks]
    refine hafter.recorded s ⟨wopelog.wope.newGhobj.key,?_⟩
    rwa [World.afterWOPE_serials,if_pos rfl,← hlist]
  have hjournal := fs.doWope_onJournal_faulty room { wopelog with wopeState := .onJournal }
    ⟨w₁,[],[.repWrite wopelog .primaryJournalWrite]⟩ hrecords rfl
  -- What the journal file of a new block holds after the first phase.
  have hleft : ∀ b ∈ w.keptNews wopelog.wope,
      w₁.files (fs.journalFile b.1) = room.left (fs.journalFile b.1) b.2 := by
    intro b hb
    have hnew := (List.mem_filter.1 hb).1
    have hfull : (w.afterWOPE fs wopelog.wope).files (fs.journalFile b.1) = some b.2 := by
      rw [World.afterWOPE_files]
      exact World.addBlocks_journalFile_of_mem fs w _ (htidy.news_nodup _) hnew
    rw [hbeside.files _ (hfresh b.1 (List.mem_map_of_mem hnew)).1,hfull,Option.bind_some]
  -- What the disk file holds after the second.
  have hcopied : ∀ b ∈ w.keptNews wopelog.wope,
      (w₁.copyAllFaulty room fs (w.newList wopelog.wope)).files (fs.diskFile b.1) =
        (room.left (fs.journalFile b.1) b.2).bind (room.left (fs.diskFile b.1)) := by
    intro b hb
    obtain ⟨hnew,hin⟩ := List.mem_filter.1 hb
    have hserial := List.mem_map_of_mem (f := Prod.fst) hnew
    have hin : b.1 ∈ w.newList wopelog.wope := by simpa using hin
    have hnone : w₁.files (fs.diskFile b.1) = none := by
      rw [hbeside.files _ (hfresh b.1 hserial).2,World.afterWOPE_files,
        World.addBlocks_diskFile,(hfresh b.1 hserial).2,Option.bind_none]
    have hone : w₁.refCount b.1 = 1 := by
      rw [World.refCount,hbeside.blocks]
      exact htidy.refCount_new fs hin hserial
    rw [World.copyAllFaulty_diskFile room fs w₁ _ (.inl hnone),if_pos ⟨hin,hone⟩,World.copied,
      hleft b hb]
  let w₂ := w₁.copyAllFaulty room fs (w₁.serials wopelog.wope.newGhobj.key)
  let n₁ : Node := ⟨w₁,[{ wopelog with wopeState := .onJournal }],
    [.repWrite wopelog .primaryJournalWrite]⟩
  let n₂ : Node := ⟨w₂,[{ wopelog with wopeState := .onDisk }],n₁.sent⟩
  let n₃ : Node := ⟨w₂,[],n₁.sent ++
    [.repWrite { wopelog with wopeState := .onDisk } .primaryDiskWrite]⟩
  have hw₂ : w₂ = w₁.copyAllFaulty room fs (w.newList wopelog.wope) := by rw [← hlist]
  refine ⟨n₁,n₂,n₃,congrArg (Option.map Prod.snd) hinit,congrArg (Option.map Prod.snd) hjournal,
    rfl,rfl,rfl,?_,?_⟩
  · apply forall₂_congr
    intro b hb
    rw [hleft b hb,room.left_eq_some_iff]
  · rw [Room.Journals,Room.Copies,← forall₂_and]
    apply forall₂_congr
    intro b hb
    change w₂.files (fs.diskFile b.1) = some b.2 ↔ _
    rw [hw₂,hcopied b hb,room.left_bind_left_iff]

/-- With room for every file, the first write of a store is acknowledged truly. -/
theorem acknowledged_iff_first : ∃ n₁ n₂ n₃,
    Node.faultyPhase (fun _ => some 4096) sampleStore ⟨World.fresh [7],[firstWrite],[]⟩ = some n₁ ∧
    n₁.faultyPhase (fun _ => some 4096) sampleStore = some n₂ ∧
    n₂.faultyPhase (fun _ => some 4096) sampleStore = some n₃ ∧
    n₁.world.Complete sampleStore.journalFile [(7,lit "x")] ∧
    n₃.world.Complete sampleStore.diskFile [(7,lit "x")] := by
  have hkept : (World.fresh [7]).keptNews firstWrite.wope = [(7,lit "x")] := by decide
  have htidy : (World.fresh [7]).Tidy := World.tidy_fresh (by decide)
  obtain ⟨n₁,n₂,n₃,h₁,h₂,h₃,_,_,hjournal,hdisk⟩ := acknowledged_iff sampleStore
    (fun _ => some 4096) htidy (rfl : firstWrite.wopeState = .init)
    ⟨rfl,rfl,by simp [firstWrite],by decide⟩ (by decide) (fun _ _ => ⟨rfl,rfl⟩)
  rw [hkept] at hjournal hdisk
  have htakes : ∀ path, Room.Takes (fun _ => some 4096) path (lit "x") :=
    fun _ => ⟨4096,rfl,by decide⟩
  have hjournals : Room.Journals (fun _ => some 4096) sampleStore [(7,lit "x")] := by
    intro b hb
    rw [List.mem_singleton.1 hb]
    exact htakes _
  refine ⟨n₁,n₂,n₃,h₁,h₂,h₃,hjournal.2 hjournals,hdisk.2 ⟨hjournals,?_⟩⟩
  intro b hb
  rw [List.mem_singleton.1 hb]
  exact htakes _

/-- No file can be opened for writing: the store holds the new version, both replies are sent, and
its block has no file under either root. -/
theorem acknowledged_without_files : ∃ (w : World) (wopelog : WOpeLog) (n₁ n₂ n₃ : Node),
    w.Tidy ∧ wopelog.wopeState = .init ∧
    wopelog.wope.InRange (w.serials wopelog.wope.ghobj.key).length ∧ w.Enough wopelog.wope ∧
    (∀ path, w.files path = none) ∧
    Node.faultyPhase (fun _ => none) sampleStore ⟨w,[wopelog],[]⟩ = some n₁ ∧
    n₁.faultyPhase (fun _ => none) sampleStore = some n₂ ∧
    n₂.faultyPhase (fun _ => none) sampleStore = some n₃ ∧
    .repWrite wopelog .primaryJournalWrite ∈ n₁.sent ∧
    ¬n₁.world.Complete sampleStore.journalFile (w.keptNews wopelog.wope) ∧
    .repWrite { wopelog with wopeState := .onDisk } .primaryDiskWrite ∈ n₃.sent ∧
    ¬n₃.world.Complete sampleStore.diskFile (w.keptNews wopelog.wope) := by
  let start : Node := ⟨World.fresh [7],[firstWrite],[]⟩
  have heval : (do
      let n₁ ← start.faultyPhase (fun _ => none) sampleStore
      let n₂ ← n₁.faultyPhase (fun _ => none) sampleStore
      let n₃ ← n₂.faultyPhase (fun _ => none) sampleStore
      return (n₁.sent,n₁.world.files (sampleStore.journalFile 7),n₃.sent,
        n₃.world.files (sampleStore.diskFile 7))) =
      some ([.repWrite firstWrite .primaryJournalWrite],none,
        [.repWrite firstWrite .primaryJournalWrite,
          .repWrite { firstWrite with wopeState := .onDisk } .primaryDiskWrite],none) := by
    decide +kernel
  obtain ⟨n₁,h₁,heval⟩ := Option.bind_eq_some_iff.1 heval
  obtain ⟨n₂,h₂,heval⟩ := Option.bind_eq_some_iff.1 heval
  obtain ⟨n₃,h₃,heval⟩ := Option.bind_eq_some_iff.1 heval
  simp only [pure,Option.some.injEq,Prod.mk.injEq] at heval
  obtain ⟨hsent₁,hjournal,hsent₃,hdisk⟩ := heval
  have hkept : (7,lit "x") ∈ (World.fresh [7]).keptNews firstWrite.wope := by decide
  refine ⟨World.fresh [7],firstWrite,n₁,n₂,n₃,World.tidy_fresh (by decide),rfl,
    ⟨rfl,rfl,by simp [firstWrite],by decide⟩,by decide,fun _ => rfl,h₁,h₂,h₃,?_,?_,?_,?_⟩
  · simp [hsent₁]
  · intro hcomplete
    have hfile := hcomplete (7,lit "x") hkept
    dsimp only at hfile
    rw [hjournal] at hfile
    cases hfile
  · simp [hsent₃]
  · intro hcomplete
    have hfile := hcomplete (7,lit "x") hkept
    dsimp only at hfile
    rw [hdisk] at hfile
    cases hfile

end GDFileStore
