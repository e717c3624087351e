import GDFileStore.Blocks.DoWOPE

/-! What a journaled write does to the world, request by request. Every state between two of its
requests is one of those of `InFlight`, and a write that ends leaves `afterWOPE`. -/
namespace GDFileStore
open Sequences Program Prog

def toEdit (opetype : OpeType) (blockNum : Int32) (blockData : Bytes) : Edit Bytes :=
  match opetype with
  | .insert => .insert blockNum.toInt.toNat blockData
  | .delete => .delete blockNum.toInt.toNat
  | .overWrite => .overWrite blockNum.toInt.toNat blockData

def toEdits : List OpeType → List Int32 → List Bytes → List (Edit Bytes)
  | opetype::types,blockNum::blockNums,blockData::blockDatas =>
    toEdit opetype blockNum blockData::toEdits types blockNums blockDatas
  | _,_,_ => []

namespace WOPE

/-- The plain list edits that a write asks for. -/
def edits (wope : WOPE) : List (Edit Bytes) := toEdits wope.types wope.blockNums wope.blockDatas

/-- The three vectors have one length, and the block numbers are in range from a list of `n`
blocks on. -/
structure InRange (wope : WOPE) (n : ℕ) : Prop where
  types : wope.types.length = wope.blockNums.length
  datas : wope.blockDatas.length = wope.blockNums.length
  nonneg : ∀ b ∈ wope.blockNums, 0 ≤ b.toInt
  edits : EditsInRange wope.edits n

end WOPE

namespace World

/-- A new block: its file under the journal root, then its record with count zero. -/
def addBlock (fs : FileStore) (w : World) (serial : Int64) (data : Bytes) : World :=
  { w with
    files := Function.update w.files (fs.journalFile serial) (some data)
    blocks := Function.update w.blocks serial (some { serial := serial })
    clock := w.clock.tail }

def addBlocks (fs : FileStore) (w : World) (news : List (Int64 × Bytes)) : World :=
  news.foldl (fun w b => w.addBlock fs b.1 b.2) w

/-- The blocks a write creates: each inserted or overwriting datum under the next reading. -/
def news (w : World) (wope : WOPE) : List (Int64 × Bytes) := w.clock.zip (values wope.edits)

/-- The list a write publishes. -/
def newList (w : World) (wope : WOPE) : List Int64 :=
  applyEdits ((nameEdits wope.edits w.clock).map (Edit.map Prod.fst)) (w.serials wope.ghobj.key)

/-- The world once every block of the new list is counted. -/
def counted (fs : FileStore) (w : World) (wope : WOPE) : World :=
  (w.addBlocks fs (w.news wope)).bumpAll (w.newList wope)

/-- The world after a whole write. -/
def afterWOPE (fs : FileStore) (w : World) (wope : WOPE) : World :=
  (w.counted fs wope).publish wope.newGhobj.key (w.newList wope)

/-- The clock still has a reading for every block the write creates. -/
def Enough (w : World) (wope : WOPE) : Prop := (values wope.edits).length ≤ w.clock.length

instance (w : World) (wope : WOPE) : Decidable (w.Enough wope) :=
  inferInstanceAs (Decidable ((values wope.edits).length ≤ w.clock.length))

end World

/-- The states between two requests of the loop over the edits `es` from `w`. -/
inductive Editing (fs : FileStore) : List (Edit Bytes) → World → World → Prop
  | here (es : List (Edit Bytes)) (w : World) : Editing fs es w w
  | stamped {e : Edit Bytes} {es : List (Edit Bytes)} {w : World} {data : Bytes} {serial : Int64}
      {clock : List Int64} : e.value = some data → w.clock = serial::clock →
      Editing fs (e::es) w { w with clock := clock }
  | written {e : Edit Bytes} {es : List (Edit Bytes)} {w : World} {data : Bytes} {serial : Int64}
      {clock : List Int64} : e.value = some data → w.clock = serial::clock →
      Editing fs (e::es) w { w with
        clock := clock, files := Function.update w.files (fs.journalFile serial) (some data) }
  | kept {e : Edit Bytes} {es : List (Edit Bytes)} {w w' : World} : e.value = none →
      Editing fs es w w' → Editing fs (e::es) w w'
  | added {e : Edit Bytes} {es : List (Edit Bytes)} {w w' : World} {data : Bytes} {serial : Int64}
      {clock : List Int64} : e.value = some data → w.clock = serial::clock →
      Editing fs es (w.addBlock fs serial data) w' → Editing fs (e::es) w w'

/-- The states between two requests of a write from `w`. -/
inductive InFlight (fs : FileStore) (wope : WOPE) (w : World) : World → Prop
  | editing {w' : World} : Editing fs wope.edits w w' → InFlight fs wope w w'
  | counting {done todo : List Int64} : w.Enough wope → w.newList wope = done ++ todo →
      InFlight fs wope w ((w.addBlocks fs (w.news wope)).bumpAll done)
  | published : w.Enough wope → InFlight fs wope w (w.afterWOPE fs wope)

namespace FileStore
variable (fs : FileStore)

/-- What the loop over the edits `es` leaves of the list `l` and the world `w`. -/
def EditsDone (es : List (Edit Bytes)) (l : List Int64) (w : World) (l' : List Int64)
    (w' : World) : Prop :=
  (values es).length ≤ w.clock.length ∧
    l' = applyEdits ((nameEdits es w.clock).map (Edit.map Prod.fst)) l ∧
    w' = w.addBlocks fs (w.clock.zip (values es))

lemma outOfRange_always {α : Type} {I : World → Prop} {w : World} {Q : α → World → Prop}
    (hI : I w) : Always Request.handle I (outOfRange : Task α) w Q := Always.stuck hI rfl

/-- A new block is written and recorded, or the clock has no reading left. -/
lemma newBlock_always {α : Type} {w : World} {data : Bytes} {e : Edit Bytes}
    {es : List (Edit Bytes)} {rest : ReferedBlock → Task α} {Q : α → World → Prop}
    (he : e.value = some data)
    (h : ∀ serial clock, w.clock = serial::clock →
      Always Request.handle (Editing fs (e::es) w) (rest { serial := serial })
        { w with
          clock := clock, files := Function.update w.files (fs.journalFile serial) (some data) } Q) :
    Always Request.handle (Editing fs (e::es) w)
      (fs.addNewReferedBlock data fs.getJournalRBRoot >>= rest) w Q := by
  simp only [addNewReferedBlock,ask_eq,call_bind,done_bind,pure_eq]
  cases hclock : w.clock with
  | nil => exact Always.stuck (.here _ _) (by simp [Request.handle,hclock])
  | cons serial clock =>
    have hnow : Request.handle .now w = some (serial,{ w with clock := clock }) := by
      simp [Request.handle,hclock]
    apply Always.call (.here _ _) hnow
    exact Always.call (.stamped he hclock) rfl (h serial clock hclock)

lemma record_eq_addBlock {w : World} {serial : Int64} {clock : List Int64} {data : Bytes}
    (h : w.clock = serial::clock) :
    Request.handle (.setBlockAttr serial { serial := serial })
      { w with
        clock := clock, files := Function.update w.files (fs.journalFile serial) (some data) } =
      some ((),w.addBlock fs serial data) := by
  simp [Request.handle,World.addBlock,h]

theorem editLoop_always (types : List OpeType) (blockNums : List Int32) (blockDatas : List Bytes)
    (l : List Int64) (w : World) :
    Always Request.handle (Editing fs (toEdits types blockNums blockDatas) w)
      (fs.editLoop types blockNums blockDatas l) w
      (fs.EditsDone (toEdits types blockNums blockDatas) l w) := by
  induction blockNums generalizing types blockDatas l w with
  | nil =>
    have hnil : toEdits types [] blockDatas = [] := by cases types <;> rfl
    rw [editLoop,hnil]
    exact ⟨.here _ _,by simp [EditsDone,nameEdits,applyEdits,World.addBlocks]⟩
  | cons blockNum blockNums ih =>
    cases types with
    | nil => exact outOfRange_always (.here _ _)
    | cons opetype types =>
      cases blockDatas with
      | nil => exact outOfRange_always (.here _ _)
      | cons blockData blockDatas =>
        simp only [editLoop,toEdits]
        split
        · exact outOfRange_always (.here _ _)
        · -- One case for each kind of edit; the loop goes on in the world it leaves.
          cases opetype with
          | delete =>
            simp only
            split
            · exact (ih types blockDatas _ w).mono (fun _ h => .kept rfl h) (fun _ _ h => h)
            · exact outOfRange_always (.here _ _)
          | insert =>
            apply fs.newBlock_always rfl
            intro serial clock hclock
            apply Always.call (.written rfl hclock) (fs.record_eq_addBlock hclock)
            apply (ih types blockDatas _ _).mono (fun _ h => .added rfl hclock h)
            intro l' w' h
            simpa [EditsDone,toEdit,nameEdits,applyEdits,Edit.map,Edit.apply,World.addBlocks,
              World.addBlock,hclock] using h
          | overWrite =>
            apply fs.newBlock_always rfl
            intro serial clock hclock
            split
            · apply Always.call (.written rfl hclock) (fs.record_eq_addBlock hclock)
              apply (ih types blockDatas _ _).mono (fun _ h => .added rfl hclock h)
              intro l' w' h
              simpa [EditsDone,toEdit,nameEdits,applyEdits,Edit.map,Edit.apply,World.addBlocks,
                World.addBlock,hclock] using h
            · exact outOfRange_always (.written rfl hclock)

theorem countLoop_always (l : List Int64) (w : World) :
    Always Request.handle (fun w' => ∃ done todo, l = done ++ todo ∧ w' = w.bumpAll done)
      (countLoop l) w (fun _ w' => w' = w.bumpAll l) := by
  induction l generalizing w with
  | nil => exact ⟨⟨[],[],rfl,rfl⟩,rfl⟩
  | cons rb l ih =>
    simp only [countLoop,ask_eq,call_bind,done_bind]
    apply Always.call ⟨[],rb::l,rfl,rfl⟩ rfl
    have hput : Request.handle (.setBlockAttr rb
        { (getAttr (w.blocks rb) ({} : ReferedBlock)).1 with
          referCount := (getAttr (w.blocks rb) ({} : ReferedBlock)).1.referCount+1 }) w =
        some ((),w.bump rb) := rfl
    apply Always.call ⟨[],rb::l,rfl,rfl⟩ hput
    refine (ih (w.bump rb)).mono ?_ (fun _ _ h => h)
    rintro w' ⟨done,todo,rfl,rfl⟩
    exact ⟨rb::done,todo,rfl,rfl⟩

lemma base_serialsList (w : World) (key : GHKey) :
    (if (getAttr (w.objs.lookup key) ({} : ObjectWithRB)).2 = true
      then (getAttr (w.objs.lookup key) ({} : ObjectWithRB)).1 else {}).serialsList =
      w.serials key := by
  cases h : w.objs.lookup key <;> simp [getAttr,World.serials,h]

/-- Every state of a write, between any two of its requests and at its end. -/
theorem doWOPE_always (wopelog : WOpeLog) (w : World) :
    Always Request.handle (InFlight fs wopelog.wope w) (fs.doWOPE wopelog) w
      (fun _ w' => w.Enough wopelog.wope ∧ w' = w.afterWOPE fs wopelog.wope) := by
  have hstart : InFlight fs wopelog.wope w w := .editing (.here _ _)
  simp only [doWOPE,ask_eq,call_bind,done_bind]
  apply Always.call hstart rfl
  rw [base_serialsList]
  refine Always.bind ((fs.editLoop_always _ _ _ _ w).mono (fun _ h => .editing h)
    (fun _ _ h => h)) ?_
  rintro l w1 ⟨henough,rfl,rfl⟩
  refine Always.bind ((countLoop_always _ _).mono ?_ (fun _ _ h => h)) ?_
  · rintro w' ⟨done,todo,hl,rfl⟩
    exact .counting henough hl
  · rintro _ w2 rfl
    apply Always.call (.counting henough (List.append_nil _).symm) rfl
    exact ⟨.published henough,henough,rfl⟩

theorem afterWOPE_of_run {wopelog : WOpeLog} {w w' : World}
    (h : run Request.handle (fs.doWOPE wopelog) w = some ((),w')) :
    w.Enough wopelog.wope ∧ w' = w.afterWOPE fs wopelog.wope :=
  (fs.doWOPE_always wopelog w).at_run h

lemma run_newBlock {α : Type} {w : World} {serial : Int64} {clock : List Int64} {data : Bytes}
    (rest : ReferedBlock → Task α) (h : w.clock = serial::clock) :
    run Request.handle (do
      let newRb ← fs.addNewReferedBlock data fs.getJournalRBRoot
      Task.setBlockAttr newRb.serial newRb
      rest newRb) w =
      run Request.handle (rest { serial := serial }) (w.addBlock fs serial data) := by
  simp [addNewReferedBlock,run,Request.handle,h,World.addBlock]
  rfl

/-- With the block numbers in range and readings enough, the loop runs to its end. -/
lemma editLoop_runs {types : List OpeType} {blockNums : List Int32} {blockDatas : List Bytes}
    {l : List Int64} {w : World} (htypes : types.length = blockNums.length)
    (hdatas : blockDatas.length = blockNums.length)
    (hedits : EditsInRange (toEdits types blockNums blockDatas) l.length)
    (hclock : (values (toEdits types blockNums blockDatas)).length ≤ w.clock.length) :
    (run Request.handle (fs.editLoop types blockNums blockDatas l) w).isSome := by
  induction blockNums generalizing types blockDatas l w with
  | nil => simp [editLoop]
  | cons blockNum blockNums ih =>
    obtain ⟨opetype,types,rfl⟩ := List.exists_cons_of_length_eq_add_one htypes
    obtain ⟨blockData,blockDatas,rfl⟩ := List.exists_cons_of_length_eq_add_one hdatas
    have ht : types.length = blockNums.length := by simpa using htypes
    have hd : blockDatas.length = blockNums.length := by simpa using hdatas
    simp only [toEdits,EditsInRange] at hedits
    obtain ⟨he,hes⟩ := hedits
    cases opetype with
    | delete =>
      have hlt : blockNum.toInt.toNat < l.length := he
      simp only [editLoop,if_neg (Nat.not_lt.2 hlt.le),if_pos hlt]
      refine ih ht hd ?_ hclock
      rw [List.length_eraseIdx_of_lt hlt]
      exact hes
    | insert =>
      have hle : blockNum.toInt.toNat ≤ l.length := he
      cases hw : w.clock with
      | nil => simp [toEdits,toEdit,hw] at hclock
      | cons serial clock =>
        simp only [editLoop,if_neg (Nat.not_lt.2 hle)]
        rw [fs.run_newBlock _ hw]
        refine ih ht hd ?_ ?_
        · rw [List.length_insertIdx_of_le_length hle]
          exact hes
        · simpa [toEdits,toEdit,World.addBlock,hw] using hclock
    | overWrite =>
      have hlt : blockNum.toInt.toNat < l.length := he
      cases hw : w.clock with
      | nil => simp [toEdits,toEdit,hw] at hclock
      | cons serial clock =>
        simp only [editLoop,if_neg (Nat.not_lt.2 hlt.le),if_pos hlt]
        rw [fs.run_newBlock _ hw]
        refine ih ht hd ?_ ?_
        · rw [List.length_set]
          exact hes
        · simpa [toEdits,toEdit,World.addBlock,hw] using hclock

lemma countLoop_runs (l : List Int64) (w : World) :
    (run Request.handle (countLoop l) w).isSome := by
  induction l generalizing w with
  | nil => rfl
  | cons rb l ih => exact ih (w.bump rb)

/-- A write whose block numbers are in range of its base list runs to its end. -/
theorem run_doWOPE (wopelog : WOpeLog) (w : World)
    (hrange : wopelog.wope.InRange (w.serials wopelog.wope.ghobj.key).length)
    (henough : w.Enough wopelog.wope) :
    run Request.handle (fs.doWOPE wopelog) w = some ((),w.afterWOPE fs wopelog.wope) := by
  have hsome : (run Request.handle (fs.doWOPE wopelog) w).isSome := by
    simp only [doWOPE,ask_eq,call_bind,done_bind]
    rw [run_call rfl,base_serialsList,run_bind]
    obtain ⟨⟨l,w1⟩,hl⟩ := Option.isSome_iff_exists.1
      (fs.editLoop_runs hrange.types hrange.datas hrange.edits henough)
    obtain ⟨⟨_,w2⟩,hc⟩ := Option.isSome_iff_exists.1 (countLoop_runs l w1)
    rw [hl]
    simp [run_bind,hc,run,Request.handle]
  obtain ⟨⟨_,w'⟩,hrun⟩ := Option.isSome_iff_exists.1 hsome
  rw [hrun,(fs.afterWOPE_of_run hrun).2]

end FileStore

/-- The first write of an object: one block into version 0. -/
def firstWrite : WOpeLog :=
  ⟨[],⟨generation 0,generation 0,[.insert],[0],[lit "x"]⟩,{},.init⟩

/-- A read of that block. -/
def readFirst : ROpeLog := ⟨lit "2",⟨generation 0,[0]⟩,{}⟩

/-- A new version that puts a block before those of version 0. -/
def writeOne : WOpeLog :=
  ⟨lit "1",⟨generation 0,generation 1,[.insert],[0],[lit "x"]⟩,{},.init⟩

/-- A new version that shares every block of version 0. -/
def shareWrite (n : ℕ) : WOpeLog := ⟨[],⟨generation 0,generation n,[],[],[]⟩,{},.init⟩

lemma inRange_noEdits (g g' : GHObject) (n : ℕ) : (WOPE.mk g g' [] [] []).InRange n :=
  ⟨rfl,rfl,by simp,trivial⟩

lemma newList_noEdits (w : World) (g g' : GHObject) :
    w.newList (WOPE.mk g g' [] [] []) = w.serials g.key := rfl

end GDFileStore
