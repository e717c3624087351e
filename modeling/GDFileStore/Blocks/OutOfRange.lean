import GDFileStore.Blocks.Faults

/-! Requests as they are decoded, which nothing checks before they are run. A write or a read stays
in range exactly when its vectors and block numbers do, and a write that does not has by then stored
no list and counted no block. -/
namespace GDFileStore
open Sequences Program Prog

/-- A `WOPE` from a request body, with none for a type that is no enumerator. -/
structure DecodedWOPE where
  ghobj : GHObject
  newGhobj : GHObject
  types : List (Option OpeType)
  blockNums : List Int32
  blockDatas : List Bytes

/-- The accesses of the loop are in range, from a list of `n` blocks on: there is a type and a datum
for each block number, and the iterator stops where the edit may take place. -/
def LoopInRange : List (Option OpeType) → List Int32 → List Bytes → ℕ → Prop
  | _,[],_,_ => True
  | none::types,blockNum::blockNums,_::blockDatas,n =>
    blockNum.toInt.toNat ≤ n ∧ LoopInRange types blockNums blockDatas n
  | some opetype::types,blockNum::blockNums,blockData::blockDatas,n =>
    (toEdit opetype blockNum blockData).InRange n ∧
      LoopInRange types blockNums blockDatas ((toEdit opetype blockNum blockData).lengthAfter n)
  | _,_::_,_,_ => False

namespace FileStore
variable (fs : FileStore)

/-- The loop over the edits, with a turn that only moves the iterator for a type that the switch has
no case for. -/
def decodedLoop : List (Option OpeType) → List Int32 → List Bytes → List Int64 → Task (List Int64)
  | _,[],_,serialsList => pure serialsList
  | none::types,blockNum::blockNums,_::blockDatas,serialsList =>
    if serialsList.length < blockNum.toInt.toNat then outOfRange
    else decodedLoop types blockNums blockDatas serialsList
  | some opetype::types,blockNum::blockNums,blockData::blockDatas,serialsList => do
    let serialsList ← fs.editLoop [opetype] [blockNum] [blockData] serialsList
    decodedLoop types blockNums blockDatas serialsList
  | _,_::_,_,_ => outOfRange

/-- `Journal::do_WOPE` on a decoded request. -/
def doDecodedWOPE (wope : DecodedWOPE) : Task Unit := do
  let prb ← Task.getObjAttr wope.ghobj.key
  let orb := if prb.2 then prb.1 else { serialsList := [] }
  let serialsList ← fs.decodedLoop wope.types wope.blockNums wope.blockDatas orb.serialsList
  countLoop serialsList
  Task.setObjAttr wope.newGhobj.key { serialsList := serialsList }

lemma outOfRange_bind {α β : Type} (f : α → Task β) : outOfRange >>= f = outOfRange :=
  congrArg (Prog.call Request.outOfRange) (funext (fun e => e.elim))

/-- The loop over the edits, its first turn apart. -/
lemma editLoop_cons (opetype : OpeType) (types : List OpeType) (blockNum : Int32)
    (blockNums : List Int32) (blockData : Bytes) (blockDatas : List Bytes) (l : List Int64) :
    fs.editLoop (opetype::types) (blockNum::blockNums) (blockData::blockDatas) l =
      fs.editLoop [opetype] [blockNum] [blockData] l >>=
        fs.editLoop types blockNums blockDatas := by
  cases opetype with
  | delete =>
    simp only [editLoop]
    split_ifs with hpast hat
    · exact (outOfRange_bind _).symm
    · rfl
    · exact (outOfRange_bind _).symm
  | insert =>
    simp only [editLoop]
    split_ifs with hpast
    · exact (outOfRange_bind _).symm
    · rfl
  | overWrite =>
    simp only [editLoop]
    split_ifs with hpast hat
    · exact (outOfRange_bind _).symm
    · rfl
    · simp only [addNewReferedBlock,ask_eq,call_bind,done_bind,pure_eq,outOfRange_bind]

/-- On enumerators the loop is the one over the edits. -/
theorem decodedLoop_some (types : List OpeType) (blockNums : List Int32) (blockDatas : List Bytes)
    (l : List Int64) : fs.decodedLoop (types.map some) blockNums blockDatas l =
      fs.editLoop types blockNums blockDatas l := by
  induction blockNums generalizing types blockDatas l with
  | nil => cases types <;> simp [decodedLoop,editLoop]
  | cons blockNum blockNums ih =>
    cases types with
    | nil => rfl
    | cons opetype types =>
      cases blockDatas with
      | nil => rfl
      | cons blockData blockDatas =>
        rw [editLoop_cons,List.map_cons,decodedLoop]
        exact congrArg (fs.editLoop [opetype] [blockNum] [blockData] l >>= ·)
          (funext (ih types blockDatas))

end FileStore

/-- A request other than an access out of range. -/
def Request.Defined (r : Request) (_ : World) : Prop := r ≠ .outOfRange

/-- No version's list and no block's count differs from what it was, but for the serials drawn since
then, whose blocks may have been recorded with the count zero. -/
structure World.Unapplied (w t : World) : Prop where
  lists : t.objs = w.objs
  counts : ∃ drawn, w.clock = drawn ++ t.clock ∧
    ∀ s, t.refCount s = w.refCount s ∨ s ∈ drawn ∧ t.refCount s = 0

namespace World
variable {w u t : World}

lemma unapplied_refl (w : World) : Unapplied w w := ⟨rfl,[],rfl,fun _ => .inl rfl⟩

lemma Unapplied.trans (h : Unapplied w u) (h' : Unapplied u t) : Unapplied w t := by
  obtain ⟨hlists,drawn,hclock,hcounts⟩ := h
  obtain ⟨hlists',drawn',hclock',hcounts'⟩ := h'
  refine ⟨hlists'.trans hlists,drawn ++ drawn',by rw [hclock,hclock',List.append_assoc],?_⟩
  intro s
  rcases hcounts' s with hsame | ⟨hdrawn,hzero⟩
  · rcases hcounts s with hold | ⟨hdrawn,hzero⟩
    · exact .inl (hsame.trans hold)
    · exact .inr ⟨List.mem_append_left _ hdrawn,hsame.trans hzero⟩
  · exact .inr ⟨List.mem_append_right _ hdrawn,hzero⟩

/-- A serial is drawn, and a file written as far as there is room. -/
lemma unapplied_written {room : Room} {serial : Int64} {clock : List Int64} (path data : Bytes)
    (h : w.clock = serial::clock) :
    Unapplied w (({ w with clock := clock } : World).store room path data) where
  lists := store_objs path data
  counts := by
    refine ⟨[serial],?_,fun s => .inl ?_⟩
    · rw [h,store_clock,List.singleton_append]
    · rw [refCount,store_blocks,refCount]

/-- Its block is recorded. -/
lemma unapplied_recorded (room : Room) {serial : Int64} {clock : List Int64} (path data : Bytes)
    (h : w.clock = serial::clock) :
    let written := ({ w with clock := clock } : World).store room path data
    Unapplied w { written with
      blocks := Function.update written.blocks serial (some { serial := serial }) } where
  lists := store_objs path data
  counts := by
    refine ⟨[serial],by rw [h,store_clock,List.singleton_append],?_⟩
    intro s
    by_cases hs : s = serial
    · subst hs
      right
      simp [refCount]
    · left
      simp [refCount,Function.update_of_ne hs]

end World

namespace FileStore
variable (fs : FileStore) {room : Room} {w : World} {serial : Int64} {clock : List Int64}

lemma newBlock_requests_iff {α : Type} {data : Bytes} {rest : ReferedBlock → Task α}
    (h : w.clock = serial::clock) :
    Requests (Request.handleFaulty room) Request.Defined
      (fs.addNewReferedBlock data fs.getJournalRBRoot >>= rest) w ↔
    Requests (Request.handleFaulty room) Request.Defined (rest { serial := serial })
      (({ w with clock := clock } : World).store room (fs.journalFile serial) data) := by
  have hnow : Request.handleFaulty room .now w = some (serial,{ w with clock := clock }) := by
    simp [Request.handleFaulty,Request.handle,h]
  simp only [addNewReferedBlock,ask_eq,call_bind,done_bind,pure_eq]
  rw [Requests.call_iff hnow,Requests.call_iff rfl]
  simp only [Request.Defined,ne_eq,reduceCtorEq,not_false_eq_true,true_and]
  rfl

lemma run_newBlockFaulty {α : Type} {data : Bytes} {rest : ReferedBlock → Task α}
    (h : w.clock = serial::clock) : run (Request.handleFaulty room)
      (fs.addNewReferedBlock data fs.getJournalRBRoot >>= rest) w =
    run (Request.handleFaulty room) (rest { serial := serial })
      (({ w with clock := clock } : World).store room (fs.journalFile serial) data) := by
  have hnow : Request.handleFaulty room .now w = some (serial,{ w with clock := clock }) := by
    simp [Request.handleFaulty,Request.handle,h]
  simp only [addNewReferedBlock,ask_eq,call_bind,done_bind,pure_eq]
  rw [run_call hnow,run_call rfl]
  rfl

lemma not_requests_outOfRange {α : Type} :
    ¬Requests (Request.handleFaulty room) Request.Defined (outOfRange : Task α) w :=
  fun h => h.1 rfl

/-- What a turn leaves that ends: the list that its edit gives, and at most one reading less. -/
def TurnDone (e : Edit Bytes) (n : ℕ) (w : World) (l : List Int64) (t : World) : Prop :=
  l.length = e.lengthAfter n ∧ w.clock.length ≤ t.clock.length+1

/-- A turn stays in range exactly when its edit does, and then ends. -/
lemma turn_requests_iff (room : Room) (opetype : OpeType) (blockNum : Int32) (blockData : Bytes)
    (l : List Int64) (hclock : w.clock ≠ []) :
    (Requests (Request.handleFaulty room) Request.Defined
        (fs.editLoop [opetype] [blockNum] [blockData] l) w ↔
      (toEdit opetype blockNum blockData).InRange l.length) ∧
    ((toEdit opetype blockNum blockData).InRange l.length → ∃ l' t,
      run (Request.handleFaulty room) (fs.editLoop [opetype] [blockNum] [blockData] l) w =
        some (l',t) ∧ TurnDone (toEdit opetype blockNum blockData) l.length w l' t) := by
  obtain ⟨serial,clock,hserial⟩ := List.exists_cons_of_ne_nil hclock
  have hrest : w.clock.length ≤ (({ w with clock := clock } : World).store room
      (fs.journalFile serial) blockData).clock.length+1 := by
    rw [World.store_clock,hserial,List.length_cons]
  cases opetype with
  | delete =>
    by_cases hlt : blockNum.toInt.toNat < l.length
    · have hturn : fs.editLoop [.delete] [blockNum] [blockData] l =
          pure (l.eraseIdx blockNum.toInt.toNat) := by
        simp only [editLoop,if_neg (Nat.not_lt.2 hlt.le),if_pos hlt]
      rw [hturn]
      refine ⟨iff_of_true trivial hlt,fun _ => ⟨_,w,rfl,?_,Nat.le_succ _⟩⟩
      exact List.length_eraseIdx_of_lt hlt
    · have hturn : fs.editLoop [.delete] [blockNum] [blockData] l = outOfRange := by
        simp only [editLoop,if_neg hlt,ite_self]
      rw [hturn]
      exact ⟨iff_of_false not_requests_outOfRange hlt,fun hin => absurd hin hlt⟩
  | insert =>
    by_cases hle : blockNum.toInt.toNat ≤ l.length
    · simp only [editLoop,if_neg (Nat.not_lt.2 hle)]
      rw [fs.newBlock_requests_iff hserial,fs.run_newBlockFaulty hserial]
      refine ⟨iff_of_true ?_ hle,fun _ => ⟨_,_,rfl,?_,?_⟩⟩
      · exact ⟨by simp [Request.Defined],fun _ _ _ => trivial⟩
      · exact List.length_insertIdx_of_le_length hle _
      · exact hrest
    · have hturn : fs.editLoop [.insert] [blockNum] [blockData] l = outOfRange := by
        simp only [editLoop,if_pos (Nat.lt_of_not_le hle)]
      rw [hturn]
      exact ⟨iff_of_false not_requests_outOfRange hle,fun hin => absurd hin hle⟩
  | overWrite =>
    by_cases hlt : blockNum.toInt.toNat < l.length
    · simp only [editLoop,if_neg (Nat.not_lt.2 hlt.le),if_pos hlt]
      rw [fs.newBlock_requests_iff hserial,fs.run_newBlockFaulty hserial]
      refine ⟨iff_of_true ?_ hlt,fun _ => ⟨_,_,rfl,?_,?_⟩⟩
      · exact ⟨by simp [Request.Defined],fun _ _ _ => trivial⟩
      · exact List.length_set
      · exact hrest
    · have hstuck : ¬Requests (Request.handleFaulty room) Request.Defined
          (fs.editLoop [.overWrite] [blockNum] [blockData] l) w := by
        simp only [editLoop,if_neg hlt]
        split
        · exact not_requests_outOfRange
        · rw [fs.newBlock_requests_iff hserial]
          exact not_requests_outOfRange
      exact ⟨iff_of_false hstuck hlt,fun hin => absurd hin hlt⟩

/-- The loop stays in range exactly when its accesses do. -/
theorem decodedLoop_requests_iff (room : Room) (types : List (Option OpeType))
    (blockNums : List Int32) (blockDatas : List Bytes) (l : List Int64)
    (hclock : blockNums.length ≤ w.clock.length) :
    Requests (Request.handleFaulty room) Request.Defined
      (fs.decodedLoop types blockNums blockDatas l) w ↔
    LoopInRange types blockNums blockDatas l.length := by
  induction blockNums generalizing types blockDatas l w with
  | nil => simp [decodedLoop,LoopInRange,Requests]
  | cons blockNum blockNums ih =>
    rw [List.length_cons] at hclock
    cases types with
    | nil => exact iff_of_false not_requests_outOfRange id
    | cons opetype types =>
      cases blockDatas with
      | nil => cases opetype <;> exact iff_of_false not_requests_outOfRange id
      | cons blockData blockDatas =>
        cases opetype with
        | none =>
          rw [decodedLoop,LoopInRange]
          split
          · next hpast => exact iff_of_false not_requests_outOfRange (fun h => by omega)
          · next hin =>
            rw [ih types blockDatas l (by omega),iff_and_self]
            exact fun _ => by omega
        | some opetype =>
          have hsome : w.clock ≠ [] := List.ne_nil_of_length_pos (by omega)
          obtain ⟨hturn,hends⟩ := fs.turn_requests_iff room opetype blockNum blockData l hsome
          rw [decodedLoop,LoopInRange,Requests.bind_iff,hturn]
          refine and_congr_right fun hin => ?_
          obtain ⟨l',t,hrun,hlength,hrest⟩ := hends hin
          rw [← hlength,← ih (w := t) types blockDatas l' (by omega)]
          refine ⟨fun hall => hall l' t hrun,fun hloop a u hrun' => ?_⟩
          rw [hrun] at hrun'
          cases hrun'
          exact hloop

lemma newBlock_unapplied {α : Type} {data : Bytes} {rest : ReferedBlock → Task α}
    {Q : α → World → Prop}
    (h : ∀ serial clock, w.clock = serial::clock →
      Always (Request.handleFaulty room) w.Unapplied (rest { serial := serial })
        (({ w with clock := clock } : World).store room (fs.journalFile serial) data) Q) :
    Always (Request.handleFaulty room) w.Unapplied
      (fs.addNewReferedBlock data fs.getJournalRBRoot >>= rest) w Q := by
  simp only [addNewReferedBlock,ask_eq,call_bind,done_bind,pure_eq]
  cases hclock : w.clock with
  | nil => exact .stuck w.unapplied_refl (by simp [Request.handleFaulty,Request.handle,hclock])
  | cons serial clock =>
    have hnow : Request.handleFaulty room .now w = some (serial,{ w with clock := clock }) := by
      simp [Request.handleFaulty,Request.handle,hclock]
    refine .call w.unapplied_refl hnow (.call ?_ rfl (h serial clock hclock))
    exact ⟨rfl,[serial],hclock,fun _ => .inl rfl⟩

/-- Up to the end of a turn no list and no count has changed. -/
lemma turn_always (room : Room) (opetype : OpeType) (blockNum : Int32) (blockData : Bytes)
    (l : List Int64) (w : World) :
    Always (Request.handleFaulty room) w.Unapplied
      (fs.editLoop [opetype] [blockNum] [blockData] l) w (fun _ t => w.Unapplied t) := by
  simp only [editLoop]
  split
  · exact .stuck w.unapplied_refl rfl
  · cases opetype with
    | delete =>
      dsimp only
      split
      · exact ⟨w.unapplied_refl,w.unapplied_refl⟩
      · exact .stuck w.unapplied_refl rfl
    | insert =>
      apply fs.newBlock_unapplied
      intro serial clock hclock
      have hrecorded := World.unapplied_recorded room (fs.journalFile serial) blockData hclock
      exact .call (World.unapplied_written _ _ hclock) rfl ⟨hrecorded,hrecorded⟩
    | overWrite =>
      apply fs.newBlock_unapplied
      intro serial clock hclock
      split
      · have hrecorded := World.unapplied_recorded room (fs.journalFile serial) blockData hclock
        exact .call (World.unapplied_written _ _ hclock) rfl ⟨hrecorded,hrecorded⟩
      · exact .stuck (World.unapplied_written _ _ hclock) rfl

theorem decodedLoop_always (room : Room) (types : List (Option OpeType)) (blockNums : List Int32)
    (blockDatas : List Bytes) (l : List Int64) (w : World) :
    Always (Request.handleFaulty room) w.Unapplied
      (fs.decodedLoop types blockNums blockDatas l) w (fun _ t => w.Unapplied t) := by
  induction blockNums generalizing types blockDatas l w with
  | nil =>
    rw [decodedLoop]
    exact ⟨w.unapplied_refl,w.unapplied_refl⟩
  | cons blockNum blockNums ih =>
    cases types with
    | nil => exact .stuck w.unapplied_refl rfl
    | cons opetype types =>
      cases blockDatas with
      | nil => cases opetype <;> exact .stuck w.unapplied_refl rfl
      | cons blockData blockDatas =>
        cases opetype with
        | none =>
          rw [decodedLoop]
          split
          · exact .stuck w.unapplied_refl rfl
          · exact ih types blockDatas l w
        | some opetype =>
          rw [decodedLoop]
          apply Always.bind (fs.turn_always room opetype blockNum blockData l w)
          intro l' u hu
          exact (ih types blockDatas l' u).mono (fun _ h => hu.trans h) (fun _ _ h => hu.trans h)

lemma countLoop_requests (room : Room) (l : List Int64) (w : World) :
    Requests (Request.handleFaulty room) Request.Defined (countLoop l) w := by
  induction l generalizing w with
  | nil => trivial
  | cons rb l ih =>
    simp only [countLoop,ask_eq,call_bind,done_bind]
    rw [Requests.call_iff rfl,Requests.call_iff rfl]
    exact ⟨by simp [Request.Defined],by simp [Request.Defined],ih _⟩

lemma publish_requests (room : Room) (key : GHKey) (l : List Int64) (w : World) :
    Requests (Request.handleFaulty room) Request.Defined (do
      countLoop l
      Task.setObjAttr key { serialsList := l }) w := by
  refine Requests.bind_iff.2 ⟨countLoop_requests room l w,fun _ u _ => ?_⟩
  exact ⟨by simp [Request.Defined],fun _ _ _ => trivial⟩

/-- On enumerators it is `do_WOPE` as before. -/
theorem doDecodedWOPE_some (wopelog : WOpeLog) :
    fs.doDecodedWOPE ⟨wopelog.wope.ghobj,wopelog.wope.newGhobj,wopelog.wope.types.map some,
      wopelog.wope.blockNums,wopelog.wope.blockDatas⟩ = fs.doWOPE wopelog := by
  simp only [doDecodedWOPE,doWOPE,decodedLoop_some]

lemma run_getObjAttr (room : Room) (key : GHKey) (w : World) :
    Request.handleFaulty room (.getObjAttr key) w = some (getAttr (w.objs.lookup key) {},w) := rfl

theorem doDecodedWOPE_requests_iff (room : Room) (wope : DecodedWOPE) (w : World)
    (hclock : wope.blockNums.length ≤ w.clock.length) :
    Requests (Request.handleFaulty room) Request.Defined (fs.doDecodedWOPE wope) w ↔
      LoopInRange wope.types wope.blockNums wope.blockDatas (w.serials wope.ghobj.key).length := by
  simp only [doDecodedWOPE,ask_eq,call_bind,done_bind]
  rw [Requests.call_iff (run_getObjAttr room wope.ghobj.key w),base_serialsList,Requests.bind_iff,
    fs.decodedLoop_requests_iff room _ _ _ _ hclock]
  exact ⟨fun h => h.2.1,fun h =>
    ⟨by simp [Request.Defined],h,fun l t _ => publish_requests room _ l t⟩⟩

/-- An access out of range is made with no list stored and no block counted. -/
theorem doDecodedWOPE_unapplied (room : Room) (wope : DecodedWOPE) (w : World) :
    Requests (Request.handleFaulty room) (fun r t => r = .outOfRange → w.Unapplied t)
      (fs.doDecodedWOPE wope) w := by
  simp only [doDecodedWOPE,ask_eq,call_bind,done_bind]
  rw [Requests.call_iff (run_getObjAttr room wope.ghobj.key w),Requests.bind_iff]
  refine ⟨fun heq => absurd heq (by simp),?_,?_⟩
  · exact .of_always (fs.decodedLoop_always room _ _ _ _ w) (fun _ _ h _ => h)
  · intro l t _
    exact (publish_requests room _ l t).mono (fun _ _ hne heq => absurd heq hne)

lemma readBlocks_requests_iff (room : Room) (serials : List Int64) (blocks : List Int32) (n : Node) :
    Requests (Call.handleFaulty room fs) (fun c _ => c ≠ .request .outOfRange)
      (fs.readBlocks serials blocks) n ↔
    ∀ b ∈ blocks, 0 ≤ b.toInt ∧ b.toInt < serials.length := by
  induction blocks with
  | nil => simp [readBlocks,Requests]
  | cons b blocks ih =>
    rw [List.forall_mem_cons,readBlocks]
    cases hserial : serials[b.toInt.toNat]? with
    | none =>
      have hpast := List.getElem?_eq_none_iff.1 hserial
      exact iff_of_false (fun h => h.1 rfl) (fun h => by omega)
    | some serial =>
      have hlt := (List.getElem?_eq_some_iff.1 hserial).1
      dsimp only
      split
      · next hnonneg =>
        simp only [ask_eq,call_bind,done_bind]
        have hread : Call.handleFaulty room fs (.request (.readFile
            (getReferedBlockStoragePath fs.hash { serial := serial } fs.getRBRoot))) n =
            some ((n.world.files
              (getReferedBlockStoragePath fs.hash { serial := serial } fs.getRBRoot)).getD [],n) := rfl
        rw [Requests.call_iff hread,Requests.bind_iff,ih]
        constructor
        · exact fun h => ⟨⟨hnonneg,by omega⟩,h.2.1⟩
        · exact fun h => ⟨by simp,h.2,fun _ _ _ => trivial⟩
      · next hneg => exact iff_of_false (fun h => h.1 rfl) (fun h => hneg h.1.1)

theorem doRope_requests_iff (room : Room) (ropelog : ROpeLog) (n : Node) :
    Requests (Call.handleFaulty room fs) (fun c _ => c ≠ .request .outOfRange)
      (fs.doRope ropelog) n ↔
    ∀ b ∈ ropelog.rope.blocks,
      0 ≤ b.toInt ∧ b.toInt < (n.world.serials ropelog.rope.ghobj.key).length := by
  simp only [doRope,ask_eq,call_bind,done_bind]
  have hattr : Call.handleFaulty room fs (.request (.getObjAttr ropelog.rope.ghobj.key)) n =
      some (getAttr (n.world.objs.lookup ropelog.rope.ghobj.key) {},n) := rfl
  rw [Requests.call_iff hattr,Requests.bind_iff,readBlocks_requests_iff]
  refine ⟨fun h => h.2.1,fun h => ⟨by simp,h,fun _ _ _ => ?_⟩⟩
  exact ⟨by simp,fun _ _ _ => trivial⟩

/-- Whatever a server decodes and its store holds, also where file operations fail: a write makes
only accesses in range exactly when its vectors and block numbers are in range of the list that it
edits, one that does not has stored no list and counted no block by then, and a read makes only
accesses in range exactly when its indices are those of the stored list. -/
theorem requests_in_range (room : Room) (n : Node) (wope : DecodedWOPE) (ropelog : ROpeLog)
    (hclock : wope.blockNums.length ≤ n.world.clock.length) :
    (Requests (Request.handleFaulty room) Request.Defined (fs.doDecodedWOPE wope) n.world ↔
      LoopInRange wope.types wope.blockNums wope.blockDatas
        (n.world.serials wope.ghobj.key).length) ∧
    Requests (Request.handleFaulty room) (fun r t => r = .outOfRange → n.world.Unapplied t)
      (fs.doDecodedWOPE wope) n.world ∧
    (Requests (Call.handleFaulty room fs) (fun c _ => c ≠ .request .outOfRange)
      (fs.doRope ropelog) n ↔ ∀ b ∈ ropelog.rope.blocks,
        0 ≤ b.toInt ∧ b.toInt < (n.world.serials ropelog.rope.ghobj.key).length) :=
  ⟨fs.doDecodedWOPE_requests_iff room wope n.world hclock,
    fs.doDecodedWOPE_unapplied room wope n.world,fs.doRope_requests_iff room ropelog n⟩

/-- A first write with a negative block number and a type that is no enumerator, and a read of the
version before it is stored. -/
theorem requests_in_range_first :
    Requests (Request.handleFaulty (fun _ => none)) Request.Defined
      (sampleStore.doDecodedWOPE ⟨generation 0,generation 0,[some .insert,none],[-1,1],[lit "x",[]]⟩)
      (World.fresh [7,9]) ∧
    ¬Requests (Call.handleFaulty (fun _ => none) sampleStore) (fun c _ => c ≠ .request .outOfRange)
      (sampleStore.doRope ⟨[],⟨generation 0,[0]⟩,{}⟩) { world := World.fresh [7,9] } := by
  obtain ⟨hwope,-,hrope⟩ := sampleStore.requests_in_range (fun _ => none)
    { world := World.fresh [7,9] }
    ⟨generation 0,generation 0,[some .insert,none],[-1,1],[lit "x",[]]⟩
    ⟨[],⟨generation 0,[0]⟩,{}⟩ (by decide)
  refine ⟨hwope.2 ⟨by decide,by decide,trivial⟩,fun h => ?_⟩
  exact absurd (hrope.1 h 0 List.mem_cons_self).2 (by decide)

/-- A store with one block, counted once. -/
def oneBlock : World :=
  { blocks := fun s => if s = 7 then some { serial := 7, referCount := 1 } else none
    clock := [7,9] }

/-- A write that inserts a block, with a serial given before, and then deletes beyond the end. -/
theorem malformed_write : ∃ (w : World) (wope : DecodedWOPE),
    ¬Requests (Request.handleFaulty (fun _ => none)) Request.Defined
      (sampleStore.doDecodedWOPE wope) w ∧
    ¬Requests (Request.handleFaulty (fun _ => none))
      (fun r t => r = .outOfRange → ∀ s, t.refCount s = w.refCount s)
      (sampleStore.doDecodedWOPE wope) w := by
  refine ⟨oneBlock,⟨generation 0,generation 0,[some .insert,some .delete],[0,5],[lit "x",[]]⟩,?_,?_⟩
  · intro h
    exact ((((h.2 _ _ rfl).2 _ _ rfl).2 _ _ rfl).2 _ _ rfl).1 rfl
  · intro h
    have hcount := ((((h.2 _ _ rfl).2 _ _ rfl).2 _ _ rfl).2 _ _ rfl).1 rfl 7
    exact absurd hcount (by decide)

end FileStore
end GDFileStore
