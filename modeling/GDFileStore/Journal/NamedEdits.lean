import GDFileStore.Journal.Content
import Mathlib.Algebra.Order.BigOperators.Group.List

/-! The four edits that the functions of `OperationWrapper` are named after, beside the operations
that they build. Only a write differs: its operation inserts before what the object holds. -/
namespace GDFileStore
open Sequences Program Prog

/-- A call of a function of `OperationWrapper`. -/
inductive Edit
  | write (data : Bytes)
  | insert (data : Bytes) (pos : Int32)
  | delete (spanBegin spanEnd : Int32)
  | append (data : Bytes)
  deriving DecidableEq, Repr

namespace Edit

/-- The operation that it builds. -/
def operation (gh : GHObject) : Edit → Operation
  | write data => OperationWrapper.writeWrapper gh data
  | insert data pos => OperationWrapper.insertWrapper gh data pos
  | delete spanBegin spanEnd => OperationWrapper.deleteWrapper gh spanBegin spanEnd
  | append data => OperationWrapper.appendWrapper gh data

/-- What its name says: a write replaces the whole content. -/
def edit (content : Bytes) : Edit → Bytes
  | write data => data
  | insert data pos => content.take pos.toInt.toNat ++ data ++ content.drop pos.toInt.toNat
  | delete spanBegin spanEnd =>
    content.take spanBegin.toInt.toNat ++ content.drop spanEnd.toInt.toNat
  | append data => content ++ data

/-- The bytes that it carries. -/
def data : Edit → Bytes
  | write data => data
  | insert data _ => data
  | delete _ _ => []
  | append data => data

def isWrite : Edit → Bool
  | write _ => true
  | _ => false

/-- Its positions are those of a content of this length. -/
def InRange (length : ℕ) : Edit → Prop
  | insert _ pos => 0 ≤ pos.toInt ∧ pos.toInt ≤ length
  | delete spanBegin spanEnd =>
    0 ≤ spanBegin.toInt ∧ spanBegin.toInt ≤ spanEnd.toInt ∧ spanEnd.toInt ≤ length
  | _ => True

instance (length : ℕ) (e : Edit) : Decidable (e.InRange length) := by
  unfold InRange
  split <;> infer_instance

/-- Every edit is in range of the content that the ones before it give. -/
def InRangeFrom : Bytes → List Edit → Prop
  | _,[] => True
  | content,e::edits => e.InRange content.length ∧ InRangeFrom (e.edit content) edits

/-- Every write comes when the ones before it have left nothing. -/
def WritesOnEmpty : Bytes → List Edit → Prop
  | _,[] => True
  | content,e::edits => (e.isWrite = true → content = []) ∧ WritesOnEmpty (e.edit content) edits

/-- The bytes that the edits carry, all together. -/
def carried (edits : List Edit) : ℕ := (edits.map (fun e => e.data.length)).sum

variable {gh : GHObject} {e : Edit} {edits : List Edit} {content : Bytes}

@[simp] lemma operation_obj (e : Edit) (gh : GHObject) : (e.operation gh).obj = gh := by
  cases e <;> rfl

lemma ofString_stop {data : Bytes} (h : data.length < 2^31) :
    (Slice.ofString data).stop.toInt = data.length := Int32Range.toInt_ofNat_of_lt h

lemma ofString_content {data : Bytes} (h : data.length < 2^31) :
    (Slice.ofString data).content = data := by
  have hstop := ofString_stop h
  simp only [Slice.content,Slice.ofString] at hstop ⊢
  simp [hstop]

lemma apply_write {data : Bytes} (h : data.length < 2^31) (content : Bytes) :
    Operation.apply content ((write data).operation gh) = data ++ content := by
  have hdata := ofString_content h
  simp [Operation.apply,operation,OperationWrapper.writeWrapper,Operation.position,hdata]

/-- The operation of any other edit does what its name says. -/
lemma apply_operation (h : e.data.length < 2^31) (hwrite : e.isWrite = false) (content : Bytes) :
    Operation.apply content (e.operation gh) = e.edit content := by
  cases e with
  | write data => cases hwrite
  | insert data pos =>
    have hdata : (Slice.ofString data).content = data := ofString_content h
    simp [Operation.apply,operation,OperationWrapper.insertWrapper,Operation.position,hdata,edit]
  | delete spanBegin spanEnd =>
    simp [Operation.apply,operation,OperationWrapper.deleteWrapper,Operation.position,
      Operation.deleteBegin,Operation.deleteEnd,edit]
  | append data =>
    have hdata : (Slice.ofString data).content = data := ofString_content h
    simp [Operation.apply,operation,OperationWrapper.appendWrapper,Operation.position,hdata,edit]

lemma ofString_extent {data : Bytes} (h : data.length < 2^31) :
    (Slice.ofString data).extent = data.length := by
  rw [Slice.extent,ofString_stop h]
  simp [Slice.ofString]

/-- An object that is longer than the content stays longer by as much, and by all that it holds
where a write should replace it. -/
lemma lengthAfter_operation (hdata : e.data.length < 2^31) (h : e.InRange content.length) (n : ℤ) :
    Operation.lengthAfter n (e.operation gh) =
      (e.edit content).length + (if e.isWrite then n else n-content.length) := by
  cases e with
  | write data =>
    have hextent : (Slice.ofString data).extent = data.length := ofString_extent hdata
    simp only [Operation.lengthAfter,operation,OperationWrapper.writeWrapper,hextent,edit,isWrite,
      if_true]
    omega
  | insert data pos =>
    have hextent : (Slice.ofString data).extent = data.length := ofString_extent hdata
    obtain ⟨h0,hle⟩ := h
    simp only [Operation.lengthAfter,operation,OperationWrapper.insertWrapper,hextent,edit,isWrite,
      List.length_append,List.length_take,List.length_drop,Bool.false_eq_true,if_false]
    omega
  | delete spanBegin spanEnd =>
    obtain ⟨h0,hle,hend⟩ := h
    simp only [Operation.lengthAfter,operation,OperationWrapper.deleteWrapper,Slice.extent,edit,
      isWrite,List.length_append,List.length_take,List.length_drop,Bool.false_eq_true,if_false]
    omega
  | append data =>
    have hextent : (Slice.ofString data).extent = data.length := ofString_extent hdata
    simp only [Operation.lengthAfter,operation,OperationWrapper.appendWrapper,hextent,edit,isWrite,
      List.length_append,Bool.false_eq_true,if_false]
    omega

lemma lengthAfter_le (hdata : e.data.length < 2^31) (h : e.InRange content.length) (n : ℤ) :
    Operation.lengthAfter n (e.operation gh) ≤ n+e.data.length := by
  cases e with
  | write data => exact (congrArg (n+·) (ofString_extent hdata)).le
  | insert data pos => exact (congrArg (n+·) (ofString_extent hdata)).le
  | delete spanBegin spanEnd =>
    have hle := h.2.1
    simp only [Operation.lengthAfter,operation,OperationWrapper.deleteWrapper,Slice.extent,Edit.data,
      List.length_nil]
    omega
  | append data => exact (congrArg (n+·) (ofString_extent hdata)).le

lemma inRange_operation {n : ℤ} (h : e.InRange content.length) (hle : content.length ≤ n)
    (hsum : n+e.data.length < 2^31) : Operation.InRange n (e.operation gh) := by
  have hdata : e.data.length < 2^31 := by omega
  cases e with
  | write data =>
    have hextent : (Slice.ofString data).extent = data.length := ofString_extent hdata
    simp only [Operation.InRange,operation,OperationWrapper.writeWrapper,Operation.position,hextent]
    simp only [Edit.data] at hsum
    exact ⟨by simp,by simp; omega,by omega,hsum⟩
  | insert data pos =>
    have hextent : (Slice.ofString data).extent = data.length := ofString_extent hdata
    simp only [Operation.InRange,operation,OperationWrapper.insertWrapper,Operation.position,hextent]
    simp only [Edit.data] at hsum
    exact ⟨h.1,h.2.trans hle,by omega,hsum⟩
  | delete spanBegin spanEnd =>
    simp only [Operation.InRange,operation,OperationWrapper.deleteWrapper,Operation.position,
      Operation.deleteBegin,Operation.deleteEnd,Int32.toInt_zero,zero_add]
    exact ⟨h.1,h.2.1,h.2.2.trans hle⟩
  | append data =>
    have hextent : (Slice.ofString data).extent = data.length := ofString_extent hdata
    simp only [Operation.InRange,operation,OperationWrapper.appendWrapper,Operation.position,hextent,
      Int32.toInt_zero,zero_add]
    simp only [Edit.data] at hsum
    exact ⟨by omega,le_rfl,by omega,hsum⟩

lemma carried_cons (e : Edit) (edits : List Edit) :
    carried (e::edits) = e.data.length + carried edits := rfl

lemma inRangeFrom_operations {n : ℤ} (h : InRangeFrom content edits) (hle : content.length ≤ n)
    (hsum : n+carried edits < 2^31) : Operation.InRangeFrom n (edits.map (operation gh)) := by
  induction edits generalizing content n with
  | nil => trivial
  | cons e edits ih =>
    obtain ⟨hfirst,hrest⟩ := h
    rw [carried_cons] at hsum
    have hdata : e.data.length < 2^31 := by omega
    have hgrowth : Operation.lengthAfter n (e.operation gh) ≤ n+e.data.length :=
      lengthAfter_le hdata hfirst n
    refine ⟨inRange_operation hfirst hle (by omega),ih hrest ?_ (by omega)⟩
    rw [lengthAfter_operation hdata hfirst]
    split <;> omega

lemma insertsWellFormed_operations (h : carried edits < 2^31) :
    Operation.InsertsWellFormed (edits.map (operation gh)) := by
  intro op hop htype
  obtain ⟨e,he,rfl⟩ := List.mem_map.1 hop
  have hdata : e.data.length < 2^31 :=
    (List.single_le_sum (by simp) _ (List.mem_map_of_mem he)).trans_lt h
  have hslice : ∀ {data : Bytes}, data.length < 2^31 → (Slice.ofString data).WellFormed := by
    intro data hlt
    have hstop := ofString_stop hlt
    exact ⟨{ data := data },rfl,le_rfl,by rw [hstop]; exact Int.natCast_nonneg _,hstop.le⟩
  cases e with
  | write data => exact hslice hdata
  | insert data pos => exact hslice hdata
  | delete spanBegin spanEnd => cases htype
  | append data => exact hslice hdata

/-- An object that is longer than the content stays longer. -/
lemma length_lt_foldl {n : ℤ} (h : InRangeFrom content edits) (hlt : content.length < n)
    (hcarried : carried edits < 2^31) : ((edits.foldl edit content).length : ℤ) <
      (edits.map (operation gh)).foldl Operation.lengthAfter n := by
  induction edits generalizing content n with
  | nil => exact hlt
  | cons e edits ih =>
    obtain ⟨hfirst,hrest⟩ := h
    rw [carried_cons] at hcarried
    refine ih hrest ?_ (by omega)
    rw [lengthAfter_operation (by omega) hfirst]
    split <;> omega

/-- The operations do what the names say exactly when nothing is left where a write comes. -/
theorem foldl_apply_eq_iff (h : InRangeFrom content edits)
    (hsum : content.length+carried edits < 2^31) :
    (edits.map (operation gh)).foldl Operation.apply content = edits.foldl edit content ↔
      WritesOnEmpty content edits := by
  induction edits generalizing content with
  | nil => simp [WritesOnEmpty]
  | cons e edits ih =>
    have hwf : Operation.InsertsWellFormed ((e::edits).map (operation gh)) :=
      insertsWellFormed_operations (by omega)
    have hlegal : Operation.InRangeFrom content.length ((e::edits).map (operation gh)) :=
      inRangeFrom_operations h le_rfl (by exact_mod_cast hsum)
    have hactual := Operation.length_foldl_apply hwf hlegal
    obtain ⟨hfirst,hrest⟩ := h
    rw [carried_cons] at hsum
    have hdata : e.data.length < 2^31 := by omega
    by_cases hempty : e.isWrite = true → content = []
    · have hsame : Operation.apply content (e.operation gh) = e.edit content := by
        cases hwrite : e.isWrite with
        | false => exact apply_operation hdata hwrite content
        | true =>
          cases e with
          | write data =>
            rw [hempty hwrite]
            exact (apply_write hdata []).trans (List.append_nil data)
          | _ => cases hwrite
      rw [List.map_cons,List.foldl_cons,List.foldl_cons,hsame,WritesOnEmpty,ih hrest ?_]
      · exact ⟨fun hlater => ⟨hempty,hlater⟩,fun hboth => hboth.2⟩
      · have hgrowth : Operation.lengthAfter content.length (e.operation gh) ≤
            content.length+e.data.length := lengthAfter_le hdata hfirst _
        rw [lengthAfter_operation hdata hfirst] at hgrowth
        split at hgrowth <;> omega
    · refine ⟨fun heq => ?_,fun hall => absurd hall.1 hempty⟩
      -- What the write should have replaced makes the object longer to the end.
      obtain ⟨hwrite,hcontent⟩ := Classical.not_imp.1 hempty
      have hpositive : 0 < content.length := List.length_pos_iff.2 hcontent
      have hlonger : ((edits.foldl edit (e.edit content)).length : ℤ) <
          (edits.map (operation gh)).foldl Operation.lengthAfter
            (Operation.lengthAfter content.length (e.operation gh)) := by
        refine length_lt_foldl hrest ?_ (by omega)
        rw [lengthAfter_operation hdata hfirst,if_pos hwrite]
        omega
      rw [heq] at hactual
      exact absurd hactual hlonger.ne

end Edit

namespace Journal
open Operation
variable {gh : GHObject} {edits : List Edit}

/-- Whatever the cuts of the edits of an object into calls: what the journal reads for it after a
last call that flushes is what the names of the edits say exactly when each write comes where the
ones before it have left nothing. -/
theorem handleAll_edits_iff (journal : Journal) (files : Bytes → Option Bytes)
    {calls : List JournalCall}
    (hedits : JournalCall.operations calls = edits.map (Edit.operation gh))
    (hrange : Edit.InRangeFrom (readFile files (journal.path gh)) edits)
    (hlength : (readFile files (journal.path gh)).length+Edit.carried edits < 2^31)
    (hlast : JournalCall.EndFlushed calls)
    (hslices : ∀ rest t, ¬Steps journal.handle (journal.handleAll calls) { files := files }
      (.call .outOfRange rest) t) :
    (∃ t, run journal.handle (journal.handleAll calls) { files := files } = some ((),t) ∧
      readFile t.files (journal.path gh) =
        edits.foldl Edit.edit (readFile files (journal.path gh))) ↔
      Edit.WritesOnEmpty (readFile files (journal.path gh)) edits := by
  have hobjs : JournalObjects {gh} := by
    rintro a rfl b rfl hne
    exact absurd rfl hne
  have hobj : ∀ op ∈ JournalCall.operations calls, op.obj = gh := by
    intro op hop
    rw [hedits] at hop
    obtain ⟨e,-,rfl⟩ := List.mem_map.1 hop
    exact e.operation_obj gh
  have hown : (JournalCall.operations calls).filter (fun op => op.obj = gh) =
      edits.map (Edit.operation gh) := by
    rw [List.filter_eq_self.2 (fun op hop => decide_eq_true (hobj op hop)),hedits]
  have hlegal : Legal (files (journal.path gh)) (edits.map (Edit.operation gh)) := by
    refine ⟨?_,Edit.insertsWellFormed_operations (by omega),?_⟩
    · exact (Nat.le_add_right _ _).trans_lt hlength
    · exact Edit.inRangeFrom_operations hrange le_rfl (by exact_mod_cast hlength)
  obtain ⟨t,hrun,hfile⟩ := handleAll_content journal hobjs files hobj
    (by rintro _ rfl; rwa [hown]) hlast hslices
  have hread : readFile t.files (journal.path gh) =
      (edits.map (Edit.operation gh)).foldl apply (readFile files (journal.path gh)) := by
    rw [readFile,hfile gh rfl,hown,getD_edited]
    rfl
  have hmeaning : (edits.map (Edit.operation gh)).foldl apply (readFile files (journal.path gh)) =
      edits.foldl Edit.edit (readFile files (journal.path gh)) ↔
        Edit.WritesOnEmpty (readFile files (journal.path gh)) edits :=
    Edit.foldl_apply_eq_iff hrange hlength
  rw [← hmeaning,← hread]
  constructor
  · intro hcontent
    obtain ⟨u,hrun',hsame⟩ := hcontent
    rw [hrun] at hrun'
    cases hrun'
    exact hsame
  · exact fun hsame => ⟨t,hrun,hsame⟩

/-- A write where nothing is left, after a delete of all that was there. -/
theorem handleAll_edits_iff_emptied : ∃ t, run sampleJournal.handle (sampleJournal.handleAll
      [.one (OperationWrapper.deleteWrapper (generation 1) 0 2) true,
        .one (OperationWrapper.writeWrapper (generation 1) (lit "c")) true])
      { files := fun _ => some (lit "ab") } = some ((),t) ∧
    readFile t.files (sampleJournal.path (generation 1)) = lit "c" := by
  have hrun : (run sampleJournal.handle (sampleJournal.handleAll
      [.one (OperationWrapper.deleteWrapper (generation 1) 0 2) true,
        .one (OperationWrapper.writeWrapper (generation 1) (lit "c")) true])
      { files := fun _ => some (lit "ab") }).isSome := by decide +kernel
  have hedits : JournalCall.operations
      [.one (OperationWrapper.deleteWrapper (generation 1) 0 2) true,
        .one (OperationWrapper.writeWrapper (generation 1) (lit "c")) true] =
      [Edit.delete 0 2,.write (lit "c")].map (Edit.operation (generation 1)) := rfl
  refine (handleAll_edits_iff sampleJournal (fun _ => some (lit "ab")) hedits ?_ (by decide)
    (by decide) ?_).2 ?_
  · exact ⟨⟨by decide,by decide,by decide⟩,trivial,trivial⟩
  · intro rest t hsteps
    rw [hsteps.run_eq] at hrun
    cases hrun
  · exact ⟨fun hwrite => absurd hwrite Bool.false_ne_true,fun _ => by decide,trivial⟩

/-- A write to an object that holds something is put in front of it. -/
theorem write_keeps_content : ∃ (gh : GHObject) (edits : List Edit) (calls : List JournalCall)
    (files : Bytes → Option Bytes) (t : JournalState),
    JournalCall.operations calls = edits.map (Edit.operation gh) ∧
    Edit.InRangeFrom (readFile files (sampleJournal.path gh)) edits ∧
    JournalCall.EndFlushed calls ∧
    run sampleJournal.handle (sampleJournal.handleAll calls) { files := files } = some ((),t) ∧
    readFile t.files (sampleJournal.path gh) ≠
      edits.foldl Edit.edit (readFile files (sampleJournal.path gh)) := by
  let calls : List JournalCall :=
    [.one (OperationWrapper.writeWrapper (generation 1) (lit "c")) true]
  have hrun : (run sampleJournal.handle (sampleJournal.handleAll calls)
      { files := fun _ => some (lit "ab") }).map
        (fun r => readFile r.2.files (sampleJournal.path (generation 1))) = some (lit "cab") := by
    decide +kernel
  obtain ⟨⟨_,t⟩,ht,hread⟩ := Option.map_eq_some_iff.1 hrun
  refine ⟨generation 1,[.write (lit "c")],calls,fun _ => some (lit "ab"),t,rfl,⟨trivial,trivial⟩,
    rfl,ht,?_⟩
  dsimp only at hread
  rw [hread]
  decide

end Journal
end GDFileStore
