import GDFileStore.Journal.Flush

/-! The groups of a flush, and what combining a group makes of the file its object had: the plain
edits, which compose over any cut of the operations. -/
namespace GDFileStore
open Sequences

namespace Operation

/-- The operations on an object, as far as the comparison of objects can tell. -/
def onObject (ops : List Operation) (gh : GHObject) : List Operation :=
  ops.filter (fun op => SameKey GHObject.lt op.obj gh)

/-- A file after operations on it. Without any the file is left alone, also where it is missing. -/
def edited (file : Option Bytes) (ops : List Operation) : Option Bytes :=
  if ops = [] then file else some (ops.foldl apply (file.getD []))

/-- Operations that are legal, one after another, for the content of a file. -/
structure Legal (file : Option Bytes) (ops : List Operation) : Prop where
  length : (file.getD []).length < 2^31
  inserts : InsertsWellFormed ops
  inRange : InRangeFrom (file.getD []).length ops

@[simp] lemma onObject_append (xs ys : List Operation) (gh : GHObject) :
    onObject (xs ++ ys) gh = onObject xs gh ++ onObject ys gh := List.filter_append _ _

@[simp] lemma mem_onObject {ops : List Operation} {gh : GHObject} {op : Operation} :
    op ∈ onObject ops gh ↔ op ∈ ops ∧ SameKey GHObject.lt op.obj gh := by simp [onObject]

lemma onObject_congr {a b : GHObject} (h : SameKey GHObject.lt a b) (ops : List Operation) :
    onObject ops a = onObject ops b := OrderedMap.filter_sameKey_congr Operation.obj h ops

lemma getD_edited (file : Option Bytes) (ops : List Operation) :
    (edited file ops).getD [] = ops.foldl apply (file.getD []) := by
  cases ops <;> rfl

lemma edited_append (file : Option Bytes) (xs ys : List Operation) :
    edited file (xs ++ ys) = edited (edited file xs) ys := by
  by_cases hys : ys = []
  · rw [hys,List.append_nil]
    rfl
  · have happend : xs ++ ys ≠ [] := by simp [hys]
    rw [edited,if_neg happend,edited,if_neg hys,getD_edited,List.foldl_append]

lemma inRangeFrom_append {n : ℤ} {xs ys : List Operation} :
    InRangeFrom n (xs ++ ys) ↔ InRangeFrom n xs ∧ InRangeFrom (xs.foldl lengthAfter n) ys := by
  induction xs generalizing n with
  | nil => simp [InRangeFrom]
  | cons op xs ih => simp [InRangeFrom,ih,and_assoc]

lemma insertsWellFormed_append {xs ys : List Operation} :
    InsertsWellFormed (xs ++ ys) ↔ InsertsWellFormed xs ∧ InsertsWellFormed ys := by
  simp only [InsertsWellFormed,List.mem_append,or_imp,forall_and]

lemma InRange.length_lt {n : ℤ} {op : Operation} (h : InRange n op) (hn : n < 2^31) :
    lengthAfter n op < 2^31 := by
  cases htype : op.operationType with
  | insert =>
    simp only [InRange,htype] at h
    simpa only [lengthAfter,htype] using h.2.2.2
  | delete =>
    have hspan := deleteEnd_sub_begin op n
    simp only [InRange,htype] at h
    simp only [lengthAfter,htype]
    omega

lemma InRangeFrom.length_lt {n : ℤ} {ops : List Operation} (h : InRangeFrom n ops)
    (hn : n < 2^31) : ops.foldl lengthAfter n < 2^31 := by
  induction ops generalizing n with
  | nil => exact hn
  | cons op ops ih => exact ih h.2 (h.1.length_lt hn)

lemma length_foldl_apply {content : Bytes} {ops : List Operation} (hwf : InsertsWellFormed ops)
    (h : InRangeFrom content.length ops) :
    ((ops.foldl apply content).length : ℤ) = ops.foldl lengthAfter content.length := by
  induction ops generalizing content with
  | nil => rfl
  | cons op ops ih =>
    have hlength := apply_length h.1 (hwf op List.mem_cons_self)
    have hrest := h.2
    rw [← hlength] at hrest
    rw [List.foldl_cons,List.foldl_cons,ih (fun o ho => hwf o (List.mem_cons_of_mem _ ho)) hrest,
      hlength]

/-- Legality composes as the edits do. -/
theorem legal_append {file : Option Bytes} {xs ys : List Operation} (h : Legal file (xs ++ ys)) :
    Legal file xs ∧ Legal (edited file xs) ys := by
  obtain ⟨hxs,hys⟩ := insertsWellFormed_append.1 h.inserts
  obtain ⟨hrange,hrest⟩ := inRangeFrom_append.1 h.inRange
  have hlength := length_foldl_apply hxs hrange
  have hlt := hrange.length_lt (by exact_mod_cast h.length)
  refine ⟨⟨h.length,hxs,hrange⟩,?_,hys,?_⟩
  · rw [getD_edited]
    omega
  · rwa [getD_edited,hlength]

/-- The write that a group starts with puts the content of the file there. -/
lemma writeWrapper_represents (gh : GHObject) {content : Bytes} (h : content.length < 2^31)
    {ops : List Operation} (hwf : InsertsWellFormed ops) (hrange : InRangeFrom content.length ops) :
    InsertsWellFormed (OperationWrapper.writeWrapper gh content::ops) ∧
      InRangeFrom 0 (OperationWrapper.writeWrapper gh content::ops) ∧
      (OperationWrapper.writeWrapper gh content::ops).foldl apply [] = ops.foldl apply content := by
  have hstop : (Int32.ofNat content.length).toInt = content.length :=
    Int32Range.toInt_ofNat_of_lt h
  have hextent : (Slice.ofString content).extent = content.length := by
    simp [Slice.extent,Slice.ofString,hstop]
  refine ⟨?_,⟨?_,?_⟩,?_⟩
  · intro op hop htype
    rcases List.mem_cons.1 hop with rfl | hop
    · exact ⟨{ data := content },rfl,by simp [OperationWrapper.writeWrapper,Slice.ofString],
        by simp [OperationWrapper.writeWrapper,Slice.ofString,hstop],
        by simp [OperationWrapper.writeWrapper,Slice.ofString,hstop]⟩
    · exact hwf op hop htype
  · simp only [InRange,OperationWrapper.writeWrapper,position,hextent]
    exact ⟨by simp,by simp,by omega,by omega⟩
  · simpa [lengthAfter,OperationWrapper.writeWrapper,hextent] using hrange
  · have hcontent : (Slice.ofString content).content = content := by
      simp [Slice.content,Slice.ofString,hstop]
    rw [List.foldl_cons]
    congr 1
    simp [apply,OperationWrapper.writeWrapper,hcontent]

end Operation

namespace Journal
open Operation
variable (journal : Journal) {files : Bytes → Option Bytes} {wOpes : List Operation}

lemma path_eq_iff {a b : GHObject} :
    journal.path a = journal.path b ↔ getObjUniqueStrDesc a = getObjUniqueStrDesc b :=
  List.append_right_inj _

/-- The vector of a group while the loop runs. -/
def extend (files : Bytes → Option Bytes) (found : Option (List Operation)) (ope : Operation) :
    List Operation :=
  (if (found.getD []).length = 0 then
      [OperationWrapper.writeWrapper ope.obj (readFile files (journal.path ope.obj))]
    else found.getD []) ++ [ope]

lemma groupOperations_eq_gather :
    journal.groupOperations files wOpes =
      OrderedMap.gather Operation.obj (journal.extend files) wOpes := rfl

lemma foldl_extend {v : List Operation} (hv : v ≠ []) (ops : List Operation) :
    ops.foldl (fun b o => journal.extend files (some b) o) v = v ++ ops := by
  induction ops generalizing v with
  | nil => simp
  | cons o ops ih =>
    have hextend : journal.extend files (some v) o = v ++ [o] := by simp [extend,hv]
    rw [List.foldl_cons,hextend,ih (by simp),List.append_assoc,List.singleton_append]

variable (files wOpes) in
/-- The group of an object: its operations in their order, after a write of what the file of the
first one's object holds. -/
theorem entry_groupOperations (gh : GHObject) :
    (journal.groupOperations files wOpes).entry gh =
      match onObject wOpes gh with
      | [] => none
      | o::os => some (o.obj,
        OperationWrapper.writeWrapper o.obj (readFile files (journal.path o.obj))::o::os) := by
  rw [groupOperations_eq_gather,OrderedMap.entry_gather,onObject]
  cases wOpes.filter (fun op => SameKey GHObject.lt op.obj gh) with
  | nil => rfl
  | cons o os =>
    have hfirst : journal.extend files none o =
        [OperationWrapper.writeWrapper o.obj (readFile files (journal.path o.obj)),o] := rfl
    simp only [hfirst,journal.foldl_extend (List.cons_ne_nil _ _)]
    rfl

lemma mem_groupOperations {e : GHObject × List Operation}
    (h : e ∈ (journal.groupOperations files wOpes).entries) :
    ∃ o os, onObject wOpes e.1 = o::os ∧ e = (o.obj,
      OperationWrapper.writeWrapper o.obj (readFile files (journal.path o.obj))::o::os) := by
  have hentry := OrderedMap.mem_entries_iff.1 h
  rw [journal.entry_groupOperations] at hentry
  cases hops : onObject wOpes e.1 with
  | nil => simp [hops] at hentry
  | cons o os =>
    rw [hops] at hentry
    exact ⟨o,os,rfl,(Option.some.inj hentry).symm⟩

/-- Where the operations are legal for the content of the file, combining them is the plain
edit. -/
theorem combined_eq {gh : GHObject} {file : Option Bytes} {ops : List Operation} {content : Bytes}
    (hlegal : Legal file ops)
    (h : combined (OperationWrapper.writeWrapper gh (file.getD [])::ops) = some content) :
    content = ops.foldl apply (file.getD []) := by
  obtain ⟨⟨slices,total⟩,hcombine,hbuffer⟩ := Option.bind_eq_some_iff.1 h
  obtain ⟨buf,hbuf,hcontent⟩ := Option.bind_eq_some_iff.1 hbuffer
  obtain ⟨hwf,hrange,hfold⟩ := writeWrapper_represents gh hlegal.length hlegal.inserts hlegal.inRange
  have hrep := combine_represents represents_empty hrange hwf hcombine
  rw [getBufferFromSlices_eq hrep.wellFormed,hrep.contents,hfold] at hbuf
  obtain rfl := Option.some.inj hbuf
  exact (Option.some.inj hcontent).symm

end Journal
end GDFileStore
