import GDFileStore.Combine.Operations

/-! What a list of operations on one object means: edits of a byte string, the ranges that
are legal for them, and the edges that earlier edits leave behind. -/
namespace GDFileStore
open Int32Range

namespace Slice

/-- The number of bytes between the two ends, before any wrapping. -/
def extent (s : Slice) : ℤ := s.stop.toInt-s.start.toInt

/-- A slice whose ends are ordered and whose length an `int` can hold. -/
def Sized (s : Slice) : Prop := 0 ≤ s.extent ∧ s.extent < 2^31

/-- `0 <= start <= end <= size` of a present backing buffer. -/
def WellFormed (s : Slice) : Prop :=
  ∃ buffer, s.data = some buffer ∧ 0 ≤ s.start.toInt ∧ s.start.toInt ≤ s.stop.toInt ∧
    s.stop.toInt ≤ buffer.data.length

/-- The bytes a slice stands for. -/
def content (s : Slice) : Bytes :=
  match s.data with
  | none => []
  | some buffer => (buffer.data.take s.stop.toInt.toNat).drop s.start.toInt.toNat

instance (s : Slice) : Decidable s.WellFormed :=
  match h : s.data with
  | none => isFalse (by rintro ⟨b,hb,_⟩; simp [h] at hb)
  | some buffer =>
    decidable_of_iff (0 ≤ s.start.toInt ∧ s.start.toInt ≤ s.stop.toInt ∧
      s.stop.toInt ≤ buffer.data.length)
      ⟨fun hb => ⟨buffer,h,hb⟩,fun ⟨b,hb,hr⟩ => by rw [h] at hb; cases hb; exact hr⟩

end Slice

namespace Operation

/-- The file position in an object of length `n`, before any wrapping. -/
def position (op : Operation) (n : ℤ) : ℤ :=
  match op.filePos.fileAnchor with
  | .begin => op.filePos.offset.toInt
  | .finish => op.filePos.offset.toInt+n

/-- The range `[deleteBegin, deleteEnd)` a delete removes. -/
def deleteBegin (op : Operation) (n : ℤ) : ℤ := op.position n+op.data.start.toInt
def deleteEnd (op : Operation) (n : ℤ) : ℤ := op.position n+op.data.stop.toInt

/-- The plain edit of a byte string. -/
def apply (content : Bytes) (op : Operation) : Bytes :=
  match op.operationType with
  | .insert =>
    content.take (op.position content.length).toNat ++ op.data.content ++
      content.drop (op.position content.length).toNat
  | .delete =>
    content.take (op.deleteBegin content.length).toNat ++
      content.drop (op.deleteEnd content.length).toNat

def applyAll (ops : List Operation) : Bytes := ops.foldl apply []

def lengthAfter (n : ℤ) (op : Operation) : ℤ :=
  match op.operationType with
  | .insert => n+op.data.extent
  | .delete => n-op.data.extent

/-- An insert at a position of the object, or a delete of a range inside it, that keeps the
length in an `int`. -/
def InRange (n : ℤ) (op : Operation) : Prop :=
  match op.operationType with
  | .insert => 0 ≤ op.position n ∧ op.position n ≤ n ∧ 0 ≤ op.data.extent ∧
      n+op.data.extent < 2^31
  | .delete => 0 ≤ op.deleteBegin n ∧ op.deleteBegin n ≤ op.deleteEnd n ∧ op.deleteEnd n ≤ n

/-- Every operation is in range of the object that the ones before it leave. -/
def InRangeFrom : ℤ → List Operation → Prop
  | _,[] => True
  | n,op::ops => InRange n op ∧ InRangeFrom (lengthAfter n op) ops

/-- Inserts carry well-formed slices of present buffers. -/
def InsertsWellFormed (ops : List Operation) : Prop :=
  ∀ op ∈ ops, op.operationType = .insert → op.data.WellFormed

/-- The edges of the edited object: its two ends and every place where earlier inserted
bytes begin or end or where an earlier delete has joined two parts. -/
def edgesAfter (n : ℤ) (edges : List ℤ) (op : Operation) : List ℤ :=
  match op.operationType with
  | .insert =>
    edges.filter (· ≤ op.position n) ++ [op.position n,op.position n+op.data.extent] ++
      (edges.filter (op.position n ≤ ·)).map (·+op.data.extent)
  | .delete =>
    edges.filter (· ≤ op.deleteBegin n) ++ [op.deleteBegin n] ++
      (edges.filter (op.deleteEnd n ≤ ·)).map (·-op.data.extent)

/-- A delete that begins before the end of the object and, when it reaches that end, has no
edge strictly between. Inserts always pass. -/
def StopsShort (n : ℤ) (edges : List ℤ) (op : Operation) : Prop :=
  match op.operationType with
  | .insert => True
  | .delete => op.deleteBegin n < n ∧
      (op.deleteEnd n = n → ∀ p ∈ edges, ¬ (op.deleteBegin n < p ∧ p < n))

def StopsShortFrom : ℤ → List ℤ → List Operation → Prop
  | _,_,[] => True
  | n,edges,op::ops =>
    StopsShort n edges op ∧ StopsShortFrom (lengthAfter n op) (edgesAfter n edges op) ops

instance (n : ℤ) (op : Operation) : Decidable (InRange n op) := by
  unfold InRange; split <;> infer_instance

instance (n : ℤ) (edges : List ℤ) (op : Operation) : Decidable (StopsShort n edges op) := by
  unfold StopsShort; split <;> infer_instance

instance decidableInRangeFrom : ∀ (n : ℤ) (ops : List Operation), Decidable (InRangeFrom n ops)
  | _,[] => isTrue trivial
  | n,op::ops =>
    let _ := decidableInRangeFrom (lengthAfter n op) ops
    inferInstanceAs (Decidable (_ ∧ _))

instance decidableStopsShortFrom :
    ∀ (n : ℤ) (edges : List ℤ) (ops : List Operation), Decidable (StopsShortFrom n edges ops)
  | _,_,[] => isTrue trivial
  | n,edges,op::ops =>
    let _ := decidableStopsShortFrom (lengthAfter n op) (edgesAfter n edges op) ops
    inferInstanceAs (Decidable (_ ∧ _))

instance (ops : List Operation) : Decidable (InsertsWellFormed ops) :=
  inferInstanceAs (Decidable (∀ op ∈ ops, _))

end Operation
end GDFileStore
