import GDFileStore.Serialize.Canonical
import GDFileStore.Serialize.Members

/-! What a read has taken: the bytes of the encoding of the value it gives, whatever the block it
was given, as long as the offset has not wrapped. -/
namespace GDFileStore
open Codec Int32Range

namespace Buffer

/-- From the one buffer to the other the offset has moved by `n` bytes. -/
structure Taken (b b' : Buffer) (n : ℕ) : Prop where
  data : b'.data = b.data
  nonneg : 0 ≤ b.offset.toInt
  offset : b'.offset.toInt = b.offset.toInt+n

variable {b b' b'' : Buffer} {m n : ℕ}

lemma Taken.refl (h : 0 ≤ b.offset.toInt) : Taken b b 0 := ⟨rfl,h,by simp⟩

lemma Taken.trans (h : Taken b b' m) (h' : Taken b' b'' n) : Taken b b'' (m+n) where
  data := h'.data.trans h.data
  nonneg := h.nonneg
  offset := by
    rw [h'.offset,h.offset,Nat.cast_add,add_assoc]

/-- Where the offset has not wrapped it has moved by the bytes that were taken. -/
lemma Took.taken {bytes : Bytes} (h : Took b b' bytes) (hend : 0 ≤ b'.offset.toInt) :
    Taken b b' bytes.length where
  data := h.data
  nonneg := by
    by_cases hnil : bytes = []
    · subst hnil
      rwa [← h.eq_of_nil]
    · exact (h.inside hnil).1
  offset := h.offset_toInt hend

end Buffer

open Buffer

section Arrays
variable {α : Type} {read : Buffer → Option (α × Buffer)} {fits : α → Prop} {encode : α → Bytes}

lemma readArray_taken (h : ∀ {b a b'}, read b = some (a,b') → 0 ≤ b'.offset.toInt →
      fits a ∧ Taken b b' (encode a).length) {n : ℕ} {b b' : Buffer} {as : List α}
    (hread : readArray read n b = some (as,b')) (hend : 0 ≤ b'.offset.toInt) :
    as.length = n ∧ (∀ a ∈ as, fits a) ∧ Taken b b' (as.flatMap encode).length := by
  induction n generalizing b as with
  | zero =>
    obtain ⟨rfl,rfl⟩ := Prod.mk.inj (Option.some.inj hread)
    exact ⟨rfl,by simp,.refl hend⟩
  | succ n ih =>
    obtain ⟨⟨a,mid⟩,hfirst,hrest⟩ := Option.bind_eq_some_iff.1 hread
    obtain ⟨⟨rest,last⟩,hothers,hr⟩ := Option.map_eq_some_iff.1 hrest
    obtain ⟨rfl,rfl⟩ := Prod.mk.inj hr
    obtain ⟨hlength,hfits,htaken⟩ := ih hothers
    obtain ⟨hfit,htake⟩ := h hfirst htaken.nonneg
    refine ⟨by rw [List.length_cons,hlength],?_,?_⟩
    · simpa using ⟨hfit,hfits⟩
    · rw [List.flatMap_cons,List.length_append]
      exact htake.trans htaken

lemma length_of_readArray {n : ℕ} {b b' : Buffer} {as : List α}
    (hread : readArray read n b = some (as,b')) : as.length = n := by
  induction n generalizing b b' as with
  | zero =>
    obtain ⟨rfl,-⟩ := Prod.mk.inj (Option.some.inj hread)
    rfl
  | succ n ih =>
    obtain ⟨⟨a,mid⟩,-,hrest⟩ := Option.bind_eq_some_iff.1 hread
    obtain ⟨⟨rest,last⟩,hothers,hr⟩ := Option.map_eq_some_iff.1 hrest
    obtain ⟨rfl,-⟩ := Prod.mk.inj hr
    rw [List.length_cons,ih hothers]

/-- The last of several elements is read where the ones before it have left the offset. -/
lemma readArray_last {n : ℕ} {b b' : Buffer} {as : List α}
    (hread : readArray read (n+1) b = some (as,b')) : ∃ front mid a,
      readArray read n b = some (front,mid) ∧ read mid = some (a,b') := by
  induction n generalizing b as with
  | zero =>
    obtain ⟨⟨a,mid⟩,hfirst,hrest⟩ := Option.bind_eq_some_iff.1 hread
    obtain ⟨-,rfl⟩ := Prod.mk.inj (Option.some.inj hrest)
    exact ⟨[],b,a,rfl,hfirst⟩
  | succ n ih =>
    obtain ⟨⟨a,mid⟩,hfirst,hrest⟩ := Option.bind_eq_some_iff.1 hread
    obtain ⟨⟨rest,last⟩,hothers,hr⟩ := Option.map_eq_some_iff.1 hrest
    obtain ⟨-,rfl⟩ := Prod.mk.inj hr
    obtain ⟨front,mid',a',hfront,hlast⟩ := ih hothers
    refine ⟨a::front,mid',a',?_,hlast⟩
    rw [readArray,hfirst,Option.bind_some,hfront,Option.map_some]

end Arrays

namespace Ty

/-- A read that has not wrapped the offset gives a value whose sizes an `int` can hold, and has
taken exactly as many bytes as that value's encoding. -/
theorem read_taken {t : Ty} {p : Pointers} {b b' : Buffer} {v : t.Val}
    (h : t.read p b = some (v,b')) (hend : 0 ≤ b'.offset.toInt) :
    t.Fits v ∧ Taken b b' (t.encode v).length := by
  obtain ⟨hfits,htook⟩ := read_took h
  exact ⟨hfits,htook.taken hend⟩

lemma length_flatMap_arith (w : Width) (vs : List (Ty.arith w).Val) :
    (vs.flatMap (encode (.arith w))).length = w.bytes*vs.length := by
  induction vs with
  | nil => rfl
  | cons v vs ih =>
    rw [List.flatMap_cons,List.length_append,ih,encode,length_leBytes,List.length_cons,Nat.mul_succ,
      Nat.add_comm]

/-- The offset is still in range where the last element of a list of numbers is read. -/
theorem list_length_lt {w : Width} {p : Pointers} {b b' : Buffer} {vs : List (Ty.arith w).Val}
    (h : (Ty.list (.arith w)).read p b = some (vs,b')) :
    vs = [] ∨ w.bytes*(vs.length-1) < 2^31 := by
  obtain ⟨⟨n,start⟩,-,hrest⟩ := Option.bind_eq_some_iff.1 h
  obtain ⟨-,hrest⟩ := Option.ite_none_left_eq_some.1 hrest
  simp only at hrest
  split at hrest
  · exact .inl (Prod.mk.inj (Option.some.inj hrest)).1.symm
  cases hn : n.toInt.toNat with
  | zero =>
    rw [hn] at hrest
    exact .inl (Prod.mk.inj (Option.some.inj hrest)).1.symm
  | succ m =>
    rw [hn] at hrest
    obtain ⟨front,mid,v,hfront,hlast⟩ := readArray_last hrest
    obtain ⟨⟨bytes,b1⟩,hdrawback,-⟩ := Option.map_eq_some_iff.1 hlast
    obtain ⟨⟨-,hmid,-⟩,-⟩ := Option.ite_none_right_eq_some.1 hdrawback
    obtain ⟨hlength,-,htook⟩ := readArray_took read_took hfront
    have htaken := htook.taken hmid
    have hall : vs.length = m+1 := length_of_readArray hrest
    have hoffset := htaken.offset
    have hnonneg := htaken.nonneg
    have hlt := mid.offset.toInt_lt
    rw [length_flatMap_arith,hlength] at hoffset
    rw [hall,Nat.add_sub_cancel]
    omega

/-- As far as sizes go, the one value is as good as the other. -/
structure SameSize {t : Ty} (v w : t.Val) : Prop where
  length : (t.encode v).length = (t.encode w).length
  fits : t.Fits w → t.Fits v

lemma sameSize_arith {w : Width} (v v' : (Ty.arith w).Val) : SameSize v v' :=
  ⟨(length_leBytes _ _).trans (length_leBytes _ _).symm,fun _ => trivial⟩

end Ty

/-- What is filled into an object may differ from the value that was read, as a `bool` does that
was read from a byte above one, but not in its size. -/
class KeepsSize (α : Type) [Serializable α] : Prop where
  sameSize : ∀ {memory a : α} {v : (Serializable.ty α).Val},
    Serializable.fill memory v = some a → Ty.SameSize (Serializable.es a) v

class MembersKeepSize (M : Type) [Members M] : Prop where
  sameSize : ∀ {memory m : M} {v : (Members.ty M).Val},
    Members.fill memory v = some m → Ty.SameSize (Members.es m) v

instance : MembersKeepSize Unit := ⟨fun _ => ⟨rfl,id⟩⟩

instance {α M : Type} [Serializable α] [Members M] [KeepsSize α] [MembersKeepSize M] :
    MembersKeepSize (α × M) where
  sameSize := by
    intro memory m v h
    obtain ⟨a,ha,hrest⟩ := Option.bind_eq_some_iff.1 h
    obtain ⟨n,hn,rfl⟩ := Option.map_eq_some_iff.1 hrest
    have hfirst := KeepsSize.sameSize ha
    have hothers := MembersKeepSize.sameSize hn
    refine ⟨?_,fun hfits => ⟨hfirst.fits hfits.1,hothers.fits hfits.2⟩⟩
    exact (List.length_append).trans
      ((congrArg₂ (·+·) hfirst.length hothers.length).trans (List.length_append).symm)

namespace KeepsSize
variable {α M : Type}

lemma ofGetES [Members M] [MembersKeepSize M] {getES : α → M} {withES : α → M → α}
    (h : ∀ a m, getES (withES a m) = m) :
    @KeepsSize α (Serializable.ofGetES getES withES h) := by
  refine @KeepsSize.mk α (Serializable.ofGetES getES withES h) ?_
  intro memory a v hfill
  obtain ⟨m,hm,rfl⟩ := Option.map_eq_some_iff.1 hfill
  have hmembers := MembersKeepSize.sameSize hm
  rw [← h memory m] at hmembers
  exact ⟨hmembers.length,hmembers.fits⟩

instance : KeepsSize Bytes := ⟨by rintro _ _ _ ⟨⟩; exact ⟨rfl,id⟩⟩

instance : KeepsSize Int8 := ⟨fun _ => Ty.sameSize_arith _ _⟩

instance : KeepsSize Int32 := ⟨fun _ => Ty.sameSize_arith _ _⟩

instance : KeepsSize Int64 := ⟨fun _ => Ty.sameSize_arith _ _⟩

instance : KeepsSize UInt32 := ⟨fun _ => Ty.sameSize_arith _ _⟩

instance : KeepsSize Bool := ⟨fun _ => Ty.sameSize_arith _ _⟩

end KeepsSize

namespace Serializable
variable {α : Type} [Serializable α] [KeepsSize α]

/-- A read into an object has taken exactly as many bytes as the object's encoding. -/
theorem read_taken {memory a : α} {b b' : Buffer} (h : read memory b = some (a,b'))
    (hend : 0 ≤ b'.offset.toInt) : Fits a ∧ Taken b b' (encode a).length := by
  obtain ⟨⟨v,mid⟩,hread,hfill⟩ := Option.bind_eq_some_iff.1 h
  obtain ⟨x,hx,hr⟩ := Option.map_eq_some_iff.1 hfill
  obtain ⟨rfl,rfl⟩ := Prod.mk.inj hr
  have hsize := KeepsSize.sameSize hx
  obtain ⟨hfits,htaken⟩ := Ty.read_taken hread hend
  refine ⟨hsize.fits hfits,?_⟩
  rw [encode,hsize.length]
  exact htaken

end Serializable
end GDFileStore
