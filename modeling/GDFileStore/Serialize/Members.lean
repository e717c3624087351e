import GDFileStore.Serialize.Refine

/-! Classes as the serializer sees them: `GetES` lists the members that are written, and a read
overwrites exactly these in the memory it is given. -/
namespace GDFileStore

/-- A type with `Write` and `Read`. An `int` that is no enumerator of an enum cannot be filled in,
and is none. -/
class Serializable (α : Type) where
  ty : Ty
  es : α → ty.Val
  fill : α → ty.Val → Option α
  fill_es : ∀ memory a, ∃ b, fill memory (es a) = some b ∧ es b = es a
  readable : ty.Readable .unset

/-- A tuple of pointers to such values, as `GetES` and `MultiWrite` make it. -/
class Members (M : Type) where
  ty : Ty
  es : M → ty.Val
  fill : M → ty.Val → Option M
  fill_es : ∀ memory m, ∃ n, fill memory (es m) = some n ∧ es n = es m
  readable : ty.Readable .toMembers

instance : Members Unit where
  ty := .tupleNil
  es _ := ()
  fill _ _ := some ()
  fill_es _ _ := ⟨(),rfl,rfl⟩
  readable := trivial

instance {α M : Type} [Serializable α] [Members M] : Members (α × M) where
  ty := .tupleCons (Serializable.ty α) (Members.ty M)
  es m := (Serializable.es m.1,Members.es m.2)
  fill memory v := (Serializable.fill memory.1 v.1).bind fun a =>
    (Members.fill memory.2 v.2).map fun m => (a,m)
  fill_es := by
    intro memory m
    obtain ⟨a,ha,hesa⟩ := Serializable.fill_es memory.1 m.1
    obtain ⟨n,hn,hesn⟩ := Members.fill_es memory.2 m.2
    exact ⟨(a,n),by simp [ha,hn],by rw [hesa,hesn]⟩
  readable := ⟨Serializable.readable,Members.readable⟩

namespace Serializable
variable {α M : Type}

/-- A class whose `GetES` is `getES`; `withES` puts members in place and keeps everything else. -/
@[reducible] def ofGetES [Members M] (getES : α → M) (withES : α → M → α)
    (h : ∀ a m, getES (withES a m) = m) : Serializable α where
  ty := .cls (Members.ty M)
  es a := Members.es (getES a)
  fill memory v := (Members.fill (getES memory) v).map (withES memory)
  fill_es := by
    intro memory a
    obtain ⟨m,hm,hes⟩ := Members.fill_es (getES memory) (getES a)
    exact ⟨withES memory m,by rw [hm,Option.map_some],by rw [h,hes]⟩
  readable := Members.readable (M := M)

/-- An enum, by its enumerators in order from zero. -/
@[reducible] def ofEnumerators [BEq α] [LawfulBEq α] (enumerators : List α) (hall : ∀ a, a ∈ enumerators)
    (hshort : enumerators.length ≤ 2^32) : Serializable α where
  ty := .arith .four
  es a := BitVec.ofNat 32 (enumerators.idxOf a)
  fill _ v := enumerators[v.toNat]?
  fill_es := by
    intro _ a
    have hlt : enumerators.idxOf a < enumerators.length := List.idxOf_lt_length_of_mem (hall a)
    have hindex : (BitVec.ofNat 32 (enumerators.idxOf a)).toNat = enumerators.idxOf a := by
      rw [BitVec.toNat_ofNat,Nat.mod_eq_of_lt (hlt.trans_le hshort)]
    refine ⟨a,?_,rfl⟩
    exact (congrArg (fun i : ℕ => enumerators[i]?) hindex).trans (List.getElem?_idxOf (hall a))
  readable := trivial

end Serializable

instance : Serializable Bytes where
  ty := .string
  es s := s
  fill _ s := some s
  fill_es _ s := ⟨s,rfl,rfl⟩
  readable := trivial

instance : Serializable Int8 where
  ty := .arith .one
  es n := n.toBitVec
  fill _ v := some (.ofBitVec v)
  fill_es _ n := ⟨n,rfl,rfl⟩
  readable := trivial

instance : Serializable Int32 where
  ty := .arith .four
  es n := n.toBitVec
  fill _ v := some (.ofBitVec v)
  fill_es _ n := ⟨n,rfl,rfl⟩
  readable := trivial

instance : Serializable Int64 where
  ty := .arith .eight
  es n := n.toBitVec
  fill _ v := some (.ofBitVec v)
  fill_es _ n := ⟨n,rfl,rfl⟩
  readable := trivial

instance : Serializable UInt32 where
  ty := .arith .four
  es n := n.toBitVec
  fill _ v := some (.ofBitVec v)
  fill_es _ n := ⟨n,rfl,rfl⟩
  readable := trivial

instance : Serializable Bool where
  ty := .arith .one
  es b := BitVec.ofNat 8 b.toNat
  fill _ v := some (v != 0)
  fill_es _ b := ⟨b,by cases b <;> rfl,rfl⟩
  readable := trivial

/-- `vector`: its elements are made by the constructor and then read into. -/
instance {α : Type} [Inhabited α] [Serializable α] : Serializable (List α) where
  ty := .vector (Serializable.ty α)
  es l := l.map Serializable.es
  fill _ vs := vs.mapM (Serializable.fill default)
  fill_es := by
    intro _ l
    induction l with
    | nil => exact ⟨[],rfl,rfl⟩
    | cons a l ih =>
      obtain ⟨b,hb,hesb⟩ := Serializable.fill_es default a
      obtain ⟨m,hm,hesm⟩ := ih
      refine ⟨b::m,?_,?_⟩
      · rw [List.map_cons,List.mapM_cons,hb,hm]
        rfl
      · rw [List.map_cons,List.map_cons,hesb,hesm]
  readable := Serializable.readable (α := α)

namespace Serializable
variable {α : Type} [Serializable α]

def encode (a : α) : Bytes := (ty α).encode (es a)

/-- Every string and container inside is shorter than `2^31`. -/
def Fits (a : α) : Prop := (ty α).Fits (es a)

instance (a : α) : Decidable (Fits a) := Ty.decidableFits _ _

/-- `Write`. -/
def write (b : Buffer) (a : α) : Option Buffer := (ty α).write b (es a)

lemma write_eq {a : α} (h : Fits a) (b : Buffer) :
    write b a = some { b with data := b.data ++ encode a } := Ty.write_eq h b

/-- `Read`, into memory that holds `memory`. -/
def read (memory : α) (b : Buffer) : Option (α × Buffer) :=
  ((ty α).read .unset b).bind fun r => (fill memory r.1).map fun a => (a,r.2)

end Serializable

/-- A type whose serialized members are all there is to an object. -/
class Complete (α : Type) [Serializable α] : Prop where
  fill_es_self : ∀ memory a : α, Serializable.fill memory (Serializable.es a) = some a

/-- The same of a tuple of members. -/
class CompleteMembers (M : Type) [Members M] : Prop where
  fill_es_self : ∀ memory m : M, Members.fill memory (Members.es m) = some m

instance : CompleteMembers Unit := ⟨fun _ _ => rfl⟩

instance {α M : Type} [Serializable α] [Members M] [Complete α] [CompleteMembers M] :
    CompleteMembers (α × M) where
  fill_es_self memory m := by
    have hfirst := Complete.fill_es_self memory.1 m.1
    have hothers := CompleteMembers.fill_es_self memory.2 m.2
    simp [Members.fill,Members.es,hfirst,hothers]

namespace Complete
variable {α : Type}

lemma ofGetES {M : Type} [Members M] [CompleteMembers M] {getES : α → M} {withES : α → M → α}
    (h : ∀ a m, getES (withES a m) = m) (hback : ∀ memory a, withES memory (getES a) = a) :
    @Complete α (Serializable.ofGetES getES withES h) := by
  refine @Complete.mk α (Serializable.ofGetES getES withES h) ?_
  intro memory a
  change (Members.fill (getES memory) (Members.es (getES a))).map (withES memory) = some a
  rw [CompleteMembers.fill_es_self,Option.map_some,hback]

lemma es_injective [Serializable α] [Complete α] {a b : α}
    (h : Serializable.es a = Serializable.es b) : a = b := by
  have hfill := fill_es_self a a
  rw [h,fill_es_self a b] at hfill
  exact (Option.some.inj hfill).symm

instance : Complete Bytes := ⟨fun _ _ => rfl⟩

instance : Complete Int32 := ⟨fun _ _ => rfl⟩

instance : Complete Int64 := ⟨fun _ _ => rfl⟩

instance : Complete Bool := ⟨fun _ b => by cases b <;> rfl⟩

instance [Inhabited α] [Serializable α] [Complete α] : Complete (List α) where
  fill_es_self := by
    intro _ l
    change (l.map Serializable.es).mapM (Serializable.fill default) = some l
    induction l with
    | nil => rfl
    | cons a l ih =>
      rw [List.map_cons,List.mapM_cons,ih,fill_es_self]
      rfl

end Complete

namespace Members
variable {α M : Type} [Serializable α] [Members M]

def encode (m : M) : Bytes := (ty M).encode (es m)

def Fits (m : M) : Prop := (ty M).Fits (es m)

instance (m : M) : Decidable (Fits m) := Ty.decidableFits _ _

/-- `MultiWrite`. -/
def multiWrite (b : Buffer) (args : M) : Option Buffer := (ty M).write b (es args)

lemma encode_cons (a : α) (m : M) : encode (a,m) = Serializable.encode a ++ encode m := rfl

lemma encode_unit : encode () = [] := rfl

lemma multiWrite_eq {args : M} (h : Fits args) (b : Buffer) :
    multiWrite b args = some { b with data := b.data ++ encode args } := Ty.write_eq h b

end Members

/-- `bytes` is what is still to be read of a block that an `int` can index. -/
def Buffer.Front (b : Buffer) (bytes : Bytes) : Prop :=
  ∃ consumed : Bytes, b = ⟨consumed ++ bytes,Int32.ofNat consumed.length⟩ ∧
    (consumed ++ bytes).length < 2^31

namespace Buffer.Front
variable {α M : Type} [Serializable α] [Members M] {b : Buffer} {a : α} {m : M}

lemma start {bytes : Bytes} (h : bytes.length < 2^31) : Front { data := bytes } bytes := ⟨[],rfl,h⟩

/-- A read takes the encoding at the front and gives an object with the same members. -/
theorem read_append {rest : Bytes} (hfront : b.Front (Serializable.encode a ++ rest))
    (hfits : Serializable.Fits a) (memory : α) :
    ∃ x b', Serializable.read memory b = some (x,b') ∧ Serializable.es x = Serializable.es a ∧
      b'.Front rest := by
  obtain ⟨consumed,rfl,hshort⟩ := hfront
  rw [← List.append_assoc] at hshort ⊢
  obtain ⟨x,hx,hes⟩ := Serializable.fill_es memory a
  refine ⟨x,_,?_,hes,consumed ++ Serializable.encode a,rfl,hshort⟩
  have hread := Ty.read_encode Serializable.readable hfits hshort
  rw [Serializable.read,Serializable.encode,hread,Option.bind_some,hx,Option.map_some]

theorem read (hfront : b.Front (Members.encode (a,m))) (hfits : Serializable.Fits a) (memory : α) :
    ∃ x b', Serializable.read memory b = some (x,b') ∧ Serializable.es x = Serializable.es a ∧
      b'.Front (Members.encode m) := hfront.read_append hfits memory

/-- Where the members are all there is, a read gives the object itself. -/
theorem read_append_complete [Complete α] {rest : Bytes}
    (hfront : b.Front (Serializable.encode a ++ rest)) (hfits : Serializable.Fits a) (memory : α) :
    ∃ b', Serializable.read memory b = some (a,b') ∧ b'.Front rest := by
  obtain ⟨x,b',hread,hes,hfront'⟩ := hfront.read_append hfits memory
  obtain rfl := Complete.es_injective hes
  exact ⟨b',hread,hfront'⟩

theorem read_complete [Complete α] (hfront : b.Front (Members.encode (a,m)))
    (hfits : Serializable.Fits a) (memory : α) :
    ∃ b', Serializable.read memory b = some (a,b') ∧ b'.Front (Members.encode m) :=
  hfront.read_append_complete hfits memory

lemma finish (hfront : b.Front (Members.encode ())) : b.offset.toInt = b.data.length := by
  obtain ⟨consumed,rfl,hshort⟩ := hfront
  rw [Members.encode_unit,List.append_nil] at hshort ⊢
  exact Int32Range.toInt_ofNat_of_lt hshort

end Buffer.Front
end GDFileStore
