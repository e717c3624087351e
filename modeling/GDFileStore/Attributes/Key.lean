import GDFileStore.Messages.Classes
import GDFileStore.Objects.Order

/-! The keys and values of attribute records: the type's header and the encoded key members on the
one side, the encoded attribute on the other. -/
namespace GDFileStore
open Sequences Codec

section Strings
variable {α M : Type}

/-- `as_string`. -/
def asString [Serializable α] (t : α) : Option Bytes :=
  (Serializable.write {} t).map Buffer.universalStr

/-- `as_string` of the tuple of pointers that `GetES` or `GetKey` makes. -/
def asStringOfMembers [Members M] (key : M) : Option Bytes :=
  (Members.multiWrite {} key).map Buffer.universalStr

/-- `from_string`, through a cache that holds `memory`. -/
def fromString [Serializable α] (memory : α) (str : Bytes) : Option α :=
  (Serializable.read memory { data := str }).map Prod.fst

lemma asString_eq [Serializable α] {t : α} (h : Serializable.Fits t) :
    asString t = some (Serializable.encode t) := by
  rw [asString,Serializable.write_eq h]
  rfl

lemma asStringOfMembers_eq [Members M] {key : M} (h : Members.Fits key) :
    asStringOfMembers key = some (Members.encode key) := by
  rw [asStringOfMembers,Members.multiWrite_eq h]
  rfl

lemma fromString_encode [Serializable α] [Complete α] {a : α} (hfits : Serializable.Fits a)
    (hshort : (Serializable.encode a).length < 2^31) (memory : α) :
    fromString memory (Serializable.encode a) = some a := by
  have hfront : Buffer.Front { data := Serializable.encode a ++ [] } (Serializable.encode a ++ []) :=
    .start (by simpa using hshort)
  obtain ⟨b,hread,-⟩ := hfront.read_append_complete hfits memory
  rw [List.append_nil] at hread
  rw [fromString,hread,Option.map_some]

/-- The encoding of members in range says what they are, whatever stands after it. -/
theorem encodeMembers_append_inj [Members M] {m n : M} {rest rest' : Bytes} (hm : Members.Fits m)
    (hn : Members.Fits n) (h : Members.encode m ++ rest = Members.encode n ++ rest') :
    Members.es m = Members.es n ∧ rest = rest' :=
  (Ty.decode_reads Members.readable hm).append_inj (Ty.decode_reads Members.readable hn) h

end Strings

/-- The records of a `RocksKV`: byte strings in the order of the bytes. -/
abbrev Database := OrderedMap Bytes.lt Bytes

/-- What `SetAttr` and `GetAttr` use of a type: the members that `GetKey` lists, or `GetES` where
there is no `GetKey`, and `Attr_Type()`. -/
class HasAttr (T : Type) (K A : outParam Type) where
  key : T → K
  attr : A

instance : HasAttr GHObject (HObject × Int64 × ShardId × Bytes × Unit) ObjectWithRB where
  key g := (g.hobj,g.generation,g.shardId,g.owner,())
  attr := {}

instance : HasAttr ReferedBlock (Int64 × Unit) ReferedBlock where
  key rb := (rb.serial,())
  attr := {}

/-- The serialized members of an object are its key members. -/
theorem GHObject.es_eq_iff {g h : GHObject} :
    Serializable.es g = Serializable.es h ↔ g.key = h.key := by
  constructor
  · intro hes
    obtain ⟨hhobj,hes⟩ := Prod.mk.inj hes
    obtain ⟨hgeneration,hes⟩ := Prod.mk.inj hes
    obtain ⟨hshard,hes⟩ := Prod.mk.inj hes
    obtain ⟨hoid,hhobj⟩ := Prod.mk.inj hhobj
    obtain ⟨hsnap,hhobj⟩ := Prod.mk.inj hhobj
    obtain ⟨hhash,hhobj⟩ := Prod.mk.inj hhobj
    have hbit : ∀ a b : Bool, BitVec.ofNat 8 a.toNat = BitVec.ofNat 8 b.toNat → a = b := by decide
    simp only [key,GHKey.mk.injEq]
    exact ⟨(Prod.mk.inj hoid).1,Int64.toBitVec_inj.1 (Prod.mk.inj hsnap).1,
      UInt32.toBitVec_inj.1 hhash,hbit _ _ (Prod.mk.inj hhobj).1,Int64.toBitVec_inj.1 hgeneration,
      Int8.toBitVec_inj.1 (Prod.mk.inj hshard).1,(Prod.mk.inj hes).1⟩
  · intro heq
    simp only [key,GHKey.mk.injEq] at heq
    obtain ⟨hname,hsnap,hhash,hmax,hgeneration,hshard,howner⟩ := heq
    simp only [Serializable.es,Members.es,hname,hsnap,hhash,hmax,hgeneration,hshard,howner]

namespace RocksKV
variable {T K A : Type} [HasAttr T K A] [Members K] [Serializable A]

/-- `Get_Key`. -/
def getKey (typeHeader : Bytes) (t : T) : Option Bytes :=
  (asStringOfMembers (HasAttr.key t)).map (typeHeader ++ ·)

def setAttr (typeHeader : Bytes) (db : Database) (t : T) (attr : A) : Option Database := do
  let key ← getKey typeHeader t
  let val ← asString attr
  return db.insert key val

/-- `GetAttr`. A key without a record leaves the string empty; the attribute is read into memory
that holds `memory`. -/
def getAttr (typeHeader : Bytes) (db : Database) (t : T) (memory : A) : Option (A × Bool) := do
  let key ← getKey typeHeader t
  let attr := (db.find key).getD []
  if attr ≠ [] then
    let attr ← fromString memory attr
    return (attr,true)
  else return (HasAttr.attr T,false)

end RocksKV
end GDFileStore
