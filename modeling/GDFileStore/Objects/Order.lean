import GDFileStore.Objects.Identity
import GDFileStore.Sequences.Decimal
import GDFileStore.Sequences.OrderedMap

/-! The notions of identity of an object beside its attribute key: the comparison that maps are
ordered by, `operator==`, and the string that names its files. -/
namespace GDFileStore
open Sequences

/-- `std::string::operator<`, by unsigned bytes. -/
abbrev Bytes.lt : Bytes → Bytes → Prop := (· < ·)

instance : IsStrictTotalOrder Bytes Bytes.lt where
  trichotomous := Std.Trichotomous.trichotomous
  irrefl := List.lt_irrefl
  trans _ _ _ := List.lt_trans

namespace GHObject

/-- `GHObject_t::operator<`. -/
def lt (a b : GHObject) : Prop :=
  a.hobj.oid.name < b.hobj.oid.name ∨
    a.hobj.oid.name = b.hobj.oid.name ∧ a.generation < b.generation

instance : DecidableRel lt := fun _ _ => inferInstanceAs (Decidable (_ ∨ _))

/-- `GHObject_t::operator==`. -/
def equal (a b : GHObject) : Bool :=
  a.hobj.oid.name == b.hobj.oid.name && a.generation == b.generation &&
    a.shardId == b.shardId && a.owner == b.owner

/-- The comparison sees the name and the generation of an object, not its shard or owner. -/
theorem sameKey_iff {a b : GHObject} :
    SameKey lt a b ↔ a.hobj.oid.name = b.hobj.oid.name ∧ a.generation = b.generation := by
  constructor
  · rintro ⟨hab,hba⟩
    simp only [lt,not_or,not_and] at hab hba
    have hname := Std.Trichotomous.trichotomous _ _ hab.1 hba.1
    exact ⟨hname,Int64.le_antisymm (Int64.not_lt.1 (hba.2 hname.symm))
      (Int64.not_lt.1 (hab.2 hname))⟩
  · rintro ⟨hname,hgeneration⟩
    simp [SameKey,lt,hname,hgeneration,List.lt_irrefl,Int64.lt_irrefl]

lemma not_sameKey {a b : GHObject}
    (h : a.hobj.oid.name ≠ b.hobj.oid.name ∨ a.generation ≠ b.generation) : ¬SameKey lt a b := by
  rw [sameKey_iff,not_and_or]
  exact h

instance : IsStrictWeakOrder GHObject lt where
  irrefl a := (sameKey_iff.2 ⟨rfl,rfl⟩).1
  trans a b c := by
    rintro (hab | ⟨hab,hgen⟩) (hbc | ⟨hbc,hgen'⟩)
    · exact .inl (List.lt_trans hab hbc)
    · exact .inl (hbc ▸ hab)
    · exact .inl (hab ▸ hbc)
    · exact .inr ⟨hab.trans hbc,Int64.lt_trans hgen hgen'⟩
  incomp_trans a b c hab hbc := by
    obtain ⟨hname,hgen⟩ := sameKey_iff.1 hab
    obtain ⟨hname',hgen'⟩ := sameKey_iff.1 hbc
    exact sameKey_iff.2 ⟨hname.trans hname',hgen.trans hgen'⟩

end GHObject

/-- `GetObjUniqueStrDesc`: the members are printed one after another, with nothing between. -/
def getObjUniqueStrDesc (ghobj : GHObject) : Bytes :=
  ghobj.owner ++ signedDecimal ghobj.hobj.pool.toInt ++ ghobj.hobj.oid.name ++
    signedDecimal ghobj.hobj.snap.timeStamp.toInt ++ signedDecimal ghobj.generation.toInt ++
    signedDecimal ghobj.shardId.id.toInt

end GDFileStore
