import GDFileStore.Objects.Order
import Mathlib.Data.List.TakeWhile

/-! Which files the journal's names are to the operating system. -/
namespace GDFileStore
open Sequences

/-- The names that a path goes through. It ends at a NUL, and empty names and `.` are passed over. -/
def components (path : Bytes) : List Bytes :=
  ((path.takeWhile (· ≠ 0)).splitOn slash).filter (fun name => name ≠ [] ∧ name ≠ lit ".")

lemma components_of_plain {name : Bytes} (hslash : slash ∉ name) (hnul : 0 ∉ name)
    (hnil : name ≠ []) (hdot : name ≠ lit ".") : components name = [name] := by
  have hall : name.takeWhile (· ≠ 0) = name := by
    rw [List.takeWhile_eq_self_iff]
    intro b hb
    simpa using fun hzero : b = 0 => hnul (hzero ▸ hb)
  rw [components,hall,List.splitOn_eq_singleton hslash]
  simp [hnil,hdot]

/-- In the journal's directory, the unique strings of the two objects are names of one file. -/
def SameFile (a b : GHObject) : Prop :=
  components (getObjUniqueStrDesc a) = components (getObjUniqueStrDesc b)

instance : DecidableRel SameFile := fun _ _ => inferInstanceAs (Decidable (_ = _))

/-- No slash and no NUL is in the texts that go into the name of an object's file. -/
def GHObject.PlainNames (gh : GHObject) : Prop :=
  slash ∉ gh.owner ++ gh.hobj.oid.name ∧ 0 ∉ gh.owner ++ gh.hobj.oid.name

instance : DecidablePred GHObject.PlainNames := fun _ => inferInstanceAs (Decidable (_ ∧ _))

/-- Only digits and minus signs stand in a unique string beside the owner and the name. -/
lemma mem_getObjUniqueStrDesc {gh : GHObject} {b : UInt8} (hb : b ∈ getObjUniqueStrDesc gh)
    (hother : b ≠ 45 ∧ b < 48) : b ∈ gh.owner ++ gh.hobj.oid.name := by
  have hnumber : ∀ z : ℤ, b ∉ signedDecimal z := by
    intro z
    rw [signedDecimal]
    split_ifs
    · rw [List.mem_cons,not_or]
      exact ⟨hother.1,notMem_decimal hother.2⟩
    · exact notMem_decimal hother.2
  simp only [getObjUniqueStrDesc,List.mem_append,hnumber,or_false] at hb
  exact List.mem_append.2 hb

lemma components_getObjUniqueStrDesc {gh : GHObject} (h : gh.PlainNames) :
    components (getObjUniqueStrDesc gh) = [getObjUniqueStrDesc gh] := by
  obtain ⟨b,hlast,hdigit⟩ := getLast?_append_signedDecimal (gh.owner ++
    signedDecimal gh.hobj.pool.toInt ++ gh.hobj.oid.name ++
    signedDecimal gh.hobj.snap.timeStamp.toInt ++ signedDecimal gh.generation.toInt)
    gh.shardId.id.toInt
  change (getObjUniqueStrDesc gh).getLast? = some b at hlast
  refine components_of_plain ?_ ?_ ?_ ?_
  · exact fun hb => h.1 (mem_getObjUniqueStrDesc hb (by decide))
  · exact fun hb => h.2 (mem_getObjUniqueStrDesc hb (by decide))
  · intro hnil
    rw [hnil,List.getLast?_nil] at hlast
    cases hlast
  · intro hdot
    have heq : some 46 = some b := by
      rw [← hlast,hdot]
      rfl
    rw [← Option.some.inj heq] at hdigit
    exact absurd hdigit.1 (by decide)

/-- Objects of plain names have one file only where they have one string. -/
theorem sameFile_iff {a b : GHObject} (ha : a.PlainNames) (hb : b.PlainNames) :
    SameFile a b ↔ getObjUniqueStrDesc a = getObjUniqueStrDesc b := by
  rw [SameFile,components_getObjUniqueStrDesc ha,components_getObjUniqueStrDesc hb,
    List.cons.injEq,and_iff_left rfl]

end GDFileStore
