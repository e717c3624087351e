import GDFileStore.Headers.Header
import GDFileStore.Journal.FileNames
import GDFileStore.Sequences.Borders

/-! When the unique strings of two objects are one. Nothing stands between the parts of such a
string, so that a text may go over from one part to the next. -/
namespace GDFileStore
open Sequences

namespace GHObject

/-- The objects differ in one of the members that the unique string prints. -/
def Differ (a b : GHObject) : Prop :=
  a.owner ≠ b.owner ∨ a.hobj.pool ≠ b.hobj.pool ∨ a.hobj.oid.name ≠ b.hobj.oid.name ∨
    a.hobj.snap.timeStamp ≠ b.hobj.snap.timeStamp ∨ a.generation ≠ b.generation ∨
    a.shardId ≠ b.shardId

instance : DecidableRel Differ := fun _ _ => inferInstanceAs (Decidable (_ ∨ _))

/-- The strings of the objects can be read side by side, part by part: at each of the five borders
between the parts one of them may be ahead of the other by some text. -/
def Slid (a b : GHObject) : Prop :=
  ∃ e₁, Border.level.Text a.owner b.owner e₁ ∧
    ∃ e₂, e₁.Number a.hobj.pool.toInt b.hobj.pool.toInt e₂ ∧
      ∃ e₃, e₂.Text a.hobj.oid.name b.hobj.oid.name e₃ ∧
        ∃ e₄, e₃.Number a.hobj.snap.timeStamp.toInt b.hobj.snap.timeStamp.toInt e₄ ∧
          ∃ e₅, e₄.Number a.generation.toInt b.generation.toInt e₅ ∧
            e₅.Number a.shardId.id.toInt b.shardId.id.toInt Border.level

/-- No string, no record of a header and, with plain names, no journal file is that of both. -/
structure Apart (a b : GHObject) : Prop where
  strings : getObjUniqueStrDesc a ≠ getObjUniqueStrDesc b
  files : a.PlainNames → b.PlainNames → ¬SameFile a b
  records : ∀ (db : Database) (text : Bytes),
    (db.insert (getObjUniqueStrDesc a) text).find (getObjUniqueStrDesc b) =
      db.find (getObjUniqueStrDesc b)

/-- Two texts and four numerals make one string exactly where all borders can be passed. -/
lemma borders_iff (o o' n n' : Bytes) (p p' t t' g g' s s' : ℤ) :
    (∃ e₁, Border.level.Text o o' e₁ ∧ ∃ e₂, e₁.Number p p' e₂ ∧ ∃ e₃, e₂.Text n n' e₃ ∧
      ∃ e₄, e₃.Number t t' e₄ ∧ ∃ e₅, e₄.Number g g' e₅ ∧ e₅.Number s s' Border.level) ↔
    o ++ signedDecimal p ++ n ++ signedDecimal t ++ signedDecimal g ++ signedDecimal s =
      o' ++ signedDecimal p' ++ n' ++ signedDecimal t' ++ signedDecimal g' ++ signedDecimal s' := by
  have hlevel : (Border.level : Border UInt8).Lies [] [] := Border.lies_level_iff.2 rfl
  have hpasses := @Border.passes_iff _ _ _ _ [(o,o'),(signedDecimal p,signedDecimal p'),(n,n'),
    (signedDecimal t,signedDecimal t'),(signedDecimal g,signedDecimal g'),
    (signedDecimal s,signedDecimal s')] hlevel
  simp only [Border.Passes,List.map_cons,List.map_nil,List.flatten_cons,List.flatten_nil,
    List.append_nil,List.nil_append] at hpasses
  simp only [Border.number_iff,List.append_assoc]
  rw [← hpasses]
  simp only [exists_eq_right]

lemma slid_iff {a b : GHObject} : Slid a b ↔ getObjUniqueStrDesc a = getObjUniqueStrDesc b :=
  borders_iff _ _ _ _ _ _ _ _ _ _ _ _

/-- Two objects are kept apart unless their members can be read side by side. -/
theorem apart_iff (a b : GHObject) : Apart a b ↔ ¬Slid a b := by
  rw [slid_iff]
  constructor
  · exact fun hapart => hapart.strings
  · intro hne
    refine ⟨hne,fun ha hb hfile => hne ((sameFile_iff ha hb).1 hfile),?_⟩
    intro db text
    rw [OrderedMap.find_insert,if_neg (Ne.symm hne)]

/-- An object `a` of generation 100 and an object `a01` of generation 0 have one string. -/
theorem different_not_apart : ∃ a b : GHObject, Differ a b ∧ ¬Apart a b := by
  let a : GHObject := { hobj := { oid := ⟨lit "a"⟩ }, generation := 100 }
  let b : GHObject := { hobj := { oid := ⟨lit "a01"⟩ } }
  have hsame : getObjUniqueStrDesc a = getObjUniqueStrDesc b := by decide +kernel
  exact ⟨a,b,by decide,fun hapart => hapart.strings hsame⟩

end GHObject
end GDFileStore
