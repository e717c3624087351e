import GDFileStore.Blocks.Path
import GDFileStore.Program.Prog
import GDFileStore.Sequences.Weight
import Mathlib.Logic.Function.Basic

/-! What a store keeps outside its memory, the requests that read and change it, and their
outcomes when no file operation fails. The key-value database is taken as a map from keys to
attributes, with the keys of versions and of blocks apart. -/
namespace GDFileStore
open Sequences Program

/-- One request to the key-value database, the file system or the clock. -/
inductive Request where
  | getObjAttr (key : GHKey)
  | setObjAttr (key : GHKey) (attr : ObjectWithRB)
  | getBlockAttr (serial : Int64)
  | setBlockAttr (serial : Int64) (attr : ReferedBlock)
  | now
  | writeFile (path content : Bytes)
  | readFile (path : Bytes)
  /-- Copy a file into a directory, which is made when it is missing. -/
  | copy (source directory : Bytes)
  /-- An access outside a vector or list, which has no defined outcome. -/
  | outOfRange

/-- What a request returns: `GetAttr` the attribute or its default and whether there was one,
`WriteFile` and `copy` whether they succeeded. -/
abbrev Request.Resp : Request → Type
  | .getObjAttr _ => ObjectWithRB × Bool
  | .setObjAttr _ _ => Unit
  | .getBlockAttr _ => ReferedBlock × Bool
  | .setBlockAttr _ _ => Unit
  | .now => Int64
  | .writeFile _ _ => Bool
  | .readFile _ => Bytes
  | .copy _ _ => Bool
  | .outOfRange => Empty

/-- The database, the files and the clock readings still to come. -/
@[ext] structure World where
  objs : AList (fun _ : GHKey => ObjectWithRB) := ∅
  blocks : Int64 → Option ReferedBlock := fun _ => none
  files : Bytes → Option Bytes := fun _ => none
  clock : List Int64 := []

/-- `RocksKV::GetAttr`. -/
def getAttr {α : Type} (record : Option α) (default : α) : α × Bool :=
  (record.getD default,record.isSome)

/-- The outcome of a request when every file operation succeeds. -/
def Request.handle : Handler Request.Resp World
  | .getObjAttr key,w => some (getAttr (w.objs.lookup key) {},w)
  | .setObjAttr key attr,w => some ((),{ w with objs := w.objs.insert key attr })
  | .getBlockAttr serial,w => some (getAttr (w.blocks serial) {},w)
  | .setBlockAttr serial attr,w =>
    some ((),{ w with blocks := Function.update w.blocks serial (some attr) })
  | .now,w =>
    match w.clock with
    | [] => none
    | t::clock => some (t,{ w with clock := clock })
  | .writeFile path content,w =>
    some (true,{ w with files := Function.update w.files path (some content) })
  | .readFile path,w => some ((w.files path).getD [],w)
  | .copy source directory,w =>
    match w.files source with
    | none => some (false,w)
    | some content => some (true,{ w with
        files := Function.update w.files (joinPath directory (fileName source)) (some content) })
  | .outOfRange,_ => none

/-- The request has this outcome when every file operation succeeds. -/
def Request.Gives (r : Request) (w : World) (answer : r.Resp) (w' : World) : Prop :=
  r.handle w = some (answer,w')

namespace World

/-- The serials of a version, none for a version without a record. -/
def serials (w : World) (key : GHKey) : List Int64 := ((w.objs.lookup key).getD {}).serialsList

/-- The recorded count of a block, zero without a record. -/
def refCount (w : World) (serial : Int64) : Int32 := ((w.blocks serial).getD {}).referCount

/-- How often a serial occurs in the stored lists of all versions. -/
def occurrences (w : World) (serial : Int64) : ℕ :=
  weight (fun orb => orb.serialsList.count serial) w.objs

/-- The serial is in the stored list of some version. -/
def Listed (w : World) (serial : Int64) : Prop := ∃ key, serial ∈ w.serials key

/-- `SetAttr` on a version. -/
def publish (w : World) (key : GHKey) (serials : List Int64) : World :=
  { w with objs := w.objs.insert key ⟨serials⟩ }

/-- `refer_count++` on the record of a block. -/
def bump (w : World) (serial : Int64) : World :=
  let attr := (w.blocks serial).getD {}
  let next := { attr with referCount := attr.referCount+1 }
  { w with blocks := Function.update w.blocks serial (some next) }

/-- The counting pass over a list. -/
def bumpAll (w : World) (serials : List Int64) : World := serials.foldl bump w

lemma serials_of_lookup {w : World} {key : GHKey} {orb : ObjectWithRB}
    (h : w.objs.lookup key = some orb) : w.serials key = orb.serialsList := by
  rw [serials,h]
  rfl

lemma occurrences_eq_zero {w : World} {serial : Int64} (h : ¬w.Listed serial) :
    w.occurrences serial = 0 := by
  apply weight_eq_zero
  intro key orb hk
  rw [List.count_eq_zero,← serials_of_lookup hk]
  exact fun hm => h ⟨key,hm⟩

section publish
variable (w : World) (key : GHKey) (l : List Int64)

@[simp] lemma publish_files : (w.publish key l).files = w.files := rfl
@[simp] lemma publish_clock : (w.publish key l).clock = w.clock := rfl
@[simp] lemma publish_refCount (s : Int64) : (w.publish key l).refCount s = w.refCount s := rfl

@[simp] lemma publish_serials_self : (w.publish key l).serials key = l := by
  simp [serials,publish]

lemma publish_serials_ne {key' : GHKey} (h : key' ≠ key) :
    (w.publish key l).serials key' = w.serials key' := by
  rw [serials,publish,AList.lookup_insert_ne h,serials]

lemma publish_serials (key' : GHKey) :
    (w.publish key l).serials key' = if key' = key then l else w.serials key' := by
  by_cases h : key' = key
  · rw [if_pos h,h,publish_serials_self]
  · rw [if_neg h,publish_serials_ne w key l h]

/-- A publication adds the occurrences in the new list and takes away those in the list it
replaces. -/
theorem publish_occurrences (s : Int64) :
    (w.publish key l).occurrences s+(w.serials key).count s = l.count s+w.occurrences s := by
  have hreplaced : (w.serials key).count s =
      (w.objs.lookup key).elim 0 (fun orb => orb.serialsList.count s) := by
    cases h : w.objs.lookup key <;> simp [serials,h]
  rw [hreplaced]
  exact weight_insert (fun orb => orb.serialsList.count s) w.objs key ⟨l⟩

end publish

section bump
variable (w : World)

lemma bump_blocks_ne {s t : Int64} (h : s ≠ t) : (w.bump t).blocks s = w.blocks s :=
  Function.update_of_ne h _ _

lemma bump_refCount (s t : Int64) :
    (w.bump s).refCount t = if t = s then w.refCount t+1 else w.refCount t := by
  by_cases h : t = s
  · subst h
    simp [bump,refCount]
  · rw [refCount,bump_blocks_ne w h,if_neg h,refCount]

@[simp] lemma bumpAll_nil : w.bumpAll [] = w := rfl
@[simp] lemma bumpAll_cons (s : Int64) (l : List Int64) :
    w.bumpAll (s::l) = (w.bump s).bumpAll l := rfl

@[simp] lemma bumpAll_objs (l : List Int64) : (w.bumpAll l).objs = w.objs := by
  induction l generalizing w with
  | nil => rfl
  | cons s l ih => exact ih (w.bump s)

@[simp] lemma bumpAll_files (l : List Int64) : (w.bumpAll l).files = w.files := by
  induction l generalizing w with
  | nil => rfl
  | cons s l ih => exact ih (w.bump s)

@[simp] lemma bumpAll_clock (l : List Int64) : (w.bumpAll l).clock = w.clock := by
  induction l generalizing w with
  | nil => rfl
  | cons s l ih => exact ih (w.bump s)

/-- The counting pass adds, in the machine's arithmetic, the number of times each serial
occurs in the list. -/
theorem bumpAll_refCount (l : List Int64) (s : Int64) :
    (w.bumpAll l).refCount s = w.refCount s+Int32.ofNat (l.count s) := by
  induction l generalizing w with
  | nil => simp
  | cons t l ih =>
    rw [bumpAll_cons,ih,bump_refCount]
    by_cases h : s = t
    · subst h
      rw [if_pos rfl,List.count_cons_self,Int32.ofNat_add,Int32.add_assoc]
      congr 1
      exact Int32.add_comm _ _
    · rw [if_neg h,List.count_cons_of_ne (Ne.symm h)]

/-- Counting keeps the serial that a record carries. -/
lemma bumpAll_serial (l : List Int64) {s serial : Int64}
    (h : ∃ rb, w.blocks s = some rb ∧ rb.serial = serial) :
    ∃ rb, (w.bumpAll l).blocks s = some rb ∧ rb.serial = serial := by
  induction l generalizing w with
  | nil => exact h
  | cons t l ih =>
    by_cases hst : s = t
    · subst hst
      obtain ⟨rb,hrb,hserial⟩ := h
      exact ih (w.bump s) ⟨{ rb with referCount := rb.referCount+1 },by simp [bump,hrb],hserial⟩
    · exact ih (w.bump t) (by rwa [bump_blocks_ne w hst])

end bump
end World
end GDFileStore
