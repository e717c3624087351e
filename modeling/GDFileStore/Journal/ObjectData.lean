import GDFileStore.Journal.Disk
import Mathlib.Data.Finset.Card

/-! `_StoreObjectData` and `_get_object_data`. The file of an object is named after its name and its
page group alone, and the page group is one of a hundred. -/
namespace GDFileStore
open Sequences

/-- `boost::hash_combine` for the types it is called with, which is not part of the program. -/
structure HashCombine where
  string : UInt64 → Bytes → UInt64
  int64 : UInt64 → Int64 → UInt64
  int8 : UInt64 → Int8 → UInt64

/-- `HashForGHObject_t`. -/
def hashForGHObject (combine : HashCombine) (ghobj : GHObject) : UInt64 :=
  let seed := 0
  let seed := combine.string seed ghobj.owner
  let seed := combine.int64 seed ghobj.generation
  let seed := combine.int8 seed ghobj.shardId.id
  let seed := combine.int64 seed ghobj.hobj.pool
  let seed := combine.int64 seed ghobj.hobj.snap.timeStamp
  combine.string seed ghobj.hobj.oid.name

structure PageGroup where
  name : Bytes
  pool : UInt64

/-- `default_pg_numbers`. -/
def defaultPgNumbers : UInt64 := 100

/-- Where objects are stored: the store, `boost::hash_combine`, and what `fmt` fills `{:>04}` up
with, which depends on its version. -/
structure ObjectStore where
  fs : FileStore
  combine : HashCombine
  fill : Fill

namespace ObjectStore
variable (store : ObjectStore)

def pageGroupNumber (ghobj : GHObject) : UInt64 := hashForGHObject store.combine ghobj % defaultPgNumbers

def getPageGroupFroGHOBJ (ghobj : GHObject) : PageGroup where
  name := filledDecimal store.fill 4 (store.pageGroupNumber ghobj).toNat
  pool := ghobj.hobj.pool.toUInt64

def storagePath (ghobj : GHObject) : Bytes :=
  store.fs.getGHObjectStoragePath (fun gh => (store.getPageGroupFroGHOBJ gh).name) ghobj

/-- `_StoreObjectData`, on the files by their paths. -/
def storeObjectData (files : Bytes → Option Bytes) (obj : GHObject) (data : Bytes) :
    Bytes → Option Bytes := Function.update files (store.storagePath obj) (some data)

/-- `_get_object_data`. -/
def getObjectData (files : Bytes → Option Bytes) (obj : GHObject) : Bytes :=
  readFile files (store.storagePath obj)

def storeAll (files : Bytes → Option Bytes) (stores : List (GHObject × Bytes)) :
    Bytes → Option Bytes :=
  stores.foldl (fun files e => store.storeObjectData files e.1 e.2) files

/-- Objects with one name in page groups of one number. -/
def SharesFile (g h : GHObject) : Prop :=
  g.hobj.oid.name = h.hobj.oid.name ∧ store.pageGroupNumber g = store.pageGroupNumber h

instance (g h : GHObject) : Decidable (store.SharesFile g h) :=
  inferInstanceAs (Decidable (_ ∧ _))

lemma slash_notMem_name (g : GHObject) : slash ∉ (store.getPageGroupFroGHOBJ g).name := by
  have hfill : store.fill.byte ≠ slash := by cases store.fill <;> decide
  exact notMem_filledDecimal hfill (by decide) 4 _

/-- Two objects have one path exactly when they share a file. -/
theorem storagePath_eq_iff {g h : GHObject} :
    store.storagePath g = store.storagePath h ↔ store.SharesFile g h := by
  constructor
  · intro hpath
    have hslash : lit "/" = [slash] := by decide
    simp only [storagePath,FileStore.getGHObjectStoragePath,hslash,List.append_assoc,
      List.singleton_append] at hpath
    have htail := (List.cons.inj (List.append_cancel_left hpath)).2
    obtain ⟨hgroup,hname⟩ := append_cons_inj_of_notMem_left (store.slash_notMem_name g)
      (store.slash_notMem_name h) htail
    exact ⟨List.append_cancel_right hname,UInt64.toNat.inj (filledDecimal_injective _ _ hgroup)⟩
  · intro hshares
    simp only [storagePath,FileStore.getGHObjectStoragePath,getPageGroupFroGHOBJ,hshares.1,
      hshares.2]

end ObjectStore

/-- The members in which different objects differ. -/
def SameObject (g h : GHObject) : Prop :=
  g.owner = h.owner ∧ g.hobj.pool = h.hobj.pool ∧ g.hobj.oid.name = h.hobj.oid.name ∧
    g.generation = h.generation ∧ g.shardId = h.shardId

instance (g h : GHObject) : Decidable (SameObject g h) := inferInstanceAs (Decidable (_ ∧ _))

/-- The data of the last store to such an object. -/
def lastData (object : GHObject → Prop) [DecidablePred object] (stores : List (GHObject × Bytes)) :
    Option Bytes :=
  stores.reverse.findSome? (fun e => if object e.1 then some e.2 else none)

section LastData
variable {object : GHObject → Prop} [DecidablePred object] {stores : List (GHObject × Bytes)}

lemma lastData_concat (stores : List (GHObject × Bytes)) (e : GHObject × Bytes) :
    lastData object (stores ++ [e]) = if object e.1 then some e.2 else lastData object stores := by
  rw [lastData,List.reverse_append,List.reverse_singleton,List.singleton_append,List.findSome?_cons,
    lastData]
  split_ifs <;> rfl

lemma lastData_isSome {g : GHObject} (hmem : g ∈ stores.map Prod.fst) (hg : object g) :
    (lastData object stores).isSome := by
  obtain ⟨e,he,rfl⟩ := List.mem_map.1 hmem
  rw [lastData,List.findSome?_isSome_iff]
  exact ⟨e,List.mem_reverse.2 he,by rw [if_pos hg];rfl⟩

/-- Where all stores to such objects have the same data, that is the last. -/
lemma lastData_eq_some {g : GHObject} {data : Bytes} (hmem : (g,data) ∈ stores) (hg : object g)
    (hall : ∀ e ∈ stores, object e.1 → e.2 = data) : lastData object stores = some data := by
  obtain ⟨last,hlast⟩ := Option.isSome_iff_exists.1 (lastData_isSome (List.mem_map_of_mem hmem) hg)
  obtain ⟨e,he,hdata⟩ := List.exists_of_findSome?_eq_some hlast
  rw [hlast]
  split_ifs at hdata with hobject
  rw [← Option.some.inj hdata,hall e (List.mem_reverse.1 he) hobject]

lemma lastData_congr {object' : GHObject → Prop} [DecidablePred object']
    (h : ∀ e ∈ stores, object e.1 ↔ object' e.1) : lastData object stores = lastData object' stores := by
  induction stores using List.reverseRecOn with
  | nil => rfl
  | append_singleton stores e ih =>
    rw [lastData_concat,lastData_concat,ih (fun e he => h e (List.mem_append_left _ he))]
    simp only [h e (List.mem_append_right _ (List.mem_singleton_self e))]

end LastData

namespace ObjectStore
variable (store : ObjectStore)

/-- A file holds what was last stored to an object that shares it. -/
theorem storeAll_file (files : Bytes → Option Bytes) (stores : List (GHObject × Bytes))
    (g : GHObject) : store.storeAll files stores (store.storagePath g) =
      (lastData (store.SharesFile · g) stores).or (files (store.storagePath g)) := by
  induction stores using List.reverseRecOn with
  | nil => rfl
  | append_singleton stores e ih =>
    rw [storeAll,List.foldl_append,List.foldl_cons,List.foldl_nil,lastData_concat]
    change Function.update (store.storeAll files stores) (store.storagePath e.1) (some e.2) _ = _
    rw [Function.update_apply]
    by_cases hshares : store.SharesFile e.1 g
    · rw [if_pos (store.storagePath_eq_iff.2 hshares).symm,if_pos hshares,Option.some_or]
    · rw [if_neg (fun heq => hshares (store.storagePath_eq_iff.1 heq.symm)),if_neg hshares,ih]

/-- An object that has been stored reads back as what was last stored to an object that shares its
file. -/
lemma getObjectData_eq (files : Bytes → Option Bytes) {stores : List (GHObject × Bytes)}
    {g : GHObject} (hmem : g ∈ stores.map Prod.fst) :
    lastData (store.SharesFile · g) stores =
      some (store.getObjectData (store.storeAll files stores) g) := by
  have hself : store.SharesFile g g := ⟨rfl,rfl⟩
  have hsome : (lastData (store.SharesFile · g) stores).isSome := lastData_isSome hmem hself
  obtain ⟨data,hdata⟩ := Option.isSome_iff_exists.1 hsome
  rw [getObjectData,readFile,store.storeAll_file,hdata]
  rfl

/-- Where the stores that share the file of `g` are the stores to `g`, it reads back as the last. -/
theorem getObjectData_of_apart (files : Bytes → Option Bytes) {stores : List (GHObject × Bytes)}
    {g : GHObject} (hmem : g ∈ stores.map Prod.fst)
    (hapart : ∀ e ∈ stores, store.SharesFile e.1 g ↔ SameObject e.1 g) :
    some (store.getObjectData (store.storeAll files stores) g) =
      lastData (SameObject · g) stores := by
  rw [← store.getObjectData_eq files hmem]
  exact lastData_congr hapart

/-- After any sequence of stores, a stored object reads back as what was last stored to it exactly
when the last store to an object of its name and page group number had that data. -/
theorem getObjectData_last_iff (files : Bytes → Option Bytes) {stores : List (GHObject × Bytes)}
    {g : GHObject} (hmem : g ∈ stores.map Prod.fst) :
    some (store.getObjectData (store.storeAll files stores) g) =
        lastData (SameObject · g) stores ↔
      lastData (fun h => h.hobj.oid.name = g.hobj.oid.name ∧
        store.pageGroupNumber h = store.pageGroupNumber g) stores =
          lastData (SameObject · g) stores := by
  rw [← store.getObjectData_eq files hmem]
  rfl

end ObjectStore

/-- A store under a hash that puts all objects into one page group. -/
def constantStore : ObjectStore :=
  ⟨sampleStore,⟨fun _ _ => 0,fun _ _ => 0,fun _ _ => 0⟩,.zero⟩

/-- An object of a name. -/
def named (name : Bytes) : GHObject := { hobj := { oid := { name := name } } }

/-- Two objects of different names, one of them stored twice. -/
theorem getObjectData_last_iff_names : ∃ stores : List (GHObject × Bytes),
    stores = [(named (lit "a"),lit "x"),(named (lit "b"),lit "y"),(named (lit "a"),lit "z")] ∧
    constantStore.getObjectData (constantStore.storeAll (fun _ => none) stores)
      (named (lit "a")) = lit "z" := by
  let stores : List (GHObject × Bytes) :=
    [(named (lit "a"),lit "x"),(named (lit "b"),lit "y"),(named (lit "a"),lit "z")]
  have hlast : lastData (SameObject · (named (lit "a"))) stores = some (lit "z") := by decide
  have hmem : named (lit "a") ∈ stores.map Prod.fst := by decide
  have hread := (constantStore.getObjectData_last_iff (fun _ => none) hmem).2 (by decide)
  exact ⟨stores,rfl,Option.some.inj (hread.trans hlast)⟩

/-- The generations from 0 to 100 of one object, each stored with its number. -/
def generations : List (GHObject × Bytes) :=
  (List.range 101).map (fun i => (generation i,decimal i))

lemma mem_generations {i : ℕ} (hi : i < 101) : (generation i,decimal i) ∈ generations :=
  List.mem_map.2 ⟨i,List.mem_range.2 hi,rfl⟩

lemma eq_of_sameObject_generation {i j : ℕ} (hi : i < 101) (hj : j < 101)
    (h : SameObject (generation i) (generation j)) : i = j := by
  obtain ⟨_,_,_,hgeneration,_⟩ := h
  have hint := congrArg Int64.toInt hgeneration
  change (Int64.ofNat i).toInt = (Int64.ofNat j).toInt at hint
  rw [Int64.toInt_ofNat_of_lt (by omega),Int64.toInt_ofNat_of_lt (by omega)] at hint
  omega

lemma lastData_generations {i : ℕ} (hi : i < 101) :
    lastData (SameObject · (generation i)) generations = some (decimal i) := by
  apply lastData_eq_some (mem_generations hi) ⟨rfl,rfl,rfl,rfl,rfl⟩
  intro e he hsame
  obtain ⟨j,hj,rfl⟩ := List.mem_map.1 he
  rw [eq_of_sameObject_generation (List.mem_range.1 hj) hi hsame]

/-- Whatever the hash, two of a hundred and one generations have one page group number, and so one
file: they do not all read back as they were stored. -/
theorem generation_overwritten : ¬∃ store : ObjectStore, ∀ g ∈ generations.map Prod.fst,
    some (store.getObjectData (store.storeAll (fun _ => none) generations) g) =
      lastData (SameObject · g) generations := by
  intro hall
  obtain ⟨store,hall⟩ := hall
  have hread : ∀ i < 101,
      store.getObjectData (store.storeAll (fun _ => none) generations) (generation i) =
        decimal i := by
    intro i hi
    have hlast := hall (generation i) (List.mem_map_of_mem (mem_generations hi))
    rw [lastData_generations hi] at hlast
    exact Option.some.inj hlast
  obtain ⟨i,hi,j,hj,hne,hnumber⟩ := Finset.exists_ne_map_eq_of_card_lt_of_maps_to
    (s := Finset.range 101) (t := Finset.range 100)
    (f := fun i => (store.pageGroupNumber (generation i)).toNat) (by simp) (by
      intro i _
      have hlt := Nat.mod_lt (hashForGHObject store.combine (generation i)).toNat
        (show 100 > 0 by decide)
      simpa [ObjectStore.pageGroupNumber,defaultPgNumbers] using hlt)
  have hshares : store.SharesFile (generation i) (generation j) := ⟨rfl,UInt64.toNat.inj hnumber⟩
  have hpath := store.storagePath_eq_iff.2 hshares
  apply hne
  apply decimal_injective
  rw [← hread i (Finset.mem_range.1 hi),← hread j (Finset.mem_range.1 hj),
    ObjectStore.getObjectData,ObjectStore.getObjectData,hpath]

end GDFileStore
