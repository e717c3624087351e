import Mathlib.Data.List.Induction
import Mathlib.Data.List.Pairwise
import Mathlib.Order.RelClasses

/-! Maps that keep their entries in the order of the keys. The comparison is only a strict weak
order: keys that it does not tell apart are one key, and an insertion keeps the one it finds. -/
namespace GDFileStore.Sequences
variable {κ β : Type*}

section Entries
variable (lt : κ → κ → Prop)

/-- The comparison does not tell the two keys apart. -/
def SameKey (k q : κ) : Prop := ¬lt k q ∧ ¬lt q k

variable [DecidableRel lt]

instance (k q : κ) : Decidable (SameKey lt k q) := inferInstanceAs (Decidable (_ ∧ _))

def findEntry (k : κ) (l : List (κ × β)) : Option (κ × β) := l.find? (fun e => SameKey lt e.1 k)

def insertEntry (k : κ) (b : β) : List (κ × β) → List (κ × β)
  | [] => [(k,b)]
  | e::l =>
    if lt e.1 k then e::insertEntry k b l
    else if lt k e.1 then (k,b)::e::l
    else (e.1,b)::l

def eraseEntry (k : κ) (l : List (κ × β)) : List (κ × β) :=
  l.filter (fun e => ¬SameKey lt e.1 k)

end Entries

namespace SameKey
variable {lt : κ → κ → Prop} {k q r : κ}

lemma symm (h : SameKey lt k q) : SameKey lt q k := ⟨h.2,h.1⟩

variable [IsStrictWeakOrder κ lt]

lemma refl (k : κ) : SameKey lt k k := ⟨Std.Irrefl.irrefl k,Std.Irrefl.irrefl k⟩

lemma trans (h : SameKey lt k q) (h' : SameKey lt q r) : SameKey lt k r :=
  IsStrictWeakOrder.incomp_trans k q r h h'

end SameKey

lemma SameKey.iff_eq {lt : κ → κ → Prop} [IsStrictTotalOrder κ lt] {k q : κ} :
    SameKey lt k q ↔ k = q := by
  constructor
  · intro h
    exact Std.Trichotomous.trichotomous k q h.1 h.2
  · rintro rfl
    exact ⟨Std.Irrefl.irrefl k,Std.Irrefl.irrefl k⟩

section Entries
variable {lt : κ → κ → Prop} [DecidableRel lt] {k q : κ} {b : β} {l : List (κ × β)}

lemma findEntry_cons (e : κ × β) (l : List (κ × β)) :
    findEntry lt k (e::l) = if SameKey lt e.1 k then some e else findEntry lt k l := by
  rw [findEntry,List.find?_cons]
  by_cases h : SameKey lt e.1 k <;> simp [h,findEntry]

lemma key_of_mem_insertEntry {e : κ × β} (h : e ∈ insertEntry lt k b l) :
    e.1 = k ∨ ∃ d ∈ l, d.1 = e.1 := by
  induction l with
  | nil =>
    rw [List.mem_singleton.1 h]
    exact .inl rfl
  | cons d l ih =>
    rw [insertEntry] at h
    split_ifs at h
    · rcases List.mem_cons.1 h with rfl | hm
      · exact .inr ⟨e,by simp,rfl⟩
      · exact (ih hm).imp_right (fun ⟨d',hd',heq⟩ => ⟨d',List.mem_cons_of_mem _ hd',heq⟩)
    · rcases List.mem_cons.1 h with rfl | hm
      · exact .inl rfl
      · exact .inr ⟨e,hm,rfl⟩
    · rcases List.mem_cons.1 h with rfl | hm
      · exact .inr ⟨d,by simp,rfl⟩
      · exact .inr ⟨e,List.mem_cons_of_mem _ hm,rfl⟩

/-- The entries are in the order of their keys. -/
def Sorted (lt : κ → κ → Prop) (l : List (κ × β)) : Prop := l.Pairwise (fun d e => lt d.1 e.1)

lemma Sorted.eraseEntry (h : Sorted lt l) (k : κ) : Sorted lt (eraseEntry lt k l) := h.filter _

/-- The entries up to a key stand before those after it. -/
lemma Sorted.split [IsTrans κ lt] (h : Sorted lt l) (k : κ) :
    l.filter (fun e => ¬lt k e.1) ++ l.filter (fun e => lt k e.1) = l := by
  induction l with
  | nil => rfl
  | cons d l ih =>
    obtain ⟨hd,hl⟩ := List.pairwise_cons.1 h
    by_cases hkd : lt k d.1
    · have hafter : ∀ e ∈ l, lt k e.1 := fun e he => IsTrans.trans _ _ _ hkd (hd e he)
      have hnone : l.filter (fun e => ¬lt k e.1) = [] := by
        rw [List.filter_eq_nil_iff]
        intro e he
        simpa using hafter e he
      have hall : l.filter (fun e => lt k e.1) = l := by
        rw [List.filter_eq_self]
        intro e he
        simpa using hafter e he
      rw [List.filter_cons_of_neg (by simpa using hkd),List.filter_cons_of_pos (by simpa using hkd),
        hnone,hall]
      rfl
    · rw [List.filter_cons_of_pos (by simpa using hkd),List.filter_cons_of_neg (by simpa using hkd),
        List.cons_append,ih hl]

variable [IsStrictWeakOrder κ lt]

lemma Sorted.insertEntry (h : Sorted lt l) (k : κ) (b : β) : Sorted lt (insertEntry lt k b l) := by
  induction l with
  | nil => exact List.pairwise_singleton _ _
  | cons d l ih =>
    obtain ⟨hd,hl⟩ := List.pairwise_cons.1 h
    rw [Sequences.insertEntry]
    split_ifs with hdk hkd
    · refine List.pairwise_cons.2 ⟨?_,ih hl⟩
      intro e he
      rcases key_of_mem_insertEntry he with hk | ⟨e',he',hk⟩
      · rwa [hk]
      · rw [← hk]
        exact hd e' he'
    · refine List.pairwise_cons.2 ⟨?_,h⟩
      intro e he
      rcases List.mem_cons.1 he with rfl | hm
      · exact hkd
      · exact IsTrans.trans _ _ _ hkd (hd e hm)
    · exact List.pairwise_cons.2 ⟨fun e he => hd e he,hl⟩

/-- After an insertion the key is found with the new value, under the name it already had. -/
theorem findEntry_insertEntry_same (hsorted : Sorted lt l) (h : SameKey lt k q) :
    findEntry lt q (insertEntry lt k b l) = some (((findEntry lt q l).elim k Prod.fst),b) := by
  induction l with
  | nil => simp [insertEntry,findEntry,h]
  | cons d l ih =>
    obtain ⟨hd,hl⟩ := List.pairwise_cons.1 hsorted
    rw [insertEntry]
    split_ifs with hdk hkd
    · have hne : ¬SameKey lt d.1 q := fun hsame => (hsame.trans h.symm).1 hdk
      rw [findEntry_cons,findEntry_cons,if_neg hne,if_neg hne,ih hl]
    · have hnone : findEntry lt q (d::l) = none := by
        refine List.find?_eq_none.2 ?_
        intro e he
        have hke : lt k e.1 := by
          rcases List.mem_cons.1 he with rfl | hm
          · exact hkd
          · exact IsTrans.trans _ _ _ hkd (hd e hm)
        simpa using fun hsame : SameKey lt e.1 q => (hsame.trans h.symm).2 hke
      rw [findEntry_cons,if_pos h,hnone,Option.elim_none]
    · have hsame : SameKey lt d.1 q := SameKey.trans ⟨hdk,hkd⟩ h
      rw [findEntry_cons,findEntry_cons,if_pos hsame,if_pos hsame,Option.elim_some]

lemma findEntry_insertEntry_ne (h : ¬SameKey lt k q) :
    findEntry lt q (insertEntry lt k b l) = findEntry lt q l := by
  induction l with
  | nil => simp [insertEntry,findEntry,h]
  | cons d l ih =>
    rw [insertEntry]
    split_ifs with hdk hkd
    · rw [findEntry_cons,findEntry_cons,ih]
    · rw [findEntry_cons,if_neg h]
    · have hne : ¬SameKey lt d.1 q := fun hsame => h (SameKey.trans ⟨hkd,hdk⟩ hsame)
      rw [findEntry_cons,findEntry_cons,if_neg hne,if_neg hne]

lemma findEntry_eraseEntry_same (h : SameKey lt k q) : findEntry lt q (eraseEntry lt k l) = none := by
  refine List.find?_eq_none.2 ?_
  intro e he
  have hne := of_decide_eq_true (List.mem_filter.1 he).2
  simpa using fun hsame : SameKey lt e.1 q => hne (hsame.trans h.symm)

lemma findEntry_eraseEntry_ne (h : ¬SameKey lt k q) :
    findEntry lt q (eraseEntry lt k l) = findEntry lt q l := by
  induction l with
  | nil => rfl
  | cons d l ih =>
    rw [eraseEntry] at ih ⊢
    by_cases hd : SameKey lt d.1 k
    · have hne : ¬SameKey lt d.1 q := fun hsame => h (hd.symm.trans hsame)
      rw [List.filter_cons_of_neg (by simpa using hd),findEntry_cons,if_neg hne,ih]
    · rw [List.filter_cons_of_pos (by simpa using hd),findEntry_cons,findEntry_cons,ih]

/-- In a sorted list a member is what a search for its key finds. -/
lemma findEntry_eq_some_iff (hsorted : Sorted lt l) {e : κ × β} :
    findEntry lt k l = some e ↔ e ∈ l ∧ SameKey lt e.1 k := by
  constructor
  · intro h
    exact ⟨List.mem_of_find?_eq_some h,by simpa using List.find?_some h⟩
  · rintro ⟨hm,hsame⟩
    induction l with
    | nil => cases hm
    | cons d l ih =>
      obtain ⟨hd,hl⟩ := List.pairwise_cons.1 hsorted
      rw [findEntry_cons]
      rcases List.mem_cons.1 hm with rfl | hm
      · rw [if_pos hsame]
      · rw [if_neg (fun hdk => (hdk.trans hsame.symm).1 (hd e hm)),ih hl hm]

end Entries

/-- A map in the order of `lt`. -/
structure OrderedMap (lt : κ → κ → Prop) (β : Type*) where
  entries : List (κ × β)
  sorted : Sorted lt entries

namespace OrderedMap
variable {lt : κ → κ → Prop}

instance : EmptyCollection (OrderedMap lt β) := ⟨⟨[],.nil⟩⟩

instance : Inhabited (OrderedMap lt β) := ⟨∅⟩

variable [DecidableRel lt]

/-- The entry under a key, with the key as it is kept. -/
def entry (m : OrderedMap lt β) (k : κ) : Option (κ × β) := findEntry lt k m.entries

def find (m : OrderedMap lt β) (k : κ) : Option β := (m.entry k).map Prod.snd

/-- `m[k] = b`. -/
def insert [IsStrictWeakOrder κ lt] (m : OrderedMap lt β) (k : κ) (b : β) : OrderedMap lt β :=
  ⟨insertEntry lt k b m.entries,m.sorted.insertEntry k b⟩

def erase (m : OrderedMap lt β) (k : κ) : OrderedMap lt β :=
  ⟨eraseEntry lt k m.entries,m.sorted.eraseEntry k⟩

@[simp] lemma find_empty (k : κ) : (∅ : OrderedMap lt β).find k = none := rfl

lemma mem_erase_iff {m : OrderedMap lt β} {k : κ} {e : κ × β} :
    e ∈ (m.erase k).entries ↔ e ∈ m.entries ∧ ¬SameKey lt e.1 k := by
  change e ∈ eraseEntry lt k m.entries ↔ _
  rw [eraseEntry,List.mem_filter,decide_eq_true_iff]

section weak
variable [IsStrictWeakOrder κ lt] {m : OrderedMap lt β} {k q : κ} {b : β}

lemma entry_eq_some_iff {e : κ × β} : m.entry k = some e ↔ e ∈ m.entries ∧ SameKey lt e.1 k :=
  findEntry_eq_some_iff m.sorted

lemma find_eq_some_iff : m.find k = some b ↔ ∃ q, (q,b) ∈ m.entries ∧ SameKey lt q k := by
  rw [find,Option.map_eq_some_iff]
  constructor
  · rintro ⟨⟨q,b'⟩,hentry,rfl⟩
    exact ⟨q,entry_eq_some_iff.1 hentry⟩
  · rintro ⟨q,hq⟩
    exact ⟨(q,b),entry_eq_some_iff.2 hq,rfl⟩

lemma mem_entries_iff {e : κ × β} : e ∈ m.entries ↔ m.entry e.1 = some e := by
  rw [entry_eq_some_iff,and_iff_left (SameKey.refl e.1)]

lemma entry_insert_same (h : SameKey lt k q) :
    (m.insert k b).entry q = some ((m.entry q).elim k Prod.fst,b) :=
  findEntry_insertEntry_same m.sorted h

lemma entry_insert_ne (h : ¬SameKey lt k q) : (m.insert k b).entry q = m.entry q :=
  findEntry_insertEntry_ne h

lemma entry_erase_same (h : SameKey lt k q) : (m.erase k).entry q = none :=
  findEntry_eraseEntry_same h

lemma entry_erase_ne (h : ¬SameKey lt k q) : (m.erase k).entry q = m.entry q :=
  findEntry_eraseEntry_ne h

/-- The entries after an insertion under a new key. -/
lemma mem_insert_of_find_none (h : m.find k = none) {e : κ × β} :
    e ∈ (m.insert k b).entries ↔ e = (k,b) ∨ e ∈ m.entries := by
  rw [mem_entries_iff,mem_entries_iff]
  by_cases hk : SameKey lt k e.1
  · have hnone : m.entry e.1 = none := by
      rw [Option.eq_none_iff_forall_ne_some]
      intro d hd
      obtain ⟨hm,hde⟩ := entry_eq_some_iff.1 hd
      have hfind : m.find k = some d.2 := find_eq_some_iff.2 ⟨d.1,hm,hde.trans hk.symm⟩
      cases h.symm.trans hfind
    rw [entry_insert_same hk,hnone,Option.elim_none,Option.some_inj,or_iff_left nofun,eq_comm]
  · have hne : e ≠ (k,b) := by
      rintro rfl
      exact hk (.refl k)
    rw [entry_insert_ne hk,or_iff_right hne]

lemma find_insert_same (h : SameKey lt k q) : (m.insert k b).find q = some b := by
  rw [find,entry_insert_same h,Option.map_some]

lemma find_insert_ne (h : ¬SameKey lt k q) : (m.insert k b).find q = m.find q := by
  rw [find,entry_insert_ne h,find]

lemma find_erase_same (h : SameKey lt k q) : (m.erase k).find q = none := by
  rw [find,entry_erase_same h,Option.map_none]

lemma find_erase_ne (h : ¬SameKey lt k q) : (m.erase k).find q = m.find q := by
  rw [find,entry_erase_ne h,find]

end weak

section gather
variable {α : Type*} [IsStrictWeakOrder κ lt] (key : α → κ) (update : Option β → α → β)

/-- A list put into a map, each element under its key over what is there. -/
def gather (l : List α) : OrderedMap lt β :=
  l.foldl (fun m a => m.insert (key a) (update (m.find (key a)) a)) ∅

lemma filter_sameKey_congr {k q : κ} (h : SameKey lt k q) (l : List α) :
    l.filter (fun a => SameKey lt (key a) k) = l.filter (fun a => SameKey lt (key a) q) := by
  apply List.filter_congr
  intro a _
  exact decide_eq_decide.2 ⟨fun ha => ha.trans h,fun ha => ha.trans h.symm⟩

/-- An entry is made of the elements under its key alone, and kept under the key of the first. -/
theorem entry_gather (l : List α) (k : κ) :
    (gather key update l : OrderedMap lt β).entry k =
      match l.filter (fun a => SameKey lt (key a) k) with
      | [] => none
      | a::as => some (key a,as.foldl (fun b a' => update (some b) a') (update none a)) := by
  induction l using List.reverseRecOn generalizing k with
  | nil => rfl
  | append_singleton l a ih =>
    rw [gather,List.foldl_append,List.foldl_cons,List.foldl_nil,← gather,List.filter_append]
    by_cases hk : SameKey lt (key a) k
    · have hfind := ih (key a)
      rw [filter_sameKey_congr key hk] at hfind
      rw [entry_insert_same hk,ih k,find,hfind,List.filter_cons_of_pos (by simpa using hk),
        List.filter_nil]
      cases l.filter (fun a => SameKey lt (key a) k) with
      | nil => rfl
      | cons b bs => simp
    · rw [entry_insert_ne hk,ih k,List.filter_cons_of_neg (by simpa using hk),List.filter_nil,
        List.append_nil]

end gather

section total
variable [IsStrictTotalOrder κ lt] [DecidableEq κ] (m : OrderedMap lt β) (k q : κ) (b : β)

instance : IsStrictWeakOrder κ lt := isStrictWeakOrder_of_isOrderConnected

lemma find_insert : (m.insert k b).find q = if q = k then some b else m.find q := by
  split_ifs with h
  · exact find_insert_same (SameKey.iff_eq.2 h.symm)
  · exact find_insert_ne (fun hsame => h (SameKey.iff_eq.1 hsame).symm)

lemma find_erase : (m.erase k).find q = if q = k then none else m.find q := by
  split_ifs with h
  · exact find_erase_same (SameKey.iff_eq.2 h.symm)
  · exact find_erase_ne (fun hsame => h (SameKey.iff_eq.1 hsame).symm)

end total

end OrderedMap
end GDFileStore.Sequences
