import Mathlib.Data.List.InsertIdx
import Mathlib.Data.List.Perm.Basic
import Mathlib.Data.List.Nodup

/-! Edits of a list by position, over any type of elements: a script is natural in the
elements, and brings in no element but those it carries. -/
namespace GDFileStore.Sequences
variable {α β : Type*}

/-- One edit by position. -/
inductive Edit (α : Type*) where
  | insert (pos : ℕ) (x : α)
  | delete (pos : ℕ)
  | overWrite (pos : ℕ) (x : α)
  deriving DecidableEq

namespace Edit

def apply : Edit α → List α → List α
  | .insert p x,l => l.insertIdx p x
  | .delete p,l => l.eraseIdx p
  | .overWrite p x,l => l.set p x

/-- The position is one the edit may name in a list of length `n`. -/
def InRange (n : ℕ) : Edit α → Prop
  | .insert p _ => p ≤ n
  | .delete p => p < n
  | .overWrite p _ => p < n

instance (n : ℕ) : (e : Edit α) → Decidable (e.InRange n)
  | .insert p _ => inferInstanceAs (Decidable (p ≤ n))
  | .delete p => inferInstanceAs (Decidable (p < n))
  | .overWrite p _ => inferInstanceAs (Decidable (p < n))

def map (f : α → β) : Edit α → Edit β
  | .insert p x => .insert p (f x)
  | .delete p => .delete p
  | .overWrite p x => .overWrite p (f x)

/-- The element an edit brings into the list. -/
def value : Edit α → Option α
  | .insert _ x => some x
  | .delete _ => none
  | .overWrite _ x => some x

lemma map_apply (f : α → β) (e : Edit α) (l : List α) :
    (e.apply l).map f = (e.map f).apply (l.map f) := by
  cases e with
  | insert p x => simp [apply,map,List.map_insertIdx]
  | delete p => simp [apply,map,List.eraseIdx_map]
  | overWrite p x => simp [apply,map]

lemma map_map {γ : Type*} (f : α → β) (g : β → γ) (e : Edit α) :
    (e.map f).map g = e.map (fun x => g (f x)) := by cases e <;> rfl

lemma map_congr {f g : α → β} {e : Edit α} (h : ∀ x, e.value = some x → f x = g x) :
    e.map f = e.map g := by
  cases e with
  | insert p x => rw [map,map,h x rfl]
  | delete p => rfl
  | overWrite p x => rw [map,map,h x rfl]

lemma value_map (f : α → β) (e : Edit α) : (e.map f).value = e.value.map f := by
  cases e <;> rfl

lemma mem_of_mem_apply {e : Edit α} {l : List α} {x : α} (h : x ∈ e.apply l) :
    x ∈ l ∨ e.value = some x := by
  cases e with
  | insert p y =>
    by_cases hp : p ≤ l.length
    · rcases (List.mem_insertIdx hp).1 h with rfl | hm
      · exact .inr rfl
      · exact .inl hm
    · rw [apply,List.insertIdx_of_length_lt (by omega)] at h
      exact .inl h
  | delete p => exact .inl (List.mem_of_mem_eraseIdx h)
  | overWrite p y =>
    rcases List.mem_or_eq_of_mem_set h with hm | rfl
    · exact .inl hm
    · exact .inr rfl

lemma nodup_insertIdx {l : List α} {x : α} (p : ℕ) (hl : l.Nodup) (hx : x ∉ l) :
    (l.insertIdx p x).Nodup := by
  by_cases hp : p ≤ l.length
  · exact (List.perm_insertIdx x l hp).nodup_iff.2 (List.nodup_cons.2 ⟨hx,hl⟩)
  · rwa [List.insertIdx_of_length_lt (by omega)]

lemma nodup_set {l : List α} {x : α} (p : ℕ) (hl : l.Nodup) (hx : x ∉ l) : (l.set p x).Nodup := by
  by_cases hp : p < l.length
  · refine (List.set_perm_cons_eraseIdx hp x).nodup_iff.2 (List.nodup_cons.2 ⟨?_,?_⟩)
    · intro hm
      exact hx (List.mem_of_mem_eraseIdx hm)
    · exact hl.sublist (List.eraseIdx_sublist l p)
  · rwa [List.set_eq_of_length_le (by omega)]

lemma nodup_apply {e : Edit α} {l : List α} (hl : l.Nodup) (he : ∀ x, e.value = some x → x ∉ l) :
    (e.apply l).Nodup := by
  cases e with
  | insert p x => exact nodup_insertIdx p hl (he x rfl)
  | delete p => exact hl.sublist (List.eraseIdx_sublist l p)
  | overWrite p x => exact nodup_set p hl (he x rfl)

/-- The length of a list of length `n` after an edit that is in range for it. -/
def lengthAfter (n : ℕ) : Edit α → ℕ
  | .insert _ _ => n+1
  | .delete _ => n-1
  | .overWrite _ _ => n

end Edit

/-- A script, its edits done in order. -/
def applyEdits : List (Edit α) → List α → List α
  | [],l => l
  | e::es,l => applyEdits es (e.apply l)

/-- Every edit of the script is in range, from a list of length `n` on. -/
def EditsInRange : List (Edit α) → ℕ → Prop
  | [],_ => True
  | e::es,n => e.InRange n ∧ EditsInRange es (e.lengthAfter n)

def decidableEditsInRange : (es : List (Edit α)) → (n : ℕ) → Decidable (EditsInRange es n)
  | [],_ => inferInstanceAs (Decidable True)
  | e::es,n =>
    have := decidableEditsInRange es (e.lengthAfter n)
    inferInstanceAs (Decidable (e.InRange n ∧ EditsInRange es (e.lengthAfter n)))

instance (es : List (Edit α)) (n : ℕ) : Decidable (EditsInRange es n) := decidableEditsInRange es n

/-- The elements a script brings in. -/
def values (es : List (Edit α)) : List α := es.filterMap Edit.value

@[simp] lemma values_nil : values ([] : List (Edit α)) = [] := rfl
@[simp] lemma values_insert (p : ℕ) (x : α) (es : List (Edit α)) :
    values (.insert p x::es) = x::values es := rfl
@[simp] lemma values_delete (p : ℕ) (es : List (Edit α)) :
    values (.delete p::es) = values es := rfl
@[simp] lemma values_overWrite (p : ℕ) (x : α) (es : List (Edit α)) :
    values (.overWrite p x::es) = x::values es := rfl

/-- Give each element the script brings in the next name; the script stops where the names
run out. -/
def nameEdits {ι : Type*} : List (Edit α) → List ι → List (Edit (ι × α))
  | [],_ => []
  | .delete p::es,ts => .delete p::nameEdits es ts
  | .insert p x::es,t::ts => .insert p (t,x)::nameEdits es ts
  | .overWrite p x::es,t::ts => .overWrite p (t,x)::nameEdits es ts
  | .insert _ _::_,[] => []
  | .overWrite _ _::_,[] => []

theorem map_applyEdits (f : α → β) (es : List (Edit α)) (l : List α) :
    (applyEdits es l).map f = applyEdits (es.map (Edit.map f)) (l.map f) := by
  induction es generalizing l with
  | nil => rfl
  | cons e es ih => rw [applyEdits,ih,Edit.map_apply,List.map_cons,applyEdits]

lemma map_edits_congr {f g : α → β} {es : List (Edit α)} (h : ∀ x ∈ values es, f x = g x) :
    es.map (Edit.map f) = es.map (Edit.map g) := by
  apply List.map_congr_left
  intro e he
  apply Edit.map_congr
  intro x hx
  exact h x (List.mem_filterMap.2 ⟨e,he,hx⟩)

theorem mem_of_mem_applyEdits {es : List (Edit α)} {l : List α} {x : α} (h : x ∈ applyEdits es l) :
    x ∈ l ∨ x ∈ values es := by
  induction es generalizing l with
  | nil => exact .inl h
  | cons e es ih =>
    rcases ih h with hm | hm
    · rcases Edit.mem_of_mem_apply hm with hl | he
      · exact .inl hl
      · exact .inr (List.mem_filterMap.2 ⟨e,by simp,he⟩)
    · obtain ⟨d,hd,hx⟩ := List.mem_filterMap.1 hm
      exact .inr (List.mem_filterMap.2 ⟨d,List.mem_cons_of_mem e hd,hx⟩)

theorem nodup_applyEdits {es : List (Edit α)} {l : List α} (hl : l.Nodup)
    (hes : (values es).Nodup) (hd : ∀ x ∈ values es, x ∉ l) :
    (applyEdits es l).Nodup := by
  induction es generalizing l with
  | nil => exact hl
  | cons e es ih =>
    refine ih (Edit.nodup_apply hl ?_) ?_ ?_
    · intro x hx
      exact hd x (List.mem_filterMap.2 ⟨e,by simp,hx⟩)
    · cases he : e.value <;> simp_all [values]
    · intro x hx hm
      rcases Edit.mem_of_mem_apply hm with hxl | hxe
      · obtain ⟨d,hd',hv⟩ := List.mem_filterMap.1 hx
        exact hd x (List.mem_filterMap.2 ⟨d,List.mem_cons_of_mem e hd',hv⟩) hxl
      · rw [values,List.filterMap_cons_some hxe] at hes
        exact (List.nodup_cons.1 hes).1 hx

lemma map_fst_zip (xs : List α) (ys : List β) : (xs.zip ys).map Prod.fst = xs.take ys.length := by
  induction xs generalizing ys with
  | nil => simp
  | cons x xs ih => cases ys <;> simp [ih]

lemma take_length_zip (xs : List α) (ys : List β) : (xs.take ys.length).zip ys = xs.zip ys := by
  induction xs generalizing ys with
  | nil => simp
  | cons x xs ih => cases ys <;> simp [ih]

lemma values_map (f : α → β) (es : List (Edit α)) :
    values (es.map (Edit.map f)) = (values es).map f := by
  induction es with
  | nil => rfl
  | cons e es ih =>
    cases hv : e.value <;> simp_all [values,Edit.value_map]

section naming
variable {ι : Type*}

lemma values_nameEdits (es : List (Edit α)) (ts : List ι) :
    values (nameEdits es ts) = ts.zip (values es) := by
  induction es, ts using nameEdits.induct with
  | case1 ts => simp [nameEdits]
  | case2 p es ts ih => exact ih
  | case3 p x es t ts ih => simpa [nameEdits] using ih
  | case4 p x es t ts ih => simpa [nameEdits] using ih
  | case5 => rfl
  | case6 => rfl

/-- With names enough, naming forgets nothing. -/
lemma map_snd_nameEdits {es : List (Edit α)} {ts : List ι} (h : (values es).length ≤ ts.length) :
    (nameEdits es ts).map (Edit.map Prod.snd) = es := by
  induction es, ts using nameEdits.induct with
  | case1 ts => rfl
  | case2 p es ts ih => simp [nameEdits,Edit.map,ih h]
  | case3 p x es t ts ih => simp [nameEdits,Edit.map,ih (by simpa using h)]
  | case4 p x es t ts ih => simp [nameEdits,Edit.map,ih (by simpa using h)]
  | case5 => simp at h
  | case6 => simp at h

/-- A named script, read through `f` on the names, is the script read through `g` wherever the
two agree on the names given. -/
theorem map_applyEdits_nameEdits {β : Type*} {es : List (Edit α)} {ts : List ι} {l : List ι}
    {f : ι → β} {g : α → β} (hnames : (values es).length ≤ ts.length)
    (h : ∀ b ∈ ts.zip (values es), f b.1 = g b.2) :
    (applyEdits ((nameEdits es ts).map (Edit.map Prod.fst)) l).map f =
      applyEdits (es.map (Edit.map g)) (l.map f) := by
  have hagree : (nameEdits es ts).map (Edit.map (fun b => f b.1)) =
      (nameEdits es ts).map (Edit.map (fun b => g b.2)) :=
    map_edits_congr (by rwa [values_nameEdits])
  have hfst : ((nameEdits es ts).map (Edit.map Prod.fst)).map (Edit.map f) =
      (nameEdits es ts).map (Edit.map (fun b => f b.1)) := by
    simp only [List.map_map,Function.comp_def,Edit.map_map]
  have hsnd : (nameEdits es ts).map (Edit.map (fun b => g b.2)) = es.map (Edit.map g) := by
    have hback := congrArg (List.map (Edit.map g)) (map_snd_nameEdits hnames)
    simpa only [List.map_map,Function.comp_def,Edit.map_map] using hback
  rw [map_applyEdits,hfst,hagree,hsnd]

end naming

end GDFileStore.Sequences
