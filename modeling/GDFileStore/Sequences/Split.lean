import Mathlib.Data.List.InsertIdx

/-! Index-based list operations at the point where a list is known to split. -/
namespace GDFileStore.Sequences
variable {α : Type*}

lemma insertIdx_at_split (pre post : List α) (x : α) :
    (pre ++ post).insertIdx pre.length x = pre ++ x::post := by
  induction pre with
  | nil => simp
  | cons y ys ih => simp [ih]

lemma getElem?_at_split (pre post : List α) (s : α) :
    (pre ++ s::post)[pre.length]? = some s := by simp

lemma set_at_split (pre post : List α) (s x : α) :
    (pre ++ s::post).set pre.length x = pre ++ x::post := by simp

lemma take_past_split (pre post : List α) (s : α) :
    (pre ++ s::post).take (pre.length+1) = pre ++ [s] := by
  rw [List.take_length_add_append]
  rfl

lemma drop_past_split (pre post : List α) (s : α) :
    (pre ++ s::post).drop (pre.length+1) = post := by
  rw [List.drop_length_add_append]
  rfl

lemma insertIdx_past_split (pre post : List α) (s x : α) :
    (pre ++ s::post).insertIdx (pre.length+1) x = pre ++ s::x::post := by
  have h := insertIdx_at_split (pre ++ [s]) post x
  simpa using h

end GDFileStore.Sequences
