import Mathlib.Data.List.AList

/-! The total of a measure over the values of a finite map, and how one insertion moves it. -/
namespace GDFileStore.Sequences
variable {α β : Type*}

def entryWeight (f : β → ℕ) : List ((_ : α) × β) → ℕ
  | [] => 0
  | e::l => f e.2+entryWeight f l

/-- The sum of `f` over the values of the map. -/
def weight (f : β → ℕ) (m : AList (fun _ : α => β)) : ℕ := entryWeight f m.entries

@[simp] lemma weight_empty {f : β → ℕ} : weight f (∅ : AList (fun _ : α => β)) = 0 := rfl

lemma entryWeight_eq_zero {f : β → ℕ} {l : List ((_ : α) × β)} (h : ∀ e ∈ l, f e.2 = 0) :
    entryWeight f l = 0 := by
  induction l with
  | nil => rfl
  | cons e l ih =>
    rw [entryWeight,h e List.mem_cons_self,ih (fun d hd => h d (List.mem_cons_of_mem e hd))]

variable [DecidableEq α] {f : β → ℕ}

lemma entryWeight_kerase (f : β → ℕ) (k : α) (l : List ((_ : α) × β)) :
    entryWeight f (l.kerase k)+(l.dlookup k).elim 0 f = entryWeight f l := by
  induction l with
  | nil => rfl
  | cons e l ih =>
    by_cases hk : k = e.1
    · subst hk
      rw [List.kerase_cons_eq rfl,List.dlookup_cons_eq,entryWeight,Option.elim_some,Nat.add_comm]
    · rw [List.kerase_cons_ne hk,List.dlookup_cons_ne l e hk,entryWeight,entryWeight,Nat.add_assoc,
        ih]

/-- An insertion adds the new value's measure and takes away that of the value it replaces. -/
theorem weight_insert (f : β → ℕ) (m : AList (fun _ : α => β)) (k : α) (b : β) :
    weight f (m.insert k b)+(m.lookup k).elim 0 f = f b+weight f m := by
  rw [weight,AList.entries_insert,entryWeight,Nat.add_assoc]
  exact congrArg (f b + ·) (entryWeight_kerase f k m.entries)

lemma weight_eq_zero {m : AList (fun _ : α => β)} (h : ∀ k b, m.lookup k = some b → f b = 0) :
    weight f m = 0 :=
  entryWeight_eq_zero (fun e he => h e.1 e.2 (AList.mem_lookup_iff.2 he))

end GDFileStore.Sequences
