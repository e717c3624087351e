import Mathlib.Data.List.Nodup
import Mathlib.Data.List.Range

/-! Tickets given out in order, each with exactly one entry at all times. What makes an entry
good may depend on its ticket and on everything else, as long as a step leaves it alone for every
ticket but one. -/
namespace GDFileStore.Sequences
variable {α : Type*} {Good Good' : ℕ → α → Prop} {n t : ℕ} {l l' : List (ℕ × α)} {a a' : α}

/-- Each of the tickets below `n` has exactly one entry, and the entry is good. -/
structure Register (Good : ℕ → α → Prop) (n : ℕ) (l : List (ℕ × α)) : Prop where
  tickets : (l.map Prod.fst).Perm (List.range n)
  good : ∀ e ∈ l, Good e.1 e.2

namespace Register

lemma empty : Register Good 0 [] := ⟨.refl _,nofun⟩

lemma perm (h : Register Good n l) (hp : l'.Perm l) : Register Good n l' where
  tickets := (hp.map Prod.fst).trans h.tickets
  good := fun e he => h.good e (hp.mem_iff.1 he)

lemma lt_of_mem (h : Register Good n l) (hm : (t,a) ∈ l) : t < n :=
  List.mem_range.1 (h.tickets.mem_iff.1 (List.mem_map_of_mem hm))

lemma count_eq_one (h : Register Good n l) (ht : t < n) : (l.map Prod.fst).count t = 1 := by
  rw [h.tickets.count_eq]
  exact List.count_eq_one_of_mem List.nodup_range (List.mem_range.2 ht)

lemma exists_entry (h : Register Good n l) (ht : t < n) : ∃ a, (t,a) ∈ l ∧ Good t a := by
  obtain ⟨⟨u,a⟩,hm,rfl⟩ := List.mem_map.1 (h.tickets.mem_iff.2 (List.mem_range.2 ht))
  exact ⟨a,hm,h.good _ hm⟩

/-- A ticket's entries are all the same one. -/
lemma unique (h : Register Good n l) (ha : (t,a) ∈ l) (ha' : (t,a') ∈ l) : a = a' := by
  have hnodup : (l.map Prod.fst).Nodup := h.tickets.nodup_iff.2 List.nodup_range
  exact congrArg Prod.snd (List.inj_on_of_nodup_map hnodup ha ha' rfl)

/-- The next ticket is given out. -/
theorem issue (h : Register Good n l) (hgood : ∀ u < n, ∀ b, Good u b → Good' u b)
    (hnew : Good' n a) : Register Good' (n+1) ((n,a)::l) where
  tickets := by
    rw [List.map_cons,List.range_succ]
    exact (h.tickets.cons n).trans (List.perm_append_singleton n _).symm
  good := by
    intro e he
    rcases List.mem_cons.1 he with rfl | hm
    · exact hnew
    · exact hgood e.1 (h.lt_of_mem hm) e.2 (h.good e hm)

/-- One ticket changes its entry. -/
theorem move (h : Register Good n ((t,a)::l)) (hgood : ∀ u, u ≠ t → ∀ b, Good u b → Good' u b)
    (hnew : Good' t a') : Register Good' n ((t,a')::l) where
  tickets := h.tickets
  good := by
    intro e he
    rcases List.mem_cons.1 he with rfl | hm
    · exact hnew
    · have hnodup : (t::l.map Prod.fst).Nodup := h.tickets.nodup_iff.2 List.nodup_range
      have hne : e.1 ≠ t := by
        rintro rfl
        exact (List.nodup_cons.1 hnodup).1 (List.mem_map_of_mem hm)
      exact hgood e.1 hne e.2 (h.good e (List.mem_cons_of_mem _ hm))

end Register
end GDFileStore.Sequences
