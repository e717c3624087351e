import Mathlib.Data.List.Basic
import Mathlib.Order.Lattice

/-! Lists in the order in which their entries are due, those due at one time in the order in which
they came. A new entry is put before the first that is due later, and nowhere where none is. -/
namespace GDFileStore.Sequences
variable {β ι : Type*} [LinearOrder ι] (due : β → ι)

def insertDue (x : β) : List β → List β
  | [] => []
  | y::l => if due x < due y then x::y::l else y::insertDue x l

variable {due} {x y : β} {l : List β}

/-- Where an insertion takes place, it parts what is due by then from what is due later. -/
theorem insertDue_split (h : ∃ y ∈ l, due x < due y) : ∃ front y back, l = front ++ y::back ∧
    (∀ z ∈ front, due z ≤ due x) ∧ due x < due y ∧ insertDue due x l = front ++ x::y::back := by
  induction l with
  | nil =>
    obtain ⟨y,hy,-⟩ := h
    cases hy
  | cons z l ih =>
    rw [insertDue]
    split
    · next hz => exact ⟨[],z,l,rfl,by simp,hz,rfl⟩
    · next hz =>
      obtain ⟨y,hy,hlater⟩ := h
      have hrest : ∃ y ∈ l, due x < due y := by
        rcases List.mem_cons.1 hy with rfl | hm
        · exact absurd hlater hz
        · exact ⟨y,hm,hlater⟩
      obtain ⟨front,y,back,rfl,hfront,hy,heq⟩ := ih hrest
      refine ⟨z::front,y,back,rfl,?_,hy,by rw [heq]; rfl⟩
      intro d hd
      rcases List.mem_cons.1 hd with rfl | hm
      · exact not_lt.1 hz
      · exact hfront d hm

lemma insertDue_of_last (h : ¬∃ y ∈ l, due x < due y) : insertDue due x l = l := by
  induction l with
  | nil => rfl
  | cons z l ih =>
    have hz : ¬due x < due z := fun hlt => h ⟨z,List.mem_cons_self,hlt⟩
    rw [insertDue,if_neg hz,ih (fun ⟨y,hy,hlt⟩ => h ⟨y,List.mem_cons_of_mem _ hy,hlt⟩)]

lemma insertDue_perm (h : ∃ y ∈ l, due x < due y) : (insertDue due x l).Perm (x::l) := by
  obtain ⟨front,y,back,rfl,-,-,heq⟩ := insertDue_split h
  rw [heq]
  exact List.perm_middle

lemma mem_insertDue {z : β} (h : z ∈ insertDue due x l) : z = x ∨ z ∈ l := by
  by_cases hlater : ∃ y ∈ l, due x < due y
  · exact List.mem_cons.1 ((insertDue_perm hlater).mem_iff.1 h)
  · rw [insertDue_of_last hlater] at h
    exact .inr h

lemma mem_insertDue_of_mem {z : β} (h : z ∈ l) : z ∈ insertDue due x l := by
  by_cases hlater : ∃ y ∈ l, due x < due y
  · exact (insertDue_perm hlater).mem_iff.2 (List.mem_cons_of_mem _ h)
  · rwa [insertDue_of_last hlater]

/-- The last entry stays last where it is due later than the new one. -/
lemma insertDue_concat (h : due x < due y) :
    ∃ front, insertDue due x (l ++ [y]) = front ++ [y] ∧ front.Perm (x::l) := by
  obtain ⟨front,z,back,hsplit,-,-,heq⟩ := insertDue_split ⟨y,by simp,h⟩ (l := l ++ [y])
  rw [heq]
  rcases List.eq_nil_or_concat' back with rfl | ⟨rest,last,rfl⟩
  · obtain ⟨rfl,hlast⟩ := List.append_inj' hsplit rfl
    obtain rfl := List.singleton_inj.1 hlast
    exact ⟨l ++ [x],by simp,List.perm_append_comm⟩
  · rw [← List.cons_append,← List.append_assoc] at hsplit
    obtain ⟨rfl,hlast⟩ := List.append_inj' hsplit rfl
    obtain rfl := List.singleton_inj.1 hlast
    exact ⟨front ++ x::z::rest,by simp,List.perm_middle⟩

section Order
variable (due) (number : β → ℕ)

/-- Due earlier, or at the same time with a smaller number. -/
def Before (d e : β) : Prop := due d < due e ∨ due d = due e ∧ number d < number e

variable {due number} {d e : β}

lemma Before.le (h : Before due number d e) : due d ≤ due e := h.elim le_of_lt (fun heq => heq.1.le)

lemma Before.asymm (h : Before due number d e) : ¬Before due number e d := by
  rintro (hlt | ⟨heq,hlt⟩)
  · exact absurd hlt (not_lt.2 h.le)
  · rcases h with hlt' | ⟨-,hlt'⟩
    · exact absurd hlt' (not_lt.2 heq.le)
    · omega

lemma Before.ne (h : Before due number d e) : d ≠ e := by
  rintro rfl
  exact h.asymm h

/-- An entry with a new number finds its place in the order. -/
theorem pairwise_insertDue (h : l.Pairwise (Before due number))
    (hnew : ∀ z ∈ l, number z < number x) : (insertDue due x l).Pairwise (Before due number) := by
  by_cases hlater : ∃ y ∈ l, due x < due y
  · obtain ⟨front,y,back,rfl,hfront,hy,heq⟩ := insertDue_split hlater
    rw [heq]
    obtain ⟨hf,hb,hfb⟩ := List.pairwise_append.1 h
    have hx : ∀ z ∈ y::back, Before due number x z := by
      intro z hz
      rcases List.mem_cons.1 hz with rfl | hm
      · exact .inl hy
      · exact .inl (hy.trans_le ((List.pairwise_cons.1 hb).1 z hm).le)
    refine List.pairwise_append.2 ⟨hf,List.pairwise_cons.2 ⟨hx,hb⟩,?_⟩
    intro z hz w hw
    rcases List.mem_cons.1 hw with rfl | hm
    · rcases (hfront z hz).lt_or_eq with hlt | hsame
      · exact .inl hlt
      · exact .inr ⟨hsame,hnew z (List.mem_append_left _ hz)⟩
    · exact hfb z hz w hm
  · rwa [insertDue_of_last hlater]

end Order
end GDFileStore.Sequences
