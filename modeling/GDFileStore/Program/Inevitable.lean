import GDFileStore.Program.Prog
import Mathlib.Logic.Hydra

/-! What a system must come to, whichever of its steps it takes: a rank that every step brings down,
and the rank of programs that run side by side. -/
namespace GDFileStore.Program
open Prog Relation
variable {σ ρ : Type*}

/-- However the steps go, `Q` is reached, and before that there is always a step. -/
inductive Inevitable (step : σ → σ → Prop) (Q : σ → Prop) : σ → Prop
  | here {s : σ} : Q s → Inevitable step Q s
  | later {s : σ} : (∃ s', step s s') → (∀ s', step s s' → Inevitable step Q s') →
      Inevitable step Q s

/-- Steps that bring a rank down come to an end, at a state without a step. -/
theorem Inevitable.of_rank {step : σ → σ → Prop} {Q : σ → Prop} {lt : ρ → ρ → Prop}
    (hwf : WellFounded lt) (Ranked : σ → ρ → Prop)
    (hstep : ∀ {s s' r}, Ranked s r → step s s' → ∃ r', lt r' r ∧ Ranked s' r')
    (hrest : ∀ {s r}, Ranked s r → (∀ s', ¬step s s') → Q s) {s : σ} {r : ρ} (h : Ranked s r) :
    Inevitable step Q s := by
  induction r using hwf.induction generalizing s with
  | _ r ih =>
    by_cases hmore : ∃ s', step s s'
    · refine .later hmore ?_
      intro s' hs'
      obtain ⟨r',hlt,hr'⟩ := hstep h hs'
      exact ih r' hlt hr'
    · exact .here (hrest h (not_exists.1 hmore))

namespace Prog
variable {Op : Type} {Resp : Op → Type} {α : Type}

/-- What is left of a program after its first request. -/
def Rest (q p : Prog Resp α) : Prop := ∃ op rest r, p = .call op rest ∧ q = rest r

lemma rest_wf : WellFounded (Rest : Prog Resp α → Prog Resp α → Prop) := by
  constructor
  intro p
  induction p with
  | done a =>
    constructor
    rintro q ⟨op,rest,r,hp,-⟩
    cases hp
  | call op rest ih =>
    constructor
    rintro q ⟨op',rest',r,hp,rfl⟩
    cases hp
    exact ih r

/-- One of several programs makes its request, and goes on or is done. -/
lemma cutExpand_rest (ps : Multiset (Prog Resp α)) {op : Op} {rest : Resp op → Prog Resp α}
    {r : Resp op} {qs : Multiset (Prog Resp α)} (hqs : qs ≤ {rest r}) :
    CutExpand Rest (qs + ps) (.call op rest ::ₘ ps) := by
  refine ⟨qs,.call op rest,?_,?_⟩
  · intro q hq
    rw [Multiset.mem_singleton.1 (Multiset.mem_of_le hqs hq)]
    exact ⟨op,rest,r,rfl,rfl⟩
  · rw [← Multiset.singleton_add]
    ac_rfl

end Prog
end GDFileStore.Program
