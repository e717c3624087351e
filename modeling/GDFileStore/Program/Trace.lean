import Mathlib.Data.List.Induction

/-! Runs of labelled steps with the trace of their labels: what every step preserves, and how the
steps of one system are followed by those of another. -/
namespace GDFileStore.Program
variable {σ τ ε δ : Type*}

/-- The runs from `s₀`, each with its trace. -/
inductive Traced (step : σ → ε → σ → Prop) (s₀ : σ) : List ε → σ → Prop
  | start : Traced step s₀ [] s₀
  | step {trace : List ε} {e : ε} {s s' : σ} :
      Traced step s₀ trace s → step s e s' → Traced step s₀ (trace ++ [e]) s'

namespace Traced
variable {step : σ → ε → σ → Prop} {s₀ s : σ} {trace : List ε}

theorem invariant (Inv : σ → Prop) (hstep : ∀ {s e s'}, step s e s' → Inv s → Inv s')
    (hstart : Inv s₀) (h : Traced step s₀ trace s) : Inv s := by
  induction h with
  | start => exact hstart
  | step _ hs ih => exact hstep hs ih

lemma eq_of_nil (h : Traced step s₀ [] s) : s = s₀ := by
  generalize htrace : ([] : List ε) = trace at h
  cases h with
  | start => rfl
  | step => simp at htrace

lemma of_concat {e : ε} (h : Traced step s₀ (trace ++ [e]) s) :
    ∃ mid, Traced step s₀ trace mid ∧ step mid e s := by
  generalize htrace : trace ++ [e] = whole at h
  cases h with
  | start => simp at htrace
  | step hrun hs =>
    obtain ⟨rfl,heq⟩ := List.append_inj' htrace rfl
    obtain rfl := List.singleton_inj.1 heq
    exact ⟨_,hrun,hs⟩

/-- A run passes through a state at every place of its trace. -/
theorem of_append {before after : List ε} (h : Traced step s₀ (before ++ after) s) :
    ∃ mid, Traced step s₀ before mid ∧ Traced step mid after s := by
  induction after using List.reverseRecOn generalizing s with
  | nil =>
    rw [List.append_nil] at h
    exact ⟨s,h,.start⟩
  | append_singleton after e ih =>
    rw [← List.append_assoc] at h
    obtain ⟨last,hrun,hs⟩ := h.of_concat
    obtain ⟨mid,hbefore,hafter⟩ := ih hrun
    exact ⟨mid,hbefore,hafter.step hs⟩

lemma of_cons {e : ε} {after : List ε} (h : Traced step s₀ (e::after) s) :
    ∃ mid, step s₀ e mid ∧ Traced step mid after s := by
  rw [← List.singleton_append] at h
  obtain ⟨mid,hfirst,hafter⟩ := h.of_append
  rw [← List.nil_append [e]] at hfirst
  obtain ⟨start,hstart,hs⟩ := hfirst.of_concat
  obtain rfl := hstart.eq_of_nil
  exact ⟨mid,hs,hafter⟩

/-- Where every step from related states is followed by a step with the label's image, so is every
run. -/
theorem follow {step' : τ → δ → τ → Prop} {t₀ : τ} (R : σ → τ → Prop) (label : ε → δ)
    (hstep : ∀ {s e s' t}, step s e s' → R s t → ∃ t', step' t (label e) t' ∧ R s' t')
    (hstart : R s₀ t₀) (h : Traced step s₀ trace s) :
    ∃ t, Traced step' t₀ (trace.map label) t ∧ R s t := by
  induction h with
  | start => exact ⟨t₀,.start,hstart⟩
  | @step trace e s s' _ hs ih =>
    obtain ⟨t,hrun,hR⟩ := ih
    obtain ⟨t',hs',hR'⟩ := hstep hs hR
    refine ⟨t',?_,hR'⟩
    rw [List.map_append,List.map_singleton]
    exact hrun.step hs'

end Traced
end GDFileStore.Program
