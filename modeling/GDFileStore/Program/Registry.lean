import GDFileStore.Program.Trace
import Mathlib.Data.List.Dedup
import Mathlib.Logic.Function.Basic

/-! A registry that hands out numbers and forgets them again, and what can be read off a trace of
its answers: a name keeps its number until it is forgotten, and no number is made twice. -/
namespace GDFileStore.Program

structure Registry (G H : Type*) where
  numberOf : G → Option H
  made : List H

namespace Registry
variable {G H : Type*}

/-- An answer with the number of a name, one with the name of a number, and the end of a name. -/
inductive Event (G H : Type*) where
  | number (g : G) (h : H)
  | name (h : H) (g : G)
  | forget (g : G)
  | idle

def start : Registry G H := ⟨fun _ => none,[]⟩

/-- The numbers in use are made, each for one name. -/
structure WellNumbered (r : Registry G H) : Prop where
  made : ∀ {g h}, r.numberOf g = some h → h ∈ r.made
  injective : ∀ {g g' h}, r.numberOf g = some h → r.numberOf g' = some h → g = g'
  nodup : r.made.Nodup

/-- A number that is made and no longer in use. -/
def Spent (r : Registry G H) (h : H) : Prop := h ∈ r.made ∧ ∀ g, r.numberOf g ≠ some h

lemma start_wellNumbered : (start : Registry G H).WellNumbered := ⟨nofun,nofun,.nil⟩

section Steps
variable [DecidableEq G]

inductive Step : Registry G H → Event G H → Registry G H → Prop
  | known {r : Registry G H} {g : G} {h : H} : r.numberOf g = some h → Step r (.number g h) r
  | fresh {r : Registry G H} {g : G} {h : H} : r.numberOf g = none → h ∉ r.made →
      Step r (.number g h) ⟨Function.update r.numberOf g (some h),h::r.made⟩
  | name {r : Registry G H} {h : H} {g : G} : (∀ g', r.numberOf g' = some h → g' = g) →
      Step r (.name h g) r
  | forget {r : Registry G H} {g : G} :
      Step r (.forget g) ⟨Function.update r.numberOf g none,r.made⟩
  | idle {r : Registry G H} : Step r .idle r

variable {r r' : Registry G H} {e : Event G H} {g g' : G} {h h' : H} {trace : List (Event G H)}

section Update
variable {f : G → Option H} {g₀ : G} {h₀ : H}

lemma of_update_some (hg : Function.update f g₀ (some h₀) g = some h) :
    g = g₀ ∧ h = h₀ ∨ g ≠ g₀ ∧ f g = some h := by
  by_cases heq : g = g₀
  · rw [heq,Function.update_self] at hg
    exact .inl ⟨heq,(Option.some.inj hg).symm⟩
  · rw [Function.update_of_ne heq] at hg
    exact .inr ⟨heq,hg⟩

lemma of_update_none (hg : Function.update f g₀ none g = some h) : g ≠ g₀ ∧ f g = some h := by
  by_cases heq : g = g₀
  · rw [heq,Function.update_self] at hg
    cases hg
  · rw [Function.update_of_ne heq] at hg
    exact ⟨heq,hg⟩

end Update

lemma Step.wellNumbered (hs : Step r e r') (hr : r.WellNumbered) : r'.WellNumbered := by
  cases hs with
  | known => exact hr
  | name => exact hr
  | idle => exact hr
  | @fresh g h hnone hnew =>
    refine ⟨?_,?_,List.nodup_cons.2 ⟨hnew,hr.nodup⟩⟩
    · intro g' h' hg'
      rcases of_update_some hg' with ⟨-,rfl⟩ | ⟨-,hold⟩
      · exact List.mem_cons_self
      · exact List.mem_cons_of_mem _ (hr.made hold)
    · intro a b h' ha hb
      rcases of_update_some ha with ⟨rfl,rfl⟩ | ⟨-,hold⟩ <;>
        rcases of_update_some hb with ⟨rfl,heq⟩ | ⟨-,hold'⟩
      · rfl
      · exact absurd (hr.made hold') hnew
      · exact absurd (hr.made (heq ▸ hold)) hnew
      · exact hr.injective hold hold'
  | forget =>
    exact ⟨fun hg => hr.made (of_update_none hg).2,
      fun ha hb => hr.injective (of_update_none ha).2 (of_update_none hb).2,hr.nodup⟩

/-- After an answer with a number the name has it. -/
lemma Step.numberOf (hs : Step r (.number g h) r') : r'.numberOf g = some h := by
  cases hs with
  | known hg => exact hg
  | fresh => exact Function.update_self ..

lemma Step.keeps (hs : Step r e r') (hg : r.numberOf g = some h) (he : e ≠ .forget g) :
    r'.numberOf g = some h := by
  cases hs with
  | known => exact hg
  | name => exact hg
  | idle => exact hg
  | @fresh g' _ hnone =>
    have hne : g ≠ g' := by
      rintro rfl
      cases hg.symm.trans hnone
    exact (Function.update_of_ne hne ..).trans hg
  | @forget g' =>
    have hne : g ≠ g' := by
      rintro rfl
      exact he rfl
    exact (Function.update_of_ne hne ..).trans hg

lemma Step.spent (hs : Step r e r') (h' : r.Spent h) : r'.Spent h := by
  obtain ⟨hmade,hnone⟩ := h'
  cases hs with
  | known => exact ⟨hmade,hnone⟩
  | name => exact ⟨hmade,hnone⟩
  | idle => exact ⟨hmade,hnone⟩
  | fresh _ hnew =>
    refine ⟨List.mem_cons_of_mem _ hmade,?_⟩
    intro g hg
    rcases of_update_some hg with ⟨-,rfl⟩ | ⟨-,hold⟩
    · exact hnew hmade
    · exact hnone g hold
  | forget => exact ⟨hmade,fun g hg => hnone g (of_update_none hg).2⟩

lemma Step.forgets (hs : Step r (.forget g) r') (hr : r.WellNumbered)
    (hg : r.numberOf g = some h) : r'.Spent h := by
  cases hs with
  | forget =>
    refine ⟨hr.made hg,?_⟩
    intro g' hg'
    obtain ⟨hne,hold⟩ := of_update_none hg'
    exact hne (hr.injective hold hg)

theorem traced_wellNumbered (hrun : Traced Step r trace r') (hr : r.WellNumbered) :
    r'.WellNumbered := hrun.invariant WellNumbered (fun hs hi => hs.wellNumbered hi) hr

/-- A name keeps its number until it is forgotten, and from then on the number is spent. -/
theorem keeps_or_spent (hrun : Traced Step r trace r') (hr : r.WellNumbered)
    (hg : r.numberOf g = some h) :
    r'.numberOf g = some h ∧ .forget g ∉ trace ∨ .forget g ∈ trace ∧ r'.Spent h := by
  induction hrun with
  | start => exact .inl ⟨hg,List.not_mem_nil⟩
  | @step trace e s s' hrun hs ih =>
    rcases ih with ⟨hnumber,hno⟩ | ⟨hforgot,hspent⟩
    · by_cases he : e = .forget g
      · rw [he] at hs ⊢
        exact .inr ⟨by simp,hs.forgets (traced_wellNumbered hrun hr) hnumber⟩
      · exact .inl ⟨hs.keeps hnumber he,by simp [hno,Ne.symm he]⟩
    · exact .inr ⟨List.mem_append_left _ hforgot,hs.spent hspent⟩

variable {before mid after : List (Event G H)}

/-- A second answer for a name, before it is forgotten, gives the same number. -/
theorem same_number (hrun : Traced Step r (before ++ .number g h::(mid ++ .number g h'::after)) r')
    (hr : r.WellNumbered) (hmid : .forget g ∉ mid) : h' = h := by
  obtain ⟨s,hbefore,hrest⟩ := hrun.of_append
  obtain ⟨s₁,hfirst,hrest⟩ := hrest.of_cons
  obtain ⟨s₂,hmiddle,hrest⟩ := hrest.of_append
  obtain ⟨s₃,hsecond,-⟩ := hrest.of_cons
  have hwell := hfirst.wellNumbered (traced_wellNumbered hbefore hr)
  rcases keeps_or_spent hmiddle hwell hfirst.numberOf with ⟨hnumber,-⟩ | ⟨hforgot,-⟩
  · cases hsecond with
    | known hg => exact Option.some.inj (hg.symm.trans hnumber)
    | fresh hnone => cases hnumber.symm.trans hnone
  · exact absurd hforgot hmid

/-- Where a number is given a second time, it is to the same name, which has kept it. -/
theorem number_once (hrun : Traced Step r (before ++ .number g h::(mid ++ .number g' h::after)) r')
    (hr : r.WellNumbered) : g' = g ∧ .forget g ∉ mid := by
  obtain ⟨s,hbefore,hrest⟩ := hrun.of_append
  obtain ⟨s₁,hfirst,hrest⟩ := hrest.of_cons
  obtain ⟨s₂,hmiddle,hrest⟩ := hrest.of_append
  obtain ⟨s₃,hsecond,-⟩ := hrest.of_cons
  have hwell := hfirst.wellNumbered (traced_wellNumbered hbefore hr)
  have hwell' := traced_wellNumbered hmiddle hwell
  rcases keeps_or_spent hmiddle hwell hfirst.numberOf with ⟨hnumber,hno⟩ | ⟨-,hmade,hspent⟩
  · cases hsecond with
    | known hg => exact ⟨hwell'.injective hg hnumber,hno⟩
    | fresh _ hnew => exact absurd (hwell'.made hnumber) hnew
  · cases hsecond with
    | known hg => exact absurd hg (hspent g')
    | fresh _ hnew => exact absurd hmade hnew

/-- An answer with the name of a number is the name that was given it. -/
theorem name_of_number (hrun : Traced Step r (before ++ .number g h::(mid ++ .name h g'::after)) r')
    (hr : r.WellNumbered) (hmid : .forget g ∉ mid) : g' = g := by
  obtain ⟨s,hbefore,hrest⟩ := hrun.of_append
  obtain ⟨s₁,hfirst,hrest⟩ := hrest.of_cons
  obtain ⟨s₂,hmiddle,hrest⟩ := hrest.of_append
  obtain ⟨s₃,hsecond,-⟩ := hrest.of_cons
  have hwell := hfirst.wellNumbered (traced_wellNumbered hbefore hr)
  rcases keeps_or_spent hmiddle hwell hfirst.numberOf with ⟨hnumber,-⟩ | ⟨hforgot,-⟩
  · cases hsecond with
    | name hname => exact (hname g hnumber).symm
  · exact absurd hforgot hmid

/-- The number in an answer for a name. -/
def Event.number? : Event G H → Option H
  | .number _ h => some h
  | .name _ _ => none
  | .forget _ => none
  | .idle => none

/-- The numbers made are those in the answers. -/
theorem mem_made_iff (hrun : Traced Step start trace r) : h ∈ r.made ↔ h ∈ trace.filterMap Event.number? := by
  induction hrun with
  | start => simp [start]
  | @step trace e s s' hrun hs ih =>
    rw [List.filterMap_append,List.mem_append,← ih]
    cases hs with
    | @known g' h' hg =>
      have hmade := (traced_wellNumbered hrun start_wellNumbered).made hg
      simp only [List.filterMap_cons,List.filterMap_nil,Event.number?,List.mem_singleton]
      exact ⟨.inl,fun hor => hor.elim id (fun heq => heq ▸ hmade)⟩
    | fresh => simp [Event.number?,or_comm]
    | name => simp [Event.number?]
    | forget => simp [Event.number?]
    | idle => simp [Event.number?]

theorem length_made [DecidableEq H] (hrun : Traced Step start trace r) :
    r.made.length = (trace.filterMap Event.number?).dedup.length := by
  have hnodup := (traced_wellNumbered hrun start_wellNumbered).nodup
  refine ((List.perm_ext_iff_of_nodup hnodup (List.nodup_dedup _)).2 ?_).length_eq
  intro h
  rw [List.mem_dedup,mem_made_iff hrun]

end Steps
end Registry
end GDFileStore.Program
