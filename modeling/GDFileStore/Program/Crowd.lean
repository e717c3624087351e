import GDFileStore.Program.Pool

/-! Threads that come and go on one state, one request at a time in any order. A request may have any
outcome that a relation admits. -/
namespace GDFileStore.Program
open Prog
variable {Op : Type} {Resp : Op → Type} {α σ V : Type}

/-- What a crowd of threads lives in: the threads that may begin in a state, and the outcomes that
their requests may have. -/
structure Setting {Op : Type} (Resp : Op → Type) (α σ : Type) where
  begins : σ → Prog Resp α → Prop
  outcome : (op : Op) → σ → Resp op → σ → Prop

/-- The threads that run and the state they have come to. -/
inductive Crowd (C : Setting Resp α σ) (s₀ : σ) : List (Prog Resp α) → σ → Prop
  | start : Crowd C s₀ [] s₀
  | enter {before after : List (Prog Resp α)} {p : Prog Resp α} {s : σ} :
      Crowd C s₀ (before ++ after) s → C.begins s p → Crowd C s₀ (before ++ p::after) s
  | step {before after : List (Prog Resp α)} {op : Op} {rest : Resp op → Prog Resp α} {s s' : σ}
      {r : Resp op} : Crowd C s₀ (before ++ .call op rest::after) s → C.outcome op s r s' →
      Crowd C s₀ (before ++ rest r::after) s'
  | leave {before after : List (Prog Resp α)} {a : α} {s : σ} :
      Crowd C s₀ (before ++ .done a::after) s → Crowd C s₀ (before ++ after) s

/-- What has to be shown of one thread, for a property of the views and the state that does not
depend on the order of the threads. -/
structure Kept (C : Setting Resp α σ) (P : Protocol Resp V) (Q : α → V → Prop)
    (Inv : List V → σ → Prop) : Prop where
  perm : ∀ {us vs s}, us.Perm vs → Inv us s → Inv vs s
  enter : ∀ {p vs s}, C.begins s p → Inv vs s → ∃ v, Follows P p v Q ∧ Inv (v::vs) s
  step : ∀ {v vs op s s' r}, P.allowed v op → C.outcome op s r s' → Inv (v::vs) s →
    Inv (P.next v op r::vs) s'
  leave : ∀ {v vs a s}, Q a v → Inv (v::vs) s → Inv vs s

namespace Seen
variable {ts us : Seen Resp α V}

/-- The views with one thread taken to the front. -/
lemma views_middle (t : Prog Resp α × V) :
    (views (ts ++ t::us)).Perm (t.2::views (ts ++ us)) := List.perm_middle.map Prod.snd

lemma forall_middle {t : Prog Resp α × V} {p : Prog Resp α × V → Prop} :
    (∀ x ∈ ts ++ t::us, p x) ↔ p t ∧ ∀ x ∈ ts ++ us, p x := by
  simp only [List.forall_mem_append,List.forall_mem_cons]
  exact and_left_comm

/-- A list of programs taken apart at one of them. -/
lemma split {before after : List (Prog Resp α)} {p : Prog Resp α}
    (h : ts.programs = before ++ p::after) : ∃ (us ws : Seen Resp α V) (v : V),
      ts = us ++ (p,v)::ws ∧ us.programs = before ∧ ws.programs = after := by
  obtain ⟨us,vs,rfl,hus,hvs⟩ := List.map_eq_append_iff.1 h
  obtain ⟨⟨q,v⟩,ws,rfl,rfl,hws⟩ := List.map_eq_cons_iff.1 hvs
  exact ⟨us,ws,v,rfl,hus,hws⟩

end Seen

/-- A property that one thread keeps beside any others holds in every state of a crowd. -/
theorem Crowd.invariant {C : Setting Resp α σ} {P : Protocol Resp V} {Q : α → V → Prop}
    {Inv : List V → σ → Prop} (hkept : Kept C P Q Inv) {s₀ s : σ} {ps : List (Prog Resp α)}
    (hstart : Inv [] s₀) (h : Crowd C s₀ ps s) :
    ∃ ts : Seen Resp α V, ts.programs = ps ∧ (∀ t ∈ ts, Follows P t.1 t.2 Q) ∧ Inv ts.views s := by
  induction h with
  | start => exact ⟨[],rfl,by simp,hstart⟩
  | @enter before after p s _ hbegins ih =>
    obtain ⟨ts,hprograms,hts,hinv⟩ := ih
    obtain ⟨us,ws,rfl,rfl,rfl⟩ := List.map_eq_append_iff.1 hprograms
    obtain ⟨v,hv,hentered⟩ := hkept.enter hbegins hinv
    exact ⟨us ++ (p,v)::ws,by simp [Seen.programs],Seen.forall_middle.2 ⟨hv,hts⟩,
      hkept.perm (Seen.views_middle _).symm hentered⟩
  | @step before after op rest s s' r _ hop ih =>
    obtain ⟨ts,hprograms,hts,hinv⟩ := ih
    obtain ⟨us,ws,v,rfl,rfl,rfl⟩ := Seen.split hprograms
    obtain ⟨hthread,hothers⟩ := Seen.forall_middle.1 hts
    have hstep := hkept.step hthread.1 hop (hkept.perm (Seen.views_middle _) hinv)
    exact ⟨us ++ (rest r,P.next v op r)::ws,by simp [Seen.programs],
      Seen.forall_middle.2 ⟨hthread.2 r,hothers⟩,hkept.perm (Seen.views_middle _).symm hstep⟩
  | @leave before after a s _ ih =>
    obtain ⟨ts,hprograms,hts,hinv⟩ := ih
    obtain ⟨us,ws,v,rfl,rfl,rfl⟩ := Seen.split hprograms
    obtain ⟨hthread,hothers⟩ := Seen.forall_middle.1 hts
    exact ⟨us ++ ws,List.map_append,hothers,
      hkept.leave hthread (hkept.perm (Seen.views_middle _) hinv)⟩

end GDFileStore.Program
