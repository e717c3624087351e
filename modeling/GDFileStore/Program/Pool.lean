import GDFileStore.Program.Prog
import Mathlib.Data.List.Basic

/-! Programs that run side by side on one state, one request at a time in any order. A thread is
proved once to follow a protocol, whatever answers it gets; a property of the state together
with the protocol's view of every thread then needs checking for one protocol step only. -/
namespace GDFileStore.Program
open Prog
variable {Op : Type} {Resp : Op → Type} {α β σ V : Type}

/-- Which requests a thread may make in a view, and the view an answer leads to. -/
structure Protocol (Resp : Op → Type) (V : Type) where
  allowed : V → Op → Prop
  next : V → (op : Op) → Resp op → V

/-- From the view the program makes allowed requests only, and ends with `Q`. -/
def Follows (P : Protocol Resp V) : Prog Resp α → V → (α → V → Prop) → Prop
  | .done a,v,Q => Q a v
  | .call op rest,v,Q => P.allowed v op ∧ ∀ r, Follows P (rest r) (P.next v op r) Q

namespace Follows
variable {P : Protocol Resp V}

theorem bind {p : Prog Resp α} {f : α → Prog Resp β} {v : V} {Q : α → V → Prop}
    {R : β → V → Prop} (hp : Follows P p v Q) (hf : ∀ a u, Q a u → Follows P (f a) u R) :
    Follows P (p >>= f) v R := by
  induction p generalizing v with
  | done a => exact hf a v hp
  | call op rest ih =>
    refine ⟨hp.1,?_⟩
    intro r
    exact ih r (hp.2 r)

end Follows

/-- The runs of a pool. Each step is one request of one thread; `may` says when a thread may make
its request beside the others. -/
inductive PoolRun (h : Handler Resp σ) (may : Prog Resp α → List (Prog Resp α) → Prop)
    (ps₀ : List (Prog Resp α)) (s₀ : σ) : List (Prog Resp α) → σ → Prop
  | start : PoolRun h may ps₀ s₀ ps₀ s₀
  | step {before after : List (Prog Resp α)} {op : Op} {rest : Resp op → Prog Resp α} {s s' : σ}
      {r : Resp op} : PoolRun h may ps₀ s₀ (before ++ .call op rest::after) s →
      may (.call op rest) (before ++ after) → h op s = some (r,s') →
      PoolRun h may ps₀ s₀ (before ++ rest r::after) s'

lemma PoolRun.next {h : Handler Resp σ} {may : Prog Resp α → List (Prog Resp α) → Prop}
    {ps₀ : List (Prog Resp α)} {s₀ s s' : σ} (before after : List (Prog Resp α))
    {p : Prog Resp α} {op : Op} {rest : Resp op → Prog Resp α} {r : Resp op}
    (hrun : PoolRun h may ps₀ s₀ (before ++ p::after) s) (hp : p = .call op rest)
    (hmay : may (.call op rest) (before ++ after)) (hop : h op s = some (r,s')) :
    PoolRun h may ps₀ s₀ (before ++ rest r::after) s' := by
  subst hp
  exact hrun.step hmay hop

/-- What a program has returned. -/
def Prog.result? : Prog Resp α → Option α
  | .done a => some a
  | .call _ _ => none

/-- The pool run in a given order of the threads, as far as `may` lets it. -/
def schedule (h : Handler Resp σ) (may : Prog Resp α → List (Prog Resp α) → Prop)
    [∀ p ps, Decidable (may p ps)] : List ℕ → List (Prog Resp α) → σ → Option (List (Prog Resp α) × σ)
  | [],ps,s => some (ps,s)
  | i::order,ps,s =>
    match ps.drop i with
    | .call op rest::after =>
      if may (.call op rest) (ps.take i ++ after) then
        (h op s).bind (fun r => schedule h may order (ps.take i ++ rest r.1::after) r.2)
      else none
    | _ => none

lemma PoolRun.of_schedule {h : Handler Resp σ} {may : Prog Resp α → List (Prog Resp α) → Prop}
    [∀ p ps, Decidable (may p ps)] {order : List ℕ} {ps₀ ps ps' : List (Prog Resp α)} {s₀ s s' : σ}
    (hrun : PoolRun h may ps₀ s₀ ps s) (horder : schedule h may order ps s = some (ps',s')) :
    PoolRun h may ps₀ s₀ ps' s' := by
  induction order generalizing ps s with
  | nil =>
    cases horder
    exact hrun
  | cons i order ih =>
    rw [schedule] at horder
    split at horder
    · rename_i op rest after hdrop
      split_ifs at horder with hmay
      obtain ⟨r,hop,hrest⟩ := Option.bind_eq_some_iff.1 horder
      rw [← List.take_append_drop i ps,hdrop] at hrun
      exact ih (hrun.step hmay hop) hrest
    · cases horder

/-- A thread with the view it has reached. -/
abbrev Seen (Resp : Op → Type) (α V : Type) := List (Prog Resp α × V)

namespace Seen

def programs (ts : Seen Resp α V) : List (Prog Resp α) := ts.map Prod.fst

def views (ts : Seen Resp α V) : List V := ts.map Prod.snd

end Seen

/-- One thread's request as the protocol sees it: the views of the others stay. -/
structure SeenStep (P : Protocol Resp V) (h : Handler Resp σ)
    (may : Prog Resp α → List (Prog Resp α) → Prop) (Q : α → V → Prop) (others : Seen Resp α V)
    (v : V) (op : Op) (s s' : σ) (r : Resp op) : Prop where
  follow : ∀ t ∈ others, Follows P t.1 t.2 Q
  allowed : P.allowed v op
  may : ∃ rest, may (.call op rest) others.programs
  outcome : h op s = some (r,s')

/-- What one protocol step preserves, beside any others, holds in every state of every run. -/
theorem PoolRun.invariant {P : Protocol Resp V} {h : Handler Resp σ}
    {may : Prog Resp α → List (Prog Resp α) → Prop} {Q : α → V → Prop} (Inv : List V → σ → Prop)
    (hperm : ∀ {us vs s}, us.Perm vs → Inv us s → Inv vs s)
    (hstep : ∀ {others v op s s' r}, SeenStep P h may Q others v op s s' r →
      Inv (v::others.views) s → Inv (P.next v op r::others.views) s')
    {ts₀ : Seen Resp α V} {s₀ s : σ} {ps : List (Prog Resp α)}
    (hfollow : ∀ t ∈ ts₀, Follows P t.1 t.2 Q) (hinv : Inv ts₀.views s₀)
    (hrun : PoolRun h may ts₀.programs s₀ ps s) :
    ∃ ts : Seen Resp α V, ts.programs = ps ∧ (∀ t ∈ ts, Follows P t.1 t.2 Q) ∧ Inv ts.views s := by
  induction hrun with
  | start => exact ⟨ts₀,rfl,hfollow,hinv⟩
  | @step before after op rest s s' r _ hmay hop ih =>
    obtain ⟨ts,hprograms,hts,htsinv⟩ := ih
    obtain ⟨us,ws,rfl,rfl,hws⟩ := List.map_eq_append_iff.1 hprograms
    obtain ⟨⟨p,v⟩,vs,rfl,hp,rfl⟩ := List.map_eq_cons_iff.1 hws
    obtain rfl : p = .call op rest := hp
    have hthread : Follows P (.call op rest) v Q := hts (.call op rest,v) (by simp)
    have hseen : SeenStep P h may Q (us ++ vs) v op s s' r := by
      refine ⟨?_,hthread.1,⟨rest,?_⟩,hop⟩
      · intro t ht
        exact hts t (by
          rcases List.mem_append.1 ht with hu | hv
          · exact List.mem_append_left _ hu
          · exact List.mem_append_right _ (List.mem_cons_of_mem _ hv))
      · rw [Seen.programs,List.map_append]
        exact hmay
    -- The thread that moves is taken to the front and put back.
    have hmid : ∀ t : Prog Resp α × V, (Seen.views (us ++ t::vs)).Perm
        (t.2::Seen.views (us ++ vs)) := by
      intro t
      exact List.perm_middle.map Prod.snd
    refine ⟨us ++ (rest r,P.next v op r)::vs,?_,?_,?_⟩
    · simp [Seen.programs]
    · intro t ht
      rcases List.mem_append.1 ht with hu | hv
      · exact hts t (List.mem_append_left _ hu)
      · rcases List.mem_cons.1 hv with rfl | hv
        · exact hthread.2 r
        · exact hts t (List.mem_append_right _ (List.mem_cons_of_mem _ hv))
    · exact hperm (hmid _).symm (hstep hseen (hperm (hmid _) htsinv))

/-- The same for threads that are given by what they are about. -/
theorem PoolRun.invariant_map {X : Type} {P : Protocol Resp V} {h : Handler Resp σ}
    {may : Prog Resp α → List (Prog Resp α) → Prop} {Q : α → V → Prop} (Inv : List V → σ → Prop)
    (hperm : ∀ {us vs s}, us.Perm vs → Inv us s → Inv vs s)
    (hstep : ∀ {others v op s s' r}, SeenStep P h may Q others v op s s' r →
      Inv (v::others.views) s → Inv (P.next v op r::others.views) s')
    {program : X → Prog Resp α} {view : X → V} (hfollow : ∀ x, Follows P (program x) (view x) Q)
    {xs : List X} {s₀ s : σ} {ps : List (Prog Resp α)} (hinv : Inv (xs.map view) s₀)
    (hrun : PoolRun h may (xs.map program) s₀ ps s) :
    ∃ ts : Seen Resp α V, ts.programs = ps ∧ (∀ t ∈ ts, Follows P t.1 t.2 Q) ∧ Inv ts.views s := by
  let ts₀ : Seen Resp α V := xs.map (fun x => (program x,view x))
  have hprograms : ts₀.programs = xs.map program := by simp [ts₀,Seen.programs]
  have hviews : ts₀.views = xs.map view := by simp [ts₀,Seen.views]
  have hts₀ : ∀ t ∈ ts₀, Follows P t.1 t.2 Q := by
    intro t ht
    obtain ⟨x,_,rfl⟩ := List.mem_map.1 ht
    exact hfollow x
  rw [← hprograms] at hrun
  rw [← hviews] at hinv
  exact hrun.invariant Inv hperm hstep hts₀ hinv

/-- A request with the answer it got. -/
abbrev Event (Resp : Op → Type) := (op : Op) × Resp op

/-- The component with the record of everything it was asked and answered. -/
def recorded (h : Handler Resp σ) : Handler Resp (σ × List (Event Resp)) :=
  fun op s => (h op s.1).map (fun r => (r.1,r.2,s.2 ++ [⟨op,r.1⟩]))

lemma recorded_eq_some {h : Handler Resp σ} {op : Op} {s s' : σ × List (Event Resp)}
    {r : Resp op} (hop : recorded h op s = some (r,s')) :
    h op s.1 = some (r,s'.1) ∧ s'.2 = s.2 ++ [⟨op,r⟩] := by
  obtain ⟨⟨answer,next⟩,heq,hr⟩ := Option.map_eq_some_iff.1 hop
  cases hr
  exact ⟨heq,rfl⟩

end GDFileStore.Program
