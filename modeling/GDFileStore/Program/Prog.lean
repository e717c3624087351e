import Mathlib.Tactic.Common

/-! Programs as trees of requests to a component, their runs against its state, and the
rules for what holds at every request boundary of a run. A crash or a context switch can
happen at exactly those boundaries. -/
namespace GDFileStore.Program

/-- A program that asks a request and goes on with the answer it gets. -/
inductive Prog {Op : Type} (Resp : Op → Type) (α : Type) where
  | done (a : α)
  | call (op : Op) (rest : Resp op → Prog Resp α)

/-- The component: the answer to a request and the new state, or none where the request
has no defined outcome. -/
abbrev Handler {Op : Type} (Resp : Op → Type) (σ : Type) :=
  (op : Op) → σ → Option (Resp op × σ)

namespace Prog
variable {Op : Type} {Resp : Op → Type} {α β σ : Type}

def bind : Prog Resp α → (α → Prog Resp β) → Prog Resp β
  | .done a,f => f a
  | .call op rest,f => .call op (fun r => (rest r).bind f)

instance : Monad (Prog Resp) where
  pure := .done
  bind := bind

/-- The program of one request. -/
def ask (op : Op) : Prog Resp (Resp op) := .call op .done

@[simp] lemma pure_eq (a : α) : (pure a : Prog Resp α) = .done a := rfl

@[simp] lemma done_bind (a : α) (f : α → Prog Resp β) : (.done a >>= f : Prog Resp β) = f a := rfl

@[simp] lemma call_bind (op : Op) (rest : Resp op → Prog Resp α) (f : α → Prog Resp β) :
    (.call op rest >>= f : Prog Resp β) = .call op (fun r => rest r >>= f) := rfl

@[simp] lemma ask_eq (op : Op) : (ask op : Prog Resp (Resp op)) = .call op .done := rfl

lemma bind_bind {γ : Type} (p : Prog Resp α) (f : α → Prog Resp β) (g : β → Prog Resp γ) :
    (p >>= f >>= g : Prog Resp γ) = p >>= fun a => f a >>= g := by
  induction p with
  | done a => rfl
  | call op rest ih => exact congrArg (Prog.call op) (funext ih)

/-- The uninterrupted run. -/
def run (h : Handler Resp σ) : Prog Resp α → σ → Option (α × σ)
  | .done a,s => some (a,s)
  | .call op rest,s => (h op s).bind (fun r => run h (rest r.1) r.2)

@[simp] lemma run_done (h : Handler Resp σ) (a : α) (s : σ) :
    run h (.done a) s = some (a,s) := rfl

lemma run_call {h : Handler Resp σ} {op : Op} {rest : Resp op → Prog Resp α} {s s' : σ}
    {r : Resp op} (hr : h op s = some (r,s')) : run h (.call op rest) s = run h (rest r) s' := by
  simp [run,hr]

theorem run_bind (h : Handler Resp σ) (p : Prog Resp α) (f : α → Prog Resp β) (s : σ) :
    run h (p >>= f) s = (run h p s).bind (fun r => run h (f r.1) r.2) := by
  induction p generalizing s with
  | done a => rfl
  | call op rest ih =>
    change (h op s).bind _ = ((h op s).bind _).bind _
    rw [Option.bind_assoc]
    congr 1
    funext r
    exact ih r.1 r.2

/-- The run of any number of requests, which a crash may follow. -/
inductive Steps (h : Handler Resp σ) : Prog Resp α → σ → Prog Resp α → σ → Prop
  | refl (p : Prog Resp α) (s : σ) : Steps h p s p s
  | call {op : Op} {rest : Resp op → Prog Resp α} {s s' t : σ} {r : Resp op} {q : Prog Resp α} :
      h op s = some (r,s') → Steps h (rest r) s' q t → Steps h (.call op rest) s q t

theorem steps_of_run {h : Handler Resp σ} {p : Prog Resp α} {s t : σ} {a : α}
    (hr : run h p s = some (a,t)) : Steps h p s (.done a) t := by
  induction p generalizing s with
  | done b =>
    cases hr
    exact .refl _ _
  | call op rest ih =>
    obtain ⟨⟨r,s'⟩,hop,hrest⟩ := Option.bind_eq_some_iff.1 hr
    exact .call hop (ih r hrest)

/-- The program and the state after `n` requests. -/
def runFor (h : Handler Resp σ) : ℕ → Prog Resp α → σ → Option (Prog Resp α × σ)
  | 0,p,s => some (p,s)
  | n+1,.call op rest,s => (h op s).bind (fun r => runFor h n (rest r.1) r.2)
  | _+1,.done _,_ => none

lemma steps_of_runFor {h : Handler Resp σ} {n : ℕ} {p q : Prog Resp α} {s t : σ}
    (hn : runFor h n p s = some (q,t)) : Steps h p s q t := by
  induction n generalizing p s with
  | zero =>
    cases hn
    exact .refl _ _
  | succ n ih =>
    cases p with
    | done a => cases hn
    | call op rest =>
      obtain ⟨r,hop,hrest⟩ := Option.bind_eq_some_iff.1 hn
      exact .call hop (ih hrest)

lemma Steps.run_eq {h : Handler Resp σ} {p q : Prog Resp α} {s t : σ} (hs : Steps h p s q t) :
    run h p s = run h q t := by
  induction hs with
  | refl p s => rfl
  | call hop _ ih => exact (run_call hop).trans ih

/-- The run from `s` ends, or gets to one of the requests in `bad`. -/
def Ends (h : Handler Resp σ) (bad : Op → Prop) : Prog Resp α → σ → Prop
  | .done _,_ => True
  | .call op rest,s => bad op ∨ ∃ r s', h op s = some (r,s') ∧ Ends h bad (rest r) s'

namespace Ends
variable {h : Handler Resp σ} {bad : Op → Prop}

theorem bind {p : Prog Resp α} {f : α → Prog Resp β} {s : σ} (hp : Ends h bad p s)
    (hf : ∀ a t, run h p s = some (a,t) → Ends h bad (f a) t) : Ends h bad (p >>= f) s := by
  induction p generalizing s with
  | done a => exact hf a s rfl
  | call op rest ih =>
    rcases hp with hbad | ⟨r,s',hop,hrest⟩
    · exact .inl hbad
    · refine .inr ⟨r,s',hop,ih r hrest ?_⟩
      intro a t ht
      exact hf a t ((run_call hop).trans ht)

/-- Where no bad request is reached there is a run. -/
theorem run_of_avoids {p : Prog Resp α} {s : σ} (hp : Ends h bad p s)
    (havoid : ∀ op rest t, bad op → ¬Steps h p s (.call op rest) t) :
    ∃ a t, run h p s = some (a,t) := by
  induction p generalizing s with
  | done a => exact ⟨a,s,rfl⟩
  | call op rest ih =>
    rcases hp with hbad | ⟨r,s',hop,hrest⟩
    · exact absurd (.refl _ _) (havoid op rest s hbad)
    · obtain ⟨a,t,ht⟩ := ih r hrest (fun op rest t hbad hs => havoid op rest t hbad (.call hop hs))
      exact ⟨a,t,(run_call hop).trans ht⟩

end Ends

/-- `I` holds at every request boundary of the run from `s`, and `Q` of the result where the
run ends. -/
def Always (h : Handler Resp σ) (I : σ → Prop) : Prog Resp α → σ → (α → σ → Prop) → Prop
  | .done a,s,Q => I s ∧ Q a s
  | .call op rest,s,Q => I s ∧ ∀ r s', h op s = some (r,s') → Always h I (rest r) s' Q

namespace Always
variable {h : Handler Resp σ} {I J : σ → Prop}

lemma here {p : Prog Resp α} {s : σ} {Q : α → σ → Prop} (hp : Always h I p s Q) : I s := by
  cases p with
  | done a => exact hp.1
  | call op rest => exact hp.1

lemma call {op : Op} {rest : Resp op → Prog Resp α} {s s' : σ} {r : Resp op} {Q : α → σ → Prop}
    (hI : I s) (hop : h op s = some (r,s')) (hrest : Always h I (rest r) s' Q) :
    Always h I (.call op rest) s Q := by
  refine ⟨hI,?_⟩
  intro r' t ht
  cases hop.symm.trans ht
  exact hrest

lemma stuck {op : Op} {rest : Resp op → Prog Resp α} {s : σ} {Q : α → σ → Prop}
    (hI : I s) (hop : h op s = none) : Always h I (.call op rest) s Q := by
  refine ⟨hI,?_⟩
  intro r' t ht
  cases hop.symm.trans ht

theorem bind {p : Prog Resp α} {f : α → Prog Resp β} {s : σ} {Q : α → σ → Prop}
    {R : β → σ → Prop} (hp : Always h I p s Q) (hf : ∀ a t, Q a t → Always h I (f a) t R) :
    Always h I (p >>= f) s R := by
  induction p generalizing s with
  | done a => exact hf a s hp.2
  | call op rest ih =>
    refine ⟨hp.1,?_⟩
    intro r s' hop
    exact ih r (hp.2 r s' hop)

theorem mono {p : Prog Resp α} {s : σ} {Q R : α → σ → Prop} (hp : Always h I p s Q)
    (hIJ : ∀ t, I t → J t) (hQR : ∀ a t, Q a t → R a t) : Always h J p s R := by
  induction p generalizing s with
  | done a => exact ⟨hIJ s hp.1,hQR a s hp.2⟩
  | call op rest ih =>
    refine ⟨hIJ s hp.1,?_⟩
    intro r s' hop
    exact ih r (hp.2 r s' hop)

theorem steps {p q : Prog Resp α} {s t : σ} {Q : α → σ → Prop} (hs : Steps h p s q t)
    (hp : Always h I p s Q) : Always h I q t Q := by
  induction hs with
  | refl p s => exact hp
  | call hop _ ih => exact ih (hp.2 _ _ hop)

/-- What the rule gives about a crash after any number of requests. -/
theorem at_steps {p q : Prog Resp α} {s t : σ} {Q : α → σ → Prop} (hp : Always h I p s Q)
    (hs : Steps h p s q t) : I t := (steps hs hp).here

/-- What the rule gives about a run that ends. -/
theorem at_run {p : Prog Resp α} {s t : σ} {a : α} {Q : α → σ → Prop} (hp : Always h I p s Q)
    (hr : run h p s = some (a,t)) : Q a t := (steps (steps_of_run hr) hp).2

end Always

/-- Each request of the run from `s` is made in a state that is right for it. -/
def Requests (h : Handler Resp σ) (right : Op → σ → Prop) : Prog Resp α → σ → Prop
  | .done _,_ => True
  | .call op rest,s => right op s ∧ ∀ r s', h op s = some (r,s') → Requests h right (rest r) s'

namespace Requests
variable {h : Handler Resp σ} {right : Op → σ → Prop}

lemma call_iff {op : Op} {rest : Resp op → Prog Resp α} {s s' : σ} {r : Resp op}
    (hop : h op s = some (r,s')) :
    Requests h right (.call op rest) s ↔ right op s ∧ Requests h right (rest r) s' := by
  refine and_congr_right fun _ => ⟨fun hrest => hrest r s' hop,fun hrest r' t ht => ?_⟩
  cases hop.symm.trans ht
  exact hrest

theorem bind_iff {p : Prog Resp α} {f : α → Prog Resp β} {s : σ} :
    Requests h right (p >>= f) s ↔
      Requests h right p s ∧ ∀ a t, run h p s = some (a,t) → Requests h right (f a) t := by
  induction p generalizing s with
  | done a =>
    refine ⟨fun hf => ⟨trivial,fun b t hrun => ?_⟩,fun hboth => hboth.2 a s rfl⟩
    cases hrun
    exact hf
  | call op rest ih =>
    constructor
    · intro hall
      refine ⟨⟨hall.1,fun r s' hop => ((ih r).1 (hall.2 r s' hop)).1⟩,?_⟩
      intro a t hrun
      obtain ⟨⟨r,s'⟩,hop,hrest⟩ := Option.bind_eq_some_iff.1 hrun
      exact ((ih r).1 (hall.2 r s' hop)).2 a t hrest
    · intro hall
      refine ⟨hall.1.1,fun r s' hop => (ih r).2 ⟨hall.1.2 r s' hop,?_⟩⟩
      intro a t hrest
      exact hall.2 a t ((run_call hop).trans hrest)

lemma mono {right' : Op → σ → Prop} {p : Prog Resp α} {s : σ} (hp : Requests h right p s)
    (hright : ∀ op t, right op t → right' op t) : Requests h right' p s := by
  induction p generalizing s with
  | done a => trivial
  | call op rest ih => exact ⟨hright op s hp.1,fun r s' hop => ih r (hp.2 r s' hop)⟩

lemma of_always {I : σ → Prop} {p : Prog Resp α} {s : σ} {Q : α → σ → Prop}
    (hp : Always h I p s Q) (hright : ∀ op t, I t → right op t) : Requests h right p s := by
  induction p generalizing s with
  | done a => trivial
  | call op rest ih => exact ⟨hright op s hp.1,fun r s' hop => ih r (hp.2 r s' hop)⟩

end Requests
end Prog
end GDFileStore.Program
