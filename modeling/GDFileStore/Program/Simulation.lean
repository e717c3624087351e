import GDFileStore.Program.Prog

/-! Runs of one program against two components. Where the components differ only in answers that
the program does not look at, they run it side by side; and what one component does for each request
another that can do the same does for a whole run. -/
namespace GDFileStore.Program.Prog
variable {Op : Type} {Resp : Op → Type} {α β σ τ : Type}

/-- The program makes only the requests of `may`, and goes on in the same way after any two
answers that `same` puts together. -/
def Insensitive (may : Op → Prop) (same : (op : Op) → Resp op → Resp op → Prop) :
    Prog Resp α → Prop
  | .done _ => True
  | .call op rest => may op ∧ (∀ r r', same op r r' → rest r = rest r') ∧
      ∀ r, Insensitive may same (rest r)

/-- One request, whose answers `same` puts together only when they are equal. -/
lemma Insensitive.call_of_eq {may : Op → Prop} {same : (op : Op) → Resp op → Resp op → Prop}
    {op : Op} {rest : Resp op → Prog Resp α} (hmay : may op)
    (hsame : ∀ r r', same op r r' → r = r') (hrest : ∀ r, Insensitive may same (rest r)) :
    Insensitive may same (.call op rest) :=
  ⟨hmay,fun r r' h => congrArg rest (hsame r r' h),hrest⟩

theorem Insensitive.bind {may : Op → Prop} {same : (op : Op) → Resp op → Resp op → Prop}
    {p : Prog Resp α} {f : α → Prog Resp β} (hp : Insensitive may same p)
    (hf : ∀ a, Insensitive may same (f a)) : Insensitive may same (p >>= f) := by
  induction p with
  | done a => exact hf a
  | call op rest ih =>
    obtain ⟨hmay,hsame,hrest⟩ := hp
    refine ⟨hmay,?_,fun r => ih r (hrest r)⟩
    intro r r' h
    exact congrArg (· >>= f) (hsame r r' h)

/-- What one request keeps, a whole run keeps. -/
theorem run_simulates {h : Handler Resp σ} {h' : Handler Resp τ} {may : Op → Prop}
    {same : (op : Op) → Resp op → Resp op → Prop} (R : σ → τ → Prop)
    (hstep : ∀ {op s t s' r}, may op → R s t → h op s = some (r,s') →
      ∃ r' t', h' op t = some (r',t') ∧ same op r r' ∧ R s' t')
    {p : Prog Resp α} {s s' : σ} {t : τ} {a : α} (hp : Insensitive may same p) (hR : R s t)
    (hrun : run h p s = some (a,s')) : ∃ t', run h' p t = some (a,t') ∧ R s' t' := by
  induction p generalizing s t with
  | done b =>
    cases hrun
    exact ⟨t,rfl,hR⟩
  | call op rest ih =>
    obtain ⟨hmay,hsame,hrest⟩ := hp
    obtain ⟨⟨r,s1⟩,hop,hrun⟩ := Option.bind_eq_some_iff.1 hrun
    obtain ⟨r',t1,hop',heq,hR1⟩ := hstep hmay hR hop
    obtain ⟨t',ht',hR'⟩ := ih r (hrest r) hR1 hrun
    refine ⟨t',?_,hR'⟩
    rw [run_call hop',← hsame r r' heq]
    exact ht'

/-- The run of any number of requests, each of which may have any of the outcomes given for it. -/
inductive Makes (outcome : (op : Op) → σ → Resp op → σ → Prop) :
    Prog Resp α → σ → Prog Resp α → σ → Prop
  | refl (p : Prog Resp α) (s : σ) : Makes outcome p s p s
  | call {op : Op} {rest : Resp op → Prog Resp α} {s s' t : σ} {r : Resp op} {q : Prog Resp α} :
      outcome op s r s' → Makes outcome (rest r) s' q t → Makes outcome (.call op rest) s q t

/-- What one component does for a request the other can do too. -/
abbrev Embeds (outcome : (op : Op) → σ → Resp op → σ → Prop)
    (outcome' : (op : Op) → τ → Resp op → τ → Prop) (R : σ → τ → Prop) : Prop :=
  ∀ ⦃op : Op⦄ ⦃s s' : σ⦄ ⦃t : τ⦄ ⦃r : Resp op⦄, R s t → outcome op s r s' →
    ∃ t', outcome' op t r t' ∧ R s' t'

namespace Makes
variable {outcome : (op : Op) → σ → Resp op → σ → Prop}
  {outcome' : (op : Op) → τ → Resp op → τ → Prop} {p q : Prog Resp α} {s s' : σ} {t : τ}

theorem embed {R : σ → τ → Prop} (hembeds : Embeds outcome outcome' R) (hR : R s t)
    (h : Makes outcome p s q s') : ∃ t', Makes outcome' p t q t' ∧ R s' t' := by
  induction h generalizing t with
  | refl p s => exact ⟨t,.refl p t,hR⟩
  | call hop _ ih =>
    obtain ⟨t',hop',hR'⟩ := hembeds hR hop
    obtain ⟨u,hu,hRu⟩ := ih hR'
    exact ⟨u,.call hop' hu,hRu⟩

/-- Where each request has the outcome that a handler gives it, the run is the handler's. -/
lemma steps {h : Handler Resp σ} (hmade : Makes (fun op s r s' => h op s = some (r,s')) p s q s') :
    Steps h p s q s' := by
  induction hmade with
  | refl p s => exact .refl p s
  | call hop _ ih => exact .call hop ih

/-- A run of the handler whose requests are all made in states that are right for them. -/
lemma of_steps {h : Handler Resp σ} {right : Op → σ → Prop} (hrun : Steps h p s q s')
    (hright : Requests h right p s) :
    Makes (fun op s r s' => right op s ∧ h op s = some (r,s')) p s q s' := by
  induction hrun with
  | refl p s => exact .refl p s
  | call hop _ ih => exact .call ⟨hright.1,hop⟩ (ih (hright.2 _ _ hop))

end Makes

/-- A run to the end is the uninterrupted run. -/
lemma Steps.run {h : Handler Resp σ} {p : Prog Resp α} {s t : σ} {a : α}
    (hs : Steps h p s (.done a) t) : run h p s = some (a,t) := hs.run_eq

end GDFileStore.Program.Prog
