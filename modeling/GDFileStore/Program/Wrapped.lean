import GDFileStore.Program.Inevitable
import GDFileStore.Program.Pool

/-! Pools whose threads run other programs and make something of what these return, or have nothing
to run. Their runs are the runs of the programs inside, and they go on as long as one of these
does. -/
namespace GDFileStore.Program
open Prog Relation
variable {Op : Type} {Resp : Op → Type} {α β γ σ : Type}

namespace Prog

/-- The request that a program makes next. -/
def next? : Prog Resp α → Option Op
  | .done _ => none
  | .call op _ => some op

/-- Whatever answers it gets, the program returns something in `Q`. -/
def Returns (Q : α → Prop) : Prog Resp α → Prop
  | .done a => Q a
  | .call _ rest => ∀ r, Returns Q (rest r)

lemma Returns.bind_of {R : β → Prop} {p : Prog Resp α} {f : α → Prog Resp β}
    (hf : ∀ a, (f a).Returns R) : (p >>= f).Returns R := by
  induction p with
  | done a => exact hf a
  | call op rest ih => exact fun r => ih r

end Prog

/-- A thread by what it is there for, with the program that it still has to run, if it has one. -/
structure Wrapped {Op : Type} (Resp : Op → Type) (γ α : Type) where
  tag : γ
  program : Option (Prog Resp α)

/-- What a thread is there for, and whether it has a program. -/
def Wrapped.kind (t : Wrapped Resp γ α) : γ × Bool := (t.tag,t.program.isSome)

section Wrapped
variable (idle : γ → β) (finish : γ → α → β)

/-- The program of the thread itself. -/
def Wrapped.thread (t : Wrapped Resp γ α) : Prog Resp β :=
  match t.program with
  | none => .done (idle t.tag)
  | some p => p >>= fun a => .done (finish t.tag a)

/-- The programs that are inside. -/
def insides (ts : List (Wrapped Resp γ α)) : List (Prog Resp α) := ts.filterMap Wrapped.program

variable {idle finish} {t : Wrapped Resp γ α} {ts us : List (Wrapped Resp γ α)}

lemma insides_middle {p : Prog Resp α} {c : γ} :
    insides (ts ++ ⟨c,some p⟩::us) = insides ts ++ p::insides us := by
  simp only [insides,List.filterMap_append,List.filterMap_cons]

/-- Its thread makes the requests of a program. -/
lemma Wrapped.next?_thread (c : γ) (p : Prog Resp α) :
    (Wrapped.thread idle finish ⟨c,some p⟩).next? = p.next? := by
  cases p <;> rfl

lemma mem_insides {p : Prog Resp α} : p ∈ insides ts ↔ ∃ t ∈ ts, t.program = some p :=
  List.mem_filterMap

/-- A thread that makes a request runs a program that makes it. -/
lemma Wrapped.of_thread_call {op : Op} {rest : Resp op → Prog Resp β}
    (h : t.thread idle finish = .call op rest) : ∃ c inner, t = ⟨c,some (.call op inner)⟩ ∧
      ∀ r, rest r = Wrapped.thread idle finish ⟨c,some (inner r)⟩ := by
  obtain ⟨c,program⟩ := t
  cases program with
  | none => cases h
  | some p =>
    cases p with
    | done a => cases h
    | call op' inner =>
      cases h
      exact ⟨c,inner,rfl,fun _ => rfl⟩

lemma Wrapped.of_thread_done {b : β} (h : t.thread idle finish = .done b) :
    t.program = none ∧ b = idle t.tag ∨ ∃ a, t.program = some (.done a) ∧ b = finish t.tag a := by
  obtain ⟨c,program⟩ := t
  cases program with
  | none =>
    cases h
    exact .inl ⟨rfl,rfl⟩
  | some p =>
    cases p with
    | done a =>
      cases h
      exact .inr ⟨a,rfl,rfl⟩
    | call op inner => cases h

/-- A list of threads taken apart at one of them. -/
lemma Wrapped.split {before after : List (Prog Resp β)} {op : Op} {rest : Resp op → Prog Resp β}
    (h : ts.map (Wrapped.thread idle finish) = before ++ .call op rest::after) :
    ∃ us vs c inner, ts = us ++ ⟨c,some (.call op inner)⟩::vs ∧
      us.map (Wrapped.thread idle finish) = before ∧ vs.map (Wrapped.thread idle finish) = after ∧
      ∀ r, rest r = Wrapped.thread idle finish ⟨c,some (inner r)⟩ := by
  obtain ⟨us,ws,rfl,hus,hws⟩ := List.map_eq_append_iff.1 h
  obtain ⟨t,vs,rfl,ht,hvs⟩ := List.map_eq_cons_iff.1 hws
  obtain ⟨c,inner,rfl,hrest⟩ := Wrapped.of_thread_call ht
  exact ⟨us,vs,c,inner,rfl,hus,hvs,hrest⟩

/-- A run of the threads is one of the programs inside, each of which stays with its thread. -/
theorem PoolRun.inside {h : Handler Resp σ} {may : Prog Resp β → List (Prog Resp β) → Prop}
    {may' : Prog Resp α → List (Prog Resp α) → Prop} {Q : γ → α → Prop}
    (hmay : ∀ (c : γ) (p : Prog Resp α) (ts : List (Wrapped Resp γ α)),
      may (Wrapped.thread idle finish ⟨c,some p⟩) (ts.map (Wrapped.thread idle finish)) →
      may' p (insides ts))
    (hreturns : ∀ t ∈ ts, ∀ p ∈ t.program, p.Returns (Q t.tag)) {s₀ s : σ} {qs : List (Prog Resp β)}
    (hrun : PoolRun h may (ts.map (Wrapped.thread idle finish)) s₀ qs s) :
    ∃ us, us.map (Wrapped.thread idle finish) = qs ∧ us.map Wrapped.kind = ts.map Wrapped.kind ∧
      (∀ t ∈ us, ∀ p ∈ t.program, p.Returns (Q t.tag)) ∧
      PoolRun h may' (insides ts) s₀ (insides us) s := by
  induction hrun with
  | start => exact ⟨ts,rfl,rfl,hreturns,.start⟩
  | @step before after op rest s s' r _ hallowed hop ih =>
    obtain ⟨us,hus,hkinds,hall,hrun⟩ := ih
    obtain ⟨vs,ws,c,inner,rfl,rfl,rfl,hrest⟩ := Wrapped.split hus
    rw [insides_middle] at hrun
    refine ⟨vs ++ ⟨c,some (inner r)⟩::ws,?_,?_,?_,?_⟩
    · rw [List.map_append,List.map_cons,hrest r]
    · rw [← hkinds,List.map_append,List.map_append,List.map_cons,List.map_cons]
      rfl
    · intro t ht p hp
      rcases List.mem_append.1 ht with hv | hw
      · exact hall t (List.mem_append_left _ hv) p hp
      · rcases List.mem_cons.1 hw with rfl | hw
        · cases hp
          exact hall _ (List.mem_append_right _ List.mem_cons_self) _ rfl r
        · exact hall t (List.mem_append_right _ (List.mem_cons_of_mem _ hw)) p hp
    · rw [insides_middle]
      refine hrun.step ?_ hop
      have hothers := hmay c (.call op inner) (vs ++ ws)
      rw [List.map_append,insides,List.filterMap_append] at hothers
      refine hothers ?_
      have hthread : Wrapped.thread idle finish ⟨c,some (.call op inner)⟩ = .call op rest :=
        congrArg (Prog.call op) (funext fun r => (hrest r).symm)
      rw [hthread]
      exact hallowed

end Wrapped

/-- The same run with the record of it. -/
lemma PoolRun.exists_recorded {h : Handler Resp σ}
    {may : Prog Resp α → List (Prog Resp α) → Prop} {ps₀ ps : List (Prog Resp α)} {s₀ s : σ}
    (hrun : PoolRun h may ps₀ s₀ ps s) :
    ∃ trace, PoolRun (recorded h) may ps₀ (s₀,[]) ps (s,trace) := by
  induction hrun with
  | start => exact ⟨[],.start⟩
  | @step before after op rest s s' r _ hmay hop ih =>
    obtain ⟨trace,hrun⟩ := ih
    exact ⟨trace ++ [⟨op,r⟩],hrun.step hmay (by rw [recorded,hop,Option.map_some])⟩

lemma PoolRun.length_eq {h : Handler Resp σ} {may : Prog Resp α → List (Prog Resp α) → Prop}
    {ps₀ ps : List (Prog Resp α)} {s₀ s : σ} (hrun : PoolRun h may ps₀ s₀ ps s) :
    ps.length = ps₀.length := by
  induction hrun with
  | start => rfl
  | step _ _ _ ih => simpa using ih

lemma PoolRun.mono {h : Handler Resp σ} {may may' : Prog Resp α → List (Prog Resp α) → Prop}
    (hmay : ∀ p ps, may p ps → may' p ps) {ps₀ ps : List (Prog Resp α)} {s₀ s : σ}
    (hrun : PoolRun h may ps₀ s₀ ps s) : PoolRun h may' ps₀ s₀ ps s := by
  induction hrun with
  | start => exact .start
  | step _ hallowed hop ih => exact ih.step (hmay _ _ hallowed) hop

/-- One thread of a pool makes its request. -/
inductive Turn (h : Handler Resp σ) : List (Prog Resp α) × σ → List (Prog Resp α) × σ → Prop
  | mk (before after : List (Prog Resp α)) {op : Op} {rest : Resp op → Prog Resp α} {s s' : σ}
      {r : Resp op} : h op s = some (r,s') →
      Turn h (before ++ .call op rest::after,s) (before ++ rest r::after,s')

/-- However the threads take turns, a pool comes to a state in which no thread has an answer to its
request. -/
theorem PoolRun.comes_to_rest {h : Handler Resp σ} {ps₀ ps : List (Prog Resp α)} {s₀ s : σ}
    {Q : List (Prog Resp α) → σ → Prop}
    (hrest : ∀ ps s, PoolRun h (fun _ _ => True) ps₀ s₀ ps s →
      (∀ p ∈ ps, ∀ op ∈ p.next?, h op s = none) → Q ps s)
    (hrun : PoolRun h (fun _ _ => True) ps₀ s₀ ps s) :
    Inevitable (Turn h) (fun x => Q x.1 x.2) (ps,s) := by
  have hwf : WellFounded (CutExpand (Rest : Prog Resp α → Prog Resp α → Prop)) := rest_wf.cutExpand
  refine Inevitable.of_rank hwf
    (fun x m => PoolRun h (fun _ _ => True) ps₀ s₀ x.1 x.2 ∧ (x.1 : Multiset (Prog Resp α)) = m)
    ?_ ?_ ⟨hrun,rfl⟩
  · rintro _ _ _ ⟨hreach,rfl⟩ hturn
    cases hturn with
    | mk before after hop =>
      refine ⟨_,?_,hreach.step trivial hop,rfl⟩
      have hmiddle : ∀ p : Prog Resp α, (↑(before ++ p::after) : Multiset (Prog Resp α)) =
          p ::ₘ ↑(before ++ after) := by
        intro p
        rw [Multiset.cons_coe,Multiset.coe_eq_coe]
        exact List.perm_middle
      simp only [hmiddle]
      rw [← Multiset.singleton_add]
      exact cutExpand_rest _ le_rfl
  · rintro ⟨ps,s⟩ _ ⟨hreach,-⟩ hstuck
    refine hrest ps s hreach ?_
    intro p hp op hop
    obtain ⟨before,after,rfl⟩ := List.append_of_mem hp
    cases p with
    | done a => cases hop
    | call op' rest =>
      cases hop
      by_contra hsome
      obtain ⟨⟨r,s'⟩,hr⟩ := Option.ne_none_iff_exists'.1 hsome
      exact hstuck _ (.mk before after hr)

end GDFileStore.Program
