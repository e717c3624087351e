import GDFileStore.Combine.Edges
import GDFileStore.Journal.Linear
import GDFileStore.Program.Wrapped

/-! The calls of many threads return: each appends its operation once, and the one lock that it takes
is given back, unless its flush gets to an access outside the slice list. What a call that has
returned has appended is in the file of its object. -/
namespace GDFileStore
open Sequences Program Prog Operation

namespace FlushStage

/-- The call has still to append. -/
def waits : FlushStage → Bool
  | .adding => true
  | _ => false

end FlushStage

namespace JournalRequest

def appends : JournalRequest → Bool
  | .add _ => true
  | _ => false

def clears : JournalRequest → Bool
  | .clear => true
  | _ => false

end JournalRequest

/-- No thread appends while another has grouped `wOpes` and not yet cleared it, whatever threads are
to return. -/
def AppendsApart {α : Type} (p : JournalTask α) (others : List (JournalTask α)) : Prop :=
  p.next?.any JournalRequest.appends = true →
    ∀ q ∈ others, q.next?.any JournalRequest.clears = false

instance {α : Type} (p : JournalTask α) (others : List (JournalTask α)) :
    Decidable (AppendsApart p others) := inferInstanceAs (Decidable (_ → _))

namespace Operation

/-- No insert is at an index outside the slice list. -/
lemma stopsShortFrom_of_insert {ops : List Operation}
    (h : ∀ op ∈ ops, op.operationType = .insert) (n : ℤ) (edges : List ℤ) :
    StopsShortFrom n edges ops := by
  induction ops generalizing n edges with
  | nil => trivial
  | cons op ops ih =>
    refine ⟨?_,ih (fun o ho => h o (List.mem_cons_of_mem _ ho)) _ _⟩
    simp only [StopsShort,h op List.mem_cons_self]

end Operation

namespace Journal
variable {journal : Journal}

/-- Legal inserts are combined with what the file holds. -/
lemma combined_isSome (gh : GHObject) {file : Option Bytes} {ops : List Operation}
    (hlegal : Legal file ops) (hinsert : ∀ op ∈ ops, op.operationType = .insert) :
    (combined (OperationWrapper.writeWrapper gh (file.getD [])::ops)).isSome := by
  obtain ⟨hwf,hrange,-⟩ := writeWrapper_represents gh hlegal.length hlegal.inserts hlegal.inRange
  have hall : ∀ op ∈ OperationWrapper.writeWrapper gh (file.getD [])::ops,
      op.operationType = .insert := by
    intro op hop
    rcases List.mem_cons.1 hop with rfl | hop
    · rfl
    · exact hinsert op hop
  obtain ⟨⟨slices,length⟩,hslices⟩ := Option.isSome_iff_exists.1
    ((combine_isSome_iff tracks_empty hrange).2 (stopsShortFrom_of_insert hall 0 [0]))
  have hbuffer := getBufferFromSlices_eq
    (combine_represents represents_empty hrange hwf hslices).wellFormed
  have hcombine : combineOperationsForOneSameObject
      (OperationWrapper.writeWrapper gh (file.getD [])::ops) = some (slices,length) := hslices
  simp [combined,hcombine,hbuffer]

lemma appends_eq (p : JournalTask Operation) : appends p = p.next?.any JournalRequest.appends := by
  cases p with
  | done a => rfl
  | call r rest => cases r <;> rfl

lemma clears_eq (p : JournalTask Operation) : clears p = p.next?.any JournalRequest.clears := by
  cases p with
  | done a => rfl
  | call r rest => cases r <;> rfl

/-- It holds of the calls when it holds of the threads that run them. -/
lemma noAppendBeforeClear_of_thread {β γ : Type} {idle : γ → β} {finish : γ → Operation → β} {c : γ}
    {p : JournalTask Operation} {ts : List (Wrapped JournalRequest.Resp γ Operation)}
    (h : AppendsApart (Wrapped.thread idle finish ⟨c,some p⟩) (ts.map (Wrapped.thread idle finish))) :
    NoAppendBeforeClear p (insides ts) := by
  intro happends q hq
  obtain ⟨⟨c',program⟩,ht,rfl⟩ := mem_insides.1 hq
  have hnext : ∀ (c : γ) (p : JournalTask Operation),
      (Wrapped.thread idle finish ⟨c,some p⟩).next? = p.next? := Wrapped.next?_thread
  rw [appends_eq,← hnext c] at happends
  rw [clears_eq,← hnext c']
  exact h happends _ (List.mem_map_of_mem ht)

/-- The operations that calls have still to append. -/
def toAppend (views : List CallView) : List Operation :=
  (views.filter (fun v => v.stage.waits)).map CallView.op

/-- One call at most holds the lock, and an operation is appended or has still to be. -/
structure Orderly (ops : List Operation) (views : List CallView)
    (s : JournalState × List (Program.Event JournalRequest.Resp)) : Prop where
  held : views.countP (fun v => v.stage.holds) = if s.1.locked then 1 else 0
  appended : (appended s.2 ++ toAppend views).Perm ops

namespace Orderly
variable {ops : List Operation} {views others : List CallView} {op : Operation}
  {stage stage' : FlushStage} {s : JournalState} {trace : List (Program.Event JournalRequest.Resp)}

lemma perm {us vs : List CallView} {s : JournalState × List (Program.Event JournalRequest.Resp)}
    (hperm : us.Perm vs) (h : Orderly ops us s) : Orderly ops vs s where
  held := by rw [← hperm.countP_eq,h.held]
  appended := (((hperm.filter _).map _).symm.append_left _).trans h.appended

/-- Calls that have not begun. -/
lemma begin (files : Bytes → Option Bytes) :
    Orderly ops (ops.map (fun op => ⟨op,.adding⟩)) ({ files := files },[]) where
  held := by
    rw [List.countP_map,if_neg Bool.false_ne_true]
    exact List.countP_eq_zero.2 (fun _ _ => Bool.false_ne_true)
  appended := by
    have hall : toAppend (ops.map (fun op => ⟨op,.adding⟩)) = ops := by
      simp [toAppend,List.filter_map,FlushStage.waits,Function.comp_def]
    rw [hall]
    exact .refl _

/-- A step that neither appends nor has to do with the lock. -/
lemma move {s' : JournalState} {e : Program.Event JournalRequest.Resp}
    (h : Orderly ops (⟨op,stage⟩::others) (s,trace)) (hholds : stage'.holds = stage.holds)
    (hwaits : stage'.waits = stage.waits) (hlocked : s'.locked = s.locked)
    (he : ∀ opes, e.1 ≠ .add opes) : Orderly ops (⟨op,stage'⟩::others) (s',trace ++ [e]) where
  held := by
    have hheld := h.held
    simp only [List.countP_cons,hholds,hlocked] at hheld ⊢
    exact hheld
  appended := by
    have happended := h.appended
    simp only [toAppend,List.filter_cons,hwaits] at happended ⊢
    rw [appended_other trace he]
    split
    · rwa [if_pos (by assumption)] at happended
    · rwa [if_neg (by assumption)] at happended

/-- One request of one call, beside any others. -/
theorem step {may : JournalTask Operation → List (JournalTask Operation) → Prop}
    {others : Seen JournalRequest.Resp Operation CallView} {v : CallView} {r : JournalRequest}
    {s s' : JournalState × List (Program.Event JournalRequest.Resp)} {answer : r.Resp}
    (hstep : SeenStep journal.callProtocol (recorded journal.handle) may Returned others v r s s'
      answer) (h : Orderly ops (v::others.views) s) :
    Orderly ops (journal.callProtocol.next v r answer::others.views) s' := by
  obtain ⟨-,hallowed,-,hop⟩ := hstep
  obtain ⟨s,trace⟩ := s
  obtain ⟨s',trace'⟩ := s'
  obtain ⟨op,stage⟩ := v
  obtain ⟨hop,rfl⟩ := recorded_eq_some hop
  dsimp only at hop
  -- One case for each request the protocol allows at each stage.
  cases stage with
  | adding =>
    cases r with
    | add opes =>
      obtain rfl : opes = [op] := hallowed
      cases hop
      refine ⟨h.held,?_⟩
      rw [appended_add,List.append_assoc]
      exact h.appended
    | _ => exact hallowed.elim
  | locking =>
    cases r with
    | lock =>
      cases hlocked : s.locked with
      | true => simp [handle,hlocked] at hop
      | false =>
        simp only [handle,hlocked,Bool.false_eq_true,if_false,Option.some.injEq,
          Prod.mk.injEq] at hop
        obtain ⟨-,rfl⟩ := hop
        refine ⟨?_,?_⟩
        · have hheld := (List.countP_cons_of_neg Bool.false_ne_true).symm.trans h.held
          refine (List.countP_cons_of_pos rfl).trans ?_
          rw [hheld,hlocked]
          rfl
        · rw [appended_other trace (by simp)]
          exact h.appended
    | _ => exact hallowed.elim
  | grouping =>
    cases r with
    | group =>
      cases hop
      exact h.move rfl rfl rfl (by simp)
    | _ => exact hallowed.elim
  | clearing todo =>
    cases r with
    | clear =>
      cases hop
      exact h.move rfl rfl rfl (by simp)
    | _ => exact hallowed.elim
  | writing todo =>
    cases r with
    | openFile path =>
      cases hop
      exact h.move rfl rfl rfl (by simp)
    | writeContent path content opes =>
      cases hop
      exact h.move rfl rfl rfl (by simp)
    | unlock =>
      cases hop
      refine ⟨?_,?_⟩
      · have hheld := (List.countP_cons_of_pos rfl).symm.trans h.held
        refine (List.countP_cons_of_neg Bool.false_ne_true).trans ?_
        rw [if_neg Bool.false_ne_true]
        split at hheld <;> omega
      · rw [appended_other trace (by simp)]
        exact h.appended
    | outOfRange => cases hop
    | _ => exact hallowed.elim
  | returned => exact (show False by cases r <;> exact hallowed).elim

end Orderly

/-- No answer comes to a call that waits for the lock or is at an access out of range. -/
lemma handle_eq_none {r : JournalRequest} {s : JournalState} (h : journal.handle r s = none) :
    r = .lock ∧ s.locked = true ∨ r = .outOfRange := by
  cases r <;> simp_all [handle]

section run
variable {ops : List Operation} {files : Bytes → Option Bytes}
  {may : JournalTask Operation → List (JournalTask Operation) → Prop}
  {ps : List (JournalTask Operation)} {s : JournalState}
  {trace : List (Program.Event JournalRequest.Resp)}

/-- What every run of calls keeps. -/
theorem orderly (hrun : PoolRun (recorded journal.handle) may (ops.map journal.call)
    ({ files := files },[]) ps (s,trace)) : ∃ ts : Seen JournalRequest.Resp Operation CallView,
      ts.programs = ps ∧ (∀ t ∈ ts, Follows journal.callProtocol t.1 t.2 Returned) ∧
      Orderly ops ts.views (s,trace) :=
  hrun.invariant_map (Orderly ops) Orderly.perm Orderly.step journal.call_follows (.begin files)

/-- Where no call goes on, all have returned, or the one with the lock is at an access out of
range. -/
lemma rest_of_calls (hrun : PoolRun (recorded journal.handle) may (ops.map journal.call)
      ({ files := files },[]) ps (s,trace))
    (hstuck : ∀ p ∈ ps, ∀ r ∈ p.next?, journal.handle r s = none) :
    (∀ p ∈ ps, p.next? = none) ∨ ∃ p ∈ ps, p.next? = some .outOfRange := by
  obtain ⟨ts,rfl,hfollow,hinv⟩ := orderly hrun
  cases hlocked : s.locked with
  | false =>
    by_cases hnone : ∃ p ∈ ts.programs, p.next? = some .outOfRange
    · exact .inr hnone
    · refine .inl ?_
      intro p hp
      by_contra hsome
      obtain ⟨r,hr⟩ := Option.ne_none_iff_exists'.1 hsome
      rcases handle_eq_none (hstuck p hp r hr) with ⟨-,hheld⟩ | rfl
      · rw [hlocked] at hheld
        cases hheld
      · exact hnone ⟨p,hp,hr⟩
  | true =>
    have hpos : 0 < ts.views.countP (fun v => v.stage.holds) := by
      rw [hinv.held,hlocked]
      decide
    obtain ⟨v,hv,hholds⟩ := List.countP_pos_iff.1 hpos
    obtain ⟨⟨p,u⟩,ht,rfl⟩ := List.mem_map.1 hv
    have hthread := hfollow _ ht
    have hp : p ∈ ts.programs := List.mem_map_of_mem (f := Prod.fst) ht
    refine .inr ⟨p,hp,?_⟩
    cases p with
    | done a =>
      obtain rfl : u = ⟨a,.returned⟩ := hthread
      cases hholds
    | call r rest =>
      have hallowed : callAllowed u r := hthread.1
      rcases handle_eq_none (hstuck _ hp r rfl) with ⟨rfl,-⟩ | rfl
      · obtain ⟨op,stage⟩ := u
        cases stage <;> first | exact hallowed.elim | cases hholds
      · rfl

/-- What a call that is at an access out of range cannot combine. -/
lemma batchAllowed_outOfRange {v : BatchView} (h : journal.batchAllowed v .outOfRange) :
    ∃ e es, v.stage = .writing (e::es) false ∧ combined e.2 = none := by
  obtain ⟨op,stage⟩ := v
  cases stage with
  | writing es opened =>
    cases es with
    | nil => cases opened <;> exact h.elim
    | cons e es =>
      cases opened with
      | true => exact h.elim
      | false => exact ⟨e,es,rfl,h⟩
  | _ => exact h.elim

/-- Inserts that cannot be combined with what was included before them are not legal after it. -/
lemma Batched.not_legal {objs : Set GHObject} {calm : Prop} {views : List BatchView}
    {v : BatchView} {e : GHObject × List Operation} {es : List (GHObject × List Operation)}
    {file : Option Bytes} (h : journal.Batched objs e.1 file calm views (s,trace)) (hv : v ∈ views)
    (hstage : v.stage = .writing (e::es) false) (hcombined : combined e.2 = none)
    (hinsert : ∀ op ∈ appended trace, op.operationType = .insert) :
    ∃ opes, opes.Sublist (ofObject e.1 (appended trace)) ∧ ¬Legal file opes := by
  obtain ⟨-,hhand,-,hbegun⟩ := h.holder v hv (by rw [hstage]; rfl)
  rw [hstage] at hhand hbegun
  have hgroups : journal.ofGroups e.1 (e::es) = _ := ofGroups_cons_self rfl
  have hsub : (journal.included s e.1 ++ e.2.tail).Sublist (ofObject e.1 (appended trace)) := by
    refine List.Sublist.trans ?_ hhand.sublist
    rw [BatchStage.inHand,hgroups,List.append_assoc]
    exact (List.sublist_append_left _ _).append_left _
  refine ⟨_,hsub,?_⟩
  intro hlegal
  obtain ⟨hbefore,hnew⟩ := legal_append hlegal
  obtain ⟨opes,-,heq⟩ := hbegun e List.mem_cons_self rfl hbefore
  rw [heq,List.tail_cons] at hnew hsub
  have hall : ∀ op ∈ opes, op.operationType = .insert :=
    fun op hop => hinsert op (List.mem_of_mem_filter (hsub.mem (List.mem_append_right _ hop)))
  have hsome := combined_isSome e.1 hnew hall
  rw [← heq,hcombined] at hsome
  cases hsome

/-- Calls of inserts all return, unless the inserts on an object, in some order, are not legal for
its file. -/
theorem all_return {objs : Set GHObject} (hobjs : JournalObjects objs)
    (huse : ∀ op ∈ ops, op.obj ∈ objs) (hinsert : ∀ op ∈ ops, op.operationType = .insert)
    (hrun : PoolRun journal.handle may (ops.map journal.call) { files := files } ps s)
    (hstuck : ∀ p ∈ ps, ∀ r ∈ p.next?, journal.handle r s = none) :
    (∀ p ∈ ps, p.next? = none) ∨ ∃ gh ∈ objs, ∃ opes, opes.Subperm (ofObject gh ops) ∧
      ¬Legal (files (journal.path gh)) opes := by
  obtain ⟨trace,hrun⟩ := hrun.exists_recorded
  rcases rest_of_calls hrun hstuck with hdone | ⟨p,hp,hnext⟩
  · exact .inl hdone
  · refine .inr ?_
    obtain ⟨us,-,-,horderly⟩ := orderly hrun
    have happended : (appended trace).Subperm ops :=
      (List.sublist_append_left _ _).subperm.trans horderly.appended.subperm
    obtain ⟨o,ho⟩ : ∃ o, o ∈ ops := by
      have hlength := hrun.length_eq
      rw [List.length_map] at hlength
      exact List.exists_mem_of_length_pos (hlength ▸ List.length_pos_of_mem hp)
    obtain ⟨ts,rfl,hfollow,hinv⟩ := Batched.of_run hobjs (fun hno : False => hno.elim) huse hrun
    obtain ⟨⟨q,v⟩,ht,rfl⟩ := List.mem_map.1 hp
    have hthread := hfollow _ ht
    have hv : v ∈ ts.views := List.mem_map_of_mem (f := Prod.snd) ht
    cases q with
    | done a => cases hnext
    | call r rest =>
      obtain rfl : r = .outOfRange := Option.some.inj hnext
      obtain ⟨e,es,hstage,hcombined⟩ := batchAllowed_outOfRange hthread.1
      have he : e.1 ∈ objs := (hinv o.obj (huse o ho)).grouped v hv e (by
        rw [hstage]
        exact List.mem_cons_self)
      obtain ⟨opes,hsub,hlegal⟩ := (hinv e.1 he).not_legal hv hstage hcombined
        (fun op hop => hinsert op (happended.subset hop))
      exact ⟨e.1,he,opes,hsub.subperm.trans (happended.filter _),hlegal⟩

/-- What every run keeps in which no append comes between a grouping loop and its `clear`. -/
theorem flushInv (hfile : OneFile ops) (hrun : PoolRun journal.handle NoAppendBeforeClear
    (ops.map journal.call) { files := files } ps s) :
    ∃ ts : Seen JournalRequest.Resp Operation CallView, ts.programs = ps ∧
      (∀ t ∈ ts, Follows journal.callProtocol t.1 t.2 Returned) ∧ journal.FlushInv ops ts.views s :=
  hrun.invariant_map (journal.FlushInv ops) FlushInv.perm (FlushInv.step hfile) journal.call_follows
    (.begin files)

/-- The operations in the contents of a file are those that flushes have included. -/
lemma timesWritten_eq (s : JournalState) (op : Operation) :
    journal.timesWritten s op = (journal.included s op.obj).count op := by
  rw [timesWritten,written,included]
  induction s.flushed with
  | nil => rfl
  | cons r flushed ih =>
    rw [List.flatMap_cons,List.count_append,ih]
    by_cases hpath : r.path = journal.path op.obj
    · have hinjective : Function.Injective (fun ope : Operation => (r.path,ope)) :=
        fun _ _ h => congrArg Prod.snd h
      rw [List.filter_cons_of_pos (by simpa using hpath),List.flatMap_cons,List.count_append,← hpath,
        List.count_map_of_injective _ _ hinjective]
    · have hnone : (journal.path op.obj,op) ∉ r.opes.map (fun ope => (r.path,ope)) := by
        intro hm
        obtain ⟨ope,-,heq⟩ := List.mem_map.1 hm
        exact hpath (congrArg Prod.fst heq)
      rw [List.filter_cons_of_neg (by simpa using hpath),List.count_eq_zero.2 hnone,Nat.zero_add]

/-- The operation of a call that has returned is included, as often as such calls have. -/
theorem count_returned (hfile : OneFile ops) (hrun : PoolRun journal.handle NoAppendBeforeClear
    (ops.map journal.call) { files := files } ps s) (op : Operation) :
    (ps.filterMap Prog.result?).count op ≤ (journal.included s op.obj).count op := by
  obtain ⟨ts,rfl,hfollow,hinv⟩ := flushInv hfile hrun
  rw [← timesWritten_eq]
  exact (count_results hfollow op).trans (hinv.returned op)

end run
end Journal
end GDFileStore
