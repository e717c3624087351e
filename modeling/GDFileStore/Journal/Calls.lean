import GDFileStore.Journal.Content
import GDFileStore.Program.Pool
import Mathlib.Data.List.Count

/-! The call of one thread on the journal, by the part of it that is done: which requests it may make
next, and what its flush has still to write. -/
namespace GDFileStore
open Sequences Program Prog Operation

/-- How far a call has come. -/
inductive FlushStage where
  | adding
  | locking
  | grouping
  /-- The operations are grouped and `wOpes` still has to be cleared. -/
  | clearing (todo : List (Bytes × Operation))
  | writing (todo : List (Bytes × Operation))
  | returned

namespace FlushStage

def appended : FlushStage → Bool
  | .adding => false
  | _ => true

def ended : FlushStage → Bool
  | .returned => true
  | _ => false

/-- Between the lock and the unlock. -/
def holds : FlushStage → Bool
  | .grouping => true
  | .clearing _ => true
  | .writing _ => true
  | _ => false

/-- What a flush has taken out of the journal and not yet written. -/
def inHand : FlushStage → List (Bytes × Operation)
  | .writing todo => todo
  | _ => []

end FlushStage

/-- The call of an operation and its stage. -/
structure CallView where
  op : Operation
  stage : FlushStage

namespace Journal
variable (journal : Journal)

/-- `HandleWriteOperation(op, true)` of one thread. -/
def call (op : Operation) : JournalTask Operation := do
  journal.handleWriteOperation (.one op true)
  return op

/-- What the groups write, each operation with the file it goes to. -/
def toWrite (g2os : List (GHObject × List Operation)) : List (Bytes × Operation) :=
  g2os.flatMap (fun e => e.2.tail.map (fun ope => (journal.path e.1,ope)))

def callAllowed (v : CallView) (r : JournalRequest) : Prop :=
  match v.stage,r with
  | .adding,.add opes => opes = [v.op]
  | .locking,.lock => True
  | .grouping,.group => True
  | .clearing _,.clear => True
  | .writing _,.openFile _ => True
  | .writing todo,.writeContent path content opes =>
    (∃ v, v.tail = opes ∧ combined v = some content) ∧
      ∃ later, todo = opes.map (fun ope => (path,ope)) ++ later
  | .writing _,.outOfRange => True
  | .writing todo,.unlock => todo = []
  | _,_ => False

def callNext (v : CallView) (r : JournalRequest) (answer : r.Resp) : CallView :=
  match v.stage,r,answer with
  | .adding,.add _,_ => { v with stage := .locking }
  | .locking,.lock,_ => { v with stage := .grouping }
  | .grouping,.group,g2os => { v with stage := .clearing (journal.toWrite g2os.entries) }
  | .clearing todo,.clear,_ => { v with stage := .writing todo }
  | .writing todo,.writeContent _ _ opes,_ => { v with stage := .writing (todo.drop opes.length) }
  | .writing _,.unlock,_ => { v with stage := .returned }
  | _,_,_ => v

def callProtocol : Protocol JournalRequest.Resp CallView := ⟨callAllowed,journal.callNext⟩

/-- A call returns its operation at the end. -/
def Returned (op : Operation) (v : CallView) : Prop := v = ⟨op,.returned⟩

lemma flushObject_follows (op : Operation) (obj : GHObject) (v : List Operation)
    (later : List (Bytes × Operation)) :
    Follows journal.callProtocol (journal.flushObject obj v)
      ⟨op,.writing (v.tail.map (fun ope => (journal.path obj,ope)) ++ later)⟩
      (fun _ u => u = ⟨op,.writing later⟩) := by
  cases h : combined v with
  | none =>
    rw [flushObject,h]
    exact ⟨trivial,fun answer => Empty.elim answer⟩
  | some content =>
    rw [flushObject,h]
    refine ⟨trivial,fun _ => ⟨⟨⟨v,rfl,h⟩,later,rfl⟩,fun _ => ?_⟩⟩
    have hdrop : (v.tail.map (fun ope => (journal.path obj,ope)) ++ later).drop v.tail.length =
        later := by
      rw [List.drop_left' (List.length_map _)]
    exact congrArg (fun todo => (⟨op,.writing todo⟩ : CallView)) hdrop

lemma flushObjects_follows (op : Operation) (g2os : List (GHObject × List Operation)) :
    Follows journal.callProtocol (journal.flushObjects g2os) ⟨op,.writing (journal.toWrite g2os)⟩
      (fun _ u => u = ⟨op,.writing []⟩) := by
  induction g2os with
  | nil => rfl
  | cons e g2os ih =>
    apply Follows.bind (journal.flushObject_follows op e.1 e.2 (journal.toWrite g2os))
    rintro _ _ rfl
    exact ih

/-- A call follows the protocol, whatever the others do meanwhile. -/
theorem call_follows (op : Operation) :
    Follows journal.callProtocol (journal.call op) ⟨op,.adding⟩ Returned := by
  simp only [call,handleWriteOperation,addWriteOperation,JournalCall.emengency,if_true,
    flushProcessor,ask_eq,call_bind,done_bind]
  refine ⟨rfl,fun _ => ⟨trivial,fun _ => ⟨trivial,fun g2os => ⟨trivial,fun _ => ?_⟩⟩⟩⟩
  refine Follows.bind (Q := fun _ u => u = ⟨op,.returned⟩)
    (Follows.bind (journal.flushObjects_follows op g2os.entries) ?_) ?_
  · rintro _ _ rfl
    exact ⟨rfl,fun _ => rfl⟩
  · rintro _ _ rfl
    rfl

/-- Objects that share a group also share a file. -/
def OneFile (ops : List Operation) : Prop :=
  ∀ a ∈ ops, ∀ b ∈ ops, SameKey GHObject.lt a.obj b.obj →
    getObjUniqueStrDesc a.obj = getObjUniqueStrDesc b.obj

/-- The groups write every operation, as often as it is there, into the file of its object. -/
theorem count_toWrite {files : Bytes → Option Bytes} {wOpes : List Operation}
    (hfile : OneFile wOpes) (op : Operation) :
    wOpes.count op ≤ (journal.toWrite (journal.groupOperations files wOpes).entries).count
      (journal.path op.obj,op) := by
  by_cases hop : op ∈ wOpes
  · have hmem : op ∈ onObject wOpes op.obj := mem_onObject.2 ⟨hop,.refl _⟩
    have hentry := journal.entry_groupOperations files wOpes op.obj
    cases hops : onObject wOpes op.obj with
    | nil =>
      rw [hops] at hmem
      cases hmem
    | cons o os =>
      rw [hops] at hentry
      have ho : o ∈ onObject wOpes op.obj := hops ▸ List.mem_cons_self
      obtain ⟨ho,hsame⟩ := mem_onObject.1 ho
      have hpath : journal.path o.obj = journal.path op.obj :=
        journal.path_eq_iff.2 (hfile o ho op hop hsame)
      have hsub := List.sublist_flatten_of_mem (List.mem_map_of_mem
        (f := fun e : GHObject × List Operation =>
          e.2.tail.map (fun ope => (journal.path e.1,ope))) (OrderedMap.entry_eq_some_iff.1 hentry).1)
      have hinjective : Function.Injective (fun ope : Operation => (journal.path o.obj,ope)) :=
        fun _ _ h => congrArg Prod.snd h
      calc wOpes.count op = (onObject wOpes op.obj).count op := by
            rw [onObject,List.count_filter]
            exact decide_eq_true (.refl _)
        _ = ((o::os).map (fun ope => (journal.path o.obj,ope))).count (journal.path o.obj,op) := by
            rw [hops,List.count_map_of_injective _ _ hinjective]
        _ = ((o::os).map (fun ope => (journal.path o.obj,ope))).count (journal.path op.obj,op) := by
            rw [hpath]
        _ ≤ _ := hsub.count_le _
  · rw [List.count_eq_zero.2 hop]
    exact Nat.zero_le _

end Journal
end GDFileStore
