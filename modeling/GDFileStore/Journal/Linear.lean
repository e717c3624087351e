import GDFileStore.Journal.Threads

/-! Calls of many threads on one journal, and what their flushes make of the file of an object: the
operations go into it one after another, in the order in which the threads appended them. -/
namespace GDFileStore
open Sequences Program Prog Operation

/-- How far a call has come, with the groups that its flush has still to write. -/
inductive BatchStage where
  | adding
  | locking
  | grouping
  | clearing (g2os : List (GHObject × List Operation))
  /-- `opened` when the file of the first group is open, and so empty. -/
  | writing (g2os : List (GHObject × List Operation)) (opened : Bool)
  | returned

namespace BatchStage

/-- Between the lock and the unlock. -/
def holds : BatchStage → Bool
  | .grouping => true
  | .clearing _ => true
  | .writing _ _ => true
  | _ => false

/-- The groups that are still to be written. -/
def rest : BatchStage → List (GHObject × List Operation)
  | .clearing g2os => g2os
  | .writing g2os _ => g2os
  | _ => []

/-- The groups that are no longer in the journal and not yet written. -/
def inHand : BatchStage → List (GHObject × List Operation)
  | .writing g2os _ => g2os
  | _ => []

end BatchStage

structure BatchView where
  op : Operation
  stage : BatchStage

namespace Journal
variable (journal : Journal)

/-- The file of an object is open. -/
def Opened (gh : GHObject) : BatchStage → Prop
  | .writing (e::_) true => journal.path e.1 = journal.path gh
  | _ => False

def batchAllowed (v : BatchView) (r : JournalRequest) : Prop :=
  match v.stage,r with
  | .adding,.add opes => opes = [v.op]
  | .locking,.lock => True
  | .grouping,.group => True
  | .clearing _,.clear => True
  | .writing (e::_) false,.openFile path => path = journal.path e.1 ∧ (combined e.2).isSome
  | .writing (e::_) true,.writeContent path content opes =>
    path = journal.path e.1 ∧ combined e.2 = some content ∧ opes = e.2.tail
  | .writing (e::_) false,.outOfRange => combined e.2 = none
  | .writing [] false,.unlock => True
  | _,_ => False

def batchNext (v : BatchView) (r : JournalRequest) (answer : r.Resp) : BatchView :=
  match v.stage,r,answer with
  | .adding,.add _,_ => { v with stage := .locking }
  | .locking,.lock,_ => { v with stage := .grouping }
  | .grouping,.group,g2os => { v with stage := .clearing g2os.entries }
  | .clearing g2os,.clear,_ => { v with stage := .writing g2os false }
  | .writing g2os false,.openFile _,_ => { v with stage := .writing g2os true }
  | .writing g2os true,.writeContent _ _ _,_ => { v with stage := .writing g2os.tail false }
  | .writing _ _,.unlock,_ => { v with stage := .returned }
  | _,_,_ => v

def batchProtocol : Protocol JournalRequest.Resp BatchView := ⟨journal.batchAllowed,batchNext⟩

/-- A call returns its operation at the end. -/
def BatchReturned (op : Operation) (v : BatchView) : Prop := v = ⟨op,.returned⟩

lemma flushObject_batch (op : Operation) (e : GHObject × List Operation)
    (es : List (GHObject × List Operation)) :
    Follows journal.batchProtocol (journal.flushObject e.1 e.2) ⟨op,.writing (e::es) false⟩
      (fun _ u => u = ⟨op,.writing es false⟩) := by
  cases h : combined e.2 with
  | none =>
    rw [flushObject,h]
    exact ⟨h,fun answer => Empty.elim answer⟩
  | some content =>
    rw [flushObject,h]
    exact ⟨⟨rfl,by simp [h]⟩,fun _ => ⟨⟨rfl,h,rfl⟩,fun _ => rfl⟩⟩

lemma flushObjects_batch (op : Operation) (es : List (GHObject × List Operation)) :
    Follows journal.batchProtocol (journal.flushObjects es) ⟨op,.writing es false⟩
      (fun _ u => u = ⟨op,.writing [] false⟩) := by
  induction es with
  | nil => rfl
  | cons e es ih =>
    apply Follows.bind (journal.flushObject_batch op e es)
    rintro _ _ rfl
    exact ih

theorem call_batch (op : Operation) :
    Follows journal.batchProtocol (journal.call op) ⟨op,.adding⟩ BatchReturned := by
  simp only [call,handleWriteOperation,addWriteOperation,JournalCall.emengency,if_true,
    flushProcessor,ask_eq,call_bind,done_bind]
  refine ⟨rfl,fun _ => ⟨trivial,fun _ => ⟨trivial,fun g2os => ⟨trivial,fun _ => ?_⟩⟩⟩⟩
  refine Follows.bind (Q := fun _ u => u = ⟨op,.returned⟩)
    (Follows.bind (journal.flushObjects_batch op g2os.entries) ?_) ?_
  · rintro _ _ rfl
    exact ⟨trivial,fun _ => rfl⟩
  · rintro _ _ rfl
    rfl

/-- The operations that flushes have written into the file of an object, in their order. -/
def included (s : JournalState) (gh : GHObject) : List Operation :=
  (s.flushed.filter (fun r => r.path = journal.path gh)).flatMap FlushedContent.opes

/-- The operations in groups that go to the file of an object. -/
def ofGroups (gh : GHObject) (es : List (GHObject × List Operation)) : List Operation :=
  (es.filter (fun e => journal.path e.1 = journal.path gh)).flatMap (fun e => e.2.tail)

/-- What the threads have appended, in its order. -/
def appended (trace : List (Program.Event JournalRequest.Resp)) : List Operation :=
  trace.flatMap (fun e =>
    match e with
    | ⟨.add opes,_⟩ => opes
    | _ => [])

/-- Operations on an object. -/
def ofObject (gh : GHObject) (ops : List Operation) : List Operation :=
  ops.filter (fun op => op.obj = gh)

lemma ofObject_append (gh : GHObject) (xs ys : List Operation) :
    ofObject gh (xs ++ ys) = ofObject gh xs ++ ofObject gh ys := List.filter_append _ _

section appended
variable (trace : List (Program.Event JournalRequest.Resp))

lemma appended_add (opes : List Operation) (answer : Unit) :
    appended (trace ++ [⟨.add opes,answer⟩]) = appended trace ++ opes := by
  simp [appended]

lemma appended_other {e : Program.Event JournalRequest.Resp} (h : ∀ opes, e.1 ≠ .add opes) :
    appended (trace ++ [e]) = appended trace := by
  obtain ⟨r,answer⟩ := e
  cases r with
  | add opes => exact absurd rfl (h opes)
  | _ => simp [appended]

end appended

/-- Nothing is there that is not in the other list, in its order, and where all is `calm` all of it
is there. -/
structure Part (calm : Prop) (xs ys : List Operation) : Prop where
  sublist : xs.Sublist ys
  all : calm → xs = ys

namespace Part
variable {calm : Prop} {xs ys zs ws : List Operation}

lemma refl (xs : List Operation) : Part calm xs xs := ⟨.refl xs,fun _ => rfl⟩

lemma append (h : Part calm xs ys) (zs : List Operation) : Part calm (xs ++ zs) (ys ++ zs) :=
  ⟨h.sublist.append_right zs,fun hcalm => by rw [h.all hcalm]⟩

lemma tail (h : Part calm (zs ++ ys) ws) (hxs : Part calm xs ys) : Part calm (zs ++ xs) ws :=
  ⟨(hxs.sublist.append_left zs).trans h.sublist,fun hcalm => by rw [hxs.all hcalm,h.all hcalm]⟩

end Part

section ofGroups
variable {journal} {gh : GHObject} {e : GHObject × List Operation}
  {es : List (GHObject × List Operation)}

lemma ofGroups_cons_self (he : journal.path e.1 = journal.path gh) :
    journal.ofGroups gh (e::es) = e.2.tail ++ journal.ofGroups gh es := by
  rw [ofGroups,List.filter_cons_of_pos (by simpa using he),List.flatMap_cons,ofGroups]

lemma ofGroups_cons_ne (he : journal.path e.1 ≠ journal.path gh) :
    journal.ofGroups gh (e::es) = journal.ofGroups gh es := by
  rw [ofGroups,List.filter_cons_of_neg (by simpa using he),ofGroups]

lemma ofGroups_none (h : ∀ e ∈ es, journal.path e.1 ≠ journal.path gh) :
    journal.ofGroups gh es = [] := by
  have hfilter : es.filter (fun e => journal.path e.1 = journal.path gh) = [] :=
    List.filter_eq_nil_iff.2 (by simpa using h)
  rw [ofGroups,hfilter,List.flatMap_nil]

/-- An object has at most one group. -/
lemma ofGroups_of_mem (hnodup : (es.map (fun e => journal.path e.1)).Nodup) (he : e ∈ es)
    (hpath : journal.path e.1 = journal.path gh) : journal.ofGroups gh es = e.2.tail := by
  induction es with
  | nil => cases he
  | cons d es ih =>
    obtain ⟨hd,hnodup⟩ := List.nodup_cons.1 hnodup
    rcases List.mem_cons.1 he with rfl | he
    · have hnone : ∀ d ∈ es, journal.path d.1 ≠ journal.path gh :=
        fun d hm heq => hd (List.mem_map.2 ⟨d,hm,heq.trans hpath.symm⟩)
      rw [ofGroups_cons_self hpath,ofGroups_none hnone,List.append_nil]
    · have hne : journal.path d.1 ≠ journal.path gh :=
        fun heq => hd (List.mem_map.2 ⟨e,he,hpath.trans heq.symm⟩)
      rw [ofGroups_cons_ne hne,ih hnodup he]

lemma mem_objs_of_group {objs : Set GHObject} {files : Bytes → Option Bytes}
    {wOpes : List Operation} (huse : ∀ op ∈ wOpes, op.obj ∈ objs) :
    ∀ e ∈ (journal.groupOperations files wOpes).entries, e.1 ∈ objs := by
  intro e he
  obtain ⟨o,os,hops,rfl⟩ := journal.mem_groupOperations he
  exact huse o (mem_onObject.1 (hops ▸ List.mem_cons_self)).1

/-- The groups of a flush have a file each. -/
lemma nodup_groupOperations {objs : Set GHObject} (hobjs : JournalObjects objs)
    {files : Bytes → Option Bytes} {wOpes : List Operation} (huse : ∀ op ∈ wOpes, op.obj ∈ objs) :
    ((journal.groupOperations files wOpes).entries.map (fun e => journal.path e.1)).Nodup := by
  have hmem : ∀ d ∈ (journal.groupOperations files wOpes).entries, d.1 ∈ objs :=
    mem_objs_of_group huse
  rw [List.nodup_iff_pairwise_ne,List.pairwise_map]
  refine (journal.groupOperations files wOpes).sorted.imp_of_mem ?_
  intro a b ha hb hlt hpath
  have hsame := hobjs.sameKey_iff (hmem a ha) (hmem b hb)
  by_cases heq : a.1 = b.1
  · exact (hsame.2 heq).1 hlt
  · exact (hobjs _ (hmem a ha) _ (hmem b hb) heq).2 (journal.path_eq_iff.1 hpath)

/-- The group of an object has its operations, behind a write of what its file holds. -/
lemma group_eq {objs : Set GHObject} (hobjs : JournalObjects objs) (hgh : gh ∈ objs)
    {files : Bytes → Option Bytes} {wOpes : List Operation} (huse : ∀ op ∈ wOpes, op.obj ∈ objs)
    (he : e ∈ (journal.groupOperations files wOpes).entries)
    (hpath : journal.path e.1 = journal.path gh) : ofObject gh wOpes ≠ [] ∧
      e.2 = OperationWrapper.writeWrapper e.1 (readFile files (journal.path gh))::ofObject gh wOpes := by
  obtain ⟨o,os,hops,rfl⟩ := journal.mem_groupOperations he
  have ho := mem_onObject.1 (hops ▸ List.mem_cons_self : o ∈ onObject wOpes o.obj)
  have hown : o.obj = gh := by
    by_contra hne
    exact (hobjs _ (huse o ho.1) gh hgh hne).2 (journal.path_eq_iff.1 hpath)
  subst hown
  have hobject : onObject wOpes o.obj = ofObject o.obj wOpes := hobjs.onObject_eq hgh huse
  rw [← hobject,hops]
  exact ⟨List.cons_ne_nil _ _,rfl⟩

lemma ofGroups_groupOperations {objs : Set GHObject} (hobjs : JournalObjects objs) (hgh : gh ∈ objs)
    {files : Bytes → Option Bytes} {wOpes : List Operation} (huse : ∀ op ∈ wOpes, op.obj ∈ objs) :
    journal.ofGroups gh (journal.groupOperations files wOpes).entries = ofObject gh wOpes := by
  by_cases hsome : ∃ e ∈ (journal.groupOperations files wOpes).entries, journal.path e.1 = journal.path gh
  · obtain ⟨e,he,hpath⟩ := hsome
    rw [ofGroups_of_mem (nodup_groupOperations hobjs huse) he hpath,
      (group_eq hobjs hgh huse he hpath).2,List.tail_cons]
  · have hnone : onObject wOpes gh = [] := by
      by_contra hne
      exact hsome (exists_entry (hobjs.recognized hgh huse) hne)
    rw [ofGroups_none (fun e he heq => hsome ⟨e,he,heq⟩),← hnone]
    exact hobjs.onObject_eq hgh huse

lemma included_write_self {s : JournalState} {path content : Bytes} {opes : List Operation}
    (hpath : path = journal.path gh) :
    journal.included (s.write path content opes) gh = journal.included s gh ++ opes := by
  simp [included,JournalState.write,hpath]

lemma included_write_ne {s : JournalState} {path content : Bytes} {opes : List Operation}
    (hpath : path ≠ journal.path gh) :
    journal.included (s.write path content opes) gh = journal.included s gh := by
  simp [included,JournalState.write,hpath]

end ofGroups

/-- What holds of the call that has the lock. -/
structure Holder (gh : GHObject) (file : Option Bytes) (calm : Prop) (stage : BatchStage)
    (s : JournalState) (trace : List (Program.Event JournalRequest.Resp)) : Prop where
  grouped : ∀ es, stage = .clearing es → Part calm (journal.ofGroups gh es) (ofObject gh s.wOpes)
  hand : Part calm (journal.included s gh ++ (journal.ofGroups gh stage.inHand ++ ofObject gh s.wOpes))
    (ofObject gh (appended trace))
  nodup : (stage.rest.map (fun e => journal.path e.1)).Nodup
  begun : ∀ e ∈ stage.rest, journal.path e.1 = journal.path gh → Legal file (journal.included s gh) →
    ∃ opes, opes ≠ [] ∧ e.2 =
      OperationWrapper.writeWrapper e.1 ((edited file (journal.included s gh)).getD [])::opes

/-- One flush at a time, which writes groups that follow on from the file of an object, as what was
included has made it. -/
structure Batched (objs : Set GHObject) (gh : GHObject) (file : Option Bytes) (calm : Prop)
    (views : List BatchView) (s : JournalState × List (Program.Event JournalRequest.Resp)) : Prop where
  pending : ∀ op ∈ s.1.wOpes, op.obj ∈ objs
  called : ∀ v ∈ views, v.op.obj ∈ objs
  grouped : ∀ v ∈ views, ∀ e ∈ v.stage.rest, e.1 ∈ objs
  held : views.countP (fun v => v.stage.holds) = if s.1.locked then 1 else 0
  holder : ∀ v ∈ views, v.stage.holds = true → journal.Holder gh file calm v.stage s.1 s.2
  free : s.1.locked = false → Part calm (journal.included s.1 gh ++ ofObject gh s.1.wOpes)
    (ofObject gh (appended s.2))
  content : Legal file (journal.included s.1 gh) → (∀ v ∈ views, ¬journal.Opened gh v.stage) →
    s.1.files (journal.path gh) = edited file (journal.included s.1 gh)

namespace Batched
variable {journal} {objs : Set GHObject} {gh : GHObject} {file : Option Bytes} {calm : Prop}
  {views others : List BatchView} {op : Operation} {stage : BatchStage} {s : JournalState}
  {trace : List (Program.Event JournalRequest.Resp)}

lemma perm {us vs : List BatchView} {s : JournalState × List (Program.Event JournalRequest.Resp)}
    (hperm : us.Perm vs) (h : journal.Batched objs gh file calm us s) :
    journal.Batched objs gh file calm vs s where
  pending := h.pending
  called v hv := h.called v (hperm.mem_iff.2 hv)
  grouped v hv := h.grouped v (hperm.mem_iff.2 hv)
  held := by rw [← hperm.countP_eq,h.held]
  holder v hv := h.holder v (hperm.mem_iff.2 hv)
  free := h.free
  content hlegal hopened := h.content hlegal (fun v hv => hopened v (hperm.mem_iff.1 hv))

/-- While one call holds the lock no other does. -/
lemma alone (h : journal.Batched objs gh file calm (⟨op,stage⟩::others) (s,trace))
    (hv : stage.holds = true) : s.locked = true ∧ ∀ u ∈ others, u.stage.holds = false := by
  have hheld := h.held
  rw [List.countP_cons,if_pos hv] at hheld
  cases hlocked : s.locked with
  | false => simp [hlocked] at hheld
  | true =>
    refine ⟨rfl,?_⟩
    have hzero : others.countP (fun u => u.stage.holds) = 0 := by
      simp only [hlocked,if_true] at hheld
      omega
    intro u hu
    simpa using List.countP_eq_zero.1 hzero u hu

/-- No file is open that no call holds. -/
lemma not_opened (hv : stage.holds = false) : ¬journal.Opened gh stage := by
  intro hopened
  cases stage with
  | writing es opened => simp [BatchStage.holds] at hv
  | _ => exact hopened

lemma called_move {stage' : BatchStage}
    {s : JournalState × List (Program.Event JournalRequest.Resp)}
    (h : journal.Batched objs gh file calm (⟨op,stage⟩::others) s) :
    ∀ v ∈ (⟨op,stage'⟩::others : List BatchView), v.op.obj ∈ objs := by
  intro v hv
  rcases List.mem_cons.1 hv with rfl | hv
  · exact h.called ⟨op,stage⟩ List.mem_cons_self
  · exact h.called v (List.mem_cons_of_mem _ hv)

lemma grouped_move {stage' : BatchStage}
    {s : JournalState × List (Program.Event JournalRequest.Resp)}
    (h : journal.Batched objs gh file calm (⟨op,stage⟩::others) s)
    (hstage : ∀ e ∈ stage'.rest, e.1 ∈ objs) :
    ∀ v ∈ (⟨op,stage'⟩::others : List BatchView), ∀ e ∈ v.stage.rest, e.1 ∈ objs := by
  intro v hv
  rcases List.mem_cons.1 hv with rfl | hv
  · exact hstage
  · exact h.grouped v (List.mem_cons_of_mem _ hv)

/-- The call with the lock has moved on. -/
lemma move {stage' : BatchStage} {s' : JournalState}
    {trace' : List (Program.Event JournalRequest.Resp)}
    (h : journal.Batched objs gh file calm (⟨op,stage⟩::others) (s,trace))
    (hv : stage.holds = true) (hv' : stage'.holds = true) (hlocked : s'.locked = true)
    (hpending : ∀ op ∈ s'.wOpes, op.obj ∈ objs) (hrest : ∀ e ∈ stage'.rest, e.1 ∈ objs)
    (hholder : journal.Holder gh file calm stage' s' trace')
    (hcontent : Legal file (journal.included s' gh) → ¬journal.Opened gh stage' →
      s'.files (journal.path gh) = edited file (journal.included s' gh)) :
    journal.Batched objs gh file calm (⟨op,stage'⟩::others) (s',trace') where
  pending := hpending
  called := h.called_move
  grouped := h.grouped_move hrest
  held := by
    have hheld := h.held
    rw [List.countP_cons,if_pos hv,(h.alone hv).1] at hheld
    rw [List.countP_cons,if_pos hv',hlocked]
    exact hheld
  holder v hm hholds := by
    rcases List.mem_cons.1 hm with rfl | hm
    · exact hholder
    · rw [(h.alone hv).2 v hm] at hholds
      cases hholds
  free hfree := absurd (hlocked.symm.trans hfree) Bool.noConfusion
  content hlegal hopened := hcontent hlegal (hopened _ List.mem_cons_self)

/-- Calls that have not begun. -/
lemma begin {ops : List Operation} (huse : ∀ op ∈ ops, op.obj ∈ objs) (files : Bytes → Option Bytes) :
    journal.Batched objs gh (files (journal.path gh)) calm (ops.map (fun op => ⟨op,.adding⟩))
      ({ files := files },[]) where
  pending := by simp
  called := by
    intro v hv
    obtain ⟨o,ho,rfl⟩ := List.mem_map.1 hv
    exact huse o ho
  grouped := by
    intro v hv
    obtain ⟨o,_,rfl⟩ := List.mem_map.1 hv
    exact fun _ he => absurd he List.not_mem_nil
  held := by
    rw [List.countP_map,if_neg Bool.false_ne_true]
    exact List.countP_eq_zero.2 (fun _ _ => Bool.false_ne_true)
  holder := by
    intro v hv hholds
    obtain ⟨o,_,rfl⟩ := List.mem_map.1 hv
    cases hholds
  free _ := .refl []
  content _ _ := rfl

section steps

/-- An append is the last to be included. -/
lemma add (h : journal.Batched objs gh file calm (⟨op,.adding⟩::others) (s,trace))
    (hclear : calm → ∀ u ∈ others, ∀ es, u.stage ≠ .clearing es) (answer : Unit) :
    journal.Batched objs gh file calm (⟨op,.locking⟩::others)
      ({ s with wOpes := s.wOpes ++ [op] },trace ++ [⟨.add [op],answer⟩]) where
  pending o ho := by
    rcases List.mem_append.1 ho with hold | hnew
    · exact h.pending o hold
    · rw [List.mem_singleton.1 hnew]
      exact h.called ⟨op,.adding⟩ List.mem_cons_self
  called := h.called_move
  grouped := h.grouped_move (by simp [BatchStage.rest])
  held := h.held
  holder v hv hholds := by
    rcases List.mem_cons.1 hv with rfl | hv
    · cases hholds
    · obtain ⟨hgrouped,hhand,hnodup,hbegun⟩ := h.holder v (List.mem_cons_of_mem _ hv) hholds
      refine ⟨?_,?_,hnodup,hbegun⟩
      · intro es hes
        rw [ofObject_append]
        exact ⟨(hgrouped es hes).sublist.trans (List.sublist_append_left _ _),
          fun hcalm => absurd hes (hclear hcalm v hv es)⟩
      · rw [appended_add,ofObject_append,ofObject_append,← List.append_assoc,← List.append_assoc]
        rw [← List.append_assoc] at hhand
        exact hhand.append _
  free hfree := by
    rw [appended_add,ofObject_append,ofObject_append,← List.append_assoc]
    exact (h.free hfree).append _
  content hlegal hopened := by
    refine h.content hlegal ?_
    intro v hv
    rcases List.mem_cons.1 hv with rfl | hv
    · exact not_false
    · exact hopened v (List.mem_cons_of_mem _ hv)

variable {trace' : List (Program.Event JournalRequest.Resp)}

lemma lock (h : journal.Batched objs gh file calm (⟨op,.locking⟩::others) (s,trace))
    (hfree : s.locked = false) (htrace : appended trace' = appended trace) :
    journal.Batched objs gh file calm (⟨op,.grouping⟩::others) ({ s with locked := true },trace') where
  pending := h.pending
  called := h.called_move
  grouped := h.grouped_move (by simp [BatchStage.rest])
  held := by
    have hheld := h.held
    simp only [List.countP_cons,BatchStage.holds,hfree] at hheld ⊢
    simpa using hheld
  holder v hv hholds := by
    rcases List.mem_cons.1 hv with rfl | hv
    · refine ⟨nofun,?_,.nil,nofun⟩
      rw [htrace]
      exact h.free hfree
    · have hheld := h.held
      rw [hfree,if_neg Bool.false_ne_true] at hheld
      exact absurd hholds (List.countP_eq_zero.1 hheld v (List.mem_cons_of_mem _ hv))
  free hlocked := Bool.noConfusion hlocked
  content hlegal hopened := by
    refine h.content hlegal ?_
    intro v hv
    rcases List.mem_cons.1 hv with rfl | hv
    · exact not_false
    · exact hopened v (List.mem_cons_of_mem _ hv)

/-- The file of an object, while the call with the lock has not opened it. -/
lemma file_eq (h : journal.Batched objs gh file calm (⟨op,stage⟩::others) (s,trace))
    (hv : stage.holds = true) (hopened : ¬journal.Opened gh stage)
    (hlegal : Legal file (journal.included s gh)) :
    s.files (journal.path gh) = edited file (journal.included s gh) := by
  refine h.content hlegal ?_
  intro v hm
  rcases List.mem_cons.1 hm with rfl | hm
  · exact hopened
  · exact not_opened ((h.alone hv).2 v hm)

lemma group (hobjs : JournalObjects objs) (hgh : gh ∈ objs)
    (h : journal.Batched objs gh file calm (⟨op,.grouping⟩::others) (s,trace))
    (htrace : appended trace' = appended trace) : journal.Batched objs gh file calm
      (⟨op,.clearing (journal.groupOperations s.files s.wOpes).entries⟩::others) (s,trace') := by
  have hhand := (h.holder _ List.mem_cons_self rfl).hand
  refine h.move rfl rfl (h.alone rfl).1 h.pending (mem_objs_of_group h.pending)
    ⟨?_,?_,nodup_groupOperations hobjs h.pending,?_⟩ ?_
  · rintro es hes
    cases hes
    rw [ofGroups_groupOperations hobjs hgh h.pending]
    exact .refl _
  · rw [htrace]
    exact hhand
  · intro e he hpath hlegal
    obtain ⟨hne,heq⟩ := group_eq hobjs hgh h.pending he hpath
    refine ⟨_,hne,?_⟩
    rw [heq,readFile,h.file_eq rfl not_false hlegal]
  · intro hlegal _
    exact h.file_eq rfl not_false hlegal

lemma clear {es : List (GHObject × List Operation)}
    (h : journal.Batched objs gh file calm (⟨op,.clearing es⟩::others) (s,trace))
    (htrace : appended trace' = appended trace) : journal.Batched objs gh file calm
      (⟨op,.writing es false⟩::others) ({ s with wOpes := [] },trace') := by
  obtain ⟨hgrouped,hhand,hnodup,hbegun⟩ := h.holder _ List.mem_cons_self rfl
  refine h.move rfl rfl (h.alone rfl).1 (by simp) (h.grouped _ List.mem_cons_self)
    ⟨nofun,?_,hnodup,hbegun⟩ ?_
  · rw [htrace]
    refine hhand.tail ?_
    change Part calm (journal.ofGroups gh es ++ []) (ofObject gh s.wOpes)
    rw [List.append_nil]
    exact hgrouped es rfl
  · intro hlegal _
    exact h.file_eq rfl not_false hlegal

/-- An open file is empty, but what was in it is in the group. -/
lemma openFile {e : GHObject × List Operation} {es : List (GHObject × List Operation)}
    (h : journal.Batched objs gh file calm (⟨op,.writing (e::es) false⟩::others) (s,trace))
    (htrace : appended trace' = appended trace) : journal.Batched objs gh file calm
      (⟨op,.writing (e::es) true⟩::others)
      ({ s with files := Function.update s.files (journal.path e.1) (some []) },trace') := by
  obtain ⟨-,hhand,hnodup,hbegun⟩ := h.holder _ List.mem_cons_self rfl
  refine h.move rfl rfl (h.alone rfl).1 h.pending (h.grouped _ List.mem_cons_self)
    ⟨nofun,?_,hnodup,hbegun⟩ ?_
  · rw [htrace]
    exact hhand
  · intro hlegal hopened
    exact (Function.update_of_ne (Ne.symm hopened) _ _).trans (h.file_eq rfl not_false hlegal)

/-- A content that is written is the file with the operations of the group. -/
lemma write {e : GHObject × List Operation} {es : List (GHObject × List Operation)} {content : Bytes}
    (h : journal.Batched objs gh file calm (⟨op,.writing (e::es) true⟩::others) (s,trace))
    (hcombined : combined e.2 = some content) (htrace : appended trace' = appended trace) :
    journal.Batched objs gh file calm (⟨op,.writing es false⟩::others)
      (s.write (journal.path e.1) content e.2.tail,trace') := by
  obtain ⟨-,hhand,hnodup,hbegun⟩ := h.holder _ List.mem_cons_self rfl
  obtain ⟨he,hnodup⟩ := List.nodup_cons.1 hnodup
  have hgrouped : ∀ d ∈ es, d.1 ∈ objs :=
    fun d hd => h.grouped _ List.mem_cons_self d (List.mem_cons_of_mem _ hd)
  by_cases hpath : journal.path e.1 = journal.path gh
  · have hincluded : journal.included (s.write (journal.path e.1) content e.2.tail) gh =
        journal.included s gh ++ e.2.tail := included_write_self hpath
    refine h.move rfl rfl (h.alone rfl).1 h.pending hgrouped ⟨nofun,?_,hnodup,?_⟩ ?_
    · rw [htrace,hincluded,List.append_assoc,← List.append_assoc e.2.tail]
      have hgroups : journal.ofGroups gh (e::es) = _ := ofGroups_cons_self hpath
      rw [BatchStage.inHand,hgroups] at hhand
      exact hhand
    · intro d hd heq
      exact absurd (List.mem_map.2 ⟨d,hd,heq.trans hpath.symm⟩) he
    · intro hlegal _
      rw [hincluded] at hlegal ⊢
      obtain ⟨hbefore,hnew⟩ := legal_append hlegal
      obtain ⟨opes,hne,heq⟩ := hbegun e List.mem_cons_self hpath hbefore
      rw [heq] at hcombined hnew ⊢
      have hedited : edited (edited file (journal.included s gh)) opes = some content := by
        rw [combined_eq hnew hcombined]
        exact if_neg hne
      rw [List.tail_cons,edited_append,hedited,← hpath]
      exact s.write_files_self _ _ _
  · have hincluded : journal.included (s.write (journal.path e.1) content e.2.tail) gh =
        journal.included s gh := included_write_ne hpath
    refine h.move rfl rfl (h.alone rfl).1 h.pending hgrouped ⟨nofun,?_,hnodup,?_⟩ ?_
    · rw [htrace,hincluded]
      have hgroups : journal.ofGroups gh (e::es) = _ := ofGroups_cons_ne hpath
      rw [BatchStage.inHand,hgroups] at hhand
      exact hhand
    · rw [hincluded]
      exact fun d hd => hbegun d (List.mem_cons_of_mem _ hd)
    · intro hlegal _
      rw [hincluded] at hlegal ⊢
      exact (s.write_files_ne _ _ _ (Ne.symm hpath)).trans (h.file_eq rfl hpath hlegal)

lemma unlock (h : journal.Batched objs gh file calm (⟨op,.writing [] false⟩::others) (s,trace))
    (htrace : appended trace' = appended trace) : journal.Batched objs gh file calm
      (⟨op,.returned⟩::others) ({ s with locked := false },trace') where
  pending := h.pending
  called := h.called_move
  grouped := h.grouped_move (by simp [BatchStage.rest])
  held := by
    have hheld := h.held
    rw [(h.alone rfl).1] at hheld
    simp only [List.countP_cons,BatchStage.holds] at hheld ⊢
    simpa using hheld
  holder v hv hholds := by
    rcases List.mem_cons.1 hv with rfl | hv
    · cases hholds
    · rw [(h.alone rfl).2 v hv] at hholds
      cases hholds
  free _ := by
    have hhand := (h.holder _ List.mem_cons_self rfl).hand
    rw [htrace]
    exact hhand
  content hlegal _ := h.file_eq rfl not_false hlegal

end steps
end Batched

section run
variable {journal} {objs : Set GHObject} {gh : GHObject} {file : Option Bytes} {calm : Prop}
  {may : JournalTask Operation → List (JournalTask Operation) → Prop}

/-- A call that has grouped clears next. -/
lemma clears_of_batch {p : JournalTask Operation} {v : BatchView}
    (h : Follows journal.batchProtocol p v BatchReturned) {es : List (GHObject × List Operation)}
    (hv : v.stage = .clearing es) : clears p = true := by
  cases p with
  | done a =>
    obtain rfl : v = ⟨a,.returned⟩ := h
    cases hv
  | call r rest =>
    have hallowed : journal.batchAllowed v r := h.1
    cases r with
    | clear => rfl
    | _ => simp only [batchAllowed,hv] at hallowed

/-- One request of one call, beside any others. -/
theorem Batched.step (hobjs : JournalObjects objs) (hgh : gh ∈ objs)
    (hcalm : calm → ∀ p others, may p others → NoAppendBeforeClear p others)
    {others : Seen JournalRequest.Resp Operation BatchView} {v : BatchView} {r : JournalRequest}
    {s s' : JournalState × List (Program.Event JournalRequest.Resp)} {answer : r.Resp}
    (hstep : SeenStep journal.batchProtocol (recorded journal.handle) may BatchReturned others v r s
      s' answer) (h : journal.Batched objs gh file calm (v::others.views) s) :
    journal.Batched objs gh file calm (journal.batchProtocol.next v r answer::others.views) s' := by
  obtain ⟨hfollow,hallowed,⟨rest,hmay⟩,hop⟩ := hstep
  obtain ⟨s,trace⟩ := s
  obtain ⟨s',trace'⟩ := s'
  obtain ⟨op,stage⟩ := v
  obtain ⟨hop,rfl⟩ := recorded_eq_some hop
  dsimp only at hop
  -- One case for each request the protocol allows at each stage.
  cases stage with
  | adding =>
    cases r with
    | add opes =>
      obtain rfl : opes = [op] := hallowed
      cases hop
      refine h.add ?_ _
      intro hc u hu es hclearing
      obtain ⟨t,ht,rfl⟩ := List.mem_map.1 hu
      have hfalse := hcalm hc _ _ hmay rfl t.1 (List.mem_map_of_mem ht)
      rw [clears_of_batch (hfollow t ht) hclearing] at hfalse
      cases hfalse
    | _ => exact hallowed.elim
  | locking =>
    cases r with
    | lock =>
      cases hlocked : s.locked with
      | true => simp [handle,hlocked] at hop
      | false =>
        simp only [handle,hlocked,Bool.false_eq_true,if_false,Option.some.injEq,
          Prod.mk.injEq] at hop
        obtain ⟨-,rfl⟩ := hop
        exact h.lock hlocked (appended_other trace (by simp))
    | _ => exact hallowed.elim
  | grouping =>
    cases r with
    | group =>
      cases hop
      exact h.group hobjs hgh (appended_other trace (by simp))
    | _ => exact hallowed.elim
  | clearing es =>
    cases r with
    | clear =>
      cases hop
      exact h.clear (appended_other trace (by simp))
    | _ => exact hallowed.elim
  | writing es opened =>
    cases es with
    | nil =>
      cases opened with
      | true => exact (show False by cases r <;> exact hallowed).elim
      | false =>
        cases r with
        | unlock =>
          cases hop
          exact h.unlock (appended_other trace (by simp))
        | _ => exact hallowed.elim
    | cons e es =>
      cases opened with
      | true =>
        cases r with
        | writeContent path content opes =>
          obtain ⟨rfl,hcombined,rfl⟩ := hallowed
          cases hop
          exact h.write hcombined (appended_other trace (by simp))
        | _ => exact hallowed.elim
      | false =>
        cases r with
        | openFile path =>
          obtain ⟨rfl,-⟩ := hallowed
          cases hop
          exact h.openFile (appended_other trace (by simp))
        | outOfRange => cases hop
        | _ => exact hallowed.elim
  | returned => exact (show False by cases r <;> exact hallowed).elim

/-- Every run of calls keeps this of each object. -/
theorem Batched.of_run (hobjs : JournalObjects objs)
    (hcalm : calm → ∀ p others, may p others → NoAppendBeforeClear p others)
    {ops : List Operation} (huse : ∀ op ∈ ops, op.obj ∈ objs) {files : Bytes → Option Bytes}
    {ps : List (JournalTask Operation)} {s : JournalState}
    {trace : List (Program.Event JournalRequest.Resp)}
    (hrun : PoolRun (recorded journal.handle) may (ops.map journal.call) ({ files := files },[]) ps
      (s,trace)) :
    ∃ ts : Seen JournalRequest.Resp Operation BatchView, ts.programs = ps ∧
      (∀ t ∈ ts, Follows journal.batchProtocol t.1 t.2 BatchReturned) ∧ ∀ gh ∈ objs,
        journal.Batched objs gh (files (journal.path gh)) calm ts.views (s,trace) :=
  hrun.invariant_map
    (fun views s => ∀ gh ∈ objs, journal.Batched objs gh (files (journal.path gh)) calm views s)
    (fun hperm h gh hgh => (h gh hgh).perm hperm)
    (fun hstep h gh hgh => (h gh hgh).step hobjs hgh hcalm hstep) journal.call_batch
    (fun _ _ => .begin huse files)

/-- Without the lock no call has a file open. -/
lemma Batched.content_free {views : List BatchView} {s : JournalState}
    {trace : List (Program.Event JournalRequest.Resp)}
    (h : journal.Batched objs gh file calm views (s,trace)) (hfree : s.locked = false)
    (hlegal : Legal file (journal.included s gh)) :
    s.files (journal.path gh) = edited file (journal.included s gh) := by
  have hheld := h.held
  rw [hfree,if_neg Bool.false_ne_true] at hheld
  refine h.content hlegal ?_
  intro v hv
  exact not_opened (by simpa using List.countP_eq_zero.1 hheld v hv)

end run

/-- In every run of any number of calls, however they interleave: while no flush is going on, the
file of an object is what it was at first, edited by the operations that flushes have included, one
after another. These and the pending ones are operations that were appended for the object, each
once and in the order of their appends; where no append comes between a grouping loop and its
`clear`, they are all of those. -/
theorem concurrent_content {objs : Set GHObject} (hobjs : JournalFiles objs)
    {ops : List Operation} (huse : ∀ op ∈ ops, op.obj ∈ objs) (files : Bytes → Option Bytes)
    {may : JournalTask Operation → List (JournalTask Operation) → Prop}
    {ps : List (JournalTask Operation)} {s : JournalState}
    {trace : List (Program.Event JournalRequest.Resp)}
    (hrun : PoolRun (recorded journal.handle) may (ops.map journal.call) ({ files := files },[]) ps
      (s,trace)) {gh : GHObject} (hgh : gh ∈ objs) (hfree : s.locked = false)
    (hlegal : Legal (files (journal.path gh)) (journal.included s gh)) :
    s.files (journal.path gh) = edited (files (journal.path gh)) (journal.included s gh) ∧
      (journal.included s gh ++ ofObject gh s.wOpes).Sublist (ofObject gh (appended trace)) ∧
      ((∀ p others, may p others → NoAppendBeforeClear p others) →
        journal.included s gh ++ ofObject gh s.wOpes = ofObject gh (appended trace)) := by
  obtain ⟨ts,-,-,hinv⟩ := Batched.of_run hobjs.objects (fun hcalm => hcalm) huse hrun
  have hbatched := hinv gh hgh
  exact ⟨hbatched.content_free hfree hlegal,(hbatched.free hfree).sublist,(hbatched.free hfree).all⟩

/-- Two calls, of which the first flushes both operations. -/
theorem concurrent_content_pair : ∃ (ps : List (JournalTask Operation)) (s : JournalState)
    (trace : List (Program.Event JournalRequest.Resp)),
    PoolRun (recorded sampleJournal.handle) NoAppendBeforeClear (samplePair.map sampleJournal.call)
      ({},[]) ps (s,trace) ∧ ps.filterMap Prog.result? = samplePair ∧
      s.files (sampleJournal.path (generation 2)) =
        edited none (sampleJournal.included s (generation 2)) ∧
      sampleJournal.included s (generation 2) ++ ofObject (generation 2) s.wOpes =
        ofObject (generation 2) (appended trace) := by
  have horder : (schedule (recorded sampleJournal.handle) NoAppendBeforeClear
      [0,1,0,0,0,0,0,0,0,0,1,1,1,1] (samplePair.map sampleJournal.call) ({},[])).map (fun r =>
        (r.1.filterMap Prog.result?,r.2.1.locked,sampleJournal.included r.2.1 (generation 2))) =
      some (samplePair,false,[OperationWrapper.appendWrapper (generation 2) (lit "b")]) := by
    decide +kernel
  obtain ⟨⟨ps,s,trace⟩,hs,hresult⟩ := Option.map_eq_some_iff.1 horder
  simp only [Prod.mk.injEq] at hresult
  obtain ⟨hreturned,hfree,hincluded⟩ := hresult
  have hrun := PoolRun.of_schedule .start hs
  have huse : ∀ op ∈ samplePair, op.obj ∈ {gh | gh = generation 1 ∨ gh = generation 2} := by decide
  have hlegal : Legal none (sampleJournal.included s (generation 2)) := by
    rw [hincluded]
    exact ⟨by decide,by decide +kernel,by decide +kernel⟩
  obtain ⟨hfile,-,hall⟩ := sampleJournal.concurrent_content sampleFiles huse (fun _ => none) hrun
    (.inr rfl) hfree hlegal
  exact ⟨ps,s,trace,hrun,hreturned,hfile,hall (fun _ _ h => h)⟩

end Journal
end GDFileStore
