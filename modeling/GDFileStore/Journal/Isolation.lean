import GDFileStore.Journal.Content

/-! Two runs of the journal that differ by the operations on one object, as they look to another
object. The comparison that groups a batch and the file that a unique string names both have to agree
with `operator==` for that. -/
namespace GDFileStore
open Sequences Program Prog Operation

namespace GHObject

lemma equal_iff {a b : GHObject} : a.equal b = true ↔ a.hobj.oid.name = b.hobj.oid.name ∧
    a.generation = b.generation ∧ a.shardId = b.shardId ∧ a.owner = b.owner := by
  simp [equal,and_assoc]

lemma equal_of_equal {a b c : GHObject} (ha : c.equal a = true) (hb : c.equal b = true) :
    a.equal b = true := by
  obtain ⟨hname,hgeneration,hshard,howner⟩ := equal_iff.1 ha
  obtain ⟨hname',hgeneration',hshard',howner'⟩ := equal_iff.1 hb
  exact equal_iff.2 ⟨hname.symm.trans hname',hgeneration.symm.trans hgeneration',
    hshard.symm.trans hshard',howner.symm.trans howner'⟩

/-- The names of two objects are plain, and the comparison and the files tell the objects apart
exactly when `operator==` does. -/
structure OneIdentity (a b : GHObject) : Prop where
  plain : a.PlainNames ∧ b.PlainNames
  order : SameKey lt a b ↔ a.equal b = true
  files : SameFile a b ↔ a.equal b = true

lemma OneIdentity.strings {a b : GHObject} (h : OneIdentity a b) :
    getObjUniqueStrDesc a = getObjUniqueStrDesc b ↔ a.equal b = true :=
  (sameFile_iff h.plain.1 h.plain.2).symm.trans h.files

end GHObject

namespace Journal
variable {journal : Journal} {s t : JournalState} {gh : GHObject}

lemma onObject_removed {a b : GHObject} (hne : a.equal b = false) {ops : List Operation}
    (hidentity : ∀ op ∈ ops, GHObject.OneIdentity op.obj b) :
    onObject (ops.filter (fun op => ¬op.obj.equal a)) b = onObject ops b := by
  rw [onObject,onObject,List.filter_filter]
  apply List.filter_congr
  intro op hop
  by_cases hsame : SameKey GHObject.lt op.obj b
  · have hkept : op.obj.equal a = false := by
      by_contra htrue
      have heq := GHObject.equal_of_equal (by simpa using htrue) ((hidentity op hop).order.1 hsame)
      simp [heq] at hne
    simp [hsame,hkept]
  · simp [hsame]

/-- Where the three notions of identity agree about an object of plain names, its content after a flush
is the same without the operations on any other object. -/
theorem content_isolated (journal : Journal) {a b : GHObject} (hne : a.equal b = false)
    (files : Bytes → Option Bytes) {calls calls' : List JournalCall}
    (hremoved : JournalCall.operations calls' =
      (JournalCall.operations calls).filter (fun op => ¬op.obj.equal a))
    (hlast : JournalCall.EndFlushed calls) (hlast' : JournalCall.EndFlushed calls')
    (hlegal : Legal (files (journal.path b))
      ((JournalCall.operations calls).filter (fun op => op.obj.equal b)))
    (hidentity : ∀ op ∈ JournalCall.operations calls, GHObject.OneIdentity op.obj b)
    {t t' : JournalState}
    (hrun : run journal.handle (journal.handleAll calls) { files := files } = some ((),t))
    (hrun' : run journal.handle (journal.handleAll calls') { files := files } = some ((),t')) :
    t.files (journal.path b) = t'.files (journal.path b) := by
  have hrecognized : Recognized b (JournalCall.operations calls) :=
    fun op hop => (hidentity op hop).order.trans (hidentity op hop).strings.symm
  have hown : (JournalCall.operations calls).filter (fun op => op.obj.equal b) =
      onObject (JournalCall.operations calls) b := by
    apply List.filter_congr
    intro op hop
    apply Bool.eq_iff_iff.2
    rw [decide_eq_true_iff]
    exact (hidentity op hop).order.symm
  have hsame := onObject_removed hne hidentity
  rw [← hremoved] at hsame
  rw [hown] at hlegal
  have hrecognized' : Recognized b (JournalCall.operations calls') := by
    intro op hop
    rw [hremoved] at hop
    exact hrecognized op (List.mem_of_mem_filter hop)
  rw [handleAll_file hrecognized hlegal hlast hrun,
    handleAll_file hrecognized' (by rwa [hsame]) hlast' hrun',hsame]

/-- One object with the operations on the other, and alone. -/
theorem content_isolated_two :
    ∃ t t', run sampleJournal.handle (sampleJournal.handleAll sampleCalls) {} = some ((),t) ∧
      run sampleJournal.handle (sampleJournal.handleAll
        [.many [OperationWrapper.writeWrapper (generation 2) (lit "xy"),
          OperationWrapper.insertWrapper (generation 2) (lit "z") 1] true]) {} = some ((),t') ∧
      t.files (sampleJournal.path (generation 2)) =
        t'.files (sampleJournal.path (generation 2)) := by
  have hrun : (run sampleJournal.handle (sampleJournal.handleAll sampleCalls) {}).isSome := by
    decide +kernel
  have hrun' : (run sampleJournal.handle (sampleJournal.handleAll
      [.many [OperationWrapper.writeWrapper (generation 2) (lit "xy"),
        OperationWrapper.insertWrapper (generation 2) (lit "z") 1] true]) {}).isSome := by
    decide +kernel
  obtain ⟨⟨_,t⟩,ht⟩ := Option.isSome_iff_exists.1 hrun
  obtain ⟨⟨_,t'⟩,ht'⟩ := Option.isSome_iff_exists.1 hrun'
  refine ⟨t,t',ht,ht',content_isolated sampleJournal (a := generation 1) (by decide) (fun _ => none)
    (by decide +kernel) (by decide) (by decide) ?_ ?_ ht ht'⟩
  · exact ⟨by decide,by decide +kernel,by decide +kernel⟩
  · have hall : ∀ op ∈ JournalCall.operations sampleCalls,
        (op.obj.PlainNames ∧ (generation 2).PlainNames) ∧
          (SameKey GHObject.lt op.obj (generation 2) ↔ op.obj.equal (generation 2) = true) ∧
          (SameFile op.obj (generation 2) ↔ op.obj.equal (generation 2) = true) := by
      decide +kernel
    exact fun op hop => ⟨(hall op hop).1,(hall op hop).2.1,(hall op hop).2.2⟩

/-- The objects of two owners, of one name and generation. -/
def aliceObject : GHObject := { owner := lit "alice" }

def bobObject : GHObject := { owner := lit "bob" }

/-- Of two objects in one batch that the comparison does not tell apart, the operations on the
second are written into the file of the first. -/
theorem content_not_isolated :
    ∃ (calls calls' : List JournalCall) (t t' : JournalState), aliceObject.equal bobObject = false ∧
      JournalCall.operations calls' =
        (JournalCall.operations calls).filter (fun op => ¬op.obj.equal aliceObject) ∧
      JournalCall.EndFlushed calls ∧ JournalCall.EndFlushed calls' ∧
      (∀ op ∈ JournalCall.operations calls,
        Legal none ((JournalCall.operations calls).filter (fun o => o.obj.equal op.obj))) ∧
      run sampleJournal.handle (sampleJournal.handleAll calls) {} = some ((),t) ∧
      run sampleJournal.handle (sampleJournal.handleAll calls') {} = some ((),t') ∧
      t.files (sampleJournal.path bobObject) = none ∧
      t'.files (sampleJournal.path bobObject) = some (lit "b") := by
  let onAlice := OperationWrapper.appendWrapper aliceObject (lit "a")
  let onBob := OperationWrapper.appendWrapper bobObject (lit "b")
  have hrun : (run sampleJournal.handle (sampleJournal.handleAll [.many [onAlice,onBob] true]) {}).map
      (fun r => r.2.files (sampleJournal.path bobObject)) = some none := by decide +kernel
  have hrun' : (run sampleJournal.handle (sampleJournal.handleAll [.many [onBob] true]) {}).map
      (fun r => r.2.files (sampleJournal.path bobObject)) = some (some (lit "b")) := by
    decide +kernel
  obtain ⟨⟨_,t⟩,ht,hfile⟩ := Option.map_eq_some_iff.1 hrun
  obtain ⟨⟨_,t'⟩,ht',hfile'⟩ := Option.map_eq_some_iff.1 hrun'
  refine ⟨_,_,t,t',by decide,by decide +kernel,by decide,by decide,?_,ht,ht',hfile,hfile'⟩
  intro op hop
  rcases List.mem_cons.1 hop with rfl | hop
  · exact ⟨by decide,by decide +kernel,by decide +kernel⟩
  · obtain rfl := List.mem_singleton.1 hop
    exact ⟨by decide,by decide +kernel,by decide +kernel⟩

end Journal
end GDFileStore
