import GDFileStore.Journal.FileNames
import GDFileStore.Journal.Groups

/-! What the journal holds of an object, its file and the pending operations taken together: a call
edits that by the object's own operations, and a flush moves it into the file. -/
namespace GDFileStore
open Sequences Program Prog Operation

namespace JournalState

/-- The state after a file has been rewritten. -/
def write (s : JournalState) (path content : Bytes) (opes : List Operation) : JournalState :=
  { s with
    files := Function.update s.files path (some content)
    flushed := s.flushed ++ [⟨path,content,opes⟩] }

section write
variable (s : JournalState) (path content : Bytes) (opes : List Operation)

@[simp] lemma write_wOpes : (s.write path content opes).wOpes = s.wOpes := rfl
@[simp] lemma write_locked : (s.write path content opes).locked = s.locked := rfl

@[simp] lemma write_files_self : (s.write path content opes).files path = some content :=
  Function.update_self _ _ _

lemma write_files_ne {path' : Bytes} (h : path' ≠ path) :
    (s.write path content opes).files path' = s.files path' := Function.update_of_ne h _ _

end write
end JournalState

/-- The comparison and the unique string agree on which of the operations are on an object. -/
def Recognized (gh : GHObject) (ops : List Operation) : Prop :=
  ∀ op ∈ ops, SameKey GHObject.lt op.obj gh ↔ getObjUniqueStrDesc op.obj = getObjUniqueStrDesc gh

/-- Objects that differ in name or generation, and in their unique strings. -/
def JournalObjects (objs : Set GHObject) : Prop :=
  ∀ a ∈ objs, ∀ b ∈ objs, a ≠ b →
    (a.hobj.oid.name ≠ b.hobj.oid.name ∨ a.generation ≠ b.generation) ∧
      getObjUniqueStrDesc a ≠ getObjUniqueStrDesc b

/-- Objects of plain names that differ in name or generation, and have different files. -/
def JournalFiles (objs : Set GHObject) : Prop :=
  ∀ a ∈ objs, a.PlainNames ∧ ∀ b ∈ objs, a ≠ b →
    (a.hobj.oid.name ≠ b.hobj.oid.name ∨ a.generation ≠ b.generation) ∧ ¬SameFile a b

lemma JournalFiles.objects {objs : Set GHObject} (h : JournalFiles objs) : JournalObjects objs := by
  intro a ha b hb hne
  obtain ⟨hdiffer,hfiles⟩ := (h a ha).2 b hb hne
  exact ⟨hdiffer,fun hstrings => hfiles ((sameFile_iff (h a ha).1 (h b hb).1).2 hstrings)⟩

lemma JournalObjects.sameKey_iff {objs : Set GHObject} (h : JournalObjects objs) {a b : GHObject}
    (ha : a ∈ objs) (hb : b ∈ objs) : SameKey GHObject.lt a b ↔ a = b := by
  constructor
  · intro hsame
    by_contra hne
    exact GHObject.not_sameKey (h a ha b hb hne).1 hsame
  · rintro rfl
    exact .refl a

lemma JournalObjects.recognized {objs : Set GHObject} (h : JournalObjects objs) {gh : GHObject}
    (hgh : gh ∈ objs) {ops : List Operation} (hops : ∀ op ∈ ops, op.obj ∈ objs) :
    Recognized gh ops := by
  intro op hop
  rw [h.sameKey_iff (hops op hop) hgh]
  constructor
  · rintro rfl
    rfl
  · intro hstr
    by_contra hne
    exact (h _ (hops op hop) gh hgh hne).2 hstr

lemma JournalObjects.onObject_eq {objs : Set GHObject} (h : JournalObjects objs) {gh : GHObject}
    (hgh : gh ∈ objs) {ops : List Operation} (hops : ∀ op ∈ ops, op.obj ∈ objs) :
    onObject ops gh = ops.filter (fun op => op.obj = gh) := by
  apply List.filter_congr
  intro op hop
  exact decide_eq_decide.2 (h.sameKey_iff (hops op hop) hgh)

namespace Journal
variable (journal : Journal) {s t : JournalState} {gh : GHObject}

section Flush

lemma run_flushObject (obj : GHObject) (v : List Operation) (s : JournalState) :
    run journal.handle (journal.flushObject obj v) s =
      (combined v).map (fun content => ((),s.write (journal.path obj) content v.tail)) := by
  cases h : combined v with
  | none => simp [flushObject,h,run,handle]
  | some content =>
    simp [flushObject,h,writeFile,run,handle,JournalState.write,Function.update_idem]

lemma run_flushObjects_cons {e : GHObject × List Operation}
    {es : List (GHObject × List Operation)}
    (h : run journal.handle (journal.flushObjects (e::es)) s = some ((),t)) :
    ∃ content, combined e.2 = some content ∧ run journal.handle (journal.flushObjects es)
      (s.write (journal.path e.1) content e.2.tail) = some ((),t) := by
  rw [flushObjects,run_bind,run_flushObject] at h
  cases hcombined : combined e.2 with
  | none => simp [hcombined] at h
  | some content => exact ⟨content,rfl,by simpa [hcombined] using h⟩

/-- After the loop a file is that of no group and as it was, or it holds the combined content of a
group. -/
theorem flushObjects_files {es : List (GHObject × List Operation)}
    (h : run journal.handle (journal.flushObjects es) s = some ((),t)) (path : Bytes) :
    ((∀ e ∈ es, journal.path e.1 ≠ path) ∧ t.files path = s.files path) ∨
      ∃ e ∈ es, journal.path e.1 = path ∧ (combined e.2).isSome ∧ t.files path = combined e.2 := by
  induction es generalizing s with
  | nil =>
    cases h
    exact .inl ⟨nofun,rfl⟩
  | cons d es ih =>
    obtain ⟨content,hcombined,hrest⟩ := journal.run_flushObjects_cons h
    rcases ih hrest with ⟨hother,hfile⟩ | ⟨e,he,hpath,hsome⟩
    · by_cases hd : journal.path d.1 = path
      · subst hd
        refine .inr ⟨d,List.mem_cons_self,rfl,by simp [hcombined],?_⟩
        rw [hfile,JournalState.write_files_self,hcombined]
      · refine .inl ⟨?_,?_⟩
        · intro e he
          rcases List.mem_cons.1 he with rfl | he
          · exact hd
          · exact hother e he
        · rw [hfile,JournalState.write_files_ne _ _ _ _ (Ne.symm hd)]
    · exact .inr ⟨e,List.mem_cons_of_mem _ he,hpath,hsome⟩

lemma flushObjects_memory {es : List (GHObject × List Operation)}
    (h : run journal.handle (journal.flushObjects es) s = some ((),t)) :
    t.wOpes = s.wOpes ∧ t.locked = s.locked := by
  induction es generalizing s with
  | nil =>
    cases h
    exact ⟨rfl,rfl⟩
  | cons d es ih =>
    obtain ⟨content,-,hrest⟩ := journal.run_flushObjects_cons h
    simpa using ih hrest

/-- A flush is the loop over the groups, under the lock and with nothing pending any more. -/
lemma run_flushProcessor (h : run journal.handle journal.flushProcessor s = some ((),t)) :
    ∃ u, run journal.handle (journal.flushObjects (journal.groupOperations s.files s.wOpes).entries)
      { s with locked := true, wOpes := [] } = some ((),u) ∧ t = { u with locked := false } := by
  cases hlocked : s.locked with
  | true => simp [flushProcessor,run,handle,hlocked] at h
  | false =>
    simp only [flushProcessor,ask_eq,call_bind,done_bind,run,handle,hlocked,Bool.false_eq_true,
      if_false,Option.bind_some,run_bind] at h
    obtain ⟨⟨_,u⟩,hloop,hunlock⟩ := Option.bind_eq_some_iff.1 h
    exact ⟨u,hloop,by simpa using hunlock.symm⟩

lemma flushProcessor_memory (h : run journal.handle journal.flushProcessor s = some ((),t)) :
    t.wOpes = [] ∧ t.locked = false := by
  obtain ⟨u,hloop,rfl⟩ := journal.run_flushProcessor h
  exact ⟨(journal.flushObjects_memory hloop).1,rfl⟩

/-- The loop ends, unless a group makes an access out of range. -/
lemma flushObjects_ends (es : List (GHObject × List Operation)) (s : JournalState) :
    Ends journal.handle (· = .outOfRange) (journal.flushObjects es) s := by
  induction es generalizing s with
  | nil => trivial
  | cons e es ih =>
    refine Ends.bind ?_ (fun _ u _ => ih u)
    cases h : combined e.2 with
    | none => simp [flushObject,h,Ends]
    | some content => simp [flushObject,h,writeFile,Ends,handle]

lemma flushProcessor_ends (hs : s.locked = false) :
    Ends journal.handle (· = .outOfRange) journal.flushProcessor s := by
  simp only [flushProcessor,ask_eq,call_bind,done_bind]
  refine .inr ⟨(),{ s with locked := true },by simp [handle,hs],.inr ⟨_,_,rfl,.inr ⟨(),_,rfl,?_⟩⟩⟩
  exact (journal.flushObjects_ends _ _).bind (fun _ u _ => .inr ⟨(),_,rfl,trivial⟩)

end Flush

/-- What the file of an object holds once its pending operations are flushed. -/
def held (s : JournalState) (gh : GHObject) : Option Bytes :=
  edited (s.files (journal.path gh)) (onObject s.wOpes gh)

/-- The journal tells the object apart from others among the pending operations and those still to
come, and its own ones are legal for its file. -/
structure Sound (s : JournalState) (gh : GHObject) (coming : List Operation) : Prop where
  recognized : Recognized gh (s.wOpes ++ coming)
  legal : Legal (s.files (journal.path gh)) (onObject (s.wOpes ++ coming) gh)

variable {journal}

lemma held_of_nil (h : t.wOpes = []) : journal.held t gh = t.files (journal.path gh) := by
  rw [held,h]
  rfl

lemma held_add (opes : List Operation) :
    journal.held { s with wOpes := s.wOpes ++ opes } gh =
      edited (journal.held s gh) (onObject opes gh) := by
  rw [held,held,onObject_append,edited_append]

lemma Sound.add {opes coming : List Operation} (h : journal.Sound s gh (opes ++ coming)) :
    journal.Sound { s with wOpes := s.wOpes ++ opes } gh coming := by
  constructor
  · rw [List.append_assoc]
    exact h.recognized
  · rw [List.append_assoc]
    exact h.legal

/-- The combined content of the group that goes to the file of a recognized object. -/
lemma combined_entry {files : Bytes → Option Bytes} {wOpes : List Operation}
    (hrecognized : Recognized gh wOpes)
    (hlegal : Legal (files (journal.path gh)) (onObject wOpes gh))
    {e : GHObject × List Operation} (he : e ∈ (journal.groupOperations files wOpes).entries)
    (hpath : journal.path e.1 = journal.path gh) (hsome : (combined e.2).isSome) :
    combined e.2 = edited (files (journal.path gh)) (onObject wOpes gh) := by
  obtain ⟨o,os,hops,rfl⟩ := journal.mem_groupOperations he
  have ho : o ∈ onObject wOpes o.obj := hops ▸ List.mem_cons_self
  have hsame : SameKey GHObject.lt o.obj gh :=
    (hrecognized o (mem_onObject.1 ho).1).2 (journal.path_eq_iff.1 hpath)
  rw [onObject_congr hsame] at hops
  obtain ⟨content,hcontent⟩ := Option.isSome_iff_exists.1 hsome
  rw [hops] at hlegal ⊢
  have hread : readFile files (journal.path o.obj) = (files (journal.path gh)).getD [] :=
    congrArg (readFile files) hpath
  rw [hcontent,edited,if_neg (List.cons_ne_nil _ _)]
  rw [hread] at hcontent
  rw [combined_eq hlegal hcontent]

/-- A recognized object with an operation has a group that goes to its file. -/
lemma exists_entry {files : Bytes → Option Bytes} {wOpes : List Operation}
    (hrecognized : Recognized gh wOpes) (h : onObject wOpes gh ≠ []) :
    ∃ e ∈ (journal.groupOperations files wOpes).entries, journal.path e.1 = journal.path gh := by
  have hentry := journal.entry_groupOperations files wOpes gh
  cases hops : onObject wOpes gh with
  | nil => exact absurd hops h
  | cons o os =>
    rw [hops] at hentry
    obtain ⟨ho,hsame⟩ := mem_onObject.1 (hops ▸ List.mem_cons_self : o ∈ onObject wOpes gh)
    exact ⟨_,(OrderedMap.entry_eq_some_iff.1 hentry).1,
      journal.path_eq_iff.2 ((hrecognized o ho).1 hsame)⟩

/-- A flush writes what the journal held of the object. -/
theorem flushProcessor_held {coming : List Operation} (hsound : journal.Sound s gh coming)
    (h : run journal.handle journal.flushProcessor s = some ((),t)) :
    t.files (journal.path gh) = journal.held s gh := by
  obtain ⟨u,hloop,rfl⟩ := journal.run_flushProcessor h
  have hlegal := hsound.legal
  rw [onObject_append] at hlegal
  have hown := (legal_append hlegal).1
  have hrecognized : Recognized gh s.wOpes :=
    fun op hop => hsound.recognized op (List.mem_append_left _ hop)
  rcases journal.flushObjects_files hloop (journal.path gh) with ⟨hother,hfile⟩ |
    ⟨e,he,hpath,hsome,hfile⟩
  · -- Without a group on this file there is no operation on the object.
    have hnone : onObject s.wOpes gh = [] := by
      by_contra hne
      obtain ⟨e,he,hpath⟩ := exists_entry hrecognized hne
      exact hother e he hpath
    rw [held,hnone]
    exact hfile
  · rw [hfile,held,combined_entry hrecognized hown he hpath hsome]

lemma Sound.flush {coming : List Operation} (hsound : journal.Sound s gh coming)
    (h : run journal.handle journal.flushProcessor s = some ((),t)) : journal.Sound t gh coming := by
  have hfile := flushProcessor_held hsound h
  obtain ⟨hwOpes,-⟩ := journal.flushProcessor_memory h
  have hlegal := hsound.legal
  rw [onObject_append] at hlegal
  constructor
  · rw [hwOpes]
    exact fun op hop => hsound.recognized op (List.mem_append_right _ hop)
  · rw [hwOpes,hfile]
    exact (legal_append hlegal).2

lemma run_handleWriteOperation {c : JournalCall}
    (h : run journal.handle (journal.handleWriteOperation c) s = some ((),t)) :
    (c.emengency = false ∧ t = { s with wOpes := s.wOpes ++ c.opes }) ∨
      (c.emengency = true ∧
        run journal.handle journal.flushProcessor { s with wOpes := s.wOpes ++ c.opes } = some ((),t)) := by
  simp only [handleWriteOperation,addWriteOperation,ask_eq,call_bind,done_bind,run,handle,
    Option.bind_some] at h
  cases hc : c.emengency with
  | false => exact .inl ⟨rfl,by simpa [hc,run] using h.symm⟩
  | true => exact .inr ⟨rfl,by simpa [hc] using h⟩

/-- A call edits what the journal holds of the object by the object's own operations. -/
theorem handleWriteOperation_held {c : JournalCall} {coming : List Operation}
    (hsound : journal.Sound s gh (c.opes ++ coming))
    (h : run journal.handle (journal.handleWriteOperation c) s = some ((),t)) :
    journal.held t gh = edited (journal.held s gh) (onObject c.opes gh) ∧
      journal.Sound t gh coming := by
  rcases run_handleWriteOperation h with ⟨-,rfl⟩ | ⟨-,hflush⟩
  · exact ⟨held_add c.opes,hsound.add⟩
  · refine ⟨?_,hsound.add.flush hflush⟩
    rw [held_of_nil (journal.flushProcessor_memory hflush).1,flushProcessor_held hsound.add hflush,
      held_add]

lemma run_handleAll_cons {c : JournalCall} {calls : List JournalCall}
    (h : run journal.handle (journal.handleAll (c::calls)) s = some ((),t)) :
    ∃ u, run journal.handle (journal.handleWriteOperation c) s = some ((),u) ∧
      run journal.handle (journal.handleAll calls) u = some ((),t) := by
  rw [handleAll,run_bind] at h
  obtain ⟨⟨_,u⟩,hcall,hrest⟩ := Option.bind_eq_some_iff.1 h
  exact ⟨u,hcall,hrest⟩

/-- What every call keeps, a sequence of calls keeps. -/
theorem handleAll_invariant (I : JournalState → Prop)
    (hcall : ∀ {c s t}, run journal.handle (journal.handleWriteOperation c) s = some ((),t) → I s →
      I t) {calls : List JournalCall}
    (h : run journal.handle (journal.handleAll calls) s = some ((),t)) (hs : I s) : I t := by
  induction calls generalizing s with
  | nil =>
    cases h
    exact hs
  | cons c calls ih =>
    obtain ⟨u,hfirst,hrest⟩ := run_handleAll_cons h
    exact ih hrest (hcall hfirst hs)

theorem handleAll_held {calls : List JournalCall}
    (hsound : journal.Sound s gh (JournalCall.operations calls))
    (h : run journal.handle (journal.handleAll calls) s = some ((),t)) :
    journal.held t gh =
      edited (journal.held s gh) (onObject (JournalCall.operations calls) gh) := by
  induction calls generalizing s with
  | nil =>
    cases h
    rfl
  | cons c calls ih =>
    obtain ⟨u,hcall,hrest⟩ := run_handleAll_cons h
    obtain ⟨hheld,hsound'⟩ := handleWriteOperation_held hsound hcall
    have hops : JournalCall.operations (c::calls) = c.opes ++ JournalCall.operations calls := rfl
    rw [ih hsound' hrest,hheld,hops,onObject_append,edited_append]

lemma handleWriteOperation_memory {c : JournalCall} (hs : s.locked = false)
    (h : run journal.handle (journal.handleWriteOperation c) s = some ((),t)) :
    t.locked = false ∧ (c.emengency = true → t.wOpes = []) := by
  rcases run_handleWriteOperation h with ⟨hc,rfl⟩ | ⟨-,hflush⟩
  · exact ⟨hs,fun htrue => by simp [hc] at htrue⟩
  · obtain ⟨hwOpes,hlocked⟩ := journal.flushProcessor_memory hflush
    exact ⟨hlocked,fun _ => hwOpes⟩

lemma handleWriteOperation_ends (c : JournalCall) (hs : s.locked = false) :
    Ends journal.handle (· = .outOfRange) (journal.handleWriteOperation c) s := by
  simp only [handleWriteOperation,addWriteOperation,ask_eq,call_bind,done_bind]
  refine .inr ⟨(),{ s with wOpes := s.wOpes ++ c.opes },rfl,?_⟩
  split_ifs
  · exact journal.flushProcessor_ends hs
  · trivial

lemma handleAll_ends (calls : List JournalCall) (hs : s.locked = false) :
    Ends journal.handle (· = .outOfRange) (journal.handleAll calls) s := by
  induction calls generalizing s with
  | nil => trivial
  | cons c calls ih =>
    apply (handleWriteOperation_ends c hs).bind
    intro _ u hu
    exact ih (handleWriteOperation_memory hs hu).1

/-- After a last call that flushes nothing is pending. -/
lemma handleAll_flushed {calls : List JournalCall} (hlast : JournalCall.EndFlushed calls)
    (hs : s.locked = false) (h : run journal.handle (journal.handleAll calls) s = some ((),t)) :
    t.wOpes = [] := by
  induction calls generalizing s with
  | nil => simp [JournalCall.EndFlushed] at hlast
  | cons c calls ih =>
    obtain ⟨u,hcall,hrest⟩ := run_handleAll_cons h
    obtain ⟨hlocked,hflushed⟩ := handleWriteOperation_memory hs hcall
    cases calls with
    | nil =>
      cases hrest
      exact hflushed (by simpa [JournalCall.EndFlushed] using hlast)
    | cons d calls => exact ih (by simpa [JournalCall.EndFlushed] using hlast) hlocked hrest

/-- A run that ends with a flush leaves in the file of a recognized object what its own operations
make of it. -/
lemma handleAll_file {calls : List JournalCall}
    (hrecognized : Recognized gh (JournalCall.operations calls)) {files : Bytes → Option Bytes}
    (hlegal : Legal (files (journal.path gh)) (onObject (JournalCall.operations calls) gh))
    (hlast : JournalCall.EndFlushed calls)
    (hrun : run journal.handle (journal.handleAll calls) { files := files } = some ((),t)) :
    t.files (journal.path gh) =
      edited (files (journal.path gh)) (onObject (JournalCall.operations calls) gh) := by
  rw [← held_of_nil (handleAll_flushed hlast rfl hrun),handleAll_held ⟨hrecognized,hlegal⟩ hrun]
  rfl

/-- Whatever the cuts of the operations into calls: a last call that flushes leaves in the file of
each object what it had there at first, edited by the object's own operations. -/
theorem handleAll_content (journal : Journal) {objs : Set GHObject} (hobjs : JournalObjects objs)
    (files : Bytes → Option Bytes) {calls : List JournalCall}
    (huse : ∀ op ∈ JournalCall.operations calls, op.obj ∈ objs)
    (hlegal : ∀ gh ∈ objs, Legal (files (journal.path gh))
      ((JournalCall.operations calls).filter (fun op => op.obj = gh)))
    (hlast : JournalCall.EndFlushed calls)
    (hrange : ∀ rest t, ¬Steps journal.handle (journal.handleAll calls) { files := files }
      (.call .outOfRange rest) t) :
    ∃ t, run journal.handle (journal.handleAll calls) { files := files } = some ((),t) ∧
      ∀ gh ∈ objs, t.files (journal.path gh) = edited (files (journal.path gh))
        ((JournalCall.operations calls).filter (fun op => op.obj = gh)) := by
  obtain ⟨_,t,hrun⟩ := (handleAll_ends calls rfl).run_of_avoids (by
    rintro _ rest t rfl
    exact hrange rest t)
  refine ⟨t,hrun,?_⟩
  intro gh hgh
  have hown := hobjs.onObject_eq hgh huse
  rw [← hown]
  exact handleAll_file (hobjs.recognized hgh huse) (hown ▸ hlegal gh hgh) hlast hrun

/-- Two objects, edited over two flushes. -/
def sampleJournal : Journal := { storagePath := lit "/osd/Journal" }

def sampleCalls : List JournalCall :=
  [.many [OperationWrapper.appendWrapper (generation 1) (lit "abc"),
    OperationWrapper.writeWrapper (generation 2) (lit "xy")] true,
  .one (OperationWrapper.deleteWrapper (generation 1) 0 2) false,
  .one (OperationWrapper.insertWrapper (generation 2) (lit "z") 1) true]

lemma sampleFiles : JournalFiles {gh | gh = generation 1 ∨ gh = generation 2} := by
  have hplain : (generation 1).PlainNames ∧ (generation 2).PlainNames := by decide +kernel
  have hdistinct : (generation 1).generation ≠ (generation 2).generation ∧
      ¬SameFile (generation 1) (generation 2) := by decide +kernel
  rintro a (rfl | rfl)
  · refine ⟨hplain.1,?_⟩
    rintro b (rfl | rfl) hne
    · exact absurd rfl hne
    · exact ⟨.inr hdistinct.1,hdistinct.2⟩
  · refine ⟨hplain.2,?_⟩
    rintro b (rfl | rfl) hne
    · exact ⟨.inr hdistinct.1.symm,fun hfile => hdistinct.2 hfile.symm⟩
    · exact absurd rfl hne

theorem handleAll_content_two :
    ∃ t, run sampleJournal.handle (sampleJournal.handleAll sampleCalls) {} = some ((),t) ∧
      ∀ gh ∈ {gh | gh = generation 1 ∨ gh = generation 2}, t.files (sampleJournal.path gh) =
        edited none ((JournalCall.operations sampleCalls).filter (fun op => op.obj = gh)) := by
  have hrun : (run sampleJournal.handle (sampleJournal.handleAll sampleCalls) {}).isSome := by
    decide +kernel
  refine handleAll_content sampleJournal sampleFiles.objects (fun _ => none) ?_ ?_ (by decide) ?_
  · decide
  · rintro gh (rfl | rfl)
    · exact ⟨by decide,by decide +kernel,by decide +kernel⟩
    · exact ⟨by decide,by decide +kernel,by decide +kernel⟩
  · intro rest t hsteps
    rw [hsteps.run_eq] at hrun
    cases hrun

end Journal
end GDFileStore
