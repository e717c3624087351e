import GDFileStore.Journal.Content

/-! A flush cut off by a crash. Each file is rewritten in place, so at any moment at most one of them
has lost its old content and not yet got its new one. -/
namespace GDFileStore
open Sequences Program Prog Operation

namespace Journal
variable (journal : Journal)

/-- Every file is as it was, or a group goes to it whose combined content it holds; where it is the
one in `torn` it may be empty. -/
def WholeBut (torn : Option Bytes) (groups : List (GHObject × List Operation))
    (old new : Bytes → Option Bytes) : Prop :=
  ∀ path, new path = old path ∨
    ∃ e ∈ groups, journal.path e.1 = path ∧
      ((combined e.2).isSome ∧ new path = combined e.2 ∨ torn = some path ∧ new path = some [])

variable {journal} {groups : List (GHObject × List Operation)} {old : Bytes → Option Bytes}
  {s : JournalState} {new : Bytes → Option Bytes}

section steps
variable {e : GHObject × List Operation} (he : e ∈ groups)
include he

lemma WholeBut.opened (h : journal.WholeBut none groups old new) :
    journal.WholeBut (some (journal.path e.1)) groups old
      (Function.update new (journal.path e.1) (some [])) := by
  intro path
  by_cases hpath : path = journal.path e.1
  · subst hpath
    exact .inr ⟨e,he,rfl,.inr ⟨rfl,Function.update_self _ _ _⟩⟩
  · rw [Function.update_of_ne hpath]
    rcases h path with hold | ⟨d,hd,hpath',hwritten | ⟨htorn,-⟩⟩
    · exact .inl hold
    · exact .inr ⟨d,hd,hpath',.inl hwritten⟩
    · cases htorn

lemma WholeBut.written {content : Bytes}
    (hcontent : combined e.2 = some content)
    (h : journal.WholeBut (some (journal.path e.1)) groups old new) :
    journal.WholeBut none groups old
      (Function.update new (journal.path e.1) (some content)) := by
  intro path
  by_cases hpath : path = journal.path e.1
  · subst hpath
    refine .inr ⟨e,he,rfl,.inl ⟨by simp [hcontent],?_⟩⟩
    rw [Function.update_self,hcontent]
  · rw [Function.update_of_ne hpath]
    rcases h path with hold | ⟨d,hd,hpath',hwritten | ⟨htorn,-⟩⟩
    · exact .inl hold
    · exact .inr ⟨d,hd,hpath',.inl hwritten⟩
    · exact absurd (Option.some.inj htorn).symm hpath

/-- Between two groups no file is torn, and within one only its own. -/
lemma flushObject_always
    (h : journal.WholeBut none groups old s.files) :
    Always journal.handle (fun t => ∃ torn, journal.WholeBut torn groups old t.files)
      (journal.flushObject e.1 e.2) s (fun _ t => journal.WholeBut none groups old t.files) := by
  cases hcontent : combined e.2 with
  | none =>
    rw [flushObject,hcontent]
    exact .stuck ⟨none,h⟩ rfl
  | some content =>
    have hopened := WholeBut.opened he h
    have hwritten := WholeBut.written he hcontent hopened
    rw [flushObject,hcontent]
    exact .call ⟨none,h⟩ rfl (.call ⟨_,hopened⟩ rfl ⟨⟨none,hwritten⟩,hwritten⟩)

end steps

lemma flushObjects_always {es : List (GHObject × List Operation)} (hes : ∀ e ∈ es, e ∈ groups)
    (h : journal.WholeBut none groups old s.files) :
    Always journal.handle (fun t => ∃ torn, journal.WholeBut torn groups old t.files)
      (journal.flushObjects es) s (fun _ t => journal.WholeBut none groups old t.files) := by
  induction es generalizing s with
  | nil => exact ⟨⟨none,h⟩,h⟩
  | cons e es ih =>
    apply (flushObject_always (hes e List.mem_cons_self) h).bind
    intro _ t ht
    exact ih (fun e he => hes e (List.mem_cons_of_mem _ he)) ht

/-- At every point of a flush all files but one are whole. -/
theorem flushProcessor_always (journal : Journal) (s : JournalState) :
    Always journal.handle (fun t => ∃ torn, journal.WholeBut torn
        (journal.groupOperations s.files s.wOpes).entries s.files t.files)
      journal.flushProcessor s (fun _ t => journal.WholeBut none
        (journal.groupOperations s.files s.wOpes).entries s.files t.files) := by
  have hstart : journal.WholeBut none (journal.groupOperations s.files s.wOpes).entries s.files
      s.files := fun _ => .inl rfl
  simp only [flushProcessor,ask_eq,call_bind,done_bind]
  cases hlocked : s.locked with
  | true => exact .stuck ⟨none,hstart⟩ (by simp [handle,hlocked])
  | false =>
    have hlock : journal.handle .lock s = some ((),{ s with locked := true }) := by
      simp [handle,hlocked]
    refine .call ⟨none,hstart⟩ hlock (.call ⟨none,hstart⟩ rfl (.call ⟨none,hstart⟩ rfl ?_))
    have hloop := flushObjects_always (s := { s with locked := true, wOpes := [] })
      (fun _ => id) hstart
    apply hloop.bind
    intro _ t ht
    exact .call ⟨none,ht⟩ rfl ⟨⟨none,ht⟩,ht⟩

/-- Wherever a crash cuts a flush off: each file but one holds its old content or a whole new one,
and for an object that the journal tells apart from the others the new one is the old one edited by
the object's operations. The one file may be empty. -/
theorem flush_crash (journal : Journal) {s t : JournalState} {q : JournalTask Unit}
    (hsteps : Steps journal.handle journal.flushProcessor s q t) :
    ∃ torn, journal.WholeBut torn (journal.groupOperations s.files s.wOpes).entries s.files
        t.files ∧
      ∀ gh, Recognized gh s.wOpes →
        Legal (s.files (journal.path gh)) (onObject s.wOpes gh) →
        t.files (journal.path gh) = s.files (journal.path gh) ∨
          t.files (journal.path gh) =
            edited (s.files (journal.path gh)) (onObject s.wOpes gh) ∨
          (torn = some (journal.path gh) ∧ t.files (journal.path gh) = some []) := by
  obtain ⟨torn,hwhole⟩ := (journal.flushProcessor_always s).at_steps hsteps
  refine ⟨torn,hwhole,?_⟩
  intro gh hrecognized hlegal
  rcases hwhole (journal.path gh) with hold | ⟨e,he,hpath,⟨hsome,hnew⟩ | htorn⟩
  · exact .inl hold
  · exact .inr (.inl (hnew.trans (combined_entry hrecognized hlegal he hpath hsome)))
  · exact .inr (.inr htorn)

/-- One append to an object that holds `a`. -/
def sampleBatch : JournalState where
  wOpes := [OperationWrapper.appendWrapper (generation 1) (lit "b")]
  files := Function.update (fun _ => none) (sampleJournal.path (generation 1)) (some (lit "a"))

lemma sampleBatch_cut : ∃ q t, Steps sampleJournal.handle sampleJournal.flushProcessor sampleBatch
    q t ∧ t.files (sampleJournal.path (generation 1)) = some [] := by
  have hcut : (runFor sampleJournal.handle 4 sampleJournal.flushProcessor sampleBatch).map
      (fun r => r.2.files (sampleJournal.path (generation 1))) = some (some []) := by decide +kernel
  obtain ⟨⟨q,t⟩,hrun,hfile⟩ := Option.map_eq_some_iff.1 hcut
  exact ⟨q,t,steps_of_runFor hrun,hfile⟩

theorem flush_crash_cut : ∃ q t torn,
    Steps sampleJournal.handle sampleJournal.flushProcessor sampleBatch q t ∧
      sampleJournal.WholeBut torn
        (sampleJournal.groupOperations sampleBatch.files sampleBatch.wOpes).entries
        sampleBatch.files t.files := by
  obtain ⟨q,t,hsteps,-⟩ := sampleBatch_cut
  obtain ⟨torn,hwhole,-⟩ := flush_crash sampleJournal hsteps
  exact ⟨q,t,torn,hsteps,hwhole⟩

/-- A crash between opening and writing leaves the file with neither its old content nor the
new one. -/
theorem content_torn : ∃ (s t : JournalState) (q : JournalTask Unit) (gh : GHObject),
    Recognized gh s.wOpes ∧ Legal (s.files (sampleJournal.path gh)) (onObject s.wOpes gh) ∧
      Steps sampleJournal.handle sampleJournal.flushProcessor s q t ∧
      t.files (sampleJournal.path gh) ≠ s.files (sampleJournal.path gh) ∧
      t.files (sampleJournal.path gh) ≠
        edited (s.files (sampleJournal.path gh)) (onObject s.wOpes gh) := by
  obtain ⟨q,t,hsteps,hfile⟩ := sampleBatch_cut
  refine ⟨sampleBatch,t,q,generation 1,?_,⟨?_,?_,?_⟩,hsteps,?_,?_⟩
  · unfold Recognized
    decide +kernel
  · decide +kernel
  · decide +kernel
  · decide +kernel
  · rw [hfile]
    decide +kernel
  · rw [hfile]
    decide +kernel

end Journal
end GDFileStore
