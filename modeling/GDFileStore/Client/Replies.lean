import GDFileStore.Objects.Block
import GDFileStore.Program.Condition
import Mathlib.Logic.Function.Basic

/-! The client's tables of operation states and the replies that change them. The replies are
queued in the order they come, but each is a job of its own for the client's pool, and a worker
may take the mutex after a worker that took a later job. -/
namespace GDFileStore
open Program

inductive WOpeState where
  | other | failed | onJournal | onDisk
  deriving DecidableEq, Repr

inductive ROpeState where
  | other | failed | success
  deriving DecidableEq, Repr

/-- What an `AsynClient` knows of the operations it has sent. An entry that is missing from a
map is made with its first state when it is looked up. -/
structure AsynClient where
  wopeStates : Bytes → Guarded WOpeState := fun _ => { value := .other }
  ropeStates : Bytes → Guarded (ROpeState × ROPEResult) := fun _ => { value := (.other,{}) }

namespace AsynClient

def handleRepWrite (c : AsynClient) (rt : RepType) (opeId : Bytes) : AsynClient :=
  match rt with
  | .primaryJournalWrite => { c with
      wopeStates := Function.update c.wopeStates opeId ((c.wopeStates opeId).set .onJournal) }
  | .primaryDiskWrite => { c with
      wopeStates := Function.update c.wopeStates opeId ((c.wopeStates opeId).set .onDisk) }
  | _ => c

def handleRepRead (c : AsynClient) (rt : RepType) (opeId : Bytes) (result : ROPEResult) :
    AsynClient :=
  match rt with
  | .primaryRead => { c with
      ropeStates := Function.update c.ropeStates opeId
        ((c.ropeStates opeId).set (.success,result)) }
  | _ => c

def getWopeState (c : AsynClient) (opeId : Bytes) : WOpeState := (c.wopeStates opeId).value

def getRopeState (c : AsynClient) (opeId : Bytes) : ROpeState × ROPEResult :=
  (c.ropeStates opeId).value

variable (c : AsynClient)

lemma handleRepWrite_ne (rt : RepType) {opeId opeId' : Bytes} (h : opeId' ≠ opeId) :
    (c.handleRepWrite rt opeId).wopeStates opeId' = c.wopeStates opeId' := by
  cases rt with
  | primaryJournalWrite => exact Function.update_of_ne h _ _
  | primaryDiskWrite => exact Function.update_of_ne h _ _
  | _ => rfl

@[simp] lemma handleRepWrite_journal (opeId : Bytes) :
    (c.handleRepWrite .primaryJournalWrite opeId).wopeStates opeId =
      (c.wopeStates opeId).set .onJournal := Function.update_self ..

@[simp] lemma handleRepWrite_disk (opeId : Bytes) :
    (c.handleRepWrite .primaryDiskWrite opeId).wopeStates opeId =
      (c.wopeStates opeId).set .onDisk := Function.update_self ..

@[simp] lemma handleRepRead_wopeStates (rt : RepType) (opeId : Bytes) (result : ROPEResult) :
    (c.handleRepRead rt opeId result).wopeStates = c.wopeStates := by cases rt <;> rfl

end AsynClient

/-- The jobs that `/repWrite` and `/repRead` give to the client's pool. -/
inductive ClientJob where
  | repWrite (rt : RepType) (opeId : Bytes)
  | repRead (result : ROPEResult)
  deriving DecidableEq, Repr

def AsynClient.handle (c : AsynClient) : ClientJob → AsynClient
  | .repWrite rt opeId => c.handleRepWrite rt opeId
  | .repRead result => c.handleRepRead .primaryRead result.opeId result

/-- A client with the replies that are still to come, the job list of its pool, and the jobs that
workers have taken without having the mutex yet. -/
structure ReplyPool where
  client : AsynClient
  arriving : List ClientJob := []
  jobs : List ClientJob := []
  taken : List ClientJob := []

namespace ReplyPool

inductive Move where
  | arrive
  | take
  | handle (i : ℕ)
  deriving DecidableEq, Repr

/-- A request of a server is answered once its job is queued; a worker takes the first job; a
worker that has one takes the mutex and handles the reply. -/
def step (threads : ℕ) : Move → ReplyPool → Option ReplyPool
  | .arrive,s =>
    match s.arriving with
    | [] => none
    | job::arriving => some { s with arriving := arriving, jobs := s.jobs ++ [job] }
  | .take,s =>
    match s.jobs with
    | [] => none
    | job::jobs =>
      if s.taken.length < threads then some { s with jobs := jobs, taken := s.taken ++ [job] }
      else none
  | .handle i,s =>
    match s.taken.drop i with
    | [] => none
    | job::after => some { s with client := s.client.handle job, taken := s.taken.take i ++ after }

inductive Run (threads : ℕ) (allowed : ReplyPool → Move → Prop) (s₀ : ReplyPool) :
    ReplyPool → Prop
  | start : Run threads allowed s₀ s₀
  | step {s s' : ReplyPool} (m : Move) : Run threads allowed s₀ s → allowed s m →
      s.step threads m = some s' → Run threads allowed s₀ s'

/-- The two replies to a write that change the state of its `opeId`. -/
def Concerns (opeId : Bytes) (job : ClientJob) : Prop :=
  job = .repWrite .primaryJournalWrite opeId ∨ job = .repWrite .primaryDiskWrite opeId

instance (opeId : Bytes) (job : ClientJob) : Decidable (Concerns opeId job) :=
  inferInstanceAs (Decidable (_ ∨ _))

/-- The replies to a write that have not been handled. -/
def unhandled (s : ReplyPool) (opeId : Bytes) : List ClientJob :=
  (s.taken ++ s.jobs ++ s.arriving).filter (Concerns opeId)

/-- `primaryDiskWrite` is handled only when `primaryJournalWrite` has been. -/
def JournalFirst (opeId : Bytes) (s : ReplyPool) : Move → Prop
  | .handle i => .repWrite .primaryDiskWrite opeId ∈ (s.taken.drop i).head? →
      .repWrite .primaryJournalWrite opeId ∉ s.unhandled opeId
  | _ => True

/-- What has been handled of the two replies, and the state that is recorded. -/
inductive Progress (opeId : Bytes) (s : ReplyPool) : Prop
  | sent : (s.unhandled opeId).Perm
        [.repWrite .primaryJournalWrite opeId,.repWrite .primaryDiskWrite opeId] →
      s.client.getWopeState opeId ≠ .onDisk → Progress opeId s
  | journaled : s.unhandled opeId = [.repWrite .primaryDiskWrite opeId] →
      s.client.getWopeState opeId = .onJournal → Progress opeId s
  | written : s.unhandled opeId = [] → s.client.getWopeState opeId = .onDisk → Progress opeId s

variable {opeId : Bytes} {threads : ℕ} {s s' : ReplyPool}

/-- A job that changes nothing for the `opeId`. -/
lemma Progress.keep (h : Progress opeId s) (hopen : (s'.unhandled opeId).Perm (s.unhandled opeId))
    (hstate : s'.client.getWopeState opeId = s.client.getWopeState opeId) : Progress opeId s' := by
  cases h with
  | sent hperm hne => exact .sent (hopen.trans hperm) (hstate ▸ hne)
  | journaled hone honJournal =>
    exact .journaled (List.perm_singleton.1 (hone ▸ hopen)) (hstate.trans honJournal)
  | written hnone honDisk =>
    exact .written (List.perm_nil.1 (hnone ▸ hopen)) (hstate.trans honDisk)

lemma unhandled_handle (opeId : Bytes) {i : ℕ} {job : ClientJob} {after : List ClientJob}
    (hdrop : s.taken.drop i = job::after) : (s.unhandled opeId).Perm
      ([job].filter (Concerns opeId) ++ unhandled
        { s with client := s.client.handle job, taken := s.taken.take i ++ after } opeId) := by
  have htaken : s.taken = s.taken.take i ++ job::after := by
    rw [← hdrop,List.take_append_drop]
  rw [unhandled,unhandled,← List.filter_append]
  apply List.Perm.filter
  nth_rewrite 1 [htaken]
  simp only [List.append_assoc,List.cons_append,List.nil_append]
  exact List.perm_middle

lemma getWopeState_handle (c : AsynClient) {job : ClientJob} (h : ¬Concerns opeId job) :
    (c.handle job).getWopeState opeId = c.getWopeState opeId := by
  cases job with
  | repRead result =>
    rw [AsynClient.getWopeState,AsynClient.handle,AsynClient.handleRepRead_wopeStates]
    rfl
  | repWrite rt opeId' =>
    by_cases hid : opeId = opeId'
    · subst hid
      cases rt with
      | primaryJournalWrite => exact absurd (.inl rfl) h
      | primaryDiskWrite => exact absurd (.inr rfl) h
      | _ => rfl
    · exact congrArg Guarded.value (c.handleRepWrite_ne rt hid)

/-- What one step does for an `opeId`: nothing, or it handles one of its two replies. -/
lemma step_cases {m : Move} (hstep : s.step threads m = some s') (opeId : Bytes) :
    ((s'.unhandled opeId).Perm (s.unhandled opeId) ∧
      s'.client.getWopeState opeId = s.client.getWopeState opeId) ∨
    ∃ i job, m = .handle i ∧ job ∈ (s.taken.drop i).head? ∧ Concerns opeId job ∧
      (s.unhandled opeId).Perm (job::s'.unhandled opeId) ∧ s'.client = s.client.handle job := by
  cases m with
  | arrive =>
    cases harriving : s.arriving with
    | nil => simp [step,harriving] at hstep
    | cons job arriving =>
      simp only [step,harriving,Option.some.injEq] at hstep
      subst hstep
      exact .inl ⟨by simp [unhandled,harriving],rfl⟩
  | take =>
    cases hjobs : s.jobs with
    | nil => simp [step,hjobs] at hstep
    | cons job jobs =>
      simp only [step,hjobs] at hstep
      split at hstep
      · cases hstep
        exact .inl ⟨by simp [unhandled,hjobs],rfl⟩
      · cases hstep
  | handle i =>
    cases hdrop : s.taken.drop i with
    | nil => simp [step,hdrop] at hstep
    | cons job after =>
      simp only [step,hdrop,Option.some.injEq] at hstep
      subst hstep
      have hopen := unhandled_handle opeId hdrop
      by_cases hjob : Concerns opeId job
      · rw [List.filter_cons_of_pos (by simpa using hjob),List.filter_nil] at hopen
        exact .inr ⟨i,job,rfl,by simp [hdrop],hjob,hopen,rfl⟩
      · rw [List.filter_cons_of_neg (by simpa using hjob),List.filter_nil,List.nil_append] at hopen
        exact .inl ⟨hopen.symm,getWopeState_handle _ hjob⟩

/-- One step that meets the condition, from any progress of the two replies. -/
theorem Progress.next (h : Progress opeId s) {m : Move} (hm : s.JournalFirst opeId m)
    (hstep : s.step threads m = some s') : Progress opeId s' := by
  rcases step_cases hstep opeId with ⟨hopen,hstate⟩ | ⟨i,job,rfl,hhead,hjob,hopen,hclient⟩
  · exact h.keep hopen hstate
  · have hself : job ∈ s.unhandled opeId := hopen.mem_iff.2 List.mem_cons_self
    cases hjob with
    | inl hjournal =>
      subst hjournal
      have hstate : s'.client.getWopeState opeId = .onJournal := by
        rw [hclient]
        exact congrArg Guarded.value (s.client.handleRepWrite_journal opeId)
      cases h with
      | sent hperm =>
        exact .journaled (List.perm_singleton.1 (hopen.symm.trans hperm).cons_inv) hstate
      | journaled hone => simp [hone] at hself
      | written hnone => simp [hnone] at hself
    | inr hdisk =>
      subst hdisk
      have hstate : s'.client.getWopeState opeId = .onDisk := by
        rw [hclient]
        exact congrArg Guarded.value (s.client.handleRepWrite_disk opeId)
      cases h with
      | sent hperm => exact absurd (hperm.mem_iff.2 List.mem_cons_self) (hm hhead)
      | journaled hone =>
        rw [hone] at hopen
        exact .written (List.perm_nil.1 hopen.cons_inv.symm) hstate
      | written hnone => simp [hnone] at hself

/-- With both replies handled no step changes the state any more. -/
lemma Progress.onDisk_stays (h : Progress opeId s) (honDisk : s.client.getWopeState opeId = .onDisk)
    {m : Move} (hstep : s.step threads m = some s') :
    s'.client.getWopeState opeId = .onDisk := by
  rcases step_cases hstep opeId with ⟨_,hstate⟩ | ⟨i,job,_,_,_,hopen,_⟩
  · exact hstate.trans honDisk
  · cases h with
    | sent _ hne => exact absurd honDisk hne
    | journaled _ honJournal => exact absurd (honDisk.symm.trans honJournal) WOpeState.noConfusion
    | written hnone =>
      rw [hnone] at hopen
      exact absurd hopen (List.not_perm_nil_cons _ _)

/-- A client that has sent a write, whose two replies are to come in this order among any
others. -/
structure Sent (opeId : Bytes) (s : ReplyPool) : Prop where
  queued : s.jobs = [] ∧ s.taken = []
  replies : s.arriving.filter (Concerns opeId) =
    [.repWrite .primaryJournalWrite opeId,.repWrite .primaryDiskWrite opeId]
  state : s.client.getWopeState opeId = .other

theorem Run.progress {s₀ : ReplyPool} (hsent : Sent opeId s₀)
    (hrun : Run threads (JournalFirst opeId) s₀ s) : Progress opeId s := by
  induction hrun with
  | start =>
    apply Progress.sent
    · rw [unhandled,hsent.queued.1,hsent.queued.2]
      exact .of_eq hsent.replies
    · rw [hsent.state]
      exact WOpeState.noConfusion
  | step m _ hm hstep ih => exact ih.next hm hstep

/-- In every run that handles `primaryJournalWrite` first, the recorded state does not go back
from `onDisk` to `onJournal`, and it is `onDisk` once both replies have been handled. -/
theorem Run.onDisk_kept {s₀ : ReplyPool} (hsent : Sent opeId s₀)
    (hrun : Run threads (JournalFirst opeId) s₀ s) :
    (∀ m s', s.step threads m = some s' → s.client.getWopeState opeId = .onDisk →
      s'.client.getWopeState opeId = .onDisk) ∧
    (s.unhandled opeId = [] → s.client.getWopeState opeId = .onDisk) := by
  constructor
  · intro m s' hstep honDisk
    exact (hrun.progress hsent).onDisk_stays honDisk hstep
  · intro hnone
    cases hrun.progress hsent with
    | sent hperm => simp [hnone] at hperm
    | journaled hone => simp [hnone] at hone
    | written _ honDisk => exact honDisk

/-- A pool of one worker handles the replies in the order they came. -/
theorem journalFirst_of_one_worker {s₀ : ReplyPool} (hsent : Sent opeId s₀)
    (hrun : Run 1 (fun _ _ => True) s₀ s) : Run 1 (JournalFirst opeId) s₀ s ∧
      s.taken.length ≤ 1 ∧ s.unhandled opeId <:+
        [.repWrite .primaryJournalWrite opeId,.repWrite .primaryDiskWrite opeId] := by
  induction hrun with
  | start =>
    obtain ⟨hjobs,htaken⟩ := hsent.queued
    refine ⟨.start,by simp [htaken],?_⟩
    rw [unhandled,hjobs,htaken]
    exact ⟨[],hsent.replies⟩
  | @step s s' m _ _ hstep ih =>
    obtain ⟨hfirst,hlen,hsuffix⟩ := ih
    cases m with
    | arrive =>
      refine ⟨hfirst.step .arrive trivial hstep,?_⟩
      cases harriving : s.arriving with
      | nil => simp [step,harriving] at hstep
      | cons job arriving =>
        simp only [step,harriving,Option.some.injEq] at hstep
        subst hstep
        refine ⟨hlen,?_⟩
        simpa [unhandled,harriving] using hsuffix
    | take =>
      refine ⟨hfirst.step .take trivial hstep,?_⟩
      cases hjobs : s.jobs with
      | nil => simp [step,hjobs] at hstep
      | cons job jobs =>
        simp only [step,hjobs] at hstep
        split at hstep
        · rename_i hidle
          cases hstep
          refine ⟨by simpa using Nat.lt_one_iff.1 hidle,?_⟩
          simpa [unhandled,hjobs] using hsuffix
        · cases hstep
    | handle i =>
      cases hdrop : s.taken.drop i with
      | nil => simp [step,hdrop] at hstep
      | cons job after =>
        -- The worker's only job is the oldest reply that has not been handled.
        have htaken : s.taken = [job] ∧ i = 0 := by
          have hget : i < s.taken.length := by
            by_contra hi
            simp [List.drop_eq_nil_of_le (not_lt.1 hi)] at hdrop
          obtain rfl : i = 0 := by omega
          rw [List.drop_zero] at hdrop
          rw [hdrop,List.length_cons] at hlen
          have hafter : after = [] := List.length_eq_zero_iff.1 (by omega)
          exact ⟨by rw [hdrop,hafter],rfl⟩
        obtain ⟨htaken,rfl⟩ := htaken
        have hopen : s.unhandled opeId = [job].filter (Concerns opeId) ++
            (s.jobs ++ s.arriving).filter (Concerns opeId) := by
          rw [unhandled,htaken,← List.filter_append,List.append_assoc]
        have hallowed : s.JournalFirst opeId (.handle 0) := by
          intro hdisk
          rw [htaken] at hdisk
          obtain rfl : job = .repWrite .primaryDiskWrite opeId := by simpa using hdisk
          rw [List.filter_cons_of_pos (by simp [Concerns]),List.filter_nil,List.singleton_append]
            at hopen
          rw [hopen] at hsuffix ⊢
          generalize (s.jobs ++ s.arriving).filter (Concerns opeId) = rest at hsuffix ⊢
          obtain rfl : rest = [] := by simpa [List.suffix_cons_iff] using hsuffix
          simp
        refine ⟨hfirst.step (.handle 0) hallowed hstep,?_⟩
        simp only [step,hdrop,Option.some.injEq] at hstep
        subst hstep
        obtain rfl : after = [] := by simpa [htaken] using hdrop.symm
        refine ⟨by simp,.trans ?_ hsuffix⟩
        rw [hopen]
        exact ⟨[job].filter (Concerns opeId),by simp [unhandled]⟩

/-- A new client whose only write is answered twice. -/
def answered (opeId : Bytes) : ReplyPool where
  client := {}
  arriving := [.repWrite .primaryJournalWrite opeId,.repWrite .primaryDiskWrite opeId]

lemma sent_answered (opeId : Bytes) : Sent opeId (answered opeId) where
  queued := ⟨rfl,rfl⟩
  replies := by simp [answered,Concerns]
  state := rfl

/-- Both workers have taken a job. -/
lemma both_taken (opeId : Bytes) {allowed : ReplyPool → Move → Prop}
    (harrive : ∀ s, allowed s .arrive) (htake : ∀ s, allowed s .take) :
    Run 2 allowed (answered opeId) { (answered opeId) with
      arriving := [], taken := (answered opeId).arriving } := by
  have r0 : Run 2 allowed (answered opeId) (answered opeId) := .start
  have r1 := r0.step .arrive (harrive _) rfl
  have r2 := r1.step .arrive (harrive _) rfl
  have r3 := r2.step .take (htake _) rfl
  exact r3.step .take (htake _) rfl

/-- Two workers, of which the first takes the mutex first. -/
theorem onDisk_kept_two : ∃ s, Run 2 (JournalFirst []) (answered []) s ∧
    s.unhandled [] = [] ∧ s.client.getWopeState [] = .onDisk := by
  have r4 : Run 2 (JournalFirst []) (answered []) _ :=
    both_taken [] (fun _ => trivial) (fun _ => trivial)
  have r5 := r4.step (.handle 0) (by unfold JournalFirst;decide) rfl
  have r6 := r5.step (.handle 0) (by unfold JournalFirst;decide) rfl
  have hnone : ∀ c, unhandled { client := c } [] = [] := fun _ => rfl
  exact ⟨_,r6,hnone _,(r6.onDisk_kept (sent_answered [])).2 (hnone _)⟩

/-- The worker that took the second reply takes the mutex first. -/
theorem state_goes_back : ∃ (s s' : ReplyPool) (m : Move), Sent [] (answered []) ∧
    Run 2 (fun _ _ => True) (answered []) s ∧ s.step 2 m = some s' ∧
    s.client.getWopeState [] = .onDisk ∧ s'.client.getWopeState [] = .onJournal ∧
    s'.unhandled [] = [] := by
  have r4 : Run 2 (fun _ _ => True) (answered []) _ :=
    both_taken [] (fun _ => trivial) (fun _ => trivial)
  have r5 := r4.step (.handle 1) trivial rfl
  exact ⟨_,_,.handle 0,sent_answered [],r5,rfl,rfl,rfl,rfl⟩

end ReplyPool
end GDFileStore
