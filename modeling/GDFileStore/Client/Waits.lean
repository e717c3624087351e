import GDFileStore.Client.Replies

/-! One client thread that waits for an operation while its replies are handled. `waitWopeBe` looks
at the state and waits for one stage exactly, so it misses a stage that has passed; `waitRope`
does not look at all, so it misses a reply that has come. -/
namespace GDFileStore
open Program

/-- The thread that calls the waits. -/
def clientThread : ℕ := 0

namespace AsynClient

/-- `waitWopeBe` from the call, or from a notification, to its return or until it blocks. -/
def waitWopeBe (c : AsynClient) (t : ℕ) (opeId : Bytes) (beWhat : WOpeState) :
    AsynClient × Option WOpeState :=
  let looked := (c.wopeStates opeId).look t (· = beWhat)
  ({ c with wopeStates := Function.update c.wopeStates opeId looked.1 },looked.2)

/-- `waitRope` from the call until it blocks. -/
def waitRope (c : AsynClient) (t : ℕ) (opeId : Bytes) : AsynClient :=
  { c with ropeStates := Function.update c.ropeStates opeId ((c.ropeStates opeId).block t) }

variable (c : AsynClient)

@[simp] lemma waitWopeBe_wopeStates (t : ℕ) (opeId : Bytes) (beWhat : WOpeState) :
    (c.waitWopeBe t opeId beWhat).1.wopeStates opeId =
      ((c.wopeStates opeId).look t (· = beWhat)).1 := Function.update_self ..

@[simp] lemma waitRope_ropeStates (t : ℕ) (opeId : Bytes) :
    (c.waitRope t opeId).ropeStates opeId = (c.ropeStates opeId).block t :=
  Function.update_self ..

@[simp] lemma handleRepRead_ropeStates (opeId : Bytes) (result : ROPEResult) :
    (c.handleRepRead .primaryRead opeId result).ropeStates opeId =
      (c.ropeStates opeId).set (.success,result) := Function.update_self ..

end AsynClient

/-- The waits of the client thread for a write, and its two replies. -/
structure StageWaits where
  client : AsynClient
  /-- The replies that are still to be handled, in order. -/
  replies : List RepType := [.primaryJournalWrite,.primaryDiskWrite]
  /-- The stages of the calls of `waitWopeBe` that have not returned. -/
  stages : List WOpeState := [.onJournal,.onDisk]
  returned : List WOpeState := []

namespace StageWaits

inductive Move where
  | handle
  | wait
  deriving DecidableEq, Repr

/-- A reply is handled, or the client thread, if it is not blocked, goes on in its first wait. -/
def step (opeId : Bytes) : Move → StageWaits → Option StageWaits
  | .handle,s =>
    match s.replies with
    | [] => none
    | rt::replies =>
      some { s with client := s.client.handleRepWrite rt opeId, replies := replies }
  | .wait,s =>
    match s.stages with
    | [] => none
    | beWhat::stages =>
      if clientThread ∈ (s.client.wopeStates opeId).waiters then none
      else match s.client.waitWopeBe clientThread opeId beWhat with
        | (c,none) => some { s with client := c }
        | (c,some state) =>
          some { s with client := c, stages := stages, returned := s.returned ++ [state] }

inductive Run (opeId : Bytes) (allowed : StageWaits → Move → Prop) (s₀ : StageWaits) :
    StageWaits → Prop
  | start : Run opeId allowed s₀ s₀
  | step {s s' : StageWaits} (m : Move) : Run opeId allowed s₀ s → allowed s m →
      s.step opeId m = some s' → Run opeId allowed s₀ s'

/-- The thread is blocked in a wait for a stage that is not the recorded one. -/
def Blocked (opeId : Bytes) (s : StageWaits) : Prop :=
  clientThread ∈ (s.client.wopeStates opeId).waiters ∧
    ∀ beWhat ∈ s.stages.head?, s.client.getWopeState opeId ≠ beWhat

/-- `primaryDiskWrite` is handled only when the wait for `onJournal` has returned. -/
def JournalSeen (s : StageWaits) : Move → Prop
  | .handle => .primaryDiskWrite ∈ s.replies.head? → .onJournal ∉ s.stages
  | .wait => True

/-- What holds in every state of a run that meets the condition. -/
structure Inv (opeId : Bytes) (s : StageWaits) : Prop where
  sound : ∀ beWhat ∈ s.stages.head?,
    (s.client.wopeStates opeId).Sound clientThread (· = beWhat)
  waiting : s.stages = [] → clientThread ∉ (s.client.wopeStates opeId).waiters
  stages : s.stages <:+ [.onJournal,.onDisk]
  replies : s.replies <:+ [.primaryJournalWrite,.primaryDiskWrite]
  handled : s.replies = [] → s.client.getWopeState opeId = .onDisk ∧ .onJournal ∉ s.stages

variable {opeId : Bytes} {s s' : StageWaits}

lemma Inv.handle (h : Inv opeId s) (hm : s.JournalSeen .handle)
    (hstep : s.step opeId .handle = some s') : Inv opeId s' := by
  cases hreplies : s.replies with
  | nil => simp [step,hreplies] at hstep
  | cons rt replies =>
    simp only [step,hreplies,Option.some.injEq] at hstep
    subst hstep
    have hsuffix := h.replies
    rw [hreplies] at hsuffix
    have hrest : (rt = .primaryJournalWrite ∧ replies = [.primaryDiskWrite]) ∨
        (rt = .primaryDiskWrite ∧ replies = []) := by
      simpa [List.suffix_cons_iff] using hsuffix
    -- Either reply sets the state, and leaves no thread blocked.
    have hcell : ∃ state, (s.client.handleRepWrite rt opeId).wopeStates opeId =
        (s.client.wopeStates opeId).set state := by
      rcases hrest with ⟨rfl,_⟩ | ⟨rfl,_⟩
      · exact ⟨_,s.client.handleRepWrite_journal opeId⟩
      · exact ⟨_,s.client.handleRepWrite_disk opeId⟩
    obtain ⟨state,hcell⟩ := hcell
    refine ⟨?_,?_,h.stages,(List.suffix_cons rt replies).trans hsuffix,?_⟩
    · intro beWhat _
      rw [hcell]
      exact .set state
    · intro _
      rw [hcell]
      exact List.not_mem_nil
    · intro hnil
      change replies = [] at hnil
      rcases hrest with ⟨_,hdisk⟩ | ⟨rfl,_⟩
      · simp [hdisk] at hnil
      · refine ⟨?_,hm (by simp [hreplies])⟩
        exact congrArg Guarded.value (s.client.handleRepWrite_disk opeId)

/-- What the thread's step is: its wait returns, or it blocks. -/
lemma wait_cases (hstep : s.step opeId .wait = some s') :
    ∃ beWhat stages, s.stages = beWhat::stages ∧
      clientThread ∉ (s.client.wopeStates opeId).waiters ∧ s'.replies = s.replies ∧
      s'.client.wopeStates opeId =
        ((s.client.wopeStates opeId).look clientThread (· = beWhat)).1 ∧
      (s.client.getWopeState opeId = beWhat ∧ s'.stages = stages ∨
        s.client.getWopeState opeId ≠ beWhat ∧ s'.stages = s.stages) := by
  cases hstages : s.stages with
  | nil => simp [step,hstages] at hstep
  | cons beWhat stages =>
    simp only [step,hstages] at hstep
    split at hstep
    · cases hstep
    · rename_i hfree
      refine ⟨beWhat,stages,rfl,hfree,?_⟩
      have hcell := s.client.waitWopeBe_wopeStates clientThread opeId beWhat
      by_cases hstate : s.client.getWopeState opeId = beWhat
      · have hlook : (s.client.waitWopeBe clientThread opeId beWhat).2 =
            some (s.client.getWopeState opeId) :=
          congrArg Prod.snd (Guarded.look_of_ready hstate)
        split at hstep
        · rename_i heq
          simp [heq] at hlook
        · rename_i heq
          cases hstep
          rw [heq] at hcell
          exact ⟨rfl,hcell,.inl ⟨hstate,rfl⟩⟩
      · have hlook : (s.client.waitWopeBe clientThread opeId beWhat).2 = none :=
          congrArg Prod.snd (Guarded.look_of_not_ready hstate)
        split at hstep
        · rename_i heq
          cases hstep
          rw [heq] at hcell
          exact ⟨rfl,hcell,.inr ⟨hstate,rfl⟩⟩
        · rename_i heq
          simp [heq] at hlook

lemma Inv.wait (h : Inv opeId s) (hstep : s.step opeId .wait = some s') : Inv opeId s' := by
  obtain ⟨beWhat,stages,hstages,hfree,hreplies,hcell,hcase⟩ := wait_cases hstep
  have hvalue : s'.client.getWopeState opeId = s.client.getWopeState opeId := by
    rw [AsynClient.getWopeState,hcell,Guarded.look_value,AsynClient.getWopeState]
  have hsuffix := h.stages
  rw [hstages] at hsuffix
  rcases hcase with ⟨hstate,hnext⟩ | ⟨hstate,hnext⟩
  · -- The wait returns, and leaves the thread free.
    have hsame : s'.client.wopeStates opeId = s.client.wopeStates opeId := by
      rw [hcell]
      exact congrArg Prod.fst (Guarded.look_of_ready hstate)
    refine ⟨?_,?_,?_,hreplies ▸ h.replies,?_⟩
    · intro next _
      rw [hsame]
      exact .of_notMem hfree
    · intro _
      rwa [hsame]
    · rw [hnext]
      exact (List.suffix_cons beWhat stages).trans hsuffix
    · intro hnil
      obtain ⟨honDisk,hseen⟩ := h.handled (hreplies ▸ hnil)
      rw [hstages] at hseen
      exact ⟨hvalue.trans honDisk,hnext ▸ fun hm => hseen (List.mem_cons_of_mem _ hm)⟩
  · refine ⟨?_,?_,hnext ▸ h.stages,hreplies ▸ h.replies,?_⟩
    · intro next hhead
      rw [hnext,hstages] at hhead
      obtain rfl : beWhat = next := by simpa using hhead
      rw [hcell]
      exact .look hfree
    · intro hnil
      rw [hnext,hstages] at hnil
      cases hnil
    · intro hnil
      obtain ⟨honDisk,hseen⟩ := h.handled (hreplies ▸ hnil)
      exact ⟨hvalue.trans honDisk,hnext ▸ hseen⟩

/-- A thread about to wait for both stages of a write that is not answered yet. -/
def beginning (c : AsynClient) : StageWaits := { client := c }

theorem Run.inv {c : AsynClient} (hnew : c.wopeStates opeId = { value := .other })
    (hrun : Run opeId JournalSeen (beginning c) s) : Inv opeId s := by
  induction hrun with
  | start =>
    have hfree : clientThread ∉ (c.wopeStates opeId).waiters := by
      rw [hnew]
      exact List.not_mem_nil
    refine ⟨?_,?_,List.suffix_rfl,List.suffix_rfl,?_⟩
    · intro beWhat _
      exact .of_notMem hfree
    · intro _
      exact hfree
    · intro hnil
      cases hnil
  | step m _ hm hstep ih =>
    cases m with
    | handle => exact ih.handle hm hstep
    | wait => exact ih.wait hstep

/-- In every run that handles `primaryDiskWrite` only when the first wait has returned, the
thread is not blocked once both replies have been handled. -/
theorem Run.not_blocked {c : AsynClient} (hnew : c.wopeStates opeId = { value := .other })
    (hrun : Run opeId JournalSeen (beginning c) s) (hdone : s.replies = []) :
    ¬s.Blocked opeId := by
  intro ⟨hwaits,hfalse⟩
  have hinv := hrun.inv hnew
  obtain ⟨honDisk,hseen⟩ := hinv.handled hdone
  have hstages : s.stages = [.onJournal,.onDisk] ∨ s.stages = [.onDisk] ∨ s.stages = [] := by
    simpa [List.suffix_cons_iff] using hinv.stages
  rcases hstages with hboth | hone | hnone
  · simp [hboth] at hseen
  · exact hfalse .onDisk (by simp [hone]) honDisk
  · exact hinv.waiting hnone hwaits

/-- A thread whose first wait has not returned when `primaryDiskWrite` is handled: the wait never
returns. -/
theorem Run.onJournal_missed {s₀ : StageWaits} (hdone : s₀.replies = [])
    (hstages : s₀.stages = [.onJournal,.onDisk])
    (honDisk : s₀.client.getWopeState opeId = .onDisk)
    (hrun : Run opeId (fun _ _ => True) s₀ s) :
    s.replies = [] ∧ s.stages = [.onJournal,.onDisk] ∧
      s.client.getWopeState opeId = .onDisk := by
  induction hrun with
  | start => exact ⟨hdone,hstages,honDisk⟩
  | @step s s' m _ _ hstep ih =>
    obtain ⟨hreplies,hwaits,hstate⟩ := ih
    cases m with
    | handle => simp [StageWaits.step,hreplies] at hstep
    | wait =>
      obtain ⟨beWhat,stages,hfirst,_,hsame,hcell,hcase⟩ := wait_cases hstep
      obtain ⟨rfl,rfl⟩ := List.cons.inj (hfirst.symm.trans hwaits)
      refine ⟨hsame.trans hreplies,?_,?_⟩
      · rcases hcase with ⟨hready,_⟩ | ⟨_,hnext⟩
        · exact absurd (hstate.symm.trans hready) WOpeState.noConfusion
        · exact hnext.trans hwaits
      · rw [AsynClient.getWopeState,hcell,Guarded.look_value]
        exact hstate

/-- The thread sees each stage before the next reply is handled. -/
theorem not_blocked_in_turn : ∃ s, Run [] JournalSeen (beginning {}) s ∧ s.replies = [] ∧
    s.returned = [.onJournal,.onDisk] ∧ ¬s.Blocked [] := by
  have r0 : Run [] JournalSeen (beginning {}) (beginning {}) := .start
  have r1 := r0.step .wait trivial rfl
  have r2 := r1.step .handle (by unfold JournalSeen;decide) rfl
  have r3 := r2.step .wait trivial rfl
  have r4 := r3.step .handle (by unfold JournalSeen;decide) rfl
  have r5 := r4.step .wait trivial rfl
  exact ⟨_,r5,rfl,rfl,r5.not_blocked rfl rfl⟩

/-- Both replies are handled before the thread looks: it blocks with the state at `onDisk`. -/
theorem both_handled_first : ∃ s, Run [] (fun _ _ => True) (beginning {}) s ∧ s.replies = [] ∧
    s.Blocked [] := by
  have r0 : Run [] (fun _ _ => True) (beginning {}) (beginning {}) := .start
  have r1 := r0.step .handle trivial rfl
  have r2 := r1.step .handle trivial rfl
  have r3 := r2.step .wait trivial rfl
  refine ⟨_,r3,rfl,by decide,?_⟩
  intro beWhat hbe
  obtain rfl : WOpeState.onJournal = beWhat := by simpa [beginning] using hbe
  decide

end StageWaits

/-- Where the client thread is in its call of `waitRope`. -/
inductive RopeCall where
  | before
  | waiting
  | returned (state : ROpeState × ROPEResult)
  deriving DecidableEq, Repr

/-- A read whose reply is still to be handled or not, and the client thread's call. -/
structure ReadWait where
  client : AsynClient
  reply : Option ROPEResult
  call : RopeCall := .before

namespace ReadWait

inductive Move where
  | handle
  | waitRope
  | wake
  deriving DecidableEq, Repr

/-- The reply is handled; the client thread calls `waitRope`, which blocks; the thread goes on once
it has been notified, and returns what is recorded then. -/
def step (opeId : Bytes) : Move → ReadWait → Option ReadWait
  | .handle,s =>
    match s.reply with
    | none => none
    | some result => some { s with
        client := s.client.handle (.repRead result)
        reply := none }
  | .waitRope,s =>
    match s.call with
    | .before => some { s with
        client := s.client.waitRope clientThread opeId
        call := .waiting }
    | _ => none
  | .wake,s =>
    match s.call with
    | .waiting =>
      if clientThread ∈ (s.client.ropeStates opeId).waiters then none
      else some { s with call := .returned (s.client.getRopeState opeId) }
    | _ => none

inductive Run (opeId : Bytes) (allowed : ReadWait → Move → Prop) (s₀ : ReadWait) :
    ReadWait → Prop
  | start : Run opeId allowed s₀ s₀
  | step {s s' : ReadWait} (m : Move) : Run opeId allowed s₀ s → allowed s m →
      s.step opeId m = some s' → Run opeId allowed s₀ s'

/-- The reply is handled only when the client thread has called `waitRope`. -/
def Called (s : ReadWait) : Move → Prop
  | .handle => s.call = .waiting
  | _ => True

/-- A read that `asynRead` has sent, with no reply handled and no wait begun. -/
structure Sent (opeId : Bytes) (result : ROPEResult) (s : ReadWait) : Prop where
  reply : s.reply = some result
  answers : result.opeId = opeId
  call : s.call = .before
  free : clientThread ∉ (s.client.ropeStates opeId).waiters

/-- The states of a run that meets the condition. -/
inductive Stage (opeId : Bytes) (result : ROPEResult) (s : ReadWait) : Prop
  | sent : Sent opeId result s → Stage opeId result s
  | blocked : s.reply = some result → s.call = .waiting →
      clientThread ∈ (s.client.ropeStates opeId).waiters → Stage opeId result s
  | handled : s.reply = none →
      s.client.ropeStates opeId = { value := (.success,result) } →
      s.call = .waiting ∨ s.call = .returned (.success,result) → Stage opeId result s

variable {opeId : Bytes} {result : ROPEResult} {s s' : ReadWait}

/-- Handling the reply records it and notifies the thread. -/
lemma handle_reply (hreply : s.reply = some result) (hid : result.opeId = opeId)
    (hstep : s.step opeId .handle = some s') :
    s'.reply = none ∧ s'.call = s.call ∧
      s'.client.ropeStates opeId = { value := (.success,result) } := by
  simp only [step,hreply,Option.some.injEq] at hstep
  subst hstep hid
  exact ⟨rfl,rfl,s.client.handleRepRead_ropeStates result.opeId result⟩

theorem Stage.next (h : Stage opeId result s) (hid : result.opeId = opeId) {m : Move}
    (hm : s.Called m) (hstep : s.step opeId m = some s') : Stage opeId result s' := by
  cases m with
  | handle =>
    cases h with
    | sent hsent => exact absurd (hsent.call.symm.trans hm) RopeCall.noConfusion
    | blocked hreply hcall =>
      obtain ⟨hnone,hsame,hcell⟩ := handle_reply hreply hid hstep
      exact .handled hnone hcell (.inl (hsame.trans hcall))
    | handled hnone => simp [step,hnone] at hstep
  | waitRope =>
    cases h with
    | sent hsent =>
      simp only [step,hsent.call,Option.some.injEq] at hstep
      subst hstep
      refine .blocked hsent.reply rfl ?_
      change clientThread ∈ ((s.client.waitRope clientThread opeId).ropeStates opeId).waiters
      rw [AsynClient.waitRope_ropeStates]
      exact List.mem_cons_self
    | blocked _ hcall => simp [step,hcall] at hstep
    | handled _ _ hcall =>
      rcases hcall with hcall | hcall
      · simp [step,hcall] at hstep
      · simp [step,hcall] at hstep
  | wake =>
    cases h with
    | sent hsent => simp [step,hsent.call] at hstep
    | blocked _ hcall hwaits => simp [step,hcall,hwaits] at hstep
    | handled hnone hcell hcall =>
      rcases hcall with hcall | hcall
      · simp only [step,hcall,hcell] at hstep
        rw [if_neg List.not_mem_nil,AsynClient.getRopeState,hcell] at hstep
        cases hstep
        exact .handled hnone hcell (.inr rfl)
      · simp [step,hcall] at hstep

theorem Run.stage {s₀ : ReadWait} (hsent : Sent opeId result s₀) (hrun : Run opeId Called s₀ s) :
    Stage opeId result s := by
  induction hrun with
  | start => exact .sent hsent
  | step m _ hm hstep ih => exact ih.next hsent.answers hm hstep

/-- In every run that handles the reply only when the client thread waits for it, the thread is
not blocked once the reply has been handled, and its call returns success with that result. -/
theorem Run.waitRope_returns {s₀ : ReadWait} (hsent : Sent opeId result s₀)
    (hrun : Run opeId Called s₀ s) (hdone : s.reply = none) :
    s.client.getRopeState opeId = (.success,result) ∧
    clientThread ∉ (s.client.ropeStates opeId).waiters ∧
    ∀ state, s.call = .returned state → state = (.success,result) := by
  cases hrun.stage hsent with
  | sent hstill => simp [hstill.reply] at hdone
  | blocked hreply => simp [hreply] at hdone
  | handled _ hcell hcall =>
    refine ⟨congrArg Guarded.value hcell,?_,?_⟩
    · rw [hcell]
      exact List.not_mem_nil
    · intro state hstate
      rcases hcall with hwaiting | hreturned
      · exact RopeCall.noConfusion (hwaiting.symm.trans hstate)
      · exact (RopeCall.returned.inj (hreturned.symm.trans hstate)).symm

/-- A thread that calls `waitRope` when the reply has been handled: the call never returns. -/
theorem Run.reply_missed {s₀ : ReadWait} (hdone : s₀.reply = none) (hcall : s₀.call = .before)
    (hrun : Run opeId (fun _ _ => True) s₀ s) : s.reply = none ∧
      (s.call = .before ∨
        s.call = .waiting ∧ clientThread ∈ (s.client.ropeStates opeId).waiters) := by
  induction hrun with
  | start => exact ⟨hdone,.inl hcall⟩
  | @step s s' m _ _ hstep ih =>
    obtain ⟨hreply,hcase⟩ := ih
    cases m with
    | handle => simp [ReadWait.step,hreply] at hstep
    | waitRope =>
      rcases hcase with hbefore | ⟨hwaiting,_⟩
      · simp only [ReadWait.step,hbefore,Option.some.injEq] at hstep
        subst hstep
        refine ⟨hreply,.inr ⟨rfl,?_⟩⟩
        change clientThread ∈ ((s.client.waitRope clientThread opeId).ropeStates opeId).waiters
        rw [AsynClient.waitRope_ropeStates]
        exact List.mem_cons_self
      · simp [ReadWait.step,hwaiting] at hstep
    | wake =>
      rcases hcase with hbefore | ⟨hwaiting,hwaits⟩
      · simp [ReadWait.step,hbefore] at hstep
      · simp [ReadWait.step,hwaiting,hwaits] at hstep

/-- A read of one block. -/
def oneResult : ROPEResult := ⟨lit "1",generation 0,[0],[lit "x"]⟩

def reading : ReadWait := { client := {}, reply := some oneResult }

lemma sent_reading : Sent oneResult.opeId oneResult reading := ⟨rfl,rfl,rfl,List.not_mem_nil⟩

/-- The thread waits before the reply comes. -/
theorem waitRope_returns_in_time : ∃ s, Run oneResult.opeId Called reading s ∧
    s.call = .returned (.success,oneResult) ∧
    s.client.getRopeState oneResult.opeId = (.success,oneResult) := by
  have r0 : Run oneResult.opeId Called reading reading := .start
  have r1 := r0.step .waitRope trivial rfl
  have r2 := r1.step .handle rfl rfl
  have r3 := r2.step .wake trivial rfl
  exact ⟨_,r3,rfl,(r3.waitRope_returns sent_reading rfl).1⟩

/-- The reply is handled between `asynRead` and `waitRope`. -/
theorem reply_before_waitRope : ∃ s, Sent oneResult.opeId oneResult reading ∧
    Run oneResult.opeId (fun _ _ => True) reading s ∧ s.reply = none ∧
    s.client.getRopeState oneResult.opeId = (.success,oneResult) ∧
    clientThread ∈ (s.client.ropeStates oneResult.opeId).waiters := by
  have r0 : Run oneResult.opeId (fun _ _ => True) reading reading := .start
  have r1 := r0.step .handle trivial rfl
  have r2 := r1.step .waitRope trivial rfl
  exact ⟨_,sent_reading,r2,rfl,by decide,by decide⟩

end ReadWait
end GDFileStore
