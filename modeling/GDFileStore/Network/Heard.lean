import GDFileStore.Network.Known

/-! What a client has heard: the replies that have come to its pool are in the hands of a worker, in
the job list, or recorded. One worker records them in the order in which they came. -/
namespace GDFileStore
open Sequences Program Serializable

namespace ReplyPool
variable {threads : ℕ} {s s' : ReplyPool} {m : Move}

/-- The jobs that have not been handled, in the order in which one worker handles them. -/
def pending (s : ReplyPool) : List ClientJob := s.taken ++ s.jobs ++ s.arriving

/-- The moves until all jobs are handled. -/
def load (s : ReplyPool) : ℕ := 3*s.arriving.length+2*s.jobs.length+s.taken.length

/-- A move leaves the jobs that have not been handled as they are, or handles one of them. -/
lemma step_pending (hstep : s.step threads m = some s') :
    s'.pending = s.pending ∧ s'.client = s.client ∨
    ∃ before job after, s.taken = before ++ job::after ∧ s'.taken = before ++ after ∧
      s'.jobs = s.jobs ∧ s'.arriving = s.arriving ∧ s'.client = s.client.handle job := by
  cases m with
  | arrive =>
    cases harriving : s.arriving with
    | nil => simp [step,harriving] at hstep
    | cons job arriving =>
      simp only [step,harriving,Option.some.injEq] at hstep
      subst hstep
      exact .inl ⟨by simp [pending,harriving],rfl⟩
  | take =>
    cases hjobs : s.jobs with
    | nil => simp [step,hjobs] at hstep
    | cons job jobs =>
      simp only [step,hjobs] at hstep
      split at hstep
      · cases hstep
        exact .inl ⟨by simp [pending,hjobs],rfl⟩
      · cases hstep
  | handle i =>
    cases hdrop : s.taken.drop i with
    | nil => simp [step,hdrop] at hstep
    | cons job after =>
      simp only [step,hdrop,Option.some.injEq] at hstep
      subst hstep
      exact .inr ⟨s.taken.take i,job,after,by rw [← hdrop,List.take_append_drop],rfl,rfl,rfl,rfl⟩

lemma step_load (hstep : s.step threads m = some s') : s'.load < s.load := by
  cases m with
  | arrive =>
    cases harriving : s.arriving with
    | nil => simp [step,harriving] at hstep
    | cons job arriving =>
      simp only [step,harriving,Option.some.injEq] at hstep
      subst hstep
      simp only [load,harriving,List.length_append,List.length_cons,List.length_nil]
      omega
  | take =>
    cases hjobs : s.jobs with
    | nil => simp [step,hjobs] at hstep
    | cons job jobs =>
      simp only [step,hjobs] at hstep
      split at hstep
      · cases hstep
        simp only [load,hjobs,List.length_append,List.length_cons,List.length_nil]
        omega
      · cases hstep
  | handle i =>
    cases hdrop : s.taken.drop i with
    | nil => simp [step,hdrop] at hstep
    | cons job after =>
      simp only [step,hdrop,Option.some.injEq] at hstep
      subst hstep
      have htaken := congrArg List.length (List.take_append_drop i s.taken)
      rw [hdrop] at htaken
      simp only [load,List.length_append,List.length_cons] at htaken ⊢
      omega

/-- A pool with a worker that has jobs can move. -/
lemma exists_step (hthreads : 0 < threads) (hpending : s.pending ≠ []) :
    ∃ m s', s.step threads m = some s' := by
  have hsome : ∃ m, (s.step threads m).isSome := by
    cases htaken : s.taken with
    | cons job taken => exact ⟨.handle 0,by simp [step,htaken]⟩
    | nil =>
      cases hjobs : s.jobs with
      | cons job jobs => exact ⟨.take,by simp [step,hjobs,htaken,hthreads]⟩
      | nil =>
        cases harriving : s.arriving with
        | cons job arriving => exact ⟨.arrive,by simp [step,harriving]⟩
        | nil => simp [pending,htaken,hjobs,harriving] at hpending
  obtain ⟨m,hm⟩ := hsome
  exact ⟨m,Option.isSome_iff_exists.1 hm⟩

end ReplyPool

/-- The table of a client has an entry for the request that a reply answers. -/
def Reply.Recorded (c : AsynClient) : Reply → Prop
  | .repWrite wopelog rt => rt = .primaryJournalWrite ∨ rt = .primaryDiskWrite →
    c.getWopeState wopelog.opeId = .onJournal ∨ c.getWopeState wopelog.opeId = .onDisk
  | .repRead _ result => (c.getRopeState result.opeId).1 = .success

namespace Reply
variable {c : AsynClient} {reply : Reply} {job : ClientJob}

/-- What is handled is recorded. -/
lemma Tells.recorded (h : reply.Tells job) (c : AsynClient) : reply.Recorded (c.handle job) := by
  cases reply with
  | repWrite wopelog rt =>
    obtain rfl : job = .repWrite rt wopelog.opeId := h
    rintro (rfl | rfl)
    · exact .inl (congrArg Guarded.value (c.handleRepWrite_journal wopelog.opeId))
    · exact .inr (congrArg Guarded.value (c.handleRepWrite_disk wopelog.opeId))
  | repRead ropelog result =>
    obtain ⟨r,rfl,hes⟩ := h
    have hid := (ROPEResult.of_es hes).1
    have hself := congrArg Guarded.value (c.handleRepRead_self r.opeId r)
    rw [Recorded,← hid]
    exact congrArg Prod.fst hself

/-- And stays so. -/
lemma Recorded.handle (h : reply.Recorded c) (job : ClientJob) : reply.Recorded (c.handle job) := by
  cases reply with
  | repWrite wopelog rt =>
    intro hrt
    by_cases hjob : ReplyPool.Concerns wopelog.opeId job
    · rcases hjob with rfl | rfl
      · exact .inl (congrArg Guarded.value (c.handleRepWrite_journal wopelog.opeId))
      · exact .inr (congrArg Guarded.value (c.handleRepWrite_disk wopelog.opeId))
    · rw [ReplyPool.getWopeState_handle c hjob]
      exact h hrt
  | repRead ropelog result =>
    cases job with
    | repWrite rt opeId =>
      have hropes : (c.handleRepWrite rt opeId).ropeStates = c.ropeStates := by cases rt <;> rfl
      rw [Recorded,AsynClient.handle,AsynClient.getRopeState,hropes]
      exact h
    | repRead r =>
      by_cases hid : result.opeId = r.opeId
      · have hself := congrArg Guarded.value (c.handleRepRead_self r.opeId r)
        rw [Recorded,hid]
        exact congrArg Prod.fst hself
      · have hother := congrArg Guarded.value (c.handleRepRead_ne r hid)
        exact (congrArg Prod.fst hother).trans h

end Reply

namespace ReplyPool
variable {threads : ℕ} {s s' : ReplyPool} {m : Move} {reply : Reply} {job : ClientJob}

/-- A reply has come to the pool: it is still to be handled, or its request has an entry. -/
def Heard (s : ReplyPool) (reply : Reply) : Prop :=
  (∃ job ∈ s.pending, reply.Tells job) ∨ reply.Recorded s.client

lemma Heard.step (h : s.Heard reply) (hstep : s.step threads m = some s') : s'.Heard reply := by
  rcases step_pending hstep with ⟨hpending,hclient⟩ | ⟨before,job,after,htaken,htaken',hjobs,harriving,hclient⟩
  · rwa [Heard,hpending,hclient]
  · rcases h with ⟨other,hm,htells⟩ | hrecorded
    · by_cases hother : other = job
      · right
        rw [hclient]
        exact (hother ▸ htells).recorded s.client
      · refine .inl ⟨other,?_,htells⟩
        rw [pending,htaken] at hm
        rw [pending,htaken',hjobs,harriving]
        simpa [hother] using hm
    · right
      rw [hclient]
      exact hrecorded.handle job

lemma Heard.deliver (h : s.Heard reply) (job : ClientJob) :
    Heard { s with jobs := s.jobs ++ [job] } reply := by
  refine h.imp_left ?_
  rintro ⟨other,hm,htells⟩
  refine ⟨other,?_,htells⟩
  simp only [pending,List.mem_append] at hm ⊢
  tauto

lemma heard_deliver (s : ReplyPool) (h : reply.Tells job) :
    Heard { s with jobs := s.jobs ++ [job] } reply :=
  .inl ⟨job,by simp [pending],h⟩

end ReplyPool

section order

/-- The state that replies to one id leave behind. -/
def stateAfter (rts : List RepType) : WOpeState :=
  rts.foldl (fun state rt =>
    match rt with
    | .primaryJournalWrite => .onJournal
    | .primaryDiskWrite => .onDisk
    | _ => state) .other

/-- The type of a reply, where it is to a write with the id. -/
def ClientJob.typeFor (opeId : Bytes) : ClientJob → Option RepType
  | .repWrite rt id => if id = opeId then some rt else none
  | .repRead _ => none

def Reply.typeFor (address : Bytes × Int32) (opeId : Bytes) : Reply → Option RepType
  | .repWrite wopelog rt =>
    if wopelog.fromNode.address = address ∧ wopelog.opeId = opeId then some rt else none
  | .repRead _ _ => none

lemma Reply.Tells.typeFor {reply : Reply} {job : ClientJob} (h : reply.Tells job) (opeId : Bytes) :
    job.typeFor opeId = reply.typeFor reply.toNode.address opeId := by
  cases reply with
  | repWrite wopelog rt =>
    obtain rfl : job = .repWrite rt wopelog.opeId := h
    simp [ClientJob.typeFor,Reply.typeFor,Reply.toNode]
  | repRead ropelog result =>
    obtain ⟨r,rfl,-⟩ := h
    rfl

lemma Reply.typeFor_ne {reply : Reply} {address : Bytes × Int32} (h : address ≠ reply.toNode.address)
    (opeId : Bytes) : reply.typeFor address opeId = none := by
  cases reply with
  | repWrite wopelog rt => exact if_neg (fun hboth => h hboth.1.symm)
  | repRead _ _ => rfl

lemma AsynClient.getWopeState_handle_type (c : AsynClient) (opeId : Bytes) (job : ClientJob)
    {rts : List RepType} (h : c.getWopeState opeId = stateAfter rts) :
    (c.handle job).getWopeState opeId = stateAfter (rts ++ (job.typeFor opeId).toList) := by
  cases job with
  | repRead r =>
    rw [ClientJob.typeFor,Option.toList_none,List.append_nil,← h]
    exact ReplyPool.getWopeState_handle c (by simp [ReplyPool.Concerns])
  | repWrite rt id =>
    by_cases hid : id = opeId
    · subst hid
      rw [ClientJob.typeFor,if_pos rfl,Option.toList_some,stateAfter,List.foldl_append]
      cases rt with
      | primaryJournalWrite => exact congrArg Guarded.value (c.handleRepWrite_journal id)
      | primaryDiskWrite => exact congrArg Guarded.value (c.handleRepWrite_disk id)
      | _ => exact h
    · rw [ClientJob.typeFor,if_neg hid,Option.toList_none,List.append_nil,← h]
      exact congrArg Guarded.value (c.handleRepWrite_ne rt (Ne.symm hid))

/-- A pool with one worker that has been told `told` of an id has recorded the beginning, and what
it has still to handle is the rest. -/
structure ReplyPool.InOrder (opeId : Bytes) (told : List RepType) (s : ReplyPool) : Prop where
  arriving : s.arriving = []
  taken : s.taken.length ≤ 1
  order : ∃ handled, told = handled ++ s.pending.filterMap (·.typeFor opeId) ∧
    s.client.getWopeState opeId = stateAfter handled

namespace ReplyPool.InOrder
variable {opeId : Bytes} {told : List RepType} {s s' : ReplyPool}

lemma start (opeId : Bytes) : InOrder opeId [] { client := {} } :=
  ⟨rfl,Nat.zero_le 1,[],rfl,rfl⟩

lemma deliver (h : s.InOrder opeId told) (job : ClientJob) :
    InOrder opeId (told ++ (job.typeFor opeId).toList) { s with jobs := s.jobs ++ [job] } := by
  obtain ⟨harriving,htaken,handled,htold,hstate⟩ := h
  refine ⟨harriving,htaken,handled,?_,hstate⟩
  rw [htold,List.append_assoc]
  simp only [pending,harriving,List.append_nil,← List.append_assoc,List.filterMap_append]
  simp only [List.filterMap_cons,List.filterMap_nil]
  cases job.typeFor opeId <;> rfl

theorem step (h : s.InOrder opeId told) {m : Move} (hstep : s.step 1 m = some s') :
    s'.InOrder opeId told := by
  obtain ⟨harriving,htaken,handled,htold,hstate⟩ := h
  rcases step_pending hstep with ⟨hpending,hclient⟩ | ⟨before,job,after,hsplit,htaken',hjobs,hsame,hclient⟩
  · have hcalm : s'.arriving = [] ∧ s'.taken.length ≤ 1 := by
      cases m with
      | arrive => simp [ReplyPool.step,harriving] at hstep
      | take =>
        cases hjobs : s.jobs with
        | nil => simp [ReplyPool.step,hjobs] at hstep
        | cons job jobs =>
          simp only [ReplyPool.step,hjobs] at hstep
          split at hstep
          · rename_i hidle
            cases hstep
            exact ⟨harriving,by simpa using Nat.lt_one_iff.1 hidle⟩
          · cases hstep
      | handle i =>
        cases hdrop : s.taken.drop i with
        | nil => simp [ReplyPool.step,hdrop] at hstep
        | cons job after =>
          simp only [ReplyPool.step,hdrop,Option.some.injEq] at hstep
          subst hstep
          have hlength := congrArg List.length hpending
          have htotal := congrArg List.length (List.take_append_drop i s.taken)
          rw [hdrop] at htotal
          simp only [pending,List.length_append,List.length_cons] at hlength htotal
          omega
    exact ⟨hcalm.1,hcalm.2,handled,by rw [hpending,htold],by rw [hclient,hstate]⟩
  · -- The one worker has taken the oldest job.
    rw [hsplit,List.length_append,List.length_cons] at htaken
    obtain rfl : before = [] := List.length_eq_zero_iff.1 (by omega)
    obtain rfl : after = [] := List.length_eq_zero_iff.1 (by omega)
    refine ⟨hsame.trans harriving,by simp [htaken'],handled ++ (job.typeFor opeId).toList,?_,?_⟩
    · rw [htold,pending,hsplit,pending,htaken',hjobs,hsame,List.append_assoc]
      simp only [List.nil_append,List.cons_append,List.filterMap_cons]
      cases job.typeFor opeId <;> simp
    · rw [hclient]
      exact s.client.getWopeState_handle_type opeId job hstate

end ReplyPool.InOrder
end order
end GDFileStore
