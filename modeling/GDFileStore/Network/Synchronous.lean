import GDFileStore.Attributes.Identity
import GDFileStore.Journal.Disk
import GDFileStore.Journal.Returning
import GDFileStore.Messages.WriteRequest

/-! The synchronous write: a client posts an operation to `/write` and waits, and the handler gives it
to the journal of its store, as the primary or as a replica, before it responds. The server runs the
handlers of all its clients side by side. -/
namespace GDFileStore
open Sequences Program Prog Operation Serializable

inductive ConnectionReturnType where
  | success | failOfPrimary | failOfReplica | failAnyway
  deriving DecidableEq, Repr

section Store
variable (fs : FileStore) (fsname logJournalHead : Bytes)

namespace FileStore

/-- `PrimaryHandleWriteOperation`, which does not call the followers. -/
def primaryHandleWriteOperation (wope : Operation) : JournalTask Bool := do
  (fs.journal logJournalHead).handleWriteOperation (.one wope true)
  return true

/-- `ReplicaHandleWriteOperation`. -/
def replicaHandleWriteOperation (wope : Operation) (osds : List InfoForNetNode) :
    JournalTask Bool :=
  if osds.any (fun o => fs.info.name = o.name) then do
    (fs.journal logJournalHead).handleWriteOperation (.one wope true)
    return true
  else return false

/-- `GDFileStore::HandleWriteOperation`. -/
def handleWriteOperation (wope : Operation) (osds : List InfoForNetNode) : JournalTask Bool :=
  match osds with
  | [] => return false
  | primaryOsd::_ =>
    if primaryOsd.name = fsname then fs.primaryHandleWriteOperation logJournalHead wope
    else fs.replicaHandleWriteOperation logJournalHead wope osds

/-- The store is the first of the OSDs, or its node is one of them. -/
def Named (osds : List InfoForNetNode) : Bool :=
  osds.head?.any (fun o => o.name = fsname) || osds.any (fun o => fs.info.name = o.name)

/-- A named store gives the operation to its journal and flushes it, any other does nothing. -/
lemma handleWriteOperation_eq (wope : Operation) (osds : List InfoForNetNode) :
    fs.handleWriteOperation fsname logJournalHead wope osds =
      if fs.Named fsname osds then
        ((fs.journal logJournalHead).handleWriteOperation (.one wope true) >>= fun _ => .done true)
      else .done false := by
  cases osds with
  | nil => rfl
  | cons primaryOsd osds =>
    by_cases hprimary : primaryOsd.name = fsname
    · simp [handleWriteOperation,Named,hprimary,primaryHandleWriteOperation]
    · simp [handleWriteOperation,Named,hprimary,replicaHandleWriteOperation]

end FileStore

/-- The handler of `/write`, with the body of its response. It has none where the request cannot be
read. -/
def FSConnnectionServer.respond (memory : Operation) (content : Bytes) :
    JournalTask (Option Bytes) :=
  match write memory content with
  | none => return none
  | some m => do
    let result ← fs.handleWriteOperation fsname logJournalHead m.ope m.osds
    return some (if result then lit "success" else [])

end Store

/-- What `WriteAndWaitReturn` returns when the response has this body, or when none comes. -/
def FSConnnectionClient.returnType (osds : List InfoForNetNode) (resultBody : Option Bytes) :
    ConnectionReturnType :=
  if osds.length = 0 then .failOfPrimary
  else if resultBody = some (lit "success") then .success
  else .failAnyway

/-- An object has nothing but the members of its key and its pool. -/
lemma GHObject.eq_of_key {g h : GHObject} (hkey : g.key = h.key) (hpool : g.hobj.pool = h.hobj.pool) :
    g = h := by
  obtain ⟨⟨⟨name⟩,⟨timeStamp⟩,hash,max,pool⟩,generation,⟨shard⟩,owner⟩ := g
  obtain ⟨⟨⟨name'⟩,⟨timeStamp'⟩,hash',max',pool'⟩,generation',⟨shard'⟩,owner'⟩ := h
  simp only [key,GHKey.mk.injEq] at hkey hpool
  simp only [hkey,hpool]

/-- An operation as a handler reads it: the pool of its object is what the memory holds. -/
def Operation.asReceived (memory ope : Operation) : Operation where
  operationType := ope.operationType
  data := ⟨some { data := ope.data.payload },ope.data.start,ope.data.stop⟩
  obj := { ope.obj with hobj := { ope.obj.hobj with pool := memory.obj.hobj.pool } }
  filePos := ope.filePos

/-- A call of `WriteAndWaitReturn`, with what is in the memory that its operation is read into. -/
structure WriteCall where
  ope : Operation
  osds : List InfoForNetNode
  reloadConnection : Bool := false
  memory : Operation

namespace WriteCall

/-- What is posted can be read: the operation is no delete, whose slice has no buffer, and an `int`
can count the body. -/
structure Readable (c : WriteCall) : Prop where
  insert : c.ope.operationType = .insert
  data : c.ope.data.data.isSome
  short : bodyLength c.ope c.osds < 2^31

def received (c : WriteCall) : Operation := asReceived c.memory c.ope

section Thread
variable (fs : FileStore) (fsname logJournalHead : Bytes) (c : WriteCall)

/-- The thread that handles the call, which has nothing to do when nothing is posted. -/
def thread : JournalTask (Option Bytes) :=
  match FSConnnectionClient.writeAndWaitReturn c.ope c.osds c.reloadConnection with
  | none => return none
  | some body => FSConnnectionServer.respond fs fsname logJournalHead c.memory body

/-- The response to a call that the journal has nothing to do with. -/
def refused : Option Bytes := if c.osds = [] then none else some []

/-- The call with what its thread has to run on the journal. -/
def onJournal : Wrapped JournalRequest.Resp WriteCall Operation where
  tag := c
  program :=
    if fs.Named fsname c.osds then some ((fs.journal logJournalHead).call c.received) else none

end Thread

variable {fs : FileStore} {fsname logJournalHead : Bytes} {c : WriteCall}

/-- The slice of an operation that was read has a fresh buffer, and its object the pool that was
there. -/
lemma of_write {memory : Operation} {body : Bytes} {m : WriteRequest}
    (h : FSConnnectionServer.write memory body = some m) :
    m.ope.data.data = some { data := m.ope.data.payload } ∧
      m.ope.obj.hobj.pool = memory.obj.hobj.pool := by
  obtain ⟨⟨ope,b1⟩,hope,h⟩ := Option.bind_eq_some_iff.1 h
  obtain ⟨⟨osdLen,b2⟩,-,h⟩ := Option.bind_eq_some_iff.1 h
  obtain ⟨-,h⟩ := Option.ite_none_left_eq_some.1 h
  obtain ⟨⟨osds,b3⟩,-,h⟩ := Option.bind_eq_some_iff.1 h
  obtain ⟨⟨reloadConnection,b4⟩,-,h⟩ := Option.bind_eq_some_iff.1 h
  obtain rfl := Option.some.inj h
  obtain ⟨⟨operationType,b5⟩,-,hope⟩ := Option.bind_eq_some_iff.1 hope
  obtain ⟨⟨data,b6⟩,hdata,hope⟩ := Option.bind_eq_some_iff.1 hope
  obtain ⟨⟨obj,b7⟩,hobj,hope⟩ := Option.bind_eq_some_iff.1 hope
  obtain ⟨⟨filePos,b8⟩,-,hope⟩ := Option.bind_eq_some_iff.1 hope
  obtain ⟨rfl,rfl⟩ := Prod.mk.inj (Option.some.inj hope)
  obtain ⟨⟨start,b9⟩,-,hdata⟩ := Option.bind_eq_some_iff.1 hdata
  obtain ⟨⟨stop,b10⟩,-,hdata⟩ := Option.bind_eq_some_iff.1 hdata
  obtain ⟨⟨bytes,b11⟩,-,hdata⟩ := Option.bind_eq_some_iff.1 hdata
  obtain ⟨rfl,rfl⟩ := Prod.mk.inj (Option.some.inj hdata)
  exact ⟨rfl,GHObject.pool_of_read hobj⟩

/-- The handler reads the operation and the OSDs of a call. -/
lemma exists_read (hosds : c.osds ≠ []) (h : c.Readable) : ∃ body m,
    FSConnnectionClient.writeAndWaitReturn c.ope c.osds c.reloadConnection = some body ∧
      FSConnnectionServer.write c.memory body = some m ∧ m.ope = c.received ∧ m.osds = c.osds := by
  obtain ⟨-,hdata,hshort⟩ := h
  have hfits := requestFits_of_short hshort
  have hlength := length_requestBytes_payload c.ope c.osds c.reloadConnection
  obtain ⟨m,hm,htype,hstart,hstop,hpayload,hobj,hfilePos,hmosds,-⟩ :=
    @write_front c.memory c.ope c.osds c.reloadConnection hfits (hlength ▸ hshort)
  refine ⟨_,m,?_,hm,?_,hmosds⟩
  · rw [writeAndWaitReturn_eq hosds hfits,Slice.written_of_isSome hdata]
  · obtain ⟨hfresh,hpool⟩ := of_write hm
    have hsame : m.ope.obj = c.received.obj :=
      GHObject.eq_of_key (GHObject.es_eq_iff.1 hobj) hpool
    rw [hpayload] at hfresh
    obtain ⟨⟨operationType,⟨data,start,stop⟩,obj,filePos⟩,osds,reloadConnection,buf⟩ := m
    obtain rfl : operationType = _ := htype
    obtain rfl : start = _ := hstart
    obtain rfl : stop = _ := hstop
    obtain rfl : obj = _ := hsame
    obtain rfl : filePos = _ := hfilePos
    obtain rfl : data = _ := hfresh
    rfl

/-- What a thread has run on the journal comes out as success. -/
def finished (_ : WriteCall) (_ : Operation) : Option Bytes := some (lit "success")

lemma thread_eq (h : c.Readable) : c.thread fs fsname logJournalHead =
    Wrapped.thread refused finished (c.onJournal fs fsname logJournalHead) := by
  by_cases hosds : c.osds = []
  · simp [thread,FSConnnectionClient.writeAndWaitReturn,Wrapped.thread,onJournal,refused,hosds,
      FileStore.Named]
  · obtain ⟨body,m,hbody,hread,hope,hmosds⟩ := exists_read hosds h
    rw [thread,hbody]
    simp only [FSConnnectionServer.respond,hread,hope,hmosds,FileStore.handleWriteOperation_eq]
    cases hnamed : fs.Named fsname c.osds with
    | true =>
      simp only [if_true,bind_bind,done_bind,onJournal,hnamed,Wrapped.thread,Journal.call]
      rfl
    | false => simp [onJournal,hnamed,Wrapped.thread,refused,hosds]

section Runs
variable (fs : FileStore) (fsname : Bytes)

/-- The operations of the calls that name the store, as it reads them. -/
def accepted (calls : List WriteCall) : List Operation :=
  (calls.filter (fun c => fs.Named fsname c.osds)).map received

/-- The operations of the calls that return success, by the responses that have come. -/
def acknowledged (calls : List WriteCall) (responses : List (Option Bytes)) : List Operation :=
  ((calls.zip responses).filter (fun x =>
    FSConnnectionClient.returnType x.1.osds x.2 = .success)).map (fun x => x.1.received)

/-- No response comes but one that the thread has sent. -/
def Responded (q : JournalTask (Option Bytes)) (response : Option Bytes) : Prop :=
  response = none ∨ q.result? = some response

end Runs

section Run
variable {calls : List WriteCall}
  {us : List (Wrapped JournalRequest.Resp WriteCall Operation)} {responses : List (Option Bytes)}

lemma insides_onJournal :
    insides (calls.map (fun c => c.onJournal fs fsname logJournalHead)) =
      (accepted fs fsname calls).map (fs.journal logJournalHead).call := by
  induction calls with
  | nil => rfl
  | cons c calls ih =>
    cases hnamed : fs.Named fsname c.osds with
    | true => simpa [insides,accepted,onJournal,hnamed] using ih
    | false => simpa [insides,accepted,onJournal,hnamed] using ih

/-- A call returns success only when its thread has run a call of the journal to its end. -/
lemma result_of_success {t : Wrapped JournalRequest.Resp WriteCall Operation}
    {response : Option Bytes} (hresponse : Responded (t.thread refused finished) response)
    (hsuccess : FSConnnectionClient.returnType t.tag.osds response = .success) :
    ∃ a, t.program = some (.done a) := by
  have hbody : response = some (lit "success") := by
    by_contra hne
    simp only [FSConnnectionClient.returnType,if_neg hne] at hsuccess
    split at hsuccess <;> cases hsuccess
  subst hbody
  rcases hresponse with hnone | hresult
  · cases hnone
  · obtain hthread : t.thread refused finished = .done (some (lit "success")) := by
      revert hresult
      cases t.thread refused finished with
      | done a => rintro ⟨⟩; rfl
      | call op rest => rintro ⟨⟩
    rcases Wrapped.of_thread_done hthread with ⟨-,hrefused⟩ | ⟨a,hprogram,-⟩
    · rw [refused] at hrefused
      split at hrefused
      · cases hrefused
      · exact absurd (Option.some.inj hrefused) (by decide)
    · exact ⟨a,hprogram⟩

lemma acknowledged_sublist
    (hresponses : List.Forall₂ Responded (us.map (Wrapped.thread refused finished)) responses)
    (hreturns : ∀ t ∈ us, ∀ p ∈ t.program, p.Returns (· = t.tag.received)) :
    (acknowledged (us.map Wrapped.tag) responses).Sublist ((insides us).filterMap Prog.result?) := by
  induction us generalizing responses with
  | nil => exact .refl _
  | cons t us ih =>
    obtain ⟨response,rest,hresponse,hrest,rfl⟩ := List.forall₂_cons_left_iff.1 hresponses
    have htail := ih hrest (fun u hu => hreturns u (List.mem_cons_of_mem _ hu))
    by_cases hsuccess : FSConnnectionClient.returnType t.tag.osds response = .success
    · obtain ⟨a,hprogram⟩ := result_of_success hresponse hsuccess
      have ha : a = t.tag.received := hreturns t List.mem_cons_self (.done a) hprogram
      have hinsides : (insides (t::us)).filterMap Prog.result? =
          a::(insides us).filterMap Prog.result? := by
        simp [insides,hprogram,Prog.result?]
      rw [hinsides,ha]
      simpa [acknowledged,hsuccess] using htail
    · have hinsides : ((insides us).filterMap Prog.result?).Sublist
          ((insides (t::us)).filterMap Prog.result?) :=
        (List.Sublist.filterMap _ (List.sublist_cons_self t us)).filterMap _
      refine List.Sublist.trans ?_ hinsides
      simpa [acknowledged,hsuccess] using htail

/-- All that the threads have returned has come. -/
lemma responded_of_results {qs : List (JournalTask (Option Bytes))}
    (h : qs.map Prog.result? = responses.map some) : List.Forall₂ Responded qs responses := by
  induction qs generalizing responses with
  | nil =>
    obtain rfl := List.map_eq_nil_iff.1 h.symm
    exact .nil
  | cons q qs ih =>
    obtain ⟨response,responses,rfl,hq,hqs⟩ := List.map_eq_cons_iff.1 h.symm
    exact .cons (.inr hq.symm) (ih hqs.symm)

variable {files : Bytes → Option Bytes} {qs : List (JournalTask (Option Bytes))} {s : JournalState}

/-- A run of the threads is one of the calls of the journal that they make. -/
theorem exists_calls (hread : ∀ c ∈ calls, c.Readable)
    {may : JournalTask (Option Bytes) → List (JournalTask (Option Bytes)) → Prop} {s₀ : JournalState}
    (hrun : PoolRun (fs.journal logJournalHead).handle may
      (calls.map (thread fs fsname logJournalHead)) s₀ qs s) :
    ∃ us : List (Wrapped JournalRequest.Resp WriteCall Operation),
      us.map (Wrapped.thread refused finished) = qs ∧
      us.map Wrapped.kind = calls.map (fun c => (c,fs.Named fsname c.osds)) ∧
      (∀ t ∈ us, ∀ p ∈ t.program, p.Returns (· = t.tag.received)) ∧
      PoolRun (fs.journal logJournalHead).handle
        (fun p others => (∀ q qs, may q qs → AppendsApart q qs) → Journal.NoAppendBeforeClear p others)
        ((accepted fs fsname calls).map (fs.journal logJournalHead).call) s₀ (insides us) s := by
  have hthreads : calls.map (thread fs fsname logJournalHead) =
      (calls.map (fun c => c.onJournal fs fsname logJournalHead)).map
        (Wrapped.thread refused finished) := by
    rw [List.map_map]
    exact List.map_congr_left (fun c hc => thread_eq (hread c hc))
  rw [hthreads] at hrun
  have hreturns : ∀ t ∈ calls.map (fun c => c.onJournal fs fsname logJournalHead),
      ∀ p ∈ t.program, p.Returns (· = t.tag.received) := by
    intro t ht p hp
    obtain ⟨c,-,rfl⟩ := List.mem_map.1 ht
    simp only [onJournal,Option.mem_def,Option.ite_none_right_eq_some] at hp
    cases hp.2
    exact Returns.bind_of (fun _ => rfl)
  have hkinds : (calls.map (fun c => c.onJournal fs fsname logJournalHead)).map Wrapped.kind =
      calls.map (fun c => (c,fs.Named fsname c.osds)) := by
    rw [List.map_map]
    refine List.map_congr_left ?_
    intro c _
    cases hnamed : fs.Named fsname c.osds <;> simp [onJournal,Wrapped.kind,hnamed]
  rw [← insides_onJournal,← hkinds]
  refine hrun.inside (Q := fun c a => a = c.received) ?_ hreturns
  intro c p ts hallowed hapart
  exact Journal.noAppendBeforeClear_of_thread (hapart _ _ hallowed)

end Run

section Written
variable {calls : List WriteCall} {objs : Set GHObject} {files : Bytes → Option Bytes}
  {qs : List (JournalTask (Option Bytes))} {s : JournalState}

/-- However the handlers of synchronous writes interleave: while no flush is going on, the journal
file of an object is its first content edited by the operations that flushes have included, as the
handlers read them; these and the pending ones are operations of calls that name the store; and
where no append comes between a grouping loop and its `clear`, the operations of all calls that
return success are included. -/
theorem acknowledged_included (hread : ∀ c ∈ calls, c.Readable) (hobjs : JournalFiles objs)
    (huse : ∀ op ∈ accepted fs fsname calls, op.obj ∈ objs)
    {may : JournalTask (Option Bytes) → List (JournalTask (Option Bytes)) → Prop}
    (hrun : PoolRun (fs.journal logJournalHead).handle may
      (calls.map (thread fs fsname logJournalHead)) { files := files } qs s)
    {responses : List (Option Bytes)} (hresponses : List.Forall₂ Responded qs responses)
    {gh : GHObject} (hgh : gh ∈ objs) (hfree : s.locked = false)
    (hlegal : Legal (files ((fs.journal logJournalHead).path gh))
      ((fs.journal logJournalHead).included s gh)) :
    s.files ((fs.journal logJournalHead).path gh) =
        edited (files ((fs.journal logJournalHead).path gh))
          ((fs.journal logJournalHead).included s gh) ∧
      ((fs.journal logJournalHead).included s gh ++ Journal.ofObject gh s.wOpes).Subperm
        (Journal.ofObject gh (accepted fs fsname calls)) ∧
      ((∀ q others, may q others → AppendsApart q others) →
        (Journal.ofObject gh (acknowledged calls responses)).Subperm
          ((fs.journal logJournalHead).included s gh)) := by
  obtain ⟨us,rfl,hkinds,hreturns,hcalls⟩ := exists_calls hread hrun
  obtain ⟨trace,hrecorded⟩ := hcalls.exists_recorded
  obtain ⟨ts,-,-,hinv⟩ := Journal.Batched.of_run hobjs.objects (fun hno : False => hno.elim) huse hrecorded
  obtain ⟨vs,-,-,horderly⟩ := Journal.orderly hrecorded
  have hbatched := hinv gh hgh
  refine ⟨hbatched.content_free hfree hlegal,?_,?_⟩
  · have happended : (Journal.appended trace).Subperm (accepted fs fsname calls) :=
      (List.sublist_append_left _ _).subperm.trans horderly.appended.subperm
    exact (hbatched.free hfree).sublist.subperm.trans (happended.filter _)
  · intro hapart
    have hfile : Journal.OneFile (accepted fs fsname calls) := by
      intro a ha b hb hsame
      rw [(hobjs.objects.sameKey_iff (huse a ha) (huse b hb)).1 hsame]
    have htags : us.map Wrapped.tag = calls := by
      have hfst := congrArg (List.map Prod.fst) hkinds
      simpa [Wrapped.kind,Function.comp_def] using hfst
    have hsub := acknowledged_sublist hresponses hreturns
    rw [htags] at hsub
    rw [List.subperm_ext_iff]
    intro op hop
    obtain rfl : op.obj = gh := by simpa using (List.mem_filter.1 hop).2
    calc (Journal.ofObject op.obj (acknowledged calls responses)).count op
        ≤ (acknowledged calls responses).count op := List.filter_sublist.count_le _
      _ ≤ ((insides us).filterMap Prog.result?).count op := hsub.count_le _
      _ ≤ _ := Journal.count_returned hfile (hcalls.mono (fun _ _ h => h hapart)) op

/-- A call to the primary, one to a replica and one to a server that is not named. -/
def threeCalls : List WriteCall :=
  [{ ope := OperationWrapper.appendWrapper (generation 1) (lit "a")
     osds := [{ name := lit "s" }]
     memory := OperationWrapper.deleteWrapper {} 0 0 },
   { ope := OperationWrapper.appendWrapper (generation 2) (lit "b")
     osds := [{ name := lit "t" },{}]
     memory := OperationWrapper.deleteWrapper {} 0 0 },
   { ope := OperationWrapper.appendWrapper (generation 2) (lit "c")
     osds := [{ name := lit "t" }]
     memory := OperationWrapper.deleteWrapper {} 0 0 }]

lemma threeCalls_readable : ∀ c ∈ threeCalls, c.Readable := by
  simp only [threeCalls,List.mem_cons,List.not_mem_nil,or_false,forall_eq_or_imp,forall_eq]
  exact ⟨⟨rfl,rfl,by decide⟩,⟨rfl,rfl,by decide⟩,⟨rfl,rfl,by decide⟩⟩

lemma accepted_threeCalls : accepted sampleStore (lit "s") threeCalls = Journal.samplePair := by
  decide

/-- Both calls that are accepted return success, and what they have written is there. -/
theorem acknowledged_included_three : ∃ (qs : List (JournalTask (Option Bytes))) (s : JournalState),
    PoolRun (sampleStore.journal []).handle AppendsApart
      (threeCalls.map (thread sampleStore (lit "s") [])) {} qs s ∧
      qs.map Prog.result? = [some (some (lit "success")),some (some (lit "success")),some (some [])] ∧
      s.files ((sampleStore.journal []).path (generation 2)) =
        edited none ((sampleStore.journal []).included s (generation 2)) ∧
      ((sampleStore.journal []).included s (generation 2) ++
        Journal.ofObject (generation 2) s.wOpes).Subperm
          (Journal.ofObject (generation 2) (accepted sampleStore (lit "s") threeCalls)) ∧
      (Journal.ofObject (generation 2) (acknowledged threeCalls
        [some (lit "success"),some (lit "success"),some []])).Subperm
          ((sampleStore.journal []).included s (generation 2)) := by
  have horder : (schedule (sampleStore.journal []).handle AppendsApart
      [0,1,0,0,0,0,0,0,0,0,1,1,1,1] (threeCalls.map (thread sampleStore (lit "s") [])) {}).map
        (fun r => (r.1.map Prog.result?,r.2.locked,
          (sampleStore.journal []).included r.2 (generation 2))) =
      some ([some (some (lit "success")),some (some (lit "success")),some (some [])],false,
        [OperationWrapper.appendWrapper (generation 2) (lit "b")]) := by
    decide +kernel
  obtain ⟨⟨qs,s⟩,hs,hresult⟩ := Option.map_eq_some_iff.1 horder
  simp only [Prod.mk.injEq] at hresult
  obtain ⟨hresults,hfree,hincluded⟩ := hresult
  have hrun := PoolRun.of_schedule .start hs
  have huse : ∀ op ∈ accepted sampleStore (lit "s") threeCalls,
      op.obj ∈ {gh | gh = generation 1 ∨ gh = generation 2} := by
    rw [accepted_threeCalls]
    decide
  have hresponses : List.Forall₂ Responded qs
      [some (lit "success"),some (lit "success"),some []] := responded_of_results hresults
  have hlegal : Legal none ((sampleStore.journal []).included s (generation 2)) := by
    rw [hincluded]
    exact ⟨by decide,by decide +kernel,by decide +kernel⟩
  obtain ⟨hfile,haccepted,hacknowledged⟩ := acknowledged_included threeCalls_readable
    Journal.sampleFiles huse hrun hresponses (.inr rfl) hfree hlegal
  exact ⟨qs,s,hrun,hresults,hfile,haccepted,hacknowledged (fun _ _ h => h)⟩

/-- The response to a call. -/
def response (fs : FileStore) (fsname : Bytes) (c : WriteCall) : Option Bytes :=
  if fs.Named fsname c.osds then some (lit "success") else c.refused

/-- However the handlers take turns, they all come to respond, with success exactly where the call
names the store: the lock of the journal is always given back, as long as the inserts on an object
are legal for its file in whatever order they come. -/
theorem all_answered (hread : ∀ c ∈ calls, c.Readable) (hobjs : JournalFiles objs)
    (huse : ∀ op ∈ accepted fs fsname calls, op.obj ∈ objs)
    (hlegal : ∀ gh ∈ objs, ∀ opes, opes.Subperm (Journal.ofObject gh (accepted fs fsname calls)) →
      Legal (files ((fs.journal logJournalHead).path gh)) opes)
    (hrun : PoolRun (fs.journal logJournalHead).handle (fun _ _ => True)
      (calls.map (thread fs fsname logJournalHead)) { files := files } qs s) :
    Inevitable (Turn (fs.journal logJournalHead).handle)
      (fun x => x.1 = calls.map (fun c => .done (c.response fs fsname))) (qs,s) := by
  refine hrun.comes_to_rest (Q := fun qs _ => qs = calls.map (fun c => .done (c.response fs fsname)))
    ?_
  intro qs s hrun hstuck
  obtain ⟨us,rfl,hkinds,-,hcalls⟩ := exists_calls hread hrun
  have hinsert : ∀ op ∈ accepted fs fsname calls, op.operationType = .insert := by
    intro op hop
    obtain ⟨c,hc,rfl⟩ := List.mem_map.1 hop
    exact (hread c (List.mem_of_mem_filter hc)).insert
  have hinside : ∀ p ∈ insides us, ∀ r ∈ p.next?, (fs.journal logJournalHead).handle r s = none := by
    intro p hp r hr
    obtain ⟨⟨c,program⟩,ht,rfl⟩ := mem_insides.1 hp
    refine hstuck _ (List.mem_map_of_mem ht) r ?_
    rw [Wrapped.next?_thread]
    exact hr
  rcases Journal.all_return hobjs.objects huse hinsert hcalls hinside with hdone | ⟨gh,hgh,opes,hsub,hno⟩
  · have hthread : ∀ t ∈ us, t.thread refused finished =
        .done (if t.kind.2 then some (lit "success") else t.kind.1.refused) := by
      intro t ht
      obtain ⟨c,program⟩ := t
      cases program with
      | none => rfl
      | some p =>
        have hnext := hdone p (mem_insides.2 ⟨_,ht,rfl⟩)
        cases p with
        | done a => rfl
        | call r rest => cases hnext
    calc us.map (Wrapped.thread refused finished)
        = (us.map Wrapped.kind).map (fun k =>
            .done (if k.2 then some (lit "success") else k.1.refused)) := by
          rw [List.map_map]
          exact List.map_congr_left hthread
      _ = calls.map (fun c => .done (c.response fs fsname)) := by
          rw [hkinds,List.map_map]
          rfl
  · exact absurd (hlegal gh hgh opes hsub) hno

/-- Three calls that are all answered. -/
theorem all_answered_three : Inevitable (Turn (sampleStore.journal []).handle)
    (fun x => x.1 = [.done (some (lit "success")),.done (some (lit "success")),.done (some [])])
    (threeCalls.map (thread sampleStore (lit "s") []),{}) := by
  have huse : ∀ op ∈ accepted sampleStore (lit "s") threeCalls,
      op.obj ∈ {gh | gh = generation 1 ∨ gh = generation 2} := by
    rw [accepted_threeCalls]
    decide
  refine all_answered threeCalls_readable Journal.sampleFiles huse ?_ .start
  rw [accepted_threeCalls]
  rintro gh hgh opes ⟨l,hperm,hsub⟩
  obtain ⟨op,hone,hlegal⟩ : ∃ op, Journal.ofObject gh Journal.samplePair = [op] ∧ Legal none [op] := by
    rcases hgh with rfl | rfl
    · exact ⟨OperationWrapper.appendWrapper (generation 1) (lit "a"),by decide,by decide,
        by decide +kernel,by decide +kernel⟩
    · exact ⟨OperationWrapper.appendWrapper (generation 2) (lit "b"),by decide,by decide,
        by decide +kernel,by decide +kernel⟩
  rw [hone,List.sublist_singleton] at hsub
  rcases hsub with rfl | rfl
  · obtain rfl := hperm.symm.eq_nil
    exact ⟨by decide,by decide +kernel,by decide +kernel⟩
  · obtain rfl := List.perm_singleton.1 hperm.symm
    exact hlegal

end Written
end WriteCall
end GDFileStore
