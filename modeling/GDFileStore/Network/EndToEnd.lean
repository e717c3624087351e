import GDFileStore.Network.Known

/-! From a client's tables to the server's journal: what is recorded of a write or a read holds of
the versions that the server keeps, through lost messages and crashes of the server. -/
namespace GDFileStore
open Sequences Program Serializable

lemma Action.sent_mem_events {a : Action} {reply : Reply} :
    Event.sent reply ∈ a.events ↔ reply ∈ a.sent := by
  cases a <;> simp [Action.events,Action.sent]

lemma Server.mem_eventsOf {σ : Type} {s : Server σ} {t : ℕ} {e : Event} :
    e ∈ s.eventsOf t ↔ (t,e) ∈ s.trace := by
  simp [eventsOf,List.mem_filterMap]

lemma DataServer.mem_answersTo {σ : Type} {d : DataServer σ} {t : ℕ} {reply : Reply} :
    reply ∈ d.answersTo t ↔ (t,reply) ∈ d.answers := by
  simp [answersTo,List.mem_filterMap]

/-- What has been sent by some stage is owed, and the journal write was answered first. -/
lemma Progress.sent_mem {wopelog : WOpeLog} {reply : Reply} (stage : Progress)
    (h : Event.sent reply ∈ stage.events wopelog) : reply ∈ wopelog.owed ∧
      Event.sent (.repWrite wopelog .primaryJournalWrite) ∈ stage.events wopelog := by
  cases stage with
  | received => simp [events] at h
  | writing => simp [events] at h
  | written => simp [events] at h
  | answered => exact ⟨by simpa [events,WOpeLog.owed] using Or.inl h,by simp [events]⟩
  | handedOn => exact ⟨by simpa [events,WOpeLog.owed] using Or.inl h,by simp [events]⟩
  | closed => exact ⟨by simpa [events,WOpeLog.owed] using h,by simp [events]⟩

namespace DataServer
section replies
variable {σ : Type} {fs : FileStore} {threads : ℕ}
  {outcome : (r : Request) → σ → r.Resp → σ → Prop} {world₀ : σ} {d : DataServer σ} {reply : Reply}

lemma Step.sent_subset {d d' : DataServer σ} (h : Step fs threads outcome d d') : d.sent ⊆ d'.sent := by
  cases h with
  | actWope => exact List.subset_append_left _ _
  | actRope => exact List.subset_append_left _ _
  | _ => exact fun _ hm => hm

/-- Every reply has been sent for a write or for a read, and all those are sent. -/
lemma Reachable.mem_sent_iff (h : Reachable fs threads outcome world₀ d) : reply ∈ d.sent ↔
    (∃ t, (t,Event.sent reply) ∈ d.writes.trace) ∨ ∃ t, (t,reply) ∈ d.answers := by
  induction h with
  | start => simp
  | step _ hstep ih =>
    cases hstep with
    | actWope before after answer _ _ =>
      simp only [actWope,Server.act,List.mem_append,ih,List.mem_map,Prod.mk.injEq,exists_or,
        ← Action.sent_mem_events]
      grind
    | actRope before after answer _ _ =>
      simp only [actRope,List.mem_append,ih,List.mem_map,Prod.mk.injEq,exists_or]
      grind
    | _ => exact ih

/-- A reply is owed to an accepted write, which has been told of its journal write, or it answers a
read that was asked. -/
lemma Reachable.sent_cases (h : Reachable fs threads outcome world₀ d) (hsent : reply ∈ d.sent) :
    (∃ wopelog ∈ d.writes.accepted, reply ∈ wopelog.owed ∧
      .repWrite wopelog .primaryJournalWrite ∈ d.sent) ∨
    ∃ ropelog ∈ d.asked, ropelog.Answer reply := by
  have hinv := h.inv
  rcases h.mem_sent_iff.1 hsent with ⟨t,ht⟩ | ⟨t,ht⟩
  · have hevent : Event.sent reply ∈ d.writes.eventsOf t := Server.mem_eventsOf.2 ht
    have hlt : t < d.writes.accepted.length := by
      by_contra hle
      rw [hinv.writes.unissued t (not_lt.1 hle)] at hevent
      exact absurd hevent List.not_mem_nil
    obtain ⟨stage,hevents,-⟩ := hinv.writes.stage (List.getElem?_eq_getElem hlt)
    rw [hevents] at hevent
    obtain ⟨howed,hjournal⟩ := stage.sent_mem hevent
    rw [← hevents,Server.mem_eventsOf] at hjournal
    exact .inl ⟨_,List.getElem_mem hlt,howed,h.mem_sent_iff.2 (.inl ⟨t,hjournal⟩)⟩
  · have hanswer : reply ∈ d.answersTo t := mem_answersTo.2 ht
    have hlt : t < d.asked.length := by
      by_contra hle
      rw [hinv.unissued t (not_lt.1 hle)] at hanswer
      exact absurd hanswer List.not_mem_nil
    rcases hinv.answered (List.getElem?_eq_getElem hlt) with ⟨hnone,-⟩ | ⟨-,datas,hlen,hone⟩
    · rw [hnone] at hanswer
      exact absurd hanswer List.not_mem_nil
    · rw [hone] at hanswer
      exact .inr ⟨_,List.getElem_mem hlt,datas,hlen,List.mem_singleton.1 hanswer⟩

end replies
end DataServer

namespace Network
variable {fs : FileStore} {threads workers : ℕ} {info : InfoForNetNode} {w₀ : World}
  {n n' : Network} {v₀ : Versions}

/-- A client has posted the write that a log was made of. -/
def Wrote (n : Network) (wopelog : WOpeLog) : Prop :=
  ∃ wope, (wopelog.fromNode,wopelog.opeId,wope) ∈ n.written ∧ es wopelog.wope = es wope

def Asked (n : Network) (ropelog : ROpeLog) : Prop :=
  ∃ rope, (ropelog.fromNode,ropelog.opeId,rope) ∈ n.asked ∧ es ropelog.rope = es rope

/-- A reply has its request. -/
def Earned (n : Network) (reply : Reply) : Prop :=
  (∃ wopelog, n.Wrote wopelog ∧ reply ∈ wopelog.owed ∧
    .repWrite wopelog .primaryJournalWrite ∈ n.sent) ∨
  ∃ ropelog, n.Asked ropelog ∧ ropelog.Answer reply

/-- The server has sent the client at an address what a job says. -/
def Told (n : Network) (address : Bytes × Int32) (job : ClientJob) : Prop :=
  ∃ reply ∈ n.sent, reply.toNode.address = address ∧ reply.Tells job

/-- What has been posted and sent only grows. -/
structure Grows (n n' : Network) : Prop where
  written : n.written ⊆ n'.written
  asked : n.asked ⊆ n'.asked
  sent : n.sent ⊆ n'.sent

namespace Grows

lemma wrote (h : Grows n n') {wopelog : WOpeLog} (hw : n.Wrote wopelog) : n'.Wrote wopelog := by
  obtain ⟨wope,hm,hes⟩ := hw
  exact ⟨wope,h.written hm,hes⟩

lemma ask (h : Grows n n') {ropelog : ROpeLog} (hr : n.Asked ropelog) : n'.Asked ropelog := by
  obtain ⟨rope,hm,hes⟩ := hr
  exact ⟨rope,h.asked hm,hes⟩

lemma earned (h : Grows n n') {reply : Reply} (hr : n.Earned reply) : n'.Earned reply := by
  rcases hr with ⟨wopelog,hwrote,howed,hjournal⟩ | ⟨ropelog,hasked,hanswer⟩
  · exact .inl ⟨wopelog,h.wrote hwrote,howed,h.sent hjournal⟩
  · exact .inr ⟨ropelog,h.ask hasked,hanswer⟩

lemma told (h : Grows n n') {address : Bytes × Int32} {job : ClientJob} (ht : n.Told address job) :
    n'.Told address job := by
  obtain ⟨reply,hsent,hnode,htells⟩ := ht
  exact ⟨reply,h.sent hsent,hnode,htells⟩

end Grows

structure Inv (fs : FileStore) (threads : ℕ) (w₀ : World) (n : Network) : Prop where
  lives : ∃ w, Lives fs threads w₀ n.past w ∧
    DataServer.Reachable fs threads Request.Gives w n.server
  accepted : ∀ wopelog ∈ n.server.writes.accepted, n.Wrote wopelog
  asked : ∀ ropelog ∈ n.server.asked, n.Asked ropelog
  past : ∀ reply ∈ n.past, n.Earned reply
  clients : ∀ address, (n.clients address).Knows (n.Told address)

namespace Inv

lemma start : Inv fs threads w₀ { server := { writes := { world := w₀ } } } where
  lives := ⟨w₀,.start,.start⟩
  accepted := by simp
  asked := by simp
  past := by simp
  clients := fun _ => ⟨by simp,.start _⟩

/-- All the lives of the server up to now. -/
lemma life (h : Inv fs threads w₀ n) : Lives fs threads w₀ n.sent n.server.writes.world := by
  obtain ⟨w,hlives,hreach⟩ := h.lives
  exact hlives.life hreach

lemma earned (h : Inv fs threads w₀ n) {reply : Reply} (hsent : reply ∈ n.sent) : n.Earned reply := by
  rcases List.mem_append.1 hsent with hpast | hnow
  · exact h.past reply hpast
  · obtain ⟨w,-,hreach⟩ := h.lives
    rcases hreach.sent_cases hnow with ⟨wopelog,hm,howed,hjournal⟩ | ⟨ropelog,hm,hanswer⟩
    · exact .inl ⟨wopelog,h.accepted wopelog hm,howed,List.mem_append_right _ hjournal⟩
    · exact .inr ⟨ropelog,h.asked ropelog hm,hanswer⟩

/-- A step of the server without new requests. -/
lemma serve (h : Inv fs threads w₀ n) {d : DataServer World}
    (hstep : DataServer.Step fs threads Request.Gives n.server d)
    (haccepted : d.writes.accepted = n.server.writes.accepted) (hasked : d.asked = n.server.asked) :
    Grows n { n with server := d } ∧ Inv fs threads w₀ { n with server := d } := by
  have hgrows : Grows n { n with server := d } :=
    ⟨fun _ hm => hm,fun _ hm => hm,fun _ hm => (List.mem_append.1 hm).elim (List.mem_append_left _)
      (fun hnow => List.mem_append_right _ (hstep.sent_subset hnow))⟩
  obtain ⟨w,hlives,hreach⟩ := h.lives
  refine ⟨hgrows,⟨w,hlives,hreach.step hstep⟩,?_,?_,?_,?_⟩
  · exact fun wopelog hm => hgrows.wrote (h.accepted wopelog (haccepted ▸ hm))
  · exact fun ropelog hm => hgrows.ask (h.asked ropelog (hasked ▸ hm))
  · exact fun reply hm => hgrows.earned (h.past reply hm)
  · exact fun address => (h.clients address).mono (fun _ => hgrows.told)

/-- The pool of one client changes. -/
lemma pool (h : Inv fs threads w₀ n) {address : Bytes × Int32} {s : ReplyPool}
    (hs : s.Knows (n.Told address)) :
    Inv fs threads w₀ { n with clients := Function.update n.clients address s } := by
  refine ⟨h.lives,h.accepted,h.asked,h.past,?_⟩
  intro other
  by_cases hother : other = address
  · subst hother
    change (Function.update n.clients other s other).Knows _
    rw [Function.update_self]
    exact hs
  · change (Function.update n.clients address s other).Knows _
    rw [Function.update_of_ne hother]
    exact h.clients other

/-- The handler of `/reqWrite` has a log with the members that the client packed. -/
lemma reqWrite (h : Inv fs threads w₀ n) {client : InfoForNetNode} {opeId : Bytes} {wope : WOPE}
    {m : ReqWrite} (hfrom : m.fromNode = client) (hopeId : m.opeId = opeId)
    (hes : es m.wope = es wope) : Inv fs threads w₀ (n.reqWrite client opeId wope m) := by
  have hgrows : Grows n (n.reqWrite client opeId wope m) :=
    ⟨List.subset_append_left _ _,fun _ hm => hm,fun _ hm => hm⟩
  obtain ⟨w,hlives,hreach⟩ := h.lives
  refine ⟨⟨w,hlives,hreach.step (.reqWrite _ m.opeId m.wope m.fromNode)⟩,?_,?_,?_,?_⟩
  · intro wopelog hm
    rcases List.mem_append.1 hm with hold | hnew
    · exact hgrows.wrote (h.accepted wopelog hold)
    · obtain rfl := List.mem_singleton.1 hnew
      exact ⟨wope,List.mem_append_right _ (List.mem_singleton.2 (by rw [hfrom,hopeId])),hes⟩
  · exact fun ropelog hm => hgrows.ask (h.asked ropelog hm)
  · exact fun reply hm => hgrows.earned (h.past reply hm)
  · exact fun address => (h.clients address).mono (fun _ => hgrows.told)

lemma reqRead (h : Inv fs threads w₀ n) {client : InfoForNetNode} {opeId : Bytes} {rope : ROPE}
    {m : ReqRead} (hfrom : m.fromNode = client) (hopeId : m.opeId = opeId)
    (hes : es m.rope = es rope) : Inv fs threads w₀ (n.reqRead client opeId rope m) := by
  have hgrows : Grows n (n.reqRead client opeId rope m) :=
    ⟨fun _ hm => hm,List.subset_append_left _ _,fun _ hm => hm⟩
  obtain ⟨w,hlives,hreach⟩ := h.lives
  refine ⟨⟨w,hlives,hreach.step (.reqRead _ m.ropelog)⟩,?_,?_,?_,?_⟩
  · exact fun wopelog hm => hgrows.wrote (h.accepted wopelog hm)
  · intro ropelog hm
    rcases List.mem_append.1 hm with hold | hnew
    · exact hgrows.ask (h.asked ropelog hold)
    · obtain rfl := List.mem_singleton.1 hnew
      exact ⟨rope,List.mem_append_right _ (List.mem_singleton.2 (by rw [ReqRead.ropelog,hfrom,hopeId])),
        hes⟩
  · exact fun reply hm => hgrows.earned (h.past reply hm)
  · exact fun address => (h.clients address).mono (fun _ => hgrows.told)

/-- A crash takes the queues and the workers, and no reply back. -/
lemma crash (h : Inv fs threads w₀ n) : Inv fs threads w₀
    { n with server := { writes := { world := n.server.writes.world } }, past := n.sent } := by
  have hgrows : Grows n { n with
      server := { writes := { world := n.server.writes.world } }, past := n.sent } :=
    ⟨fun _ hm => hm,fun _ hm => hm,List.subset_append_left _ _⟩
  refine ⟨⟨_,h.life,.start⟩,?_,?_,?_,?_⟩
  · exact fun wopelog hm => absurd hm List.not_mem_nil
  · exact fun ropelog hm => absurd hm List.not_mem_nil
  · exact fun reply hm => hgrows.earned (h.earned hm)
  · exact fun address => (h.clients address).mono (fun _ => hgrows.told)

theorem step (h : Inv fs threads w₀ n) (hstep : Step fs threads workers info n n') :
    Inv fs threads w₀ n' := by
  cases hstep with
  | @asynWrite client toNode tos opeId body wope memory m hsize hbody hread =>
    obtain ⟨_,hbody',hreads⟩ := writeDelivered hsize
    obtain rfl := Option.some.inj (hbody.symm.trans hbody')
    obtain ⟨m',hread',-,-,hfrom,-,hes,-,hopeId,-⟩ := hreads memory
    obtain rfl := Option.some.inj (hread.symm.trans hread')
    exact h.reqWrite hfrom hopeId hes
  | @asynRead client toNode tos opeId body rope memory m hsize hbody hread =>
    obtain ⟨_,hbody',hreads⟩ := readDelivered hsize
    obtain rfl := Option.some.inj (hbody.symm.trans hbody')
    obtain ⟨m',hread',-,-,hfrom,-,hes,-,hopeId,-⟩ := hreads memory
    obtain rfl := Option.some.inj (hread.symm.trans hread')
    exact h.reqRead hfrom hopeId hes
  | serve hstep haccepted hasked => exact (h.serve hstep haccepted hasked).2
  | @httpSend d reply job hstep haccepted hasked hsent harrives =>
    have hinv := (h.serve hstep haccepted hasked).2
    have hreply : reply ∈ n.past ++ d.sent := by
      rw [hsent]
      exact List.mem_append_right _ (List.mem_append_right _ (List.mem_singleton_self _))
    exact hinv.pool ((hinv.clients _).deliver ⟨reply,hreply,rfl,harrives.tells⟩)
  | client address m hstep => exact h.pool ((h.clients address).step hstep)
  | crash => exact h.crash

end Inv

theorem Reachable.inv (h : Reachable fs threads workers info w₀ n) : Inv fs threads w₀ n := by
  induction h with
  | start => exact .start
  | step _ hstep ih => exact ih.step hstep

/-- A client and a server for the runs below. -/
def someClient : InfoForNetNode := ⟨lit "client",lit "localhost",8080⟩

def someServer : InfoForNetNode := ⟨lit "osd",lit "localhost",8081⟩

/-- A version of one block. -/
def oneBlock : WOPE := ⟨generation 0,generation 1,[.insert],[0],[lit "x"]⟩

lemma sendable_oneBlock : Sendable someClient someServer
    (someClient,[someServer],oneBlock,ReqType.write,lit "id",()) :=
  ⟨by decide,by decide,by decide,by decide +kernel⟩

end Network
end GDFileStore
