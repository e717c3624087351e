import GDFileStore.Network.EndToEnd
import GDFileStore.Network.Heard
import GDFileStore.Queues.Served
import Mathlib.Algebra.Order.BigOperators.Group.Finset

/-! Where no message is lost and the server does not crash, every request that a client has posted
comes to have its entry in the client's table. -/
namespace GDFileStore
open Sequences Program Serializable

/-- Where all has happened to a write, its journal write has its disk write after it. -/
lemma Progress.of_closed {wo log : WOpeLog} {rt : RepType} {xs ys : List Event}
    (h : xs ++ .sent (.repWrite wo rt)::ys = Progress.closed.events log) :
    wo = log ∧ .sent (.repWrite { wo with wopeState := .onDisk } .primaryDiskWrite) ∈ ys ∨
      rt = .primaryDiskWrite := by
  rcases xs with _ | ⟨_,_ | ⟨_,_ | ⟨_,_ | ⟨_,xs⟩⟩⟩⟩
  · simp [events] at h
  · simp [events] at h
  · simp only [events,List.cons_append,List.nil_append,List.cons.injEq,Event.sent.injEq,
      Reply.repWrite.injEq] at h
    obtain ⟨-,-,⟨rfl,-⟩,rfl⟩ := h
    exact .inl ⟨rfl,List.mem_singleton_self _⟩
  · simp only [events,List.cons_append,List.nil_append,List.cons.injEq,Event.sent.injEq,
      Reply.repWrite.injEq] at h
    exact .inr h.2.2.2.1.2
  · simp [events] at h

lemma Server.mem_repliesTo {σ : Type} {s : Server σ} {t : ℕ} {reply : Reply} :
    reply ∈ s.repliesTo t ↔ (t,.sent reply) ∈ s.trace := by
  rw [← Server.mem_eventsOf,Server.repliesTo]
  induction s.eventsOf t with
  | nil => simp [replies]
  | cons e events ih => cases e <;> simp [replies,ih]

namespace DataServer
variable {σ : Type} {fs : FileStore} {threads : ℕ}
  {outcome : (r : Request) → σ → r.Resp → σ → Prop} {world₀ : σ} {d d' : DataServer σ}

/-- A step sends nothing, or a worker sends one reply. -/
lemma Step.sends (h : Step fs threads outcome d d') : d'.sent = d.sent ∨ ∃ t reply rest,
    (t,.call (.httpSend reply) rest) ∈ d.writes.running ++ d.reading ∧ d'.sent = d.sent ++ [reply] := by
  cases h with
  | @actWope before after t a rest answer world hrunning _ =>
    cases a with
    | httpSend reply => exact .inr ⟨t,reply,rest,by simp [hrunning],rfl⟩
    | _ => exact .inl (List.append_nil _)
  | @actRope before after t a rest answer world hreading _ =>
    cases a with
    | httpSend reply => exact .inr ⟨t,reply,rest,by simp [hreading],rfl⟩
    | _ => exact .inl (List.append_nil _)
  | _ => exact .inl rfl

/-- The workers of the read pool send no replies to writes. -/
lemma Inv.typeFor_sent (h : d.Inv) {t : ℕ} {a : Action} {rest : a.Resp → Activity Unit}
    (hm : (t,.call a rest) ∈ d.reading) (address : Bytes × Int32) (opeId : Bytes) :
    a.sent.filterMap (·.typeFor address opeId) = [] := by
  have hentry : (t,ReadPresence.reading (.call a rest)) ∈ d.entries := by
    simp only [entries]
    exact List.mem_append_left _ (List.mem_append_right _ (List.mem_map.2 ⟨_,hm,rfl⟩))
  obtain ⟨ropelog,_,_,_,_,hfollow,_⟩ := h.register.good _ hentry
  cases a with
  | httpSend reply =>
    obtain ⟨datas,_,rfl⟩ : ropelog.Answer reply := hfollow.1
    rfl
  | _ => rfl

/-- The type of the reply in an event, where it is to a write with the id. -/
def typeOf (address : Bytes × Int32) (opeId : Bytes) (e : ℕ × Event) : Option RepType :=
  match e.2 with
  | .sent reply => reply.typeFor address opeId
  | _ => none

/-- The replies to writes are sent in the order of the trace. -/
lemma Reachable.filterMap_sent (h : Reachable fs threads outcome world₀ d) (address : Bytes × Int32)
    (opeId : Bytes) : d.sent.filterMap (·.typeFor address opeId) =
      d.writes.trace.filterMap (typeOf address opeId) := by
  induction h with
  | start => rfl
  | @step d d' hreach hstep ih =>
    cases hstep with
    | @actWope before after t a rest answer world _ _ =>
      have hnew : a.sent.filterMap (·.typeFor address opeId) =
          (a.events.map (fun e => (t,e))).filterMap (typeOf address opeId) := by
        cases a <;> rfl
      simp only [actWope,Server.act,List.filterMap_append,ih,hnew]
    | @actRope before after t a rest answer world hreading _ =>
      have hnone := hreach.inv.typeFor_sent (hreading ▸ List.mem_append_right _ List.mem_cons_self)
        address opeId
      simp only [actRope,List.filterMap_append,ih,hnone,List.append_nil]
    | _ => exact ih

/-- In an empty server the last reply to an id is a disk write. -/
lemma Reachable.last_disk (h : Reachable fs threads outcome world₀ d) (hempty : d.Empty)
    {address : Bytes × Int32} {opeId : Bytes} {rts : List RepType} {rt : RepType}
    (hsent : d.sent.filterMap (·.typeFor address opeId) = rts ++ [rt]) : rt = .primaryDiskWrite := by
  have hinv := h.inv
  rw [h.filterMap_sent] at hsent
  obtain ⟨early,late,htrace,-,hlate⟩ := List.filterMap_eq_append_iff.1 hsent
  obtain ⟨quiet,⟨t,e⟩,rest,rfl,-,htype,hrest⟩ := List.filterMap_eq_cons_iff.1 hlate
  cases e with
  | doWOPEBegun => cases htype
  | doWOPEFinished => cases htype
  | sent reply =>
    cases reply with
    | repRead _ _ => cases htype
    | repWrite wo rt' =>
      have hfor : wo.fromNode.address = address ∧ wo.opeId = opeId := by
        by_contra hnot
        exact absurd ((if_neg hnot).symm.trans htype) (by simp)
      obtain rfl : rt' = rt := Option.some.inj ((if_pos hfor).symm.trans htype)
      -- All events of the write are there, and this reply is among them.
      have hevents : d.writes.eventsOf t = (early ++ quiet).filterMap
          (fun e => if e.1 = t then some e.2 else none) ++ Event.sent (.repWrite wo rt')::
            rest.filterMap (fun e => if e.1 = t then some e.2 else none) := by
        rw [Server.eventsOf,htrace]
        simp
      have hlt : t < d.writes.accepted.length := by
        by_contra hle
        rw [hinv.writes.unissued t (not_lt.1 hle)] at hevents
        simp at hevents
      have haccepted := List.getElem?_eq_getElem hlt
      obtain ⟨stage,hstage,hclosed⟩ := hinv.writes.stage haccepted
      have hfinished := hempty.replied hinv haccepted
      rw [Server.repliesTo,hstage] at hfinished
      obtain rfl := stage.replies_eq_owed.1 hfinished
      rw [hevents] at hstage
      generalize d.writes.accepted[t] = log at hstage
      rcases Progress.of_closed hstage with ⟨rfl,hdisk⟩ | hdisk
      · -- The disk write of the same request comes after a journal write.
        obtain ⟨⟨u,e⟩,hmem,hsome⟩ := List.mem_filterMap.1 hdisk
        obtain ⟨-,heq⟩ := Option.ite_none_right_eq_some.1 hsome
        obtain rfl := Option.some.inj heq
        have hnone := List.filterMap_eq_nil_iff.1 hrest _ hmem
        exact absurd ((if_pos hfor).symm.trans hnone) (by simp)
      · exact hdisk

end DataServer

namespace Network
variable {fs : FileStore} {threads workers : ℕ} {info : InfoForNetNode} {w₀ : World} {n n' : Network}

/-- One step of the server or of a client in which no request is taken in and no reply is lost. -/
inductive Delivers (fs : FileStore) (threads workers : ℕ) (info : InfoForNetNode) :
    Network → Network → Prop
  | serve {n : Network} {d : DataServer World}
      (hstep : DataServer.Step fs threads Request.Gives n.server d)
      (haccepted : d.writes.accepted = n.server.writes.accepted) (hasked : d.asked = n.server.asked)
      (hsent : d.sent = n.server.sent) : Delivers fs threads workers info n { n with server := d }
  | httpSend {n : Network} {d : DataServer World} {reply : Reply} {job : ClientJob}
      (hstep : DataServer.Step fs threads Request.Gives n.server d)
      (haccepted : d.writes.accepted = n.server.writes.accepted) (hasked : d.asked = n.server.asked)
      (hsent : d.sent = n.server.sent ++ [reply]) (harrives : reply.Arrives info job) :
      Delivers fs threads workers info n (deliver { n with server := d } reply.toNode.address job)
  | client {n : Network} (address : Bytes × Int32) (m : ReplyPool.Move) {s : ReplyPool}
      (hstep : (n.clients address).step workers m = some s) :
      Delivers fs threads workers info n
        { n with clients := Function.update n.clients address s }

lemma Delivers.step (h : Delivers fs threads workers info n n') : Step fs threads workers info n n' := by
  cases h with
  | serve hstep haccepted hasked _ => exact .serve hstep haccepted hasked
  | httpSend hstep haccepted hasked hsent harrives => exact .httpSend hstep haccepted hasked hsent harrives
  | client address m hstep => exact .client address m hstep

/-- The states of a network that has lost nothing since it started on `world₀`. -/
inductive Whole (fs : FileStore) (threads workers : ℕ) (info : InfoForNetNode) (world₀ : World) :
    Network → Prop
  | start : Whole fs threads workers info world₀ { server := { writes := { world := world₀ } } }
  | asynWrite {n : Network} (h : Whole fs threads workers info world₀ n)
      {client toNode : InfoForNetNode} {tos : List InfoForNetNode} {opeId body : Bytes}
      {wope memory : WOPE} {m : ReqWrite}
      (hsize : Sendable client toNode (client,toNode::tos,wope,ReqType.write,opeId,()))
      (hbody : AsynClient.asynWrite client (toNode::tos) wope opeId = some body)
      (hread : AsynServer.reqWrite memory body = some m) :
      Whole fs threads workers info world₀ (n.reqWrite client opeId wope m)
  | asynRead {n : Network} (h : Whole fs threads workers info world₀ n)
      {client toNode : InfoForNetNode} {tos : List InfoForNetNode} {opeId body : Bytes}
      {rope memory : ROPE} {m : ReqRead}
      (hsize : Sendable client toNode (client,toNode::tos,rope,ReqType.read,opeId,()))
      (hbody : AsynClient.asynRead client (toNode::tos) rope opeId = some body)
      (hread : AsynServer.reqRead memory body = some m) :
      Whole fs threads workers info world₀ (n.reqRead client opeId rope m)
  | deliver {n n' : Network} (h : Whole fs threads workers info world₀ n)
      (hstep : Delivers fs threads workers info n n') : Whole fs threads workers info world₀ n'

theorem Whole.reachable (h : Whole fs threads workers info w₀ n) :
    Reachable fs threads workers info w₀ n := by
  induction h with
  | start => exact .start
  | asynWrite _ hsize hbody hread ih => exact ih.step (.asynWrite _ hsize hbody hread)
  | asynRead _ hsize hbody hread ih => exact ih.step (.asynRead _ hsize hbody hread)
  | deliver _ hstep ih => exact ih.step hstep.step

/-- Every request has been accepted and every reply heard, one worker hears them in order, and few
clients have anything to handle. -/
structure Kept (fs : FileStore) (threads workers : ℕ) (w₀ : World) (n : Network) : Prop where
  server : DataServer.Reachable fs threads Request.Gives w₀ n.server
  written : ∀ client opeId wope, (client,opeId,wope) ∈ n.written →
    ∃ wopelog ∈ n.server.writes.accepted, wopelog.fromNode = client ∧ wopelog.opeId = opeId
  asked : ∀ client opeId rope, (client,opeId,rope) ∈ n.asked →
    ∃ ropelog ∈ n.server.asked, ropelog.fromNode = client ∧ ropelog.opeId = opeId
  heard : ∀ reply ∈ n.server.sent, (n.clients reply.toNode.address).Heard reply
  order : workers = 1 → ∀ address opeId, (n.clients address).InOrder opeId
    (n.server.sent.filterMap (·.typeFor address opeId))
  few : ∃ busy : Finset (Bytes × Int32), ∀ address ∉ busy, (n.clients address).pending = []

namespace Kept

lemma start : Kept fs threads workers w₀ { server := { writes := { world := w₀ } } } where
  server := .start
  written := by simp
  asked := by simp
  heard := by simp
  order := fun _ _ opeId => .start opeId
  few := ⟨∅,fun _ _ => rfl⟩

lemma reqWrite (h : Kept fs threads workers w₀ n) {client : InfoForNetNode} {opeId : Bytes}
    {wope : WOPE} {m : ReqWrite} (hfrom : m.fromNode = client) (hopeId : m.opeId = opeId) :
    Kept fs threads workers w₀ (n.reqWrite client opeId wope m) := by
  refine ⟨h.server.step (.reqWrite _ m.opeId m.wope m.fromNode),?_,h.asked,h.heard,h.order,h.few⟩
  intro client' opeId' wope' hm
  rcases List.mem_append.1 hm with hold | hnew
  · obtain ⟨wopelog,haccepted,heq⟩ := h.written client' opeId' wope' hold
    exact ⟨wopelog,List.mem_append_left _ haccepted,heq⟩
  · obtain ⟨rfl,hpair⟩ := Prod.mk.inj (List.mem_singleton.1 hnew)
    obtain ⟨rfl,-⟩ := Prod.mk.inj hpair
    exact ⟨_,List.mem_append_right _ List.mem_cons_self,hfrom,hopeId⟩

lemma reqRead (h : Kept fs threads workers w₀ n) {client : InfoForNetNode} {opeId : Bytes}
    {rope : ROPE} {m : ReqRead} (hfrom : m.fromNode = client) (hopeId : m.opeId = opeId) :
    Kept fs threads workers w₀ (n.reqRead client opeId rope m) := by
  refine ⟨h.server.step (.reqRead _ m.ropelog),h.written,?_,h.heard,h.order,h.few⟩
  intro client' opeId' rope' hm
  rcases List.mem_append.1 hm with hold | hnew
  · obtain ⟨ropelog,hasked,heq⟩ := h.asked client' opeId' rope' hold
    exact ⟨ropelog,List.mem_append_left _ hasked,heq⟩
  · obtain ⟨rfl,hpair⟩ := Prod.mk.inj (List.mem_singleton.1 hnew)
    obtain ⟨rfl,-⟩ := Prod.mk.inj hpair
    exact ⟨_,List.mem_append_right _ List.mem_cons_self,hfrom,hopeId⟩

theorem delivers (h : Kept fs threads workers w₀ n) (hstep : Delivers fs threads workers info n n') :
    Kept fs threads workers w₀ n' := by
  cases hstep with
  | @serve d hstep haccepted hasked hsent =>
    refine ⟨h.server.step hstep,?_,?_,?_,?_,h.few⟩
    · exact haccepted.symm ▸ h.written
    · exact hasked.symm ▸ h.asked
    · exact hsent.symm ▸ h.heard
    · exact hsent.symm ▸ h.order
  | @httpSend d reply job hstep haccepted hasked hsent harrives =>
    refine ⟨h.server.step hstep,?_,?_,?_,?_,?_⟩
    · exact haccepted.symm ▸ h.written
    · exact hasked.symm ▸ h.asked
    · intro other hm
      change (Function.update n.clients reply.toNode.address _ other.toNode.address).Heard other
      have hm' : other ∈ n.server.sent ++ [reply] := hsent ▸ hm
      by_cases haddress : other.toNode.address = reply.toNode.address
      · rw [haddress,Function.update_self]
        rcases List.mem_append.1 hm' with hold | hnew
        · exact (haddress ▸ h.heard other hold).deliver job
        · obtain rfl := List.mem_singleton.1 hnew
          exact ReplyPool.heard_deliver _ harrives.tells
      · rw [Function.update_of_ne haddress]
        rcases List.mem_append.1 hm' with hold | hnew
        · exact h.heard other hold
        · exact absurd (congrArg (fun r => (Reply.toNode r).address) (List.mem_singleton.1 hnew)) haddress
    · intro hone address opeId
      change (Function.update n.clients reply.toNode.address _ address).InOrder opeId
        (d.sent.filterMap _)
      have hold := h.order hone address opeId
      rw [hsent,List.filterMap_append]
      by_cases haddress : address = reply.toNode.address
      · subst haddress
        rw [Function.update_self]
        have hnew := hold.deliver job
        rw [harrives.tells.typeFor opeId] at hnew
        convert hnew using 2
        simp only [List.filterMap_cons,List.filterMap_nil]
        cases reply.typeFor reply.toNode.address opeId <;> rfl
      · rw [Function.update_of_ne haddress]
        simpa [Reply.typeFor_ne haddress] using hold
    · obtain ⟨busy,hbusy⟩ := h.few
      refine ⟨insert reply.toNode.address busy,?_⟩
      intro address hnot
      rw [Finset.mem_insert,not_or] at hnot
      change (Function.update n.clients reply.toNode.address _ address).pending = []
      rw [Function.update_of_ne hnot.1]
      exact hbusy address hnot.2
  | @client address m s hstep =>
    refine ⟨h.server,h.written,h.asked,?_,?_,?_⟩
    · intro reply hm
      change (Function.update n.clients address s reply.toNode.address).Heard reply
      by_cases haddress : reply.toNode.address = address
      · rw [haddress,Function.update_self]
        exact (haddress ▸ h.heard reply hm).step hstep
      · rw [Function.update_of_ne haddress]
        exact h.heard reply hm
    · intro hone other opeId
      change (Function.update n.clients address s other).InOrder opeId _
      by_cases haddress : other = address
      · subst haddress hone
        rw [Function.update_self]
        exact (h.order rfl other opeId).step hstep
      · rw [Function.update_of_ne haddress]
        exact h.order hone other opeId
    · obtain ⟨busy,hbusy⟩ := h.few
      refine ⟨insert address busy,?_⟩
      intro other hnot
      rw [Finset.mem_insert,not_or] at hnot
      change (Function.update n.clients address s other).pending = []
      rw [Function.update_of_ne hnot.1]
      exact hbusy other hnot.2

end Kept

theorem Whole.kept (h : Whole fs threads workers info w₀ n) : Kept fs threads workers w₀ n := by
  induction h with
  | start => exact .start
  | asynWrite _ hsize hbody hread ih =>
    obtain ⟨_,hbody',hreads⟩ := writeDelivered hsize
    obtain rfl := Option.some.inj (hbody.symm.trans hbody')
    obtain ⟨m,hread',-,-,hfrom,-,-,-,hid,-⟩ := hreads _
    obtain rfl := Option.some.inj (hread.symm.trans hread')
    exact ih.reqWrite hfrom hid
  | asynRead _ hsize hbody hread ih =>
    obtain ⟨_,hbody',hreads⟩ := readDelivered hsize
    obtain rfl := Option.some.inj (hbody.symm.trans hbody')
    obtain ⟨m,hread',-,-,hfrom,-,-,-,hid,-⟩ := hreads _
    obtain rfl := Option.some.inj (hread.symm.trans hread')
    exact ih.reqRead hfrom hid
  | deliver _ hstep ih => exact ih.delivers hstep

/-- An action that cannot be done in a state of the database and the files: an access out of range,
one to the clock where the readings have run out, or a reply that cannot be packed and unpacked. -/
inductive Hopeless (info : InfoForNetNode) (w : World) : Action → Prop
  | outOfRange : Hopeless info w (.request .outOfRange)
  | now (hclock : w.clock = []) : Hopeless info w (.request .now)
  | httpSend {reply : Reply} (hlost : ∀ job, ¬reply.Arrives info job) : Hopeless info w (.httpSend reply)

/-- A worker of the server is at such an action. -/
def Stuck (info : InfoForNetNode) (n : Network) : Prop :=
  ∃ t a rest, (t,.call a rest) ∈ n.server.writes.running ++ n.server.reading ∧
    Hopeless info n.server.writes.world a

/-- All other requests have an outcome. -/
lemma hopeless_of_changes {info : InfoForNetNode} {w : World} {a : Action}
    (h : ∀ answer w', ¬a.changes Request.Gives w answer w') : Hopeless info w a := by
  cases a with
  | request r =>
    cases r with
    | outOfRange => exact .outOfRange
    | now =>
      cases hclock : w.clock with
      | nil => exact .now hclock
      | cons t clock =>
        have hgives : Request.Gives .now w t { w with clock := clock } := by
          simp [Request.Gives,Request.handle,hclock]
        exact absurd hgives (h _ _)
    | copy source directory =>
      cases hfile : w.files source with
      | none =>
        have hgives : Request.Gives (.copy source directory) w false w := by
          simp [Request.Gives,Request.handle,hfile]
        exact absurd hgives (h _ _)
      | some content =>
        have hgives : Request.Gives (.copy source directory) w true { w with
            files := Function.update w.files (joinPath directory (fileName source)) (some content) } := by
          simp [Request.Gives,Request.handle,hfile]
        exact absurd hgives (h _ _)
    | _ => exact absurd rfl (h _ _)
  | httpSend reply => exact absurd rfl (h true w)
  | _ => exact absurd rfl (h () w)

/-- A step that is no empty turn of the dispatcher. -/
def Turns (fs : FileStore) (threads workers : ℕ) (info : InfoForNetNode) (n n' : Network) : Prop :=
  Delivers fs threads workers info n n' ∧ ¬n.server.Spins n'.server

section Rank

lemma load_of_pending {s : ReplyPool} (h : s.pending = []) : s.load = 0 := by
  simp only [ReplyPool.pending,List.append_eq_nil_iff] at h
  simp [ReplyPool.load,h.1.1,h.1.2,h.2]

/-- The rank of the server, then what the clients have to do. -/
abbrev Rank := DataServer.Rank × ℕ

abbrev Lower : Rank → Rank → Prop := Prod.Lex DataServer.Rank.Lower (· < ·)

lemma lower_wf : WellFounded Lower := WellFounded.prod_lex DataServer.Rank.lower_wf wellFounded_lt

structure Ranked (fs : FileStore) (threads workers : ℕ) (info : InfoForNetNode) (w₀ : World)
    (n : Network) (r : Rank) : Prop where
  whole : Whole fs threads workers info w₀ n
  rank : ∃ served busy, n.server.Ranked served ∧ (∀ address ∉ busy, (n.clients address).pending = []) ∧
    r = (served,∑ address ∈ busy, (n.clients address).load)

/-- A step of the server brings its rank down, whatever comes to the clients. -/
lemma Ranked.server {r : Rank} (h : Ranked fs threads workers info w₀ n r)
    (hstep : Delivers fs threads workers info n n')
    (hserves : n.server.Serves fs threads Request.Gives n'.server) :
    ∃ r', Lower r' r ∧ Ranked fs threads workers info w₀ n' r' := by
  obtain ⟨hwhole,served,busy,hserved,-,rfl⟩ := h
  obtain ⟨served',hlower,hserved'⟩ := hserved.serves hserves
  have hwhole' := hwhole.deliver hstep
  obtain ⟨busy',hbusy'⟩ := hwhole'.kept.few
  exact ⟨_,.left _ _ hlower,hwhole',served',busy',hserved',hbusy',rfl⟩

lemma Ranked.client {r : Rank} (h : Ranked fs threads workers info w₀ n r) {address : Bytes × Int32}
    {m : ReplyPool.Move} {s : ReplyPool} (hstep : (n.clients address).step workers m = some s) :
    ∃ r', Lower r' r ∧ Ranked fs threads workers info w₀
      { n with clients := Function.update n.clients address s } r' := by
  obtain ⟨hwhole,served,busy,hserved,hbusy,rfl⟩ := h
  have hload := ReplyPool.step_load hstep
  have hin : address ∈ busy := by
    by_contra hnot
    rw [load_of_pending (hbusy address hnot)] at hload
    exact absurd hload (Nat.not_lt_zero _)
  refine ⟨_,.right _ ?_,hwhole.deliver (.client address m hstep),served,busy,hserved,?_,rfl⟩
  · refine Finset.sum_lt_sum ?_ ⟨address,hin,?_⟩
    · intro other _
      change (Function.update n.clients address s other).load ≤ _
      by_cases hother : other = address
      · rw [hother,Function.update_self]
        exact hload.le
      · rw [Function.update_of_ne hother]
    · change (Function.update n.clients address s address).load < _
      rwa [Function.update_self]
  · intro other hnot
    have hne : other ≠ address := fun heq => hnot (heq ▸ hin)
    change (Function.update n.clients address s other).pending = []
    rw [Function.update_of_ne hne]
    exact hbusy other hnot

theorem Ranked.turns {r : Rank} (h : Ranked fs threads workers info w₀ n r)
    (hturns : Turns fs threads workers info n n') :
    ∃ r', Lower r' r ∧ Ranked fs threads workers info w₀ n' r' := by
  obtain ⟨hdelivers,hspins⟩ := hturns
  cases hdelivers with
  | serve hstep haccepted hasked hsent =>
    exact h.server (.serve hstep haccepted hasked hsent) ⟨hstep,hspins,haccepted,hasked⟩
  | httpSend hstep haccepted hasked hsent harrives =>
    exact h.server (.httpSend hstep haccepted hasked hsent harrives) ⟨hstep,hspins,haccepted,hasked⟩
  | client address m hstep => exact h.client hstep

end Rank

section Rest
variable (hrest : ∀ n', ¬Turns fs threads workers info n n')
include hrest

/-- Where there is no turn and no worker is stuck, the server can do nothing. -/
lemma server_of_rest (hstuck : ¬n.Stuck info) (d : DataServer World) :
    ¬n.server.Serves fs threads Request.Gives d := by
  rintro ⟨hstep,hspins,haccepted,hasked⟩
  rcases hstep.sends with hsent | ⟨t,reply,rest,hm,hsent⟩
  · exact hrest _ ⟨.serve hstep haccepted hasked hsent,hspins⟩
  · have harrives : ∃ job, reply.Arrives info job := by
      by_contra hnone
      exact hstuck ⟨t,_,rest,hm,.httpSend (not_exists.1 hnone)⟩
    obtain ⟨job,hjob⟩ := harrives
    exact hrest _ ⟨.httpSend hstep haccepted hasked hsent hjob,hspins⟩

/-- And the clients have handled all their jobs. -/
lemma clients_of_rest (hworkers : 0 < workers) (address : Bytes × Int32) :
    (n.clients address).pending = [] := by
  by_contra hpending
  obtain ⟨m,s,hstep⟩ := ReplyPool.exists_step hworkers hpending
  exact hrest _ ⟨.client address m hstep,fun hspins => hspins.2.2 rfl⟩

end Rest

/-- Each posted write has its entry in the table of its client, with one worker as on the disk, and
each posted read its result. -/
structure AllTold (workers : ℕ) (n : Network) : Prop where
  wopes : ∀ client opeId wope, (client,opeId,wope) ∈ n.written →
    ((n.clients client.address).client.getWopeState opeId = .onJournal ∨
      (n.clients client.address).client.getWopeState opeId = .onDisk) ∧
    (workers = 1 → (n.clients client.address).client.getWopeState opeId = .onDisk)
  ropes : ∀ client opeId rope, (client,opeId,rope) ∈ n.asked →
    ∃ result, (n.clients client.address).client.getRopeState opeId = (.success,result)

section Empty
variable (h : Kept fs threads workers w₀ n) (hempty : n.server.Empty)
  (hpending : ∀ address, (n.clients address).pending = [])
include h hempty hpending

/-- Where all is handled, the reply to the journal write of every posted write is recorded. -/
lemma Kept.recorded_wope {client : InfoForNetNode} {opeId : Bytes} {wope : WOPE}
    (hwritten : (client,opeId,wope) ∈ n.written) :
    ((n.clients client.address).client.getWopeState opeId = .onJournal ∨
      (n.clients client.address).client.getWopeState opeId = .onDisk) ∧
    ∃ rt, some rt ∈ n.server.sent.map (·.typeFor client.address opeId) := by
  obtain ⟨wopelog,haccepted,rfl,rfl⟩ := h.written client opeId wope hwritten
  obtain ⟨t,ht⟩ := List.mem_iff_getElem?.1 haccepted
  have hreply : Reply.repWrite wopelog .primaryJournalWrite ∈ n.server.writes.repliesTo t := by
    rw [hempty.replied h.server.inv ht]
    exact List.mem_cons_self
  have hsent := h.server.mem_sent_iff.2 (.inl ⟨t,Server.mem_repliesTo.1 hreply⟩)
  refine ⟨?_,.primaryJournalWrite,List.mem_map.2 ⟨_,hsent,if_pos ⟨rfl,rfl⟩⟩⟩
  rcases h.heard _ hsent with ⟨job,hm,-⟩ | hrecorded
  · rw [hpending] at hm
    exact absurd hm List.not_mem_nil
  · exact hrecorded (.inl rfl)

/-- One worker has recorded the last reply. -/
lemma Kept.recorded_disk {client : InfoForNetNode} {opeId : Bytes} {wope : WOPE}
    (hwritten : (client,opeId,wope) ∈ n.written) (hone : workers = 1) :
    (n.clients client.address).client.getWopeState opeId = .onDisk := by
  obtain ⟨-,rt,hrt⟩ := h.recorded_wope hempty hpending hwritten
  obtain ⟨-,-,handled,htold,hstate⟩ := h.order hone client.address opeId
  rw [hpending,List.filterMap_nil,List.append_nil] at htold
  rw [hstate]
  rcases List.eq_nil_or_concat handled with rfl | ⟨rts,last,rfl⟩
  · obtain ⟨reply,hm,hsome⟩ := List.mem_map.1 hrt
    exact absurd (hsome.symm.trans (List.filterMap_eq_nil_iff.1 htold reply hm)) (by simp)
  · obtain rfl := h.server.last_disk hempty (htold.trans List.concat_eq_append)
    rw [List.concat_eq_append,stateAfter,List.foldl_append]
    rfl

lemma Kept.recorded_rope {client : InfoForNetNode} {opeId : Bytes} {rope : ROPE}
    (hasked : (client,opeId,rope) ∈ n.asked) :
    ∃ result, (n.clients client.address).client.getRopeState opeId = (.success,result) := by
  obtain ⟨ropelog,hmem,rfl,rfl⟩ := h.asked client opeId rope hasked
  obtain ⟨t,ht⟩ := List.mem_iff_getElem?.1 hmem
  have hinv := h.server.inv
  have hfinished := hempty.finished hinv (List.getElem?_eq_some_iff.1 ht).1
  rcases hinv.answered ht with ⟨-,hnot⟩ | ⟨-,datas,-,hanswer⟩
  · exact absurd hfinished hnot
  · have hanswered := DataServer.mem_answersTo.1 (hanswer ▸ List.mem_singleton_self _)
    have hsent := h.server.mem_sent_iff.2 (.inr ⟨t,hanswered⟩)
    rcases h.heard _ hsent with ⟨job,hm,-⟩ | hrecorded
    · rw [hpending] at hm
      exact absurd hm List.not_mem_nil
    · exact ⟨_,Prod.ext hrecorded rfl⟩

end Empty

/-- Where no message is lost and the server does not crash, the network comes, whichever party takes
the next step, to a state in which every posted write is in the table of its client as journaled or
on the disk, with one worker for the replies as on the disk, and every posted read has its result,
or in which a worker of the server is stuck. -/
theorem clients_all_told (hthreads : 0 < threads) (hworkers : 0 < workers)
    (h : Whole fs threads workers info w₀ n) :
    Inevitable (Turns fs threads workers info) (fun n => n.Stuck info ∨ n.AllTold workers) n := by
  obtain ⟨phases,hphases⟩ := h.kept.server.inPhases
  obtain ⟨busy,hbusy⟩ := h.kept.few
  have hranked : Ranked fs threads workers info w₀ n _ :=
    ⟨h,_,busy,⟨h.kept.server.inv,phases,hphases,rfl⟩,hbusy,rfl⟩
  refine Inevitable.of_rank lower_wf (Ranked fs threads workers info w₀) Ranked.turns ?_ hranked
  intro n r hranked hrest
  rw [or_iff_not_imp_left]
  intro hstuck
  have hkept := hranked.whole.kept
  have hserver : ¬n.server.Stuck Request.Gives := by
    rintro ⟨t,a,rest,hm,hnone⟩
    exact hstuck ⟨t,a,rest,hm,hopeless_of_changes hnone⟩
  have hempty := DataServer.empty_of_rest hkept.server.inv hthreads (server_of_rest hrest hstuck)
    hserver
  have hpending := clients_of_rest hrest hworkers
  constructor
  · intro client opeId wope hwritten
    exact ⟨(hkept.recorded_wope hempty hpending hwritten).1,
      hkept.recorded_disk hempty hpending hwritten⟩
  · intro client opeId rope hasked
    exact hkept.recorded_rope hempty hpending hasked

/-- A client that has posted a write with a block of its own, and a read of a block that was there
before, comes to know of both. -/
theorem clients_all_told_both : ∃ n : Network,
    n.server.writes.world = DataServer.oneJournaled ∧
    n.written = [(someClient,lit "id",oneBlock)] ∧ n.asked = [(someClient,lit "id",readFirst.rope)] ∧
    Inevitable (Turns sampleStore 1 1 someServer) (fun n => n.Stuck someServer ∨ n.AllTold 1) n := by
  obtain ⟨wbody,hwbody,hwopes⟩ := writeDelivered sendable_oneBlock
  obtain ⟨wm,hwope,-⟩ := hwopes ⟨{},{},[],[],[]⟩
  have hread : Sendable someClient someServer (someClient,[someServer],
      readFirst.rope,ReqType.read,lit "id",()) :=
    ⟨by decide,by decide,by decide,by decide +kernel⟩
  obtain ⟨rbody,hrbody,hropes⟩ := readDelivered hread
  obtain ⟨rm,hrope,-⟩ := hropes ⟨{},[]⟩
  have hwhole : Whole sampleStore 1 1 someServer DataServer.oneJournaled _ :=
    (Whole.start.asynWrite sendable_oneBlock hwbody hwope).asynRead hread hrbody hrope
  exact ⟨_,rfl,rfl,rfl,clients_all_told (by decide) (by decide) hwhole⟩

end Network
end GDFileStore
