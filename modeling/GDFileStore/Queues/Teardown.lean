import GDFileStore.Queues.Served

/-! The end of a server. `AsynServer::shutdown` takes in no more requests, and the destructor of the
store, which has ended its timers, then waits for the threads of the write pool, of the read pool and
for the dispatcher, in this order. A job that comes to a pool without threads stays in its list. -/
namespace GDFileStore
open Sequences Program Prog
variable {σ : Type}

/-- How far the end of a server has come. -/
inductive Teardown where
  | serving
  /-- The HTTP server has been stopped and its thread joined. -/
  | stopped
  /-- In `write_tp.shutdown()`, then in `read_tp.shutdown()`. -/
  | joiningWriters
  | joiningReaders
  /-- `shut_handle_ope_thread` is set. -/
  | joiningDispatcher
  | destroyed
  deriving DecidableEq

/-- The stages that are still to come. -/
def Teardown.left : Teardown → ℕ
  | .serving => 5
  | .stopped => 4
  | .joiningWriters => 3
  | .joiningReaders => 2
  | .joiningDispatcher => 1
  | .destroyed => 0

/-- A server with the threads that have not returned: those of its two pools, and the dispatcher's.
-/
structure ClosingServer (σ : Type) where
  data : DataServer σ
  stage : Teardown := .serving
  writers : ℕ
  readers : ℕ
  dispatching : Bool := true

namespace ClosingServer

def on (c : ClosingServer σ) (d : DataServer σ) : ClosingServer σ := { c with data := d }

/-- What the threads do with the requests. A worker needs a thread that is left, and the dispatcher
begins no round once its flag is set. -/
inductive Works (fs : FileStore) (outcome : (r : Request) → σ → r.Resp → σ → Prop)
    (c : ClosingServer σ) : DataServer σ → Prop
  | swapWopes (hthread : c.dispatching = true) (hflag : 1 < c.stage.left)
      (hhalf : c.data.half = .wopes) (hround : c.data.writes.wtmp = []) (hreads : c.data.rtmp = []) :
      Works fs outcome c c.data.swapWopes
  | swapRopes (hthread : c.dispatching = true) (hhalf : c.data.half = .ropes)
      (hround : c.data.writes.wtmp = []) : Works fs outcome c c.data.swapRopes
  | enqueueWope (hthread : c.dispatching = true) {wo : ℕ × WOpeLog} {wtmp : List (ℕ × WOpeLog)}
      (hbatch : c.data.writes.wtmp = wo::wtmp) :
      Works fs outcome c { c.data with writes := c.data.writes.enqueue wo wtmp }
  | enqueueRope (hthread : c.dispatching = true) {ro : ℕ × ROpeLog} {rtmp : List (ℕ × ROpeLog)}
      (hbatch : c.data.rtmp = ro::rtmp) : Works fs outcome c (c.data.enqueueRope ro rtmp)
  | takeWope {wo : ℕ × WOpeLog} {jobs : List (ℕ × WOpeLog)} (hjobs : c.data.writes.jobs = wo::jobs)
      (hidle : c.data.writes.running.length < c.writers) :
      Works fs outcome c { c.data with writes := c.data.writes.take fs wo jobs }
  | takeRope {ro : ℕ × ROpeLog} {jobs : List (ℕ × ROpeLog)} (hjobs : c.data.jobs = ro::jobs)
      (hidle : c.data.reading.length < c.readers) : Works fs outcome c (c.data.takeRope fs ro jobs)
  | actWope (before after : List (ℕ × Activity Unit)) {t : ℕ} {a : Action}
      {rest : a.Resp → Activity Unit} (answer : a.Resp) {world : σ}
      (hrunning : c.data.writes.running = before ++ (t,.call a rest)::after)
      (hchanges : a.changes outcome c.data.writes.world answer world) :
      Works fs outcome c (c.data.actWope before after t a (rest answer) world)
  | actRope (before after : List (ℕ × Activity Unit)) {t : ℕ} {a : Action}
      {rest : a.Resp → Activity Unit} (answer : a.Resp) {world : σ}
      (hreading : c.data.reading = before ++ (t,.call a rest)::after)
      (hchanges : a.changes outcome c.data.writes.world answer world) :
      Works fs outcome c (c.data.actRope before after t a (rest answer) world)

/-- One step of a server and of its end. A thread of a pool returns when the flag of the pool is set
and it sees no job. -/
inductive Step (fs : FileStore) (outcome : (r : Request) → σ → r.Resp → σ → Prop) :
    ClosingServer σ → ClosingServer σ → Prop
  | reqWrite {c : ClosingServer σ} (opeId : Bytes) (wope : WOPE) (fromNode : InfoForNetNode)
      (hstage : c.stage = .serving) : Step fs outcome c
        (c.on { c.data with writes := c.data.writes.reqWrite opeId wope fromNode })
  | reqRead {c : ClosingServer σ} (ropelog : ROpeLog) (hstage : c.stage = .serving) :
      Step fs outcome c (c.on (c.data.reqRead ropelog))
  | work {c : ClosingServer σ} {d : DataServer σ} (hworks : c.Works fs outcome d) :
      Step fs outcome c (c.on d)
  | stop {c : ClosingServer σ} (hstage : c.stage = .serving) :
      Step fs outcome c { c with stage := .stopped }
  | shutWriters {c : ClosingServer σ} (hstage : c.stage = .stopped) :
      Step fs outcome c { c with stage := .joiningWriters }
  | writerReturns {c : ClosingServer σ} (hflag : c.stage.left ≤ 3) (hjobs : c.data.writes.jobs = [])
      (hidle : c.data.writes.running.length < c.writers) :
      Step fs outcome c { c with writers := c.writers-1 }
  | shutReaders {c : ClosingServer σ} (hstage : c.stage = .joiningWriters) (hjoined : c.writers = 0) :
      Step fs outcome c { c with stage := .joiningReaders }
  | readerReturns {c : ClosingServer σ} (hflag : c.stage.left ≤ 2) (hjobs : c.data.jobs = [])
      (hidle : c.data.reading.length < c.readers) :
      Step fs outcome c { c with readers := c.readers-1 }
  | shutDispatcher {c : ClosingServer σ} (hstage : c.stage = .joiningReaders)
      (hjoined : c.readers = 0) : Step fs outcome c { c with stage := .joiningDispatcher }
  | dispatcherReturns {c : ClosingServer σ} (hflag : c.stage = .joiningDispatcher)
      (hthread : c.dispatching = true) (hhalf : c.data.half = .wopes)
      (hround : c.data.writes.wtmp = []) (hreads : c.data.rtmp = []) :
      Step fs outcome c { c with dispatching := false }
  | destroy {c : ClosingServer σ} (hstage : c.stage = .joiningDispatcher)
      (hjoined : c.dispatching = false) : Step fs outcome c { c with stage := .destroyed }

/-- The states of a server that has started on `world₀` with so many threads in each pool. -/
inductive Reachable (fs : FileStore) (threads : ℕ)
    (outcome : (r : Request) → σ → r.Resp → σ → Prop) (world₀ : σ) : ClosingServer σ → Prop
  | start : Reachable fs threads outcome world₀
      { data := { writes := { world := world₀ } }, writers := threads, readers := threads }
  | step {c c' : ClosingServer σ} : Reachable fs threads outcome world₀ c → Step fs outcome c c' →
      Reachable fs threads outcome world₀ c'

variable {fs : FileStore} {threads : ℕ} {outcome : (r : Request) → σ → r.Resp → σ → Prop}
  {world₀ : σ} {c c' : ClosingServer σ} {d : DataServer σ}

/-- The server is one that serves, and no more threads are busy than are left. -/
structure Inv (fs : FileStore) (threads : ℕ) (outcome : (r : Request) → σ → r.Resp → σ → Prop)
    (world₀ : σ) (c : ClosingServer σ) : Prop where
  data : DataServer.Reachable fs threads outcome world₀ c.data
  writers : c.writers ≤ threads
  running : c.data.writes.running.length ≤ c.writers
  joinedWriters : c.stage.left ≤ 2 → c.writers = 0
  readers : c.readers ≤ threads
  reading : c.data.reading.length ≤ c.readers
  joinedReaders : c.stage.left ≤ 1 → c.readers = 0
  returned : c.dispatching = false →
    c.stage.left ≤ 1 ∧ c.data.half = .wopes ∧ c.data.writes.wtmp = [] ∧ c.data.rtmp = []
  destroyed : c.stage = .destroyed → c.dispatching = false

lemma occupied_length (t : ℕ) (p : Activity Unit) : (Server.occupied t p).length ≤ 1 := by
  cases p <;> simp [Server.occupied]

/-- What the threads do is a step of a server that serves. -/
lemma Works.step (h : c.Works fs outcome d) (hwriters : c.writers ≤ threads)
    (hreaders : c.readers ≤ threads) : DataServer.Step fs threads outcome c.data d := by
  cases h with
  | swapWopes _ _ hhalf hround hreads => exact .swapWopes hhalf hround hreads
  | swapRopes _ hhalf hround => exact .swapRopes hhalf hround
  | enqueueWope _ hbatch => exact .enqueueWope hbatch
  | enqueueRope _ hbatch => exact .enqueueRope hbatch
  | takeWope hjobs hidle => exact .takeWope hjobs (hidle.trans_le hwriters)
  | takeRope hjobs hidle => exact .takeRope hjobs (hidle.trans_le hreaders)
  | actWope before after answer hrunning hchanges => exact .actWope before after answer hrunning hchanges
  | actRope before after answer hreading hchanges => exact .actRope before after answer hreading hchanges

/-- They take in no request. -/
lemma Works.frame (h : c.Works fs outcome d) :
    d.writes.accepted = c.data.writes.accepted ∧ d.asked = c.data.asked := by
  cases h <;> exact ⟨rfl,rfl⟩

/-- A thread for every job that is run. -/
lemma Works.busy (h : c.Works fs outcome d) (hrunning : c.data.writes.running.length ≤ c.writers)
    (hreading : c.data.reading.length ≤ c.readers) :
    d.writes.running.length ≤ c.writers ∧ d.reading.length ≤ c.readers := by
  cases h with
  | @takeWope wo jobs _ hidle =>
    have hone := occupied_length wo.1 (fs.jobActions (fs.doWope wo.2))
    refine ⟨?_,hreading⟩
    simp only [Server.take,List.length_append]
    omega
  | @takeRope ro jobs _ hidle =>
    have hone := occupied_length ro.1 (fs.jobActions (fs.doRope ro.2))
    refine ⟨hrunning,?_⟩
    simp only [DataServer.takeRope,List.length_append]
    omega
  | @actWope before after t a rest answer world hworkers _ =>
    have hone := occupied_length t (rest answer)
    refine ⟨?_,hreading⟩
    simp only [hworkers,List.length_append,List.length_cons] at hrunning
    simp only [DataServer.actWope,Server.act,List.length_append]
    omega
  | @actRope before after t a rest answer world hworkers _ =>
    have hone := occupied_length t (rest answer)
    refine ⟨hrunning,?_⟩
    simp only [hworkers,List.length_append,List.length_cons] at hreading
    simp only [DataServer.actRope,List.length_append]
    omega
  | _ => exact ⟨hrunning,hreading⟩

/-- Without the dispatcher and the threads of the pools there is nothing left to do. -/
lemma Works.not_returned (h : c.Works fs outcome d) (hdispatching : c.dispatching = false)
    (hrunning : c.data.writes.running = []) (hreading : c.data.reading = [])
    (hwriters : c.writers = 0) (hreaders : c.readers = 0) : False := by
  cases h with
  | swapWopes hthread _ _ _ _ => simp [hdispatching] at hthread
  | swapRopes hthread _ _ => simp [hdispatching] at hthread
  | enqueueWope hthread _ => simp [hdispatching] at hthread
  | enqueueRope hthread _ => simp [hdispatching] at hthread
  | takeWope _ hidle => simp [hwriters] at hidle
  | takeRope _ hidle => simp [hreaders] at hidle
  | actWope before after answer hworkers _ => simp [hrunning] at hworkers
  | actRope before after answer hworkers _ => simp [hreading] at hworkers

namespace Inv

lemma start : Inv fs threads outcome world₀
    { data := { writes := { world := world₀ } }, writers := threads, readers := threads } where
  data := .start
  writers := le_rfl
  running := Nat.zero_le _
  joinedWriters := by simp [Teardown.left]
  readers := le_rfl
  reading := Nat.zero_le _
  joinedReaders := by simp [Teardown.left]
  returned := by simp
  destroyed := by simp

/-- Nothing is run once the pools have been joined. -/
lemma idle (h : Inv fs threads outcome world₀ c) (hstage : c.stage.left ≤ 1) : c.writers = 0 ∧
    c.readers = 0 ∧ c.data.writes.running = [] ∧ c.data.reading = [] := by
  have hwriters := h.joinedWriters (by omega)
  have hreaders := h.joinedReaders hstage
  have hrunning := h.running
  have hreading := h.reading
  rw [hwriters] at hrunning
  rw [hreaders] at hreading
  exact ⟨hwriters,hreaders,List.length_eq_zero_iff.1 (Nat.le_zero.1 hrunning),
    List.length_eq_zero_iff.1 (Nat.le_zero.1 hreading)⟩

lemma work (h : Inv fs threads outcome world₀ c) (hworks : c.Works fs outcome d) :
    Inv fs threads outcome world₀ (c.on d) := by
  obtain ⟨hrunning,hreading⟩ := hworks.busy h.running h.reading
  refine ⟨h.data.step (hworks.step h.writers h.readers),h.writers,hrunning,h.joinedWriters,h.readers,
    hreading,h.joinedReaders,?_,h.destroyed⟩
  intro hdispatching
  have hleft := (h.returned hdispatching).1
  obtain ⟨hwriters,hreaders,hnone,hnoread⟩ := h.idle hleft
  exact (hworks.not_returned hdispatching hnone hnoread hwriters hreaders).elim

/-- The stage goes on, with the threads that it has waited for gone. -/
lemma advance (h : Inv fs threads outcome world₀ c) {stage : Teardown}
    (hstage : stage.left ≤ c.stage.left) (hwriters : stage.left ≤ 2 → c.writers = 0)
    (hreaders : stage.left ≤ 1 → c.readers = 0)
    (hdispatching : stage = .destroyed → c.dispatching = false) :
    Inv fs threads outcome world₀ { c with stage := stage } :=
  ⟨h.data,h.writers,h.running,hwriters,h.readers,h.reading,hreaders,
    fun hreturned => ⟨hstage.trans (h.returned hreturned).1,(h.returned hreturned).2⟩,hdispatching⟩

theorem step (h : Inv fs threads outcome world₀ c) (hstep : Step fs outcome c c') :
    Inv fs threads outcome world₀ c' := by
  cases hstep with
  | reqWrite opeId wope fromNode hstage =>
    refine ⟨h.data.step (.reqWrite _ opeId wope fromNode),h.writers,h.running,h.joinedWriters,
      h.readers,h.reading,h.joinedReaders,?_,h.destroyed⟩
    intro hdispatching
    have hleft := (h.returned hdispatching).1
    simp [hstage,Teardown.left] at hleft
  | reqRead ropelog hstage =>
    refine ⟨h.data.step (.reqRead _ ropelog),h.writers,h.running,h.joinedWriters,h.readers,h.reading,
      h.joinedReaders,?_,h.destroyed⟩
    intro hdispatching
    have hleft := (h.returned hdispatching).1
    simp [hstage,Teardown.left] at hleft
  | work hworks => exact h.work hworks
  | stop hstage =>
    refine h.advance ?_ ?_ ?_ ?_ <;> simp [hstage,Teardown.left]
  | shutWriters hstage =>
    refine h.advance ?_ ?_ ?_ ?_ <;> simp [hstage,Teardown.left]
  | writerReturns hflag hjobs hidle =>
    have hwriters := h.writers
    refine ⟨h.data,?_,?_,?_,h.readers,h.reading,h.joinedReaders,h.returned,h.destroyed⟩
    · change c.writers-1 ≤ threads
      omega
    · change c.data.writes.running.length ≤ c.writers-1
      omega
    · intro hstage
      change c.writers-1 = 0
      rw [h.joinedWriters hstage]
  | shutReaders hstage hjoined =>
    refine h.advance ?_ (fun _ => hjoined) ?_ ?_ <;> simp [hstage,Teardown.left]
  | readerReturns hflag hjobs hidle =>
    have hreaders := h.readers
    refine ⟨h.data,h.writers,h.running,h.joinedWriters,?_,?_,?_,h.returned,h.destroyed⟩
    · change c.readers-1 ≤ threads
      omega
    · change c.data.reading.length ≤ c.readers-1
      omega
    · intro hstage
      change c.readers-1 = 0
      rw [h.joinedReaders hstage]
  | shutDispatcher hstage hjoined =>
    refine h.advance (by simp [hstage,Teardown.left]) (fun _ => ?_) (fun _ => hjoined) (by simp)
    exact h.joinedWriters (by simp [hstage,Teardown.left])
  | dispatcherReturns hflag hthread hhalf hround hreads =>
    refine ⟨h.data,h.writers,h.running,h.joinedWriters,h.readers,h.reading,h.joinedReaders,?_,
      fun _ => rfl⟩
    intro _
    exact ⟨by simp [hflag,Teardown.left],hhalf,hround,hreads⟩
  | destroy hstage hjoined =>
    refine h.advance (by simp [hstage,Teardown.left]) (fun _ => ?_) (fun _ => ?_) (fun _ => hjoined)
    · exact h.joinedWriters (by simp [hstage,Teardown.left])
    · exact h.joinedReaders (by simp [hstage,Teardown.left])

end Inv

theorem Reachable.inv (h : Reachable fs threads outcome world₀ c) :
    Inv fs threads outcome world₀ c := by
  induction h with
  | start => exact .start
  | step _ hstep ih => exact ih.step hstep

/-- No request is inside a phase: a write waits with all that its phases so far owe it, or is
finished, and a read waits untouched, or is answered. -/
structure Settled (d : DataServer σ) : Prop where
  writes : ∀ t wopelog, d.writes.accepted[t]? = some wopelog →
    d.writes.eventsOf t = [] ∧ (t,wopelog) ∈ d.writes.wopeLogs ++ d.writes.jobs ∨
    d.writes.eventsOf t =
        [.doWOPEBegun,.doWOPEFinished,.sent (.repWrite wopelog .primaryJournalWrite)] ∧
      (∃ state, (state = .onJournal ∨ state = .onDisk) ∧
        (t,{ wopelog with wopeState := state }) ∈ d.writes.wopeLogs ++ d.writes.jobs) ∨
    d.writes.eventsOf t =
        [.doWOPEBegun,.doWOPEFinished,.sent (.repWrite wopelog .primaryJournalWrite),
          .sent (.repWrite { wopelog with wopeState := .onDisk } .primaryDiskWrite)] ∧
      t ∈ d.writes.finished
  reads : ∀ t ropelog, d.asked[t]? = some ropelog →
    d.answersTo t = [] ∧ (t,ropelog) ∈ d.ropeLogs ++ d.jobs ∨
    ∃ reply, ropelog.Answer reply ∧ d.answersTo t = [reply] ∧ t ∈ d.finished

/-- Where no worker is at a request and no batch is out, all requests are settled. -/
lemma settled_of_idle (h : d.Inv) (hrunning : d.writes.running = []) (hreading : d.reading = [])
    (hwtmp : d.writes.wtmp = []) (hrtmp : d.rtmp = []) : Settled d where
  writes := by
    intro t wopelog haccepted
    have ht := (List.getElem?_eq_some_iff.1 haccepted).1
    obtain ⟨p,hmem,log,hlog,hagrees⟩ := h.writes.register.exists_entry ht
    obtain rfl : log = wopelog := Option.some.inj (hlog.symm.trans haccepted)
    have hinit := h.writes.init log (List.mem_of_getElem? haccepted)
    cases p with
    | queued wo =>
      obtain ⟨state,stage,rfl,hentry,hevents⟩ := hagrees
      have hplace : (t,{ log with wopeState := state }) ∈ d.writes.wopeLogs ++ d.writes.jobs := by
        simpa [Server.entries,Server.queuedEntries,Server.runningEntries,Server.finishedEntries,
          hrunning,hwtmp] using hmem
      cases state with
      | init =>
        cases hentry
        have hsame : { log with wopeState := .init } = log := by rw [← hinit]
        exact .inl ⟨hevents,hsame ▸ hplace⟩
      | onJournal =>
        cases hentry
        exact .inr (.inl ⟨hevents,_,.inl rfl,hplace⟩)
      | onDisk =>
        cases hentry
        exact .inr (.inl ⟨hevents,_,.inr rfl,hplace⟩)
      | other => cases hentry
    | running p =>
      simp [Server.entries,Server.queuedEntries,Server.runningEntries,Server.finishedEntries,
        hrunning] at hmem
    | finished =>
      refine .inr (.inr ⟨hagrees,?_⟩)
      simpa [Server.entries,Server.queuedEntries,Server.runningEntries,Server.finishedEntries] using hmem
  reads := by
    intro t ropelog hasked
    have ht := (List.getElem?_eq_some_iff.1 hasked).1
    obtain ⟨p,hmem,log,hlog,hagrees⟩ := h.register.exists_entry ht
    obtain rfl : log = ropelog := Option.some.inj (hlog.symm.trans hasked)
    cases p with
    | queued ro =>
      obtain ⟨rfl,hnone⟩ := hagrees
      refine .inl ⟨hnone,?_⟩
      simpa [DataServer.entries,DataServer.queuedEntries,DataServer.readingEntries,
        DataServer.finishedEntries,hreading,hrtmp] using hmem
    | reading p =>
      simp [DataServer.entries,DataServer.queuedEntries,DataServer.readingEntries,
        DataServer.finishedEntries,hreading] at hmem
    | finished =>
      obtain ⟨reply,hanswer,hreplies⟩ := hagrees
      refine .inr ⟨reply,hanswer,hreplies,?_⟩
      simpa [DataServer.entries,DataServer.queuedEntries,DataServer.readingEntries,
        DataServer.finishedEntries] using hmem

/-- A step that is no empty turn of the dispatcher, unless that is the one that ends its last
round. -/
def Turns (fs : FileStore) (outcome : (r : Request) → σ → r.Resp → σ → Prop)
    (c c' : ClosingServer σ) : Prop :=
  Step fs outcome c c' ∧ (1 < c.stage.left → ¬c.data.Spins c'.data)

section Rank

/-- Whether the last round of the dispatcher has still to come to the reads. -/
def halves (c : ClosingServer σ) : ℕ := if c.stage.left ≤ 1 ∧ c.data.half = .ropes then 1 else 0

/-- The threads that are left. -/
def threadsLeft (c : ClosingServer σ) : ℕ := c.writers+c.readers+c.dispatching.toNat

/-- The stages that are left, then the half of the last round, then the rank of the server, then the
threads. -/
abbrev Rank := ℕ × ℕ × DataServer.Rank × ℕ

abbrev Lower : Rank → Rank → Prop :=
  Prod.Lex (· < ·) (Prod.Lex (· < ·) (Prod.Lex DataServer.Rank.Lower (· < ·)))

lemma lower_wf : WellFounded Lower :=
  WellFounded.prod_lex wellFounded_lt (WellFounded.prod_lex wellFounded_lt
    (WellFounded.prod_lex DataServer.Rank.lower_wf wellFounded_lt))

structure Ranked (fs : FileStore) (threads : ℕ) (outcome : (r : Request) → σ → r.Resp → σ → Prop)
    (world₀ : σ) (c : ClosingServer σ) (r : Rank) : Prop where
  reach : Reachable fs threads outcome world₀ c
  closing : c.stage ≠ .serving
  rank : ∃ served, c.data.Ranked served ∧ r = (c.stage.left,c.halves,served,c.threadsLeft)

/-- The halves do not grow, and an empty turn in the last round is one to the writes. -/
lemma Works.halves (h : c.Works fs outcome d) : (c.on d).halves ≤ c.halves ∧
    (c.stage.left ≤ 1 → c.data.Spins d → (c.on d).halves < c.halves) := by
  cases h with
  | swapWopes hthread hflag hhalf _ _ =>
    have hnot : ¬c.stage.left ≤ 1 := by omega
    refine ⟨?_,fun hlast => absurd hlast hnot⟩
    simp [ClosingServer.halves,on,hnot]
  | swapRopes hthread hhalf _ =>
    refine ⟨?_,?_⟩
    · simp [ClosingServer.halves,on,DataServer.swapRopes]
    · intro hlast _
      simp [ClosingServer.halves,on,DataServer.swapRopes,hhalf,hlast]
  | _ => exact ⟨le_rfl,fun _ hspins => absurd rfl hspins.2.2⟩

lemma Ranked.work {r : Rank} (h : Ranked fs threads outcome world₀ c r)
    (hworks : c.Works fs outcome d) (hspins : 1 < c.stage.left → ¬c.data.Spins d) :
    ∃ r', Lower r' r ∧ Ranked fs threads outcome world₀ (c.on d) r' := by
  obtain ⟨hreach,hclosing,served,hserved,rfl⟩ := h
  have hinv := hreach.inv
  have hreach' := hreach.step (.work hworks)
  have hstep := hworks.step hinv.writers hinv.readers
  obtain ⟨haccepted,hasked⟩ := hworks.frame
  obtain ⟨hle,hlast⟩ := hworks.halves
  by_cases hempty : c.data.Spins d
  · -- Only the last round turns with both queues empty.
    have hstage : c.stage.left ≤ 1 := by
      by_contra hmore
      exact hspins (not_le.1 hmore) hempty
    obtain ⟨phases,hphases⟩ := hreach'.inv.data.inPhases
    exact ⟨_,.right _ (.left _ _ (hlast hstage hempty)),hreach',hclosing,_,
      ⟨hreach'.inv.data.inv,phases,hphases,rfl⟩,rfl⟩
  · obtain ⟨served',hlower,hserved'⟩ := hserved.serves ⟨hstep,hempty,haccepted,hasked⟩
    refine ⟨_,?_,hreach',hclosing,served',hserved',rfl⟩
    rcases hle.lt_or_eq with hlt | heq
    · exact .right _ (.left _ _ hlt)
    · rw [heq]
      exact .right _ (.right _ (.left _ _ hlower))

/-- A thread returns, and the requests stay as they are. -/
lemma Ranked.thread {r : Rank} (h : Ranked fs threads outcome world₀ c r)
    (hstep : Step fs outcome c c') (hstage : c'.stage = c.stage) (hdata : c'.data = c.data)
    (hless : c'.threadsLeft < c.threadsLeft) :
    ∃ r', Lower r' r ∧ Ranked fs threads outcome world₀ c' r' := by
  obtain ⟨hreach,hclosing,served,hserved,rfl⟩ := h
  refine ⟨_,?_,hreach.step hstep,hstage ▸ hclosing,served,hdata ▸ hserved,rfl⟩
  have hhalves : c'.halves = c.halves := by
    rw [ClosingServer.halves,hstage,hdata,ClosingServer.halves]
  rw [hstage,hhalves]
  exact .right _ (.right _ (.right _ hless))

/-- The end of the server goes on to its next stage. -/
lemma Ranked.advance {r : Rank} {stage : Teardown} (h : Ranked fs threads outcome world₀ c r)
    (hstep : Step fs outcome c { c with stage := stage }) (hless : stage.left < c.stage.left)
    (hstage : stage ≠ .serving) :
    ∃ r', Lower r' r ∧ Ranked fs threads outcome world₀ { c with stage := stage } r' := by
  obtain ⟨hreach,hclosing,served,hserved,rfl⟩ := h
  exact ⟨_,.left _ _ hless,hreach.step hstep,hstage,served,hserved,rfl⟩

theorem Ranked.turns {r : Rank} (h : Ranked fs threads outcome world₀ c r)
    (hturns : Turns fs outcome c c') :
    ∃ r', Lower r' r ∧ Ranked fs threads outcome world₀ c' r' := by
  obtain ⟨hstep,hspins⟩ := hturns
  have hclosing := h.closing
  cases hstep with
  | reqWrite _ _ _ hstage => exact absurd hstage hclosing
  | reqRead _ hstage => exact absurd hstage hclosing
  | work hworks => exact h.work hworks hspins
  | stop hstage => exact absurd hstage hclosing
  | shutWriters hstage =>
    exact h.advance (.shutWriters hstage) (by simp [hstage,Teardown.left]) (by simp)
  | writerReturns hflag hjobs hidle =>
    refine h.thread (.writerReturns hflag hjobs hidle) rfl rfl ?_
    simp only [threadsLeft]
    omega
  | shutReaders hstage hjoined =>
    exact h.advance (.shutReaders hstage hjoined) (by simp [hstage,Teardown.left]) (by simp)
  | readerReturns hflag hjobs hidle =>
    refine h.thread (.readerReturns hflag hjobs hidle) rfl rfl ?_
    simp only [threadsLeft]
    omega
  | shutDispatcher hstage hjoined =>
    exact h.advance (.shutDispatcher hstage hjoined) (by simp [hstage,Teardown.left]) (by simp)
  | dispatcherReturns hflag hthread hhalf hround hreads =>
    refine h.thread (.dispatcherReturns hflag hthread hhalf hround hreads) rfl rfl ?_
    simp [threadsLeft,hthread]
  | destroy hstage hjoined =>
    exact h.advance (.destroy hstage hjoined) (by simp [hstage,Teardown.left]) (by simp)

end Rank

section Rest
variable (hrest : ∀ c', ¬Turns fs outcome c c') (hstuck : ¬c.data.Stuck outcome)

include hrest in
/-- Where there is no turn, the threads can do nothing but turn with both queues empty. -/
lemma spins_of_rest (hworks : c.Works fs outcome d) : 1 < c.stage.left ∧ c.data.Spins d := by
  by_contra hnot
  rw [not_and] at hnot
  exact hrest _ ⟨.work hworks,hnot⟩

include hrest hstuck

/-- A worker that is at a request could act. -/
lemma workers_of_rest (hinv : c.data.Inv) : c.data.writes.running = [] ∧ c.data.reading = [] := by
  refine DataServer.workers_idle hinv hstuck ?_ ?_
  · intro before after t a rest answer world hrunning hchanges
    exact (spins_of_rest hrest (.actWope before after answer hrunning hchanges)).2.2.2 rfl
  · intro before after t a rest answer world hreading hchanges
    exact (spins_of_rest hrest (.actRope before after answer hreading hchanges)).2.2.2 rfl

/-- Then the end of the server has been reached. -/
lemma destroyed_of_rest (hinv : c.data.Inv) (hclosing : c.stage ≠ .serving) : c.stage = .destroyed := by
  obtain ⟨hrunning,hreading⟩ := workers_of_rest hrest hstuck hinv
  -- A step that leaves the requests alone is no empty turn.
  have hstays : ∀ {c'}, Step fs outcome c c' → c'.data = c.data → False := by
    intro c' hstep hdata
    refine hrest c' ⟨hstep,fun _ hspins => ?_⟩
    exact hspins.2.2 (by rw [hdata])
  cases hstage : c.stage with
  | serving => exact absurd hstage hclosing
  | stopped => exact (hstays (.shutWriters hstage) rfl).elim
  | joiningWriters =>
    exfalso
    cases hwriters : c.writers with
    | zero => exact hstays (.shutReaders hstage hwriters) rfl
    | succ n =>
      have hidle : c.data.writes.running.length < c.writers := by simp [hrunning,hwriters]
      cases hjobs : c.data.writes.jobs with
      | nil => exact hstays (.writerReturns (by simp [hstage,Teardown.left]) hjobs hidle) rfl
      | cons wo jobs => exact (spins_of_rest hrest (.takeWope hjobs hidle)).2.2.2 rfl
  | joiningReaders =>
    exfalso
    cases hreaders : c.readers with
    | zero => exact hstays (.shutDispatcher hstage hreaders) rfl
    | succ n =>
      have hidle : c.data.reading.length < c.readers := by simp [hreading,hreaders]
      cases hjobs : c.data.jobs with
      | nil => exact hstays (.readerReturns (by simp [hstage,Teardown.left]) hjobs hidle) rfl
      | cons ro jobs => exact (spins_of_rest hrest (.takeRope hjobs hidle)).2.2.2 rfl
  | joiningDispatcher =>
    exfalso
    have hlast : ¬1 < c.stage.left := by simp [hstage,Teardown.left]
    cases hthread : c.dispatching with
    | false => exact hstays (.destroy hstage hthread) rfl
    | true =>
      cases hwtmp : c.data.writes.wtmp with
      | cons wo wtmp => exact hlast (spins_of_rest hrest (.enqueueWope hthread hwtmp)).1
      | nil =>
        cases hhalf : c.data.half with
        | ropes => exact hlast (spins_of_rest hrest (.swapRopes hthread hhalf hwtmp)).1
        | wopes =>
          cases hrtmp : c.data.rtmp with
          | cons ro rtmp => exact hlast (spins_of_rest hrest (.enqueueRope hthread hrtmp)).1
          | nil => exact hstays (.dispatcherReturns hstage hthread hhalf hwtmp hrtmp) rfl
  | destroyed => rfl

end Rest

/-- A server that is being shut down comes to its end, whichever of its threads takes the next step,
and there no request is inside a phase; unless a worker is at a request that has no outcome. -/
theorem teardown_settles (hreach : Reachable fs threads outcome world₀ c)
    (hclosing : c.stage ≠ .serving) : Inevitable (Turns fs outcome)
      (fun c => c.data.Stuck outcome ∨ c.stage = .destroyed ∧ Settled c.data) c := by
  obtain ⟨phases,hphases⟩ := hreach.inv.data.inPhases
  refine Inevitable.of_rank lower_wf (Ranked fs threads outcome world₀) Ranked.turns ?_
    ⟨hreach,hclosing,_,⟨hreach.inv.data.inv,phases,hphases,rfl⟩,rfl⟩
  intro c r hranked hrest
  rw [or_iff_not_imp_left]
  intro hstuck
  have hinv := hranked.reach.inv
  have hdestroyed := destroyed_of_rest hrest hstuck hinv.data.inv hranked.closing
  obtain ⟨-,-,hrunning,hreading⟩ := hinv.idle (by simp [hdestroyed,Teardown.left])
  obtain ⟨-,-,hwtmp,hrtmp⟩ := hinv.returned (hinv.destroyed hdestroyed)
  exact ⟨hdestroyed,settled_of_idle hinv.data.inv hrunning hreading hwtmp hrtmp⟩

/-- A server that has been sent a write and a read and is then shut down, with one thread in each
pool. -/
def twoPending : ClosingServer World where
  data := DataServer.twoReceived
  stage := .stopped
  writers := 1
  readers := 1

theorem teardown_settles_two : Inevitable (Turns sampleStore Request.Gives)
    (fun c => c.data.Stuck Request.Gives ∨ c.stage = .destroyed ∧ Settled c.data) twoPending := by
  have r0 : Reachable sampleStore 1 Request.Gives DataServer.oneJournaled
      { data := { writes := { world := DataServer.oneJournaled } }, writers := 1, readers := 1 } :=
    .start
  have r1 := r0.step (.reqWrite writeOne.opeId writeOne.wope {} rfl)
  have r2 := r1.step (.reqRead readFirst rfl)
  exact teardown_settles (r2.step (.stop rfl)) (by decide)

end ClosingServer
end GDFileStore
