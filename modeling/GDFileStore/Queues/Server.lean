import GDFileStore.Blocks.DoWOPE

/-! The path of write requests through a server: the shared queue, the batch the dispatcher has
swapped out, the job list of the pool and the workers. Each accepted request carries a ticket, by
which it can be told from an equal one. -/
namespace GDFileStore
open Program Prog

/-- One action of a worker inside `do_wope`. -/
inductive Action where
  | doWOPEBegins (wopelog : WOpeLog)
  | doWOPEReturns (wopelog : WOpeLog)
  | request (r : Request)
  | httpSend (reply : Reply)
  | addWope (wopelog : WOpeLog)

abbrev Action.Resp : Action → Type
  | .doWOPEBegins _ => Unit
  | .doWOPEReturns _ => Unit
  | .request r => r.Resp
  | .httpSend _ => Bool
  | .addWope _ => Unit

/-- What a worker still has to do. -/
abbrev Activity (α : Type) := Prog Action.Resp α

/-- The requests of `do_WOPE`, each an action of its own. -/
def Task.actions {α : Type} : Task α → Activity α
  | .done a => .done a
  | .call r rest => .call (.request r) (fun answer => Task.actions (rest answer))

namespace FileStore
variable (fs : FileStore)

/-- A phase in actions: the call to the journal is opened up into its requests. -/
def jobActions {α : Type} : Job α → Activity α
  | .done a => .done a
  | .call (.journal wopelog) rest =>
    .call (.doWOPEBegins wopelog) fun _ =>
      Task.actions (fs.doWOPE wopelog) >>= fun u =>
        .call (.doWOPEReturns wopelog) fun _ => jobActions (rest u)
  | .call (.request r) rest => .call (.request r) (fun answer => jobActions (rest answer))
  | .call (.httpSend reply) rest => .call (.httpSend reply) (fun ok => jobActions (rest ok))
  | .call (.addWope wopelog) rest => .call (.addWope wopelog) (fun u => jobActions (rest u))

end FileStore

/-- The outcome of an action when every file operation and every send succeeds. -/
def Action.handle : Handler Action.Resp Node
  | .doWOPEBegins _,n => some ((),n)
  | .doWOPEReturns _,n => some ((),n)
  | .request r,n => (r.handle n.world).map (fun a => (a.1,{ n with world := a.2 }))
  | .httpSend reply,n => some (true,{ n with sent := n.sent ++ [reply] })
  | .addWope wopelog,n => some ((),{ n with wopeLogs := n.wopeLogs ++ [wopelog] })

lemma Task.run_actions {α : Type} (p : Task α) (n : Node) :
    run Action.handle (Task.actions p) n =
      (run Request.handle p n.world).map (fun r => (r.1,{ n with world := r.2 })) := by
  induction p generalizing n with
  | done a => rfl
  | call r rest ih =>
    simp only [Task.actions,run,Action.handle]
    cases r.handle n.world with
    | none => rfl
    | some answer => exact ih answer.1 { n with world := answer.2 }

/-- Left alone, a worker's actions do what its calls do. -/
theorem FileStore.run_jobActions (fs : FileStore) {α : Type} (p : Job α) (n : Node) :
    run Action.handle (fs.jobActions p) n = run (Call.handle fs) p n := by
  induction p generalizing n with
  | done a => rfl
  | call c rest ih =>
    cases c with
    | journal wopelog =>
      simp only [jobActions,run,run_bind,Action.handle,Call.handle,Option.bind_some,Task.run_actions]
      cases run Request.handle (fs.doWOPE wopelog) n.world with
      | none => rfl
      | some r => exact ih r.1 { n with world := r.2 }
    | request r =>
      simp only [jobActions,run,Action.handle,Call.handle]
      cases r.handle n.world with
      | none => rfl
      | some answer => exact ih answer.1 { n with world := answer.2 }
    | httpSend reply => exact ih true { n with sent := n.sent ++ [reply] }
    | addWope wopelog => exact ih () { n with wopeLogs := n.wopeLogs ++ [wopelog] }

/-- What happens to an accepted request that the outside or the journal can see. -/
inductive Event where
  | doWOPEBegun
  | doWOPEFinished
  | sent (reply : Reply)
  deriving DecidableEq, Repr

namespace Action

def events : Action → List Event
  | .doWOPEBegins _ => [.doWOPEBegun]
  | .doWOPEReturns _ => [.doWOPEFinished]
  | .request _ => []
  | .httpSend reply => [.sent reply]
  | .addWope _ => []

/-- The log an action puts back into the queue. -/
def queued : Action → List WOpeLog
  | .addWope wopelog => [wopelog]
  | _ => []

/-- How the database and the files change under an action, given what requests do to them. -/
def changes {σ : Type} (outcome : (r : Request) → σ → r.Resp → σ → Prop) :
    (a : Action) → σ → a.Resp → σ → Prop
  | .request r,s,answer,s' => outcome r s answer s'
  | _,s,_,s' => s' = s

end Action

/-- A server: its database and files, the places a write request passes through, and what has
been accepted and done so far. -/
structure Server (σ : Type) where
  world : σ
  wopeLogs : List (ℕ × WOpeLog) := []
  wtmp : List (ℕ × WOpeLog) := []
  jobs : List (ℕ × WOpeLog) := []
  running : List (ℕ × Activity Unit) := []
  finished : List ℕ := []
  accepted : List WOpeLog := []
  trace : List (ℕ × Event) := []

namespace Server
variable {σ : Type}

/-- A worker stays at a request until its `do_wope` returns. -/
def occupied (t : ℕ) : Activity Unit → List (ℕ × Activity Unit)
  | .done _ => []
  | .call a rest => [(t,.call a rest)]

/-- A request is finished when `do_wope` returns without putting it back into the queue. -/
def ended (t : ℕ) : Activity Unit → List WOpeLog → List ℕ
  | .done _,[] => [t]
  | _,_ => []

/-- The handler of `/reqWrite`: `add_wope` with a new log. -/
def reqWrite (s : Server σ) (opeId : Bytes) (wope : WOPE) (fromNode : InfoForNetNode) : Server σ :=
  let opelog : WOpeLog := ⟨opeId,wope,fromNode,.init⟩
  { s with
    wopeLogs := s.wopeLogs ++ [(s.accepted.length,opelog)]
    accepted := s.accepted ++ [opelog] }

/-- `wtmp.swap(wope_logs)` with the empty list of a new round. -/
def swap (s : Server σ) : Server σ := { s with wtmp := s.wopeLogs, wopeLogs := [] }

/-- `enqueue` of the first log of the batch. -/
def enqueue (s : Server σ) (wo : ℕ × WOpeLog) (wtmp : List (ℕ × WOpeLog)) : Server σ :=
  { s with wtmp := wtmp, jobs := s.jobs ++ [wo] }

/-- An idle worker takes the first job. -/
def take (fs : FileStore) (s : Server σ) (wo : ℕ × WOpeLog) (jobs : List (ℕ × WOpeLog)) :
    Server σ :=
  let p := fs.jobActions (fs.doWope wo.2)
  { s with
    jobs := jobs
    running := s.running ++ occupied wo.1 p
    finished := s.finished ++ ended wo.1 p [] }

/-- The worker at request `t` has done an action and goes on with `p`. -/
def act (s : Server σ) (before after : List (ℕ × Activity Unit)) (t : ℕ) (a : Action)
    (p : Activity Unit) (world : σ) : Server σ :=
  { s with
    world := world
    wopeLogs := s.wopeLogs ++ a.queued.map (fun wopelog => (t,wopelog))
    running := before ++ occupied t p ++ after
    finished := s.finished ++ ended t p a.queued
    trace := s.trace ++ a.events.map (fun e => (t,e)) }

/-- One step of the request handler, the dispatcher or a worker. Requests may have any outcome
that `outcome` admits and every send may succeed or fail. -/
inductive Step (fs : FileStore) (threads : ℕ) (outcome : (r : Request) → σ → r.Resp → σ → Prop) :
    Server σ → Server σ → Prop
  | reqWrite (s : Server σ) (opeId : Bytes) (wope : WOPE) (fromNode : InfoForNetNode) :
      Step fs threads outcome s (s.reqWrite opeId wope fromNode)
  | swap {s : Server σ} (hround : s.wtmp = []) : Step fs threads outcome s s.swap
  | enqueue {s : Server σ} {wo : ℕ × WOpeLog} {wtmp : List (ℕ × WOpeLog)}
      (hbatch : s.wtmp = wo::wtmp) : Step fs threads outcome s (s.enqueue wo wtmp)
  | take {s : Server σ} {wo : ℕ × WOpeLog} {jobs : List (ℕ × WOpeLog)}
      (hjobs : s.jobs = wo::jobs) (hidle : s.running.length < threads) :
      Step fs threads outcome s (s.take fs wo jobs)
  | act {s : Server σ} (before after : List (ℕ × Activity Unit)) {t : ℕ} {a : Action}
      {rest : a.Resp → Activity Unit} (answer : a.Resp) {world : σ}
      (hrunning : s.running = before ++ (t,.call a rest)::after)
      (hchanges : a.changes outcome s.world answer world) :
      Step fs threads outcome s (s.act before after t a (rest answer) world)

/-- The states of a server that has started on `world₀`. -/
inductive Reachable (fs : FileStore) (threads : ℕ)
    (outcome : (r : Request) → σ → r.Resp → σ → Prop) (world₀ : σ) : Server σ → Prop
  | start : Reachable fs threads outcome world₀ { world := world₀ }
  | step {s s' : Server σ} : Reachable fs threads outcome world₀ s → Step fs threads outcome s s' →
      Reachable fs threads outcome world₀ s'

/-- The events of one request, in order. -/
def eventsOf (s : Server σ) (t : ℕ) : List Event :=
  s.trace.filterMap (fun e => if e.1 = t then some e.2 else none)

end Server

/-- The replies among the events. -/
def replies : List Event → List Reply
  | [] => []
  | .sent reply::events => reply::replies events
  | _::events => replies events

namespace Server
variable {σ : Type}

/-- The replies sent for one request, in order. -/
def repliesTo (s : Server σ) (t : ℕ) : List Reply := replies (s.eventsOf t)

/-- In how many places a request is: the queue, the batch, the job list, a worker, or finished. -/
def timesHeld (s : Server σ) (t : ℕ) : ℕ :=
  (s.wopeLogs.map Prod.fst).count t+(s.wtmp.map Prod.fst).count t+(s.jobs.map Prod.fst).count t+
    (s.running.map Prod.fst).count t+s.finished.count t

end Server
end GDFileStore
