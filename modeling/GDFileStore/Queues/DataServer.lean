import GDFileStore.Queues.ExactlyOnce

/-! A server with both of its sides: writes and reads, each with its queue, the batch that the
dispatcher has swapped out, the job list of its pool and the workers. One dispatcher turns from the
queue of writes to the queue of reads and back. -/
namespace GDFileStore
open Sequences Program Prog
variable {σ : Type}

/-- The queue that the dispatcher swaps out next. -/
inductive Half where
  | wopes | ropes
  deriving DecidableEq, Repr

/-- The reply an action sends. -/
def Action.sent : Action → List Reply
  | .httpSend reply => [reply]
  | _ => []

/-- The write side of a server, which has the database and the files, its read side, and all the
replies that it has sent. -/
structure DataServer (σ : Type) where
  writes : Server σ
  half : Half := .wopes
  ropeLogs : List (ℕ × ROpeLog) := []
  rtmp : List (ℕ × ROpeLog) := []
  jobs : List (ℕ × ROpeLog) := []
  reading : List (ℕ × Activity Unit) := []
  finished : List ℕ := []
  asked : List ROpeLog := []
  answers : List (ℕ × Reply) := []
  sent : List Reply := []

namespace DataServer

/-- The handler of `/reqRead`: `add_rope` with a new log. -/
def reqRead (d : DataServer σ) (ropelog : ROpeLog) : DataServer σ :=
  { d with
    ropeLogs := d.ropeLogs ++ [(d.asked.length,ropelog)]
    asked := d.asked ++ [ropelog] }

/-- `wtmp.swap(wope_logs)`, which begins a round of the dispatcher. -/
def swapWopes (d : DataServer σ) : DataServer σ :=
  { d with writes := d.writes.swap, half := .ropes }

/-- `rtmp.swap(rope_logs)`, once the writes of the round are enqueued. -/
def swapRopes (d : DataServer σ) : DataServer σ :=
  { d with rtmp := d.ropeLogs, ropeLogs := [], half := .wopes }

def enqueueRope (d : DataServer σ) (ro : ℕ × ROpeLog) (rtmp : List (ℕ × ROpeLog)) : DataServer σ :=
  { d with rtmp := rtmp, jobs := d.jobs ++ [ro] }

/-- An idle worker of the read pool takes the first job. -/
def takeRope (fs : FileStore) (d : DataServer σ) (ro : ℕ × ROpeLog) (jobs : List (ℕ × ROpeLog)) :
    DataServer σ :=
  let p := fs.jobActions (fs.doRope ro.2)
  { d with
    jobs := jobs
    reading := d.reading ++ Server.occupied ro.1 p
    finished := d.finished ++ Server.ended ro.1 p [] }

/-- The worker at write `t` has done an action and goes on with `p`. -/
def actWope (d : DataServer σ) (before after : List (ℕ × Activity Unit)) (t : ℕ) (a : Action)
    (p : Activity Unit) (world : σ) : DataServer σ :=
  { d with writes := d.writes.act before after t a p world, sent := d.sent ++ a.sent }

/-- The worker at read `t` has done an action and goes on with `p`. -/
def actRope (d : DataServer σ) (before after : List (ℕ × Activity Unit)) (t : ℕ) (a : Action)
    (p : Activity Unit) (world : σ) : DataServer σ :=
  { d with
    writes := { d.writes with world := world }
    reading := before ++ Server.occupied t p ++ after
    finished := d.finished ++ Server.ended t p a.queued
    answers := d.answers ++ a.sent.map (fun reply => (t,reply))
    sent := d.sent ++ a.sent }

/-- One step of a request handler, the dispatcher or a worker of one of the pools. -/
inductive Step (fs : FileStore) (threads : ℕ) (outcome : (r : Request) → σ → r.Resp → σ → Prop) :
    DataServer σ → DataServer σ → Prop
  | reqWrite (d : DataServer σ) (opeId : Bytes) (wope : WOPE) (fromNode : InfoForNetNode) :
      Step fs threads outcome d { d with writes := d.writes.reqWrite opeId wope fromNode }
  | reqRead (d : DataServer σ) (ropelog : ROpeLog) : Step fs threads outcome d (d.reqRead ropelog)
  | swapWopes {d : DataServer σ} (hhalf : d.half = .wopes) (hround : d.writes.wtmp = [])
      (hreads : d.rtmp = []) : Step fs threads outcome d d.swapWopes
  | swapRopes {d : DataServer σ} (hhalf : d.half = .ropes) (hround : d.writes.wtmp = []) :
      Step fs threads outcome d d.swapRopes
  | enqueueWope {d : DataServer σ} {wo : ℕ × WOpeLog} {wtmp : List (ℕ × WOpeLog)}
      (hbatch : d.writes.wtmp = wo::wtmp) :
      Step fs threads outcome d { d with writes := d.writes.enqueue wo wtmp }
  | enqueueRope {d : DataServer σ} {ro : ℕ × ROpeLog} {rtmp : List (ℕ × ROpeLog)}
      (hbatch : d.rtmp = ro::rtmp) : Step fs threads outcome d (d.enqueueRope ro rtmp)
  | takeWope {d : DataServer σ} {wo : ℕ × WOpeLog} {jobs : List (ℕ × WOpeLog)}
      (hjobs : d.writes.jobs = wo::jobs) (hidle : d.writes.running.length < threads) :
      Step fs threads outcome d { d with writes := d.writes.take fs wo jobs }
  | takeRope {d : DataServer σ} {ro : ℕ × ROpeLog} {jobs : List (ℕ × ROpeLog)}
      (hjobs : d.jobs = ro::jobs) (hidle : d.reading.length < threads) :
      Step fs threads outcome d (d.takeRope fs ro jobs)
  | actWope {d : DataServer σ} (before after : List (ℕ × Activity Unit)) {t : ℕ} {a : Action}
      {rest : a.Resp → Activity Unit} (answer : a.Resp) {world : σ}
      (hrunning : d.writes.running = before ++ (t,.call a rest)::after)
      (hchanges : a.changes outcome d.writes.world answer world) :
      Step fs threads outcome d (d.actWope before after t a (rest answer) world)
  | actRope {d : DataServer σ} (before after : List (ℕ × Activity Unit)) {t : ℕ} {a : Action}
      {rest : a.Resp → Activity Unit} (answer : a.Resp) {world : σ}
      (hreading : d.reading = before ++ (t,.call a rest)::after)
      (hchanges : a.changes outcome d.writes.world answer world) :
      Step fs threads outcome d (d.actRope before after t a (rest answer) world)

/-- The states of a server that has started on `world₀`. -/
inductive Reachable (fs : FileStore) (threads : ℕ)
    (outcome : (r : Request) → σ → r.Resp → σ → Prop) (world₀ : σ) : DataServer σ → Prop
  | start : Reachable fs threads outcome world₀ { writes := { world := world₀ } }
  | step {d d' : DataServer σ} : Reachable fs threads outcome world₀ d →
      Step fs threads outcome d d' → Reachable fs threads outcome world₀ d'

/-- The replies sent for one read, in order. -/
def answersTo (d : DataServer σ) (t : ℕ) : List Reply :=
  d.answers.filterMap (fun e => if e.1 = t then some e.2 else none)

/-- In how many places a read is: the queue, the batch, the job list, a worker, or finished. -/
def timesHeld (d : DataServer σ) (t : ℕ) : ℕ :=
  (d.ropeLogs.map Prod.fst).count t+(d.rtmp.map Prod.fst).count t+(d.jobs.map Prod.fst).count t+
    (d.reading.map Prod.fst).count t+d.finished.count t

end DataServer
end GDFileStore
