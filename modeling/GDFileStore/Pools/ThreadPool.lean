import GDFileStore.Arithmetic.Int32Range
import Mathlib.Data.List.Count

/-! The pool of workers: a list of jobs and a flag under one mutex, and the threads that run the
jobs. What a thread does under the mutex is one step, and so is `busyCount--`, which is outside. -/
namespace GDFileStore
variable {α : Type*}

/-- Where a worker's thread is in its loop. -/
inductive Worker (α : Type*)
  /-- At the mutex, or in the wait for a job. -/
  | locking
  /-- In `fn()`. -/
  | running (fn : α)
  /-- After `fn()`, before `busyCount--`. -/
  | leaving
  | returned

namespace Worker

def job? : Worker α → Option α
  | running fn => some fn
  | _ => none

/-- Counted by `busyCount`. -/
def busy : Worker α → Bool
  | running _ => true
  | leaving => true
  | _ => false

end Worker

structure ThreadPool (α : Type*) where
  threads : List (Worker α) := []
  jobs : List α := []
  shutdown_ : Bool
  busyCount : Int32 := 0

namespace ThreadPool
variable (p : ThreadPool α)

def enqueue (fn : α) : ThreadPool α := { p with jobs := p.jobs ++ [fn] }

/-- The sum is taken in `size_t` and returned as an `int`, so modulo `2^32`. -/
def workerRunning : Int32 := p.busyCount + Int32.ofNat p.jobs.length

/-- A worker finds a job: it counts itself as busy and takes the job off the list. -/
def take (before : List (Worker α)) (fn : α) (after : List (Worker α)) (jobs : List α) :
    ThreadPool α :=
  { p with threads := before ++ .running fn::after, jobs := jobs, busyCount := p.busyCount+1 }

/-- A worker goes on with nothing but its own place changed. -/
def put (before : List (Worker α)) (worker : Worker α) (after : List (Worker α)) : ThreadPool α :=
  { p with threads := before ++ worker::after }

/-- A worker is back at the head of its loop. -/
def lower (before after : List (Worker α)) : ThreadPool α :=
  { p with threads := before ++ .locking::after, busyCount := p.busyCount-1 }

/-- The jobs that are being run. -/
def running : List α := p.threads.filterMap Worker.job?

/-- The number of threads that `busyCount` counts. -/
def busyThreads : ℕ := p.threads.countP Worker.busy

section Threads
variable {p}

lemma running_of_threads (before : List (Worker α)) (worker : Worker α) (after : List (Worker α))
    (h : p.threads = before ++ worker::after) : p.running =
      before.filterMap Worker.job? ++ worker.job?.toList ++ after.filterMap Worker.job? := by
  rw [running,h,List.filterMap_append,List.append_assoc]
  cases worker <;> rfl

lemma running_put (before : List (Worker α)) (worker : Worker α) (after : List (Worker α)) :
    (p.put before worker after).running =
      before.filterMap Worker.job? ++ worker.job?.toList ++ after.filterMap Worker.job? :=
  running_of_threads before worker after rfl

lemma running_take (before : List (Worker α)) (fn : α) (after : List (Worker α)) (jobs : List α) :
    (p.take before fn after jobs).running =
      before.filterMap Worker.job? ++ [fn] ++ after.filterMap Worker.job? :=
  running_of_threads before (.running fn) after rfl

lemma running_lower (before after : List (Worker α)) : (p.lower before after).running =
    before.filterMap Worker.job? ++ [] ++ after.filterMap Worker.job? :=
  running_of_threads before .locking after rfl

/-- The job that a worker takes is run besides those that are run already. -/
lemma running_take_perm {before after : List (Worker α)} (h : p.threads = before ++ .locking::after)
    (fn : α) (jobs : List α) : (p.take before fn after jobs).running.Perm (fn::p.running) := by
  rw [running_take,running_of_threads before .locking after h,List.append_assoc]
  simp [Worker.job?]

/-- It is no longer in the list. -/
lemma jobs_take_perm {before after : List (Worker α)} {fn : α} {jobs : List α}
    (h : p.threads = before ++ .locking::after) (hjobs : p.jobs = fn::jobs) :
    (jobs ++ (p.take before fn after jobs).running).Perm (p.jobs ++ p.running) := by
  rw [hjobs]
  exact ((running_take_perm h fn jobs).append_left jobs).trans List.perm_middle

/-- A job that has been run is run no longer. -/
lemma running_finish_perm {before after : List (Worker α)} {fn : α}
    (h : p.threads = before ++ .running fn::after) :
    p.running.Perm (fn::(p.put before .leaving after).running) := by
  rw [running_put,running_of_threads before (.running fn) after h,List.append_assoc]
  simp [Worker.job?]

/-- Where all threads have returned nothing is run. -/
lemma running_of_returned (h : ∀ w ∈ p.threads, w = .returned) : p.running = [] := by
  apply List.filterMap_eq_nil_iff.2
  intro w hw
  rw [h w hw]
  rfl

/-- What `workerRunning` counts. -/
def load (p : ThreadPool α) : ℕ := p.busyThreads + p.jobs.length

/-- `busyCount` is the number of busy threads, as far as an `int` can hold it. -/
def Counted (p : ThreadPool α) : Prop := p.busyCount = Int32.ofNat p.busyThreads

lemma Counted.workerRunning (h : p.Counted) : p.workerRunning = Int32.ofNat p.load := by
  rw [ThreadPool.workerRunning,h,load,Int32.ofNat_add]

lemma busyThreads_of_threads (before : List (Worker α)) (worker : Worker α)
    (after : List (Worker α)) (h : p.threads = before ++ worker::after) : p.busyThreads =
      before.countP Worker.busy + (if worker.busy then 1 else 0) + after.countP Worker.busy := by
  rw [busyThreads,h,List.countP_append,List.countP_cons]
  omega

variable {before after : List (Worker α)} {worker : Worker α} {fn : α}

lemma busyThreads_put (h : p.threads = before ++ worker::after) {worker' : Worker α}
    (hbusy : worker'.busy = worker.busy) :
    (p.put before worker' after).busyThreads = p.busyThreads := by
  rw [busyThreads_of_threads before worker after h,
    busyThreads_of_threads (p := p.put before worker' after) before worker' after rfl,hbusy]

lemma busyThreads_take (h : p.threads = before ++ .locking::after) (jobs : List α) :
    (p.take before fn after jobs).busyThreads = p.busyThreads+1 := by
  rw [busyThreads_of_threads before .locking after h,
    busyThreads_of_threads (p := p.take before fn after jobs) before (.running fn) after rfl]
  simp only [Worker.busy,Bool.false_eq_true,if_true,if_false]
  omega

lemma busyThreads_lower (h : p.threads = before ++ .leaving::after) :
    p.busyThreads = (p.lower before after).busyThreads+1 := by
  rw [busyThreads_of_threads before .leaving after h,
    busyThreads_of_threads (p := p.lower before after) before .locking after rfl]
  simp only [Worker.busy,Bool.false_eq_true,if_true,if_false]
  omega

lemma load_put (h : p.threads = before ++ worker::after) {worker' : Worker α}
    (hbusy : worker'.busy = worker.busy) : (p.put before worker' after).load = p.load :=
  congrArg (· + p.jobs.length) (busyThreads_put h hbusy)

lemma load_take (h : p.threads = before ++ .locking::after) {jobs : List α}
    (hjobs : p.jobs = fn::jobs) : (p.take before fn after jobs).load = p.load := by
  rw [load,load,busyThreads_take h,hjobs,List.length_cons]
  exact Nat.add_right_comm ..

lemma load_lower (h : p.threads = before ++ .leaving::after) :
    p.load = (p.lower before after).load+1 := by
  rw [load,load,busyThreads_lower h]
  exact Nat.add_right_comm ..

lemma Counted.put (h : p.Counted) (hthreads : p.threads = before ++ worker::after)
    {worker' : Worker α} (hbusy : worker'.busy = worker.busy) :
    (p.put before worker' after).Counted := by
  rw [Counted,busyThreads_put hthreads hbusy]
  exact h

lemma Counted.take (h : p.Counted) (hthreads : p.threads = before ++ .locking::after)
    (jobs : List α) : (p.take before fn after jobs).Counted := by
  rw [Counted,busyThreads_take hthreads,Int32.ofNat_add]
  exact congrArg (· + 1) h

lemma Counted.lower (h : p.Counted) (hthreads : p.threads = before ++ .leaving::after) :
    (p.lower before after).Counted := by
  rw [Counted,busyThreads_lower hthreads,Int32.ofNat_add] at h
  change p.busyCount-1 = _
  rw [h]
  exact Int32.add_sub_cancel ..

/-- Where no thread is busy nothing is run. -/
lemma running_of_idle (h : p.busyThreads = 0) : p.running = [] := by
  apply List.filterMap_eq_nil_iff.2
  intro w hw
  have hidle := List.countP_eq_zero.1 h w hw
  cases w with
  | running fn => exact absurd rfl hidle
  | locking => rfl
  | leaving => rfl
  | returned => rfl

end Threads
end ThreadPool
end GDFileStore
