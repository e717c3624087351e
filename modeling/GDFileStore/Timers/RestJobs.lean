import GDFileStore.Pools.ThreadPool
import GDFileStore.Timers.Timer

/-! Timers that a pool calls. `Tick` moves a timer from the list to the pool's jobs, a worker calls
it, and its `afterTask` puts it back into the list; `RestJobs` counts what is in these places. -/
namespace GDFileStore
open Sequences
variable {τ : Type*}

/-- What is left of a `Timer::call()`: all of it, or closures of `afterTask` by their rounds. -/
inductive TimerCall (τ : Type*)
  | task (t : Timer τ)
  | after (t : Timer τ) (rounds : List ℤ)

def TimerCall.owes : TimerCall τ → List (Option τ × ℤ)
  | task t => t.owes
  | after t rounds => t.owesLater rounds

/-- Who holds `accesss_to_timers`: nobody, a `Tick` that has enqueued the first timer or not, or a
`RestJobs` with what it has read. -/
inductive TimersHolder
  | nobody
  | tick (moved : Bool)
  | rest (size : Option ℕ) (running : Option Int32)

/-- A `ConcTimerCaller`, the timers that have been added to it and the calls that its workers have
made of tasks. -/
structure ConcTimerCaller (τ : Type*) where
  timers : List (Timer τ) := [.sentinel]
  tp : ThreadPool (TimerCall τ)
  holder : TimersHolder := .nobody
  added : List (Timer τ) := []
  executed : List (Option τ × ℤ) := []

namespace ConcTimerCaller

/-- A new one, whose pool has started its workers. -/
def new (workers : ℕ) : ConcTimerCaller τ :=
  { tp := { threads := List.replicate workers .locking, shutdown_ := false } }

/-- The sum of `RestJobs`. It is taken in `size_t` and returned as an `int`, so modulo `2^32`. -/
def restJobs (size : ℕ) (running : Int32) : Int32 := Int32.ofNat size + running - 1

/-- `RestJobs` returns. -/
inductive Returns : ConcTimerCaller τ → Int32 → ConcTimerCaller τ → Prop
  | mk {s : ConcTimerCaller τ} (size : ℕ) (running : Int32) :
      s.holder = .rest (some size) (some running) →
      Returns s (restJobs size running) { s with holder := .nobody }

section Steps
variable (adds : Timer τ → Prop) (reading : ℤ → Prop)

/-- One step, with the timers that are added and the readings of the clock. `Tick` may stop at any
point, by the clock or by the flag of the caller. -/
inductive Step : ConcTimerCaller τ → ConcTimerCaller τ → Prop
  | addTimer {s : ConcTimerCaller τ} (t : Timer τ) : s.holder = .nobody → adds t →
      Step s { s with timers := addTimer t s.timers, added := s.added ++ [t] }
  | tickBegin {s : ConcTimerCaller τ} : s.holder = .nobody →
      Step s { s with holder := .tick false }
  | tickEnqueue {s : ConcTimerCaller τ} (now : ℤ) (t : Timer τ) (timers : List (Timer τ)) :
      s.holder = .tick false → s.timers = t::timers → reading now → t.when ≤ now →
      Step s { s with tp := s.tp.enqueue (.task t), holder := .tick true }
  | tickErase {s : ConcTimerCaller τ} (t : Timer τ) (timers : List (Timer τ)) :
      s.holder = .tick true → s.timers = t::timers →
      Step s { s with timers := timers, holder := .tick false }
  | tickEnd {s : ConcTimerCaller τ} : s.holder = .tick false →
      Step s { s with holder := .nobody }
  | restBegin {s : ConcTimerCaller τ} : s.holder = .nobody →
      Step s { s with holder := .rest none none }
  | restSize {s : ConcTimerCaller τ} (running : Option Int32) : s.holder = .rest none running →
      Step s { s with holder := .rest (some s.timers.length) running }
  /- Under the pool's mutex only `busyCount` can change, so all is as it is when that is read. -/
  | restRunning {s : ConcTimerCaller τ} (size : Option ℕ) : s.holder = .rest size none →
      Step s { s with holder := .rest size (some s.tp.workerRunning) }
  | restReturn {s s' : ConcTimerCaller τ} (result : Int32) : s.Returns result s' → Step s s'
  /- The workers. The mutex of the pool is taken once in each of these. -/
  | take {s : ConcTimerCaller τ} (before after : List (Worker (TimerCall τ))) (fn : TimerCall τ)
      (jobs : List (TimerCall τ)) : s.tp.threads = before ++ .locking::after →
      s.tp.jobs = fn::jobs → Step s { s with tp := s.tp.take before fn after jobs }
  | call {s : ConcTimerCaller τ} (before after : List (Worker (TimerCall τ))) (t : Timer τ) :
      s.tp.threads = before ++ .running (.task t)::after → Step s { s with
        tp := s.tp.put before (.running (.after t t.afterTask)) after
        executed := s.executed ++ [(t.task,t.when)] }
  | again {s : ConcTimerCaller τ} (before after : List (Worker (TimerCall τ))) (t : Timer τ)
      (round : ℤ) (rounds : List ℤ) :
      s.tp.threads = before ++ .running (.after t (round::rounds))::after →
      1 < t.repeatation → s.holder = .nobody → Step s { s with
        timers := addTimer (t.again round) s.timers
        tp := s.tp.put before (.running (.after t rounds)) after }
  | noMore {s : ConcTimerCaller τ} (before after : List (Worker (TimerCall τ))) (t : Timer τ)
      (round : ℤ) (rounds : List ℤ) :
      s.tp.threads = before ++ .running (.after t (round::rounds))::after →
      ¬1 < t.repeatation → Step s { s with
        tp := s.tp.put before (.running (.after t rounds)) after }
  | finish {s : ConcTimerCaller τ} (before after : List (Worker (TimerCall τ))) (t : Timer τ) :
      s.tp.threads = before ++ .running (.after t [])::after →
      Step s { s with tp := s.tp.put before .leaving after }
  | lower {s : ConcTimerCaller τ} (before after : List (Worker (TimerCall τ))) :
      s.tp.threads = before ++ .leaving::after → Step s { s with tp := s.tp.lower before after }

/-- The states that a new caller can come to through allowed ones. -/
inductive Reachable (allowed : ConcTimerCaller τ → Prop) : ConcTimerCaller τ → Prop
  | new (workers : ℕ) : Reachable allowed (new workers)
  | next {s s' : ConcTimerCaller τ} : Reachable allowed s → Step adds reading s s' → allowed s' →
      Reachable allowed s'

end Steps

/-- The timers that are pending, queued or with a busy worker. -/
def outstanding (s : ConcTimerCaller τ) : ℕ := s.timers.length - 1 + s.tp.load

/-- Fewer than `2^31` timers are outstanding. -/
def Bounded (s : ConcTimerCaller τ) : Prop := s.outstanding < 2^31

instance : DecidablePred (Bounded : ConcTimerCaller τ → Prop) :=
  fun s => inferInstanceAs (Decidable (s.outstanding < 2^31))

/-- The list of timers, with those that are still to be enqueued: a `Tick` erases a timer only after
it has enqueued it. -/
def Lists (s : ConcTimerCaller τ) (pending : List (Timer τ)) : Prop :=
  match s.holder with
  | .tick true => ∃ moved, s.timers = moved::(pending ++ [.sentinel])
  | _ => s.timers = pending ++ [.sentinel]

lemma lists_of_ne {s : ConcTimerCaller τ} {pending : List (Timer τ)} (h : s.holder ≠ .tick true) :
    s.Lists pending ↔ s.timers = pending ++ [.sentinel] := by
  rw [Lists]
  split
  · contradiction
  · rfl

/-- The invariant, with the timers that are still to be enqueued. Each call that an added timer owes
has been made or is owed by what is in one of the places. -/
structure Inv (s : ConcTimerCaller τ) (pending : List (Timer τ)) : Prop where
  lists : s.Lists pending
  calls : (s.executed ++ pending.flatMap Timer.owes ++ s.tp.jobs.flatMap TimerCall.owes ++
    s.tp.running.flatMap TimerCall.owes).Perm (s.added.flatMap Timer.owes)
  inTime : ∀ t ∈ s.added, t.InTime
  counted : s.tp.Counted
  size : ∀ size running, s.holder = .rest (some size) running → size = s.timers.length
  running : ∀ size running, s.holder = .rest size (some running) → ∃ load,
    running = Int32.ofNat load ∧ s.tp.load ≤ load ∧ s.timers.length - 1 + load < 2^31

/-- The calls that a worker owes. -/
def workerOwes (worker : Worker (TimerCall τ)) : List (Option τ × ℤ) :=
  worker.job?.toList.flatMap TimerCall.owes

/-- One worker goes on, and owes what it has not executed. -/
lemma put_calls {tp : ThreadPool (TimerCall τ)} {before after : List (Worker (TimerCall τ))}
    {worker worker' : Worker (TimerCall τ)} {executed executed' : List (Option τ × ℤ)}
    (hthreads : tp.threads = before ++ worker::after)
    (h : (executed' ++ workerOwes worker').Perm (executed ++ workerOwes worker)) :
    (executed' ++ tp.jobs.flatMap TimerCall.owes ++
      (tp.put before worker' after).running.flatMap TimerCall.owes).Perm
    (executed ++ tp.jobs.flatMap TimerCall.owes ++ tp.running.flatMap TimerCall.owes) := by
  classical
  rw [ThreadPool.running_put,ThreadPool.running_of_threads before worker after hthreads]
  rw [List.perm_iff_count] at h ⊢
  intro call
  have hcall := h call
  simp only [workerOwes,List.flatMap_append,List.count_append] at hcall ⊢
  omega

namespace Inv
variable {s s' : ConcTimerCaller τ} {pending : List (Timer τ)}

lemma new (workers : ℕ) : Inv (new workers : ConcTimerCaller τ) [] where
  lists := rfl
  calls := by
    have hrunning : (ConcTimerCaller.new workers : ConcTimerCaller τ).tp.running = [] := by
      simp [ConcTimerCaller.new,ThreadPool.running,Worker.job?]
    rw [hrunning]
    exact .refl _
  inTime := nofun
  counted := by
    simp [ConcTimerCaller.new,ThreadPool.Counted,ThreadPool.busyThreads,List.countP_replicate,
      Worker.busy]
  size := nofun
  running := nofun

/-- Only the holder changes, and `RestJobs` has read nothing. -/
lemma hold (h : Inv s pending) {holder : TimersHolder}
    (hlists : Lists { s with holder := holder } pending)
    (hrest : ∀ size running, holder = .rest size running → size = none ∧ running = none) :
    Inv { s with holder := holder } pending where
  lists := hlists
  calls := h.calls
  inTime := h.inTime
  counted := h.counted
  size := by
    intro size running hholder
    cases (hrest _ _ hholder).1
  running := by
    intro size running hholder
    cases (hrest _ _ hholder).2

/-- A worker goes on without the list. -/
lemma work (h : Inv s pending) {tp : ThreadPool (TimerCall τ)} {executed : List (Option τ × ℤ)}
    (hcalls : (executed ++ tp.jobs.flatMap TimerCall.owes ++ tp.running.flatMap TimerCall.owes).Perm
      (s.executed ++ s.tp.jobs.flatMap TimerCall.owes ++ s.tp.running.flatMap TimerCall.owes))
    (hcounted : tp.Counted) (hload : tp.load ≤ s.tp.load) :
    Inv { s with tp := tp, executed := executed } pending where
  lists := h.lists
  calls := by
    classical
    have hold := h.calls
    rw [List.perm_iff_count] at hold hcalls ⊢
    intro call
    rw [← hold call]
    have hcall := hcalls call
    simp only [List.count_append] at hcall ⊢
    omega
  inTime := h.inTime
  counted := hcounted
  size := h.size
  running := by
    intro size running hholder
    obtain ⟨load,hrunning,hle,hbound⟩ := h.running size running hholder
    exact ⟨load,hrunning,hload.trans hle,hbound⟩

lemma put (h : Inv s pending) {before after : List (Worker (TimerCall τ))}
    {worker worker' : Worker (TimerCall τ)} {executed : List (Option τ × ℤ)}
    (hthreads : s.tp.threads = before ++ worker::after) (hbusy : worker'.busy = worker.busy)
    (hcalls : (executed ++ workerOwes worker').Perm (s.executed ++ workerOwes worker)) :
    Inv { s with tp := s.tp.put before worker' after, executed := executed } pending :=
  h.work (put_calls hthreads hcalls) (h.counted.put hthreads hbusy)
    (ThreadPool.load_put hthreads hbusy).le

/-- The calls that a busy worker owes are at times that a `time_point` can hold. -/
lemma running_inTime (h : Inv s pending) {fn : TimerCall τ} (hfn : fn ∈ s.tp.running)
    {call : Option τ × ℤ} (hcall : call ∈ fn.owes) : InTime call.2 := by
  have hadded : call ∈ s.added.flatMap Timer.owes := by
    apply h.calls.subset
    exact List.mem_append_right _ (List.mem_flatMap.2 ⟨fn,hfn,hcall⟩)
  obtain ⟨t,ht,howes⟩ := List.mem_flatMap.1 hadded
  exact h.inTime t ht call howes

/-- The calls where a timer has come into the list. -/
lemma calls_addTimer (h : Inv s pending) {pending' : List (Timer τ)} {t : Timer τ}
    (hperm : pending'.Perm (t::pending)) {tp : ThreadPool (TimerCall τ)} {added : List (Timer τ)}
    (hcalls : (t.owes ++ tp.jobs.flatMap TimerCall.owes ++ tp.running.flatMap TimerCall.owes ++
      s.added.flatMap Timer.owes).Perm (s.tp.jobs.flatMap TimerCall.owes ++
      s.tp.running.flatMap TimerCall.owes ++ added.flatMap Timer.owes)) :
    (s.executed ++ pending'.flatMap Timer.owes ++ tp.jobs.flatMap TimerCall.owes ++
      tp.running.flatMap TimerCall.owes).Perm (added.flatMap Timer.owes) := by
  classical
  have hold := h.calls
  have howes := hperm.flatMap_right Timer.owes
  rw [List.flatMap_cons] at howes
  rw [List.perm_iff_count] at hold howes hcalls ⊢
  intro call
  have h1 := hold call
  have h2 := howes call
  have h3 := hcalls call
  simp only [List.count_append] at h1 h2 h3 ⊢
  omega

/-- A timer comes into the list. -/
lemma insert (h : Inv s pending) (hfree : s.holder = .nobody) {t : Timer τ}
    (ht : t.when < timePointMax) {tp : ThreadPool (TimerCall τ)} {added : List (Timer τ)}
    (hcalls : (t.owes ++ tp.jobs.flatMap TimerCall.owes ++ tp.running.flatMap TimerCall.owes ++
      s.added.flatMap Timer.owes).Perm (s.tp.jobs.flatMap TimerCall.owes ++
      s.tp.running.flatMap TimerCall.owes ++ added.flatMap Timer.owes))
    (hinTime : ∀ u ∈ added, u.InTime) (hcounted : tp.Counted) :
    ∃ pending', Inv { s with timers := addTimer t s.timers, tp := tp, added := added }
      pending' := by
  have hlists := (lists_of_ne (by simp [hfree])).1 h.lists
  obtain ⟨pending',heq,hperm⟩ := insertDue_concat (y := .sentinel) (l := pending) ht
  refine ⟨pending',?_,h.calls_addTimer hperm hcalls,hinTime,hcounted,?_,?_⟩
  · apply (lists_of_ne (by simp [hfree])).2
    rw [← heq,← hlists]
    rfl
  · simp [hfree]
  · simp [hfree]

/-- `Tick` enqueues the first timer, which is not the sentinel. -/
lemma enqueue (h : Inv s pending) (hholder : s.holder = .tick false) {now : ℤ} {t : Timer τ}
    {timers : List (Timer τ)} (htimers : s.timers = t::timers) (hnow : now < timePointMax)
    (hdue : t.when ≤ now) :
    ∃ pending', Inv { s with tp := s.tp.enqueue (.task t), holder := .tick true } pending' := by
  have hlists := (lists_of_ne (by simp [hholder])).1 h.lists
  rw [htimers] at hlists
  cases pending with
  | nil =>
    obtain rfl := List.head_eq_of_cons_eq hlists
    exact absurd hdue (not_le.2 hnow)
  | cons u pending =>
    obtain ⟨rfl,rfl⟩ := List.cons_eq_cons.1 hlists
    refine ⟨pending,⟨t,htimers⟩,?_,h.inTime,h.counted,by simp,by simp⟩
    classical
    have hold := h.calls
    rw [List.perm_iff_count] at hold ⊢
    intro call
    rw [← hold call]
    simp only [ThreadPool.enqueue,ThreadPool.running,TimerCall.owes,List.flatMap_append,
      List.flatMap_cons,List.flatMap_nil,List.count_append,List.count_nil]
    omega

theorem step (h : Inv s pending) (hbound : s.Bounded)
    (hstep : Step Timer.InTime (· < timePointMax) s s') : ∃ pending', Inv s' pending' := by
  cases hstep with
  | addTimer t hfree hinTime =>
    have ht : InTime t.when := by
      apply hinTime (t.task,t.when)
      rw [t.owes_eq]
      exact List.mem_cons_self
    refine h.insert hfree ht.2 ?_ ?_ h.counted
    · classical
      rw [List.flatMap_append,List.flatMap_singleton,List.perm_iff_count]
      intro call
      simp only [List.count_append]
      omega
    · intro u hu
      rcases List.mem_append.1 hu with hu | hu
      · exact h.inTime u hu
      · exact List.mem_singleton.1 hu ▸ hinTime
  | tickBegin hfree =>
    have hlists := (lists_of_ne (by simp [hfree])).1 h.lists
    exact ⟨pending,h.hold hlists (by simp)⟩
  | tickEnqueue now t timers hholder htimers hnow hdue =>
    exact h.enqueue hholder htimers hnow hdue
  | tickErase t timers hholder htimers =>
    have hlists := h.lists
    rw [Lists,hholder] at hlists
    obtain ⟨moved,hmoved⟩ := hlists
    rw [htimers] at hmoved
    exact ⟨pending,(List.cons_eq_cons.1 hmoved).2,h.calls,h.inTime,h.counted,by simp,by simp⟩
  | tickEnd hholder =>
    have hlists := (lists_of_ne (by simp [hholder])).1 h.lists
    exact ⟨pending,h.hold hlists (by simp)⟩
  | restBegin hfree =>
    have hlists := (lists_of_ne (by simp [hfree])).1 h.lists
    exact ⟨pending,h.hold hlists (by simp)⟩
  | restSize running hholder =>
    have hlists := (lists_of_ne (by simp [hholder])).1 h.lists
    refine ⟨pending,hlists,h.calls,h.inTime,h.counted,?_,?_⟩
    · intro size running' heq
      cases heq
      rfl
    · intro size running' heq
      cases heq
      exact h.running none running' hholder
  | restRunning size hholder =>
    have hlists := (lists_of_ne (by simp [hholder])).1 h.lists
    refine ⟨pending,hlists,h.calls,h.inTime,h.counted,?_,?_⟩
    · intro size' running heq
      cases heq
      exact h.size size' none hholder
    · intro size' running heq
      cases heq
      exact ⟨s.tp.load,h.counted.workerRunning,le_rfl,hbound⟩
  | restReturn result hreturns =>
    obtain ⟨size,running,hholder⟩ := hreturns
    have hlists := (lists_of_ne (by simp [hholder])).1 h.lists
    exact ⟨pending,h.hold hlists (by simp)⟩
  | take before after fn jobs hthreads hjobs =>
    refine ⟨pending,h.work ?_ (h.counted.take hthreads jobs)
      (ThreadPool.load_take hthreads hjobs).le⟩
    have hmoved := (ThreadPool.jobs_take_perm hthreads hjobs).flatMap_right TimerCall.owes
    rw [List.flatMap_append,List.flatMap_append] at hmoved
    rw [List.append_assoc,List.append_assoc]
    exact hmoved.append_left s.executed
  | call before after t hthreads =>
    refine ⟨pending,h.put hthreads rfl ?_⟩
    simp [workerOwes,Worker.job?,TimerCall.owes,t.owes_eq]
  | again before after t round rounds hthreads hmore hfree =>
    have howes := Timer.owesLater_cons hmore round rounds
    have hinTime : InTime (t.next round).when := by
      have hmem : .after t (round::rounds) ∈ s.tp.running := by
        rw [ThreadPool.running_of_threads _ _ _ hthreads]
        simp [Worker.job?]
      have hcall : ((t.next round).task,(t.next round).when) ∈
          (TimerCall.after t (round::rounds)).owes := by
        rw [TimerCall.owes,howes,Timer.owes_eq]
        exact List.mem_append_left _ List.mem_cons_self
      exact h.running_inTime hmem hcall
    rw [Timer.again_eq hinTime]
    refine h.insert hfree hinTime.2 ?_ h.inTime (h.counted.put hthreads rfl)
    classical
    rw [ThreadPool.running_put,ThreadPool.running_of_threads _ _ _ hthreads,List.perm_iff_count]
    intro call
    simp only [ThreadPool.put,Worker.job?,Option.toList_some,TimerCall.owes,howes,
      List.flatMap_append,List.flatMap_singleton,List.count_append]
    omega
  | noMore before after t round rounds hthreads hlast =>
    refine ⟨pending,h.put hthreads rfl ?_⟩
    simp [workerOwes,Worker.job?,TimerCall.owes,Timer.owesLater_of_last hlast]
  | finish before after t hthreads =>
    refine ⟨pending,h.put hthreads rfl ?_⟩
    simp [workerOwes,Worker.job?,TimerCall.owes]
  | lower before after hthreads =>
    refine ⟨pending,h.work ?_ (h.counted.lower hthreads) ?_⟩
    · exact put_calls hthreads (.refl _)
    · rw [ThreadPool.load_lower hthreads]
      exact Nat.le_succ _

end Inv

namespace Reachable
variable {s s' : ConcTimerCaller τ} {adds : Timer τ → Prop} {reading : ℤ → Prop}

lemma bounded (h : Reachable adds reading Bounded s) : s.Bounded := by
  cases h with
  | new workers => simp [Bounded,outstanding,ConcTimerCaller.new,ThreadPool.load,
      ThreadPool.busyThreads,List.countP_replicate,Worker.busy]
  | next _ _ hallowed => exact hallowed

theorem inv (h : Reachable Timer.InTime (· < timePointMax) Bounded s) : ∃ pending, Inv s pending := by
  induction h with
  | new workers => exact ⟨[],.new workers⟩
  | next hbefore hstep _ ih =>
    obtain ⟨pending,hinv⟩ := ih
    exact hinv.step hbefore.bounded hstep

/-- While fewer than `2^31` timers are outstanding, all their times are before `time_point::max()` and
so are the readings of the clock: `RestJobs` returns no negative number, and when it returns 0
nothing is pending, queued or run, and each call that an added timer owed has been made once. -/
theorem restJobs_zero (h : Reachable Timer.InTime (· < timePointMax) Bounded s) {result : Int32}
    (hreturns : s.Returns result s') :
    0 ≤ result.toInt ∧ (result = 0 → s'.timers = [.sentinel] ∧ s'.tp.jobs = [] ∧
      (∀ w ∈ s'.tp.threads, w.busy = false) ∧
      s'.executed.Perm (s'.added.flatMap Timer.owes)) := by
  obtain ⟨size,running,hholder⟩ := hreturns
  obtain ⟨pending,hinv⟩ := h.inv
  have hlists := (lists_of_ne (by simp [hholder])).1 hinv.lists
  have hlength : s.timers.length = pending.length+1 := by
    rw [hlists,List.length_append,List.length_singleton]
  obtain rfl := hinv.size size (some running) hholder
  obtain ⟨load,rfl,hle,hbound⟩ := hinv.running _ running hholder
  rw [hlength,Nat.add_sub_cancel] at hbound
  have hresult : restJobs s.timers.length (Int32.ofNat load) = Int32.ofNat (pending.length+load) := by
    rw [restJobs,hlength,← Int32.ofNat_add,Nat.add_right_comm,Int32.ofNat_add]
    exact Int32.add_sub_cancel ..
  have htoInt := Int32Range.toInt_ofNat_of_lt hbound
  rw [hresult]
  refine ⟨by omega,?_⟩
  intro hzero
  rw [hzero] at htoInt
  have hcount : pending.length+load = 0 := by
    rw [Int32.toInt_zero] at htoInt
    omega
  obtain rfl : pending = [] := List.length_eq_zero_iff.1 (by omega)
  have hjobs : s.tp.jobs = [] := by
    apply List.length_eq_zero_iff.1
    rw [ThreadPool.load] at hle
    omega
  have hidle : s.tp.busyThreads = 0 := by
    rw [ThreadPool.load] at hle
    omega
  refine ⟨hlists,hjobs,?_,?_⟩
  · intro w hw
    simpa using List.countP_eq_zero.1 hidle w hw
  · have hcalls := hinv.calls
    rw [hjobs,ThreadPool.running_of_idle hidle] at hcalls
    simpa using hcalls

end Reachable

/-- A timer that is called twice. -/
def twice : Timer Unit := .repeating (some ()) 0 1 2

/-- A pool with one worker, after its only job. -/
lemma lower_put_leaving (fn : TimerCall τ) :
    (({ threads := [.running fn], shutdown_ := false, busyCount := 1 } :
      ThreadPool (TimerCall τ)).put [] .leaving []).lower [] [] =
      { threads := [.locking], shutdown_ := false } := by
  have hcount : (1 : Int32) - 1 = 0 := rfl
  exact congrArg (ThreadPool.mk [.locking] [] false) hcount

/-- A timer that is called twice, by one worker. -/
theorem restJobs_zero_twice : ∃ s s' : ConcTimerCaller Unit,
    Reachable Timer.InTime (· < timePointMax) Bounded s ∧ s.Returns 0 s' ∧
    s'.timers = [.sentinel] ∧ s'.executed.Perm [(some (),0),(some (),1)] := by
  let t := twice
  have r0 : Reachable Timer.InTime (· < timePointMax) Bounded (new 1 : ConcTimerCaller Unit) :=
    .new 1
  have r1 := r0.next (.addTimer t rfl (by decide)) (by decide)
  -- A `Tick` hands the timer to the worker, which calls it and adds it again.
  have r2 := r1.next (.tickBegin rfl) (by decide)
  have r3 := r2.next (.tickEnqueue 0 t [.sentinel] rfl rfl (by decide) (by decide)) (by decide)
  have r4 : Reachable Timer.InTime (· < timePointMax) Bounded
      { tp := { threads := [.locking], jobs := [.task t], shutdown_ := false }
        holder := .tick false, added := [t] } :=
    r3.next (.tickErase t [.sentinel] rfl rfl) (by decide)
  have r5 := r4.next (.tickEnd rfl) (by decide)
  have r6 := r5.next (.take [] [] (.task t) [] rfl rfl) (by decide)
  have r7 := r6.next (.call [] [] t rfl) (by decide)
  have r8 : Reachable Timer.InTime (· < timePointMax) Bounded
      { timers := [t.again 1,.sentinel]
        tp := { threads := [.running (.after t [])], shutdown_ := false, busyCount := 1 }
        added := [t], executed := [(some (),0)] } :=
    r7.next (.again [] [] t 1 [] rfl (by decide) rfl) (by decide)
  have r9 := r8.next (.finish [] [] t rfl) (by decide)
  have r10 := r9.next (.lower [] [] rfl) (by decide)
  dsimp only at r10
  rw [lower_put_leaving] at r10
  -- The next `Tick` hands it over for the last time.
  have r11 := r10.next (.tickBegin rfl) (by decide)
  have r12 := r11.next (.tickEnqueue 1 (t.again 1) [.sentinel] rfl rfl (by decide) (by decide))
    (by decide)
  have r13 : Reachable Timer.InTime (· < timePointMax) Bounded
      { tp := { threads := [.locking], jobs := [.task (t.again 1)], shutdown_ := false }
        holder := .tick false, added := [t], executed := [(some (),0)] } :=
    r12.next (.tickErase (t.again 1) [.sentinel] rfl rfl) (by decide)
  have r14 := r13.next (.tickEnd rfl) (by decide)
  have r15 := r14.next (.take [] [] (.task (t.again 1)) [] rfl rfl) (by decide)
  have r16 := r15.next (.call [] [] (t.again 1) rfl) (by decide)
  have r17 : Reachable Timer.InTime (· < timePointMax) Bounded
      { tp := { threads := [.running (.after (t.again 1) [])], shutdown_ := false, busyCount := 1 }
        added := [t], executed := [(some (),0),(some (),1)] } :=
    r16.next (.noMore [] [] (t.again 1) 1 [] rfl (by decide)) (by decide)
  have r18 := r17.next (.finish [] [] (t.again 1) rfl) (by decide)
  have r19 := r18.next (.lower [] [] rfl) (by decide)
  dsimp only at r19
  rw [lower_put_leaving] at r19
  have r20 := r19.next (.restBegin rfl) (by decide)
  have r21 := r20.next (.restRunning none rfl) (by decide)
  have r22 : Reachable Timer.InTime (· < timePointMax) Bounded
      { tp := { threads := [.locking], shutdown_ := false }
        holder := .rest (some 1) (some 0)
        added := [t], executed := [(some (),0),(some (),1)] } :=
    r21.next (.restSize _ rfl) (by decide)
  obtain ⟨_,hzero⟩ := r22.restJobs_zero (.mk 1 0 rfl)
  obtain ⟨htimers,_,_,hcalls⟩ := hzero (by decide)
  exact ⟨_,_,r22,.mk 1 0 rfl,htimers,hcalls⟩

/-- Any number of timers can be pending. -/
lemma exists_pending (n : ℕ) : ∃ (s : ConcTimerCaller Unit) (pending : List (Timer Unit)),
    Reachable Timer.InTime (· < timePointMax) (fun _ => True) s ∧
      s.timers = pending ++ [.sentinel] ∧ pending.length = n ∧
      s.holder = .nobody ∧ s.tp = (new 1 : ConcTimerCaller Unit).tp := by
  induction n with
  | zero => exact ⟨new 1,[],.new 1,rfl,rfl,rfl,rfl⟩
  | succ n ih =>
    obtain ⟨s,pending,hreach,htimers,hlength,hholder,htp⟩ := ih
    have hwhen : twice.when < (Timer.sentinel : Timer Unit).when := by decide
    obtain ⟨pending',heq,hperm⟩ := insertDue_concat (l := pending) hwhen
    refine ⟨_,pending',hreach.next (.addTimer twice hholder (by decide)) trivial,?_,?_,hholder,htp⟩
    · rw [← heq,← htimers]
      rfl
    · rw [hperm.length_eq,List.length_cons,hlength]

/-- With `2^31` timers pending the count does not fit in an `int`. -/
lemma restJobs_of_many : ∃ (s s' : ConcTimerCaller Unit) (result : Int32),
    Reachable Timer.InTime (· < timePointMax) (fun _ => True) s ∧ s.Returns result s' ∧
      result.toInt < 0 := by
  obtain ⟨s,pending,hreach,htimers,hlength,hholder,htp⟩ := exists_pending (2^31)
  have hrest := ((hreach.next (.restBegin hholder) trivial).next (.restSize none rfl) trivial).next
    (.restRunning _ rfl) trivial
  refine ⟨_,_,_,hrest,.mk _ _ rfl,?_⟩
  have hsize : s.timers.length = 2^31+1 := by
    rw [htimers,List.length_append,hlength]
    rfl
  have hrunning : s.tp.workerRunning = 0 := by
    rw [htp]
    rfl
  dsimp only
  rw [hsize,hrunning]
  decide +kernel

/-- A `Tick` that reads `time_point::max()` hands the sentinel to the pool, and takes it out of the
list. -/
lemma restJobs_of_late : ∃ s s' : ConcTimerCaller Unit,
    Reachable Timer.InTime (fun _ => True) Bounded s ∧ s.Returns (-1) s' := by
  have r0 : Reachable Timer.InTime (fun _ => True) Bounded (new 1 : ConcTimerCaller Unit) := .new 1
  have r1 := r0.next (.tickBegin rfl) (by decide)
  have r2 := r1.next (.tickEnqueue timePointMax .sentinel [] rfl rfl trivial (by decide)) (by decide)
  have r3 := r2.next (.tickErase .sentinel [] rfl rfl) (by decide)
  have r4 := r3.next (.tickEnd rfl) (by decide)
  have r5 := r4.next (.take [] [] (.task .sentinel) [] rfl rfl) (by decide)
  have r6 := r5.next (.call [] [] .sentinel rfl) (by decide)
  have r7 : Reachable Timer.InTime (fun _ => True) Bounded
      { timers := []
        tp := { threads := [.running (.after .sentinel [])], shutdown_ := false, busyCount := 1 }
        executed := [(none,timePointMax)] } := r6
  have r8 := r7.next (.finish [] [] .sentinel rfl) (by decide)
  have r9 := r8.next (.lower [] [] rfl) (by decide)
  dsimp only at r9
  rw [lower_put_leaving] at r9
  have r10 := r9.next (.restBegin rfl) (by decide)
  have r11 := r10.next (.restRunning none rfl) (by decide)
  have r12 := r11.next (.restSize _ rfl) (by decide)
  exact ⟨_,_,r12,.mk 0 0 rfl⟩

/-- A timer for `time_point::min()` whose second time would be before that. -/
def tooEarly : Timer Unit := .repeating (some ()) (-2^63) (-1) 2

/-- The second time of such a timer wraps to that of the sentinel, so that it is not added again. -/
lemma restJobs_of_wrapped : ∃ s s' : ConcTimerCaller Unit,
    Reachable (fun t => InTime t.when) (· < timePointMax) Bounded s ∧ s.Returns 0 s' ∧
      s'.added.flatMap Timer.owes = [(some (),-2^63),(some (),-2^63-1)] ∧
      s'.executed = [(some (),-2^63)] := by
  let t := tooEarly
  have r0 : Reachable (fun t => InTime t.when) (· < timePointMax) Bounded
      (new 1 : ConcTimerCaller Unit) := .new 1
  have r1 := r0.next (.addTimer t rfl (by decide)) (by decide)
  have r2 := r1.next (.tickBegin rfl) (by decide)
  have r3 := r2.next (.tickEnqueue 0 t [.sentinel] rfl rfl (by decide) (by decide)) (by decide)
  have r4 := r3.next (.tickErase t [.sentinel] rfl rfl) (by decide)
  have r5 := r4.next (.tickEnd rfl) (by decide)
  have r6 := r5.next (.take [] [] (.task t) [] rfl rfl) (by decide)
  have r7 := r6.next (.call [] [] t rfl) (by decide)
  have r8 : Reachable (fun t => InTime t.when) (· < timePointMax) Bounded
      { tp := { threads := [.running (.after t [])], shutdown_ := false, busyCount := 1 }
        added := [t], executed := [(some (),-2^63)] } :=
    r7.next (.again [] [] t (-1) [] rfl (by decide) rfl) (by decide)
  have r9 := r8.next (.finish [] [] t rfl) (by decide)
  have r10 := r9.next (.lower [] [] rfl) (by decide)
  dsimp only at r10
  rw [lower_put_leaving] at r10
  have r11 := r10.next (.restBegin rfl) (by decide)
  have r12 := r11.next (.restRunning none rfl) (by decide)
  have r13 := r12.next (.restSize _ rfl) (by decide)
  exact ⟨_,_,r13,.mk 1 0 rfl,rfl,rfl⟩

/-- `RestJobs` is negative with `2^31` timers pending, and after a `Tick` that has read
`time_point::max()`; and it is 0 where a repetition is lost because its time cannot be held. -/
theorem restJobs_wrong :
    (∃ (s s' : ConcTimerCaller Unit) (result : Int32),
      Reachable Timer.InTime (· < timePointMax) (fun _ => True) s ∧ s.Returns result s' ∧
        result.toInt < 0) ∧
    (∃ (s s' : ConcTimerCaller Unit) (result : Int32),
      Reachable Timer.InTime (fun _ => True) Bounded s ∧ s.Returns result s' ∧ result.toInt < 0) ∧
    ∃ s s' : ConcTimerCaller Unit,
      Reachable (fun t => InTime t.when) (· < timePointMax) Bounded s ∧ s.Returns 0 s' ∧
        ¬s'.executed.Perm (s'.added.flatMap Timer.owes) := by
  obtain ⟨s,s',hlate,hreturns⟩ := restJobs_of_late
  obtain ⟨u,u',hwrapped,hzero,howed,hexecuted⟩ := restJobs_of_wrapped
  refine ⟨restJobs_of_many,⟨s,s',-1,hlate,hreturns,by decide⟩,u,u',hwrapped,hzero,?_⟩
  rw [howed,hexecuted]
  exact fun hperm => absurd hperm.length_eq (by decide)

end ConcTimerCaller
end GDFileStore
