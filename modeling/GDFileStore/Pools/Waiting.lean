import GDFileStore.Pools.Shutdown

/-! The pool with its condition variable: a worker that finds nothing to do blocks until it is
notified, by `notify_one` for each job and by `notify_all` in a shutdown. -/
namespace GDFileStore

/-- What a job that ends does to the pool: it enqueues further jobs. -/
inductive Script
  | done
  | enqueue (child rest : Script)

/-- Where a worker's thread is, and what is left of the job it runs. -/
inductive WaitingWorker
  | locking
  /-- In `cond_.wait`, not notified. -/
  | blocked
  | running (job : ℕ × Script) (rest : Script)
  | leaving
  | returned

namespace WaitingWorker

/-- Without the condition variable, a blocked thread is one at the mutex. -/
def worker : WaitingWorker → Worker (ℕ × Script)
  | locking => .locking
  | blocked => .locking
  | running job _ => .running job
  | leaving => .leaving
  | returned => .returned

def wake : WaitingWorker → WaitingWorker
  | blocked => locking
  | w => w

/-- It takes its next step by itself. -/
def Up (w : WaitingWorker) : Prop := w ≠ blocked ∧ w ≠ returned

@[simp] lemma worker_wake (w : WaitingWorker) : w.wake.worker = w.worker := by cases w <;> rfl

end WaitingWorker

/-- `notify_one`: some blocked thread goes on, if there is one. -/
inductive Notified : List WaitingWorker → List WaitingWorker → Prop
  | none {threads : List WaitingWorker} : .blocked ∉ threads → Notified threads threads
  | one (before after : List WaitingWorker) :
      Notified (before ++ .blocked::after) (before ++ .locking::after)

namespace Notified
variable {threads threads' : List WaitingWorker}

lemma exists_notified (threads : List WaitingWorker) : ∃ threads', Notified threads threads' := by
  by_cases hblocked : .blocked ∈ threads
  · obtain ⟨before,after,rfl⟩ := List.append_of_mem hblocked
    exact ⟨_,.one before after⟩
  · exact ⟨_,.none hblocked⟩

lemma length (h : Notified threads threads') : threads'.length = threads.length := by
  cases h with
  | none _ => rfl
  | one before after => simp

lemma map_worker (h : Notified threads threads') :
    threads'.map WaitingWorker.worker = threads.map WaitingWorker.worker := by
  cases h with
  | none _ => rfl
  | one before after => simp [WaitingWorker.worker]

lemma up (h : Notified threads threads') {w : WaitingWorker} (hw : w ∈ threads) (hup : w.Up) :
    w ∈ threads' := by
  cases h with
  | none _ => exact hw
  | one before after =>
    rw [List.mem_append,List.mem_cons] at hw ⊢
    rcases hw with hw | rfl | hw
    · exact .inl hw
    · exact absurd rfl hup.1
    · exact .inr (.inr hw)

/-- After it some thread is up, if one was there that had not returned. -/
lemma exists_up (h : Notified threads threads') (hthreads : threads ≠ [])
    (hno : .returned ∉ threads) : ∃ w ∈ threads', w.Up := by
  cases h with
  | none hblocked =>
    obtain ⟨w,hw⟩ := List.exists_mem_of_ne_nil _ hthreads
    exact ⟨w,hw,ne_of_mem_of_not_mem hw hblocked,ne_of_mem_of_not_mem hw hno⟩
  | one before after =>
    exact ⟨.locking,List.mem_append_right _ List.mem_cons_self,by simp [WaitingWorker.Up]⟩

lemma blocked (h : Notified threads threads') (hno : .blocked ∉ threads) : .blocked ∉ threads' := by
  cases h with
  | none _ => exact hno
  | one before after => exact absurd (List.mem_append_right _ List.mem_cons_self) hno

end Notified

/-- A pool with its condition variable, and its controller. `notifying` is set between the flag and
the `notify_all` of a shutdown. -/
structure WaitingPool where
  threads : List WaitingWorker := []
  jobs : List (ℕ × Script) := []
  shutdown_ : Bool
  busyCount : Int32 := 0
  notifying : Bool := false
  controller : Controller
  issued : ℕ := 0
  started : List ℕ := []
  ended : List ℕ := []

namespace WaitingPool

/-- The pool in its constructor, which calls `active(n)`. -/
def built (n : ℕ) : WaitingPool := { shutdown_ := false, controller := .shutting (some n) }

variable (s : WaitingPool)

/-- The pool without the condition variable. -/
def driven : DrivenPool Script where
  pool := {
    threads := s.threads.map WaitingWorker.worker
    jobs := s.jobs
    shutdown_ := s.shutdown_
    busyCount := s.busyCount }
  controller := s.controller
  issued := s.issued
  started := s.started
  ended := s.ended

/-- A job is added and a thread notified. -/
def enqueue (fn : Script) (threads : List WaitingWorker) : WaitingPool :=
  { s with threads := threads, jobs := s.jobs ++ [(s.issued,fn)], issued := s.issued+1 }

/-- A worker goes on with nothing but its own place changed. -/
def put (before : List WaitingWorker) (w : WaitingWorker) (after : List WaitingWorker) :
    WaitingPool := { s with threads := before ++ w::after }

/-- The controller begins a call. -/
inductive Calls : WaitingPool → WaitingPool → Prop
  | enqueue {s : WaitingPool} (fn : Script) (threads : List WaitingWorker) :
      s.controller = .ready → Notified s.threads threads → Calls s (s.enqueue fn threads)
  | shutdown {s : WaitingPool} : s.controller = .ready →
      Calls s { s with controller := .shutting none }
  | active {s : WaitingPool} (n : ℕ) : 0 < n → s.controller = .ready →
      Calls s { s with controller := .shutting (some n) }

/-- The controller goes on in a call of `shutdown` or `active`. -/
inductive Goes : WaitingPool → WaitingPool → Prop
  | alreadyShut {s : WaitingPool} (next : Option ℕ) : s.controller = .shutting next →
      s.shutdown_ = true → Goes s { s with controller := .resume next }
  | setFlag {s : WaitingPool} (next : Option ℕ) : s.controller = .shutting next →
      s.shutdown_ = false →
      Goes s { s with shutdown_ := true, notifying := true, controller := .joining 0 next }
  | notifyAll {s : WaitingPool} (joined : ℕ) (next : Option ℕ) :
      s.controller = .joining joined next → s.notifying = true →
      Goes s { s with threads := s.threads.map WaitingWorker.wake, notifying := false }
  | join {s : WaitingPool} (joined : ℕ) (next : Option ℕ) : s.controller = .joining joined next →
      s.notifying = false → s.threads[joined]? = some .returned →
      Goes s { s with controller := .joining (joined+1) next }
  | returns {s : WaitingPool} (next : Option ℕ) :
      s.controller = .joining s.threads.length next → s.notifying = false →
      Goes s { s with threads := [], controller := .resume next }
  | start {s : WaitingPool} (n : ℕ) : s.controller = .starting n → Goes s { s with
      shutdown_ := false
      threads := s.threads ++ List.replicate n .locking
      controller := .ready }

/-- A worker takes a step. -/
inductive Works : WaitingPool → WaitingPool → Prop
  | take {s : WaitingPool} (before after : List WaitingWorker) (fn : ℕ × Script)
      (jobs : List (ℕ × Script)) : s.threads = before ++ .locking::after → s.jobs = fn::jobs →
      Works s { s with
        threads := before ++ .running fn fn.2::after
        jobs := jobs
        busyCount := s.busyCount+1
        started := s.started ++ [fn.1] }
  | leave {s : WaitingPool} (before after : List WaitingWorker) :
      s.threads = before ++ .locking::after → s.jobs = [] → s.shutdown_ = true →
      Works s (s.put before .returned after)
  | block {s : WaitingPool} (before after : List WaitingWorker) :
      s.threads = before ++ .locking::after → s.jobs = [] → s.shutdown_ = false →
      Works s (s.put before .blocked after)
  | spawn {s : WaitingPool} (before after : List WaitingWorker) (fn : ℕ × Script)
      (child rest : Script) (threads : List WaitingWorker) :
      s.threads = before ++ .running fn (.enqueue child rest)::after →
      Notified (before ++ .running fn rest::after) threads → Works s (s.enqueue child threads)
  | finish {s : WaitingPool} (before after : List WaitingWorker) (fn : ℕ × Script) :
      s.threads = before ++ .running fn .done::after →
      Works s { s with threads := before ++ .leaving::after, ended := s.ended ++ [fn.1] }
  | lower {s : WaitingPool} (before after : List WaitingWorker) :
      s.threads = before ++ .leaving::after →
      Works s { s with threads := before ++ .locking::after, busyCount := s.busyCount-1 }

/-- A blocked thread goes on without having been notified. -/
inductive Wakes : WaitingPool → WaitingPool → Prop
  | wake {s : WaitingPool} (before after : List WaitingWorker) :
      s.threads = before ++ .blocked::after → Wakes s (s.put before .locking after)

def Step (s s' : WaitingPool) : Prop := s.Calls s' ∨ s.Goes s' ∨ s.Works s' ∨ s.Wakes s'

/-- The states that a pool with at least one worker in each activation can come to. -/
inductive Reachable : WaitingPool → Prop
  | built (n : ℕ) : 0 < n → Reachable (built n)
  | next {s s' : WaitingPool} : Reachable s → s.Step s' → Reachable s'

variable {s s' : WaitingPool}

section Driven
variable {before after : List WaitingWorker} {w : WaitingWorker}

lemma driven_threads (h : s.threads = before ++ w::after) : s.driven.pool.threads =
    before.map WaitingWorker.worker ++ w.worker::after.map WaitingWorker.worker := by
  simp [driven,h]

lemma driven_enqueue (fn : Script) {threads : List WaitingWorker}
    (h : threads.map WaitingWorker.worker = s.threads.map WaitingWorker.worker) :
    (s.enqueue fn threads).driven = s.driven.enqueue fn := by
  simp [driven,enqueue,h,DrivenPool.enqueue,ThreadPool.enqueue]

lemma Calls.driven (h : s.Calls s') : DrivenPool.Step s.driven s'.driven := by
  cases h with
  | enqueue fn threads hready hnotified =>
    rw [driven_enqueue fn hnotified.map_worker]
    exact .enqueue fn hready
  | shutdown hready => exact .shutdown hready
  | active n hn hready => exact .active n hn hready

lemma Goes.driven (h : s.Goes s') : DrivenPool.Step s.driven s'.driven ∨ s'.driven = s.driven := by
  cases h with
  | alreadyShut next hshutting hset => exact .inl (.alreadyShut next hshutting hset)
  | setFlag next hshutting hclear => exact .inl (.setFlag next hshutting hclear)
  | notifyAll joined next hjoining hnotifying =>
    right
    simp [WaitingPool.driven,Function.comp_def]
  | join joined next hjoining hnotifying hreturned =>
    refine .inl (.join joined next hjoining ?_)
    simp [WaitingPool.driven,hreturned,WaitingWorker.worker]
  | returns next hjoining hnotifying =>
    refine .inl (.returns (.clear next ?_))
    simpa [WaitingPool.driven] using hjoining
  | start n hstarting =>
    left
    have hstart := DrivenPool.Step.start n (s := s.driven) hstarting
    simpa [WaitingPool.driven,WaitingWorker.worker] using hstart

lemma Works.driven (h : s.Works s') : DrivenPool.Step s.driven s'.driven ∨ s'.driven = s.driven := by
  cases h with
  | take before after fn jobs hthreads hjobs =>
    left
    have htake := DrivenPool.Step.take _ _ fn jobs (driven_threads hthreads) hjobs
    simpa [WaitingPool.driven,ThreadPool.take,WaitingWorker.worker] using htake
  | leave before after hthreads hjobs hset =>
    left
    have hleave := DrivenPool.Step.leave _ _ (driven_threads hthreads) hjobs hset
    simpa [WaitingPool.driven,put,ThreadPool.put,WaitingWorker.worker] using hleave
  | block before after hthreads hjobs hclear =>
    right
    simp [WaitingPool.driven,put,hthreads,WaitingWorker.worker]
  | spawn before after fn child rest threads hthreads hnotified =>
    left
    have hspawn := DrivenPool.Step.spawn _ _ fn child (driven_threads hthreads)
    have hworkers : threads.map WaitingWorker.worker = s.threads.map WaitingWorker.worker := by
      rw [hnotified.map_worker,hthreads]
      simp [WaitingWorker.worker]
    rwa [driven_enqueue child hworkers]
  | finish before after fn hthreads =>
    left
    have hfinish := DrivenPool.Step.finish _ _ fn (driven_threads hthreads)
    simpa [WaitingPool.driven,ThreadPool.put,WaitingWorker.worker] using hfinish
  | lower before after hthreads =>
    left
    have hlower := DrivenPool.Step.lower _ _ (driven_threads hthreads)
    simpa [WaitingPool.driven,ThreadPool.lower,WaitingWorker.worker] using hlower

/-- A step is one of the pool without the condition variable, or changes nothing there. -/
theorem Step.driven (h : s.Step s') : DrivenPool.Step s.driven s'.driven ∨ s'.driven = s.driven := by
  rcases h with hcalls | hgoes | hworks | hwakes
  · exact .inl hcalls.driven
  · exact hgoes.driven
  · exact hworks.driven
  · obtain ⟨before,after,hthreads⟩ := hwakes
    right
    simp [WaitingPool.driven,put,hthreads,WaitingWorker.worker]

theorem Reachable.driven (h : s.Reachable) : s.driven.Reachable := by
  induction h with
  | built n hn => exact .built n hn
  | next _ hstep ih =>
    rcases hstep.driven with hdriven | hdriven
    · exact ih.next hdriven
    · rwa [hdriven]

end Driven

/-- While there are jobs some thread is up, so no notification is lost. In a shutdown no thread is
blocked after `notify_all`. -/
structure Inv (s : WaitingPool) : Prop where
  awake : s.jobs ≠ [] → s.threads ≠ [] → ∃ w ∈ s.threads, w.Up
  joining : ∀ joined next, s.controller = .joining joined next → joined ≤ s.threads.length ∧
    (s.notifying = false → .blocked ∉ s.threads)

namespace Inv
variable {before after : List WaitingWorker} {w w' : WaitingWorker}

lemma built (n : ℕ) : (built n).Inv where
  awake := fun hjobs _ => absurd rfl hjobs
  joining := fun _ _ hjoining => by simp [WaitingPool.built] at hjoining

/-- In a shutdown the flag is set. -/
lemma set_of_joining (hdriven : s.driven.Inv) {joined : ℕ} {next : Option ℕ}
    (hjoining : s.controller = .joining joined next) : s.shutdown_ = true := by
  have hexpects := hdriven.expects
  have hcontroller : s.driven.controller = .joining joined next := hjoining
  rw [hcontroller] at hexpects
  exact hexpects.1

/-- A pool that is not being shut down keeps a thread that has not returned. -/
lemma not_returned (hdriven : s.driven.Inv) (hready : s.controller = .ready) :
    .returned ∉ s.threads := by
  have hexpects := hdriven.expects
  have hcontroller : s.driven.controller = .ready := hready
  rw [hcontroller] at hexpects
  intro hm
  have hmap : Worker.returned ∈ s.driven.pool.threads := List.mem_map_of_mem hm
  cases hflag : s.shutdown_ with
  | true =>
    rw [hexpects.1.shut hflag] at hmap
    cases hmap
  | false => exact (hexpects.1.active hflag).1 _ hmap rfl

/-- One worker goes on. -/
lemma move (h : s.Inv) (hthreads : s.threads = before ++ w::after)
    (hthreads' : s'.threads = before ++ w'::after) (hcontroller : s'.controller = s.controller)
    (hnotifying : s'.notifying = s.notifying) (hup : s'.jobs ≠ [] → w'.Up)
    (hblocked : w' = .blocked → ∀ joined next, s.controller ≠ .joining joined next) : s'.Inv where
  awake := by
    intro hjobs _
    rw [hthreads']
    exact ⟨w',List.mem_append_right _ List.mem_cons_self,hup hjobs⟩
  joining := by
    intro joined next hjoining
    rw [hcontroller] at hjoining
    obtain ⟨hjoined,hno⟩ := h.joining joined next hjoining
    rw [hthreads] at hjoined hno
    rw [hthreads',hnotifying]
    refine ⟨by simpa using hjoined,?_⟩
    intro hclear hm
    have hold := hno hclear
    rw [List.mem_append,List.mem_cons] at hm hold
    rcases hm with hm | hm | hm
    · exact hold (.inl hm)
    · exact hblocked hm.symm joined next hjoining
    · exact hold (.inr (.inr hm))

lemma notified (h : s.Inv) {threads : List WaitingWorker} (hnotified : Notified s.threads threads) :
    Inv { s with threads := threads } where
  awake := by
    intro hjobs hne
    have hthreads : s.threads ≠ [] := by
      rw [← List.length_pos_iff,← hnotified.length]
      exact List.length_pos_iff.2 hne
    obtain ⟨w,hw,hup⟩ := h.awake hjobs hthreads
    exact ⟨w,hnotified.up hw hup,hup⟩
  joining := by
    intro joined next hjoining
    obtain ⟨hjoined,hno⟩ := h.joining joined next hjoining
    exact ⟨hnotified.length ▸ hjoined,fun hclear => hnotified.blocked (hno hclear)⟩

lemma calls (h : s.Inv) (hdriven : s.driven.Inv) (hcalls : s.Calls s') : s'.Inv := by
  cases hcalls with
  | enqueue fn threads hready hnotified =>
    refine ⟨?_,?_⟩
    · intro _ hne
      refine hnotified.exists_up ?_ (not_returned hdriven hready)
      rw [← List.length_pos_iff,← hnotified.length]
      exact List.length_pos_iff.2 hne
    · intro joined next hjoining
      have hready' : (s.enqueue fn threads).controller = .ready := hready
      rw [hready'] at hjoining
      cases hjoining
  | shutdown hready => exact ⟨h.awake,fun _ _ hjoining => by cases hjoining⟩
  | active n hn hready => exact ⟨h.awake,fun _ _ hjoining => by cases hjoining⟩

lemma resume_ne_joining {next next' : Option ℕ} {joined : ℕ} :
    Controller.resume next ≠ .joining joined next' := by
  cases next <;> simp [Controller.resume]

lemma goes (h : s.Inv) (hgoes : s.Goes s') : s'.Inv := by
  cases hgoes with
  | alreadyShut next hshutting hset =>
    exact ⟨h.awake,fun _ _ hjoining => absurd hjoining resume_ne_joining⟩
  | setFlag next hshutting hclear =>
    refine ⟨h.awake,?_⟩
    intro joined next' hjoining
    cases hjoining
    exact ⟨Nat.zero_le _,by simp⟩
  | notifyAll joined next hjoining hnotifying =>
    refine ⟨?_,?_⟩
    · intro hjobs hne
      obtain ⟨w,hw,hup⟩ := h.awake hjobs (by simpa using hne)
      refine ⟨w.wake,List.mem_map_of_mem hw,?_⟩
      cases w with
      | blocked => exact absurd rfl hup.1
      | _ => exact hup
    · intro joined' next' hjoining'
      refine ⟨by simpa using (h.joining joined' next' hjoining').1,?_⟩
      intro _ hm
      obtain ⟨w,-,hw⟩ := List.mem_map.1 hm
      cases w <;> cases hw
  | join joined next hjoining hclear hreturned =>
    refine ⟨h.awake,?_⟩
    intro joined' next' hjoining'
    cases hjoining'
    exact ⟨(List.getElem?_eq_some_iff.1 hreturned).1,(h.joining joined next hjoining).2⟩
  | returns next hjoining hclear =>
    exact ⟨fun _ hne => absurd rfl hne,fun _ _ hjoining' => absurd hjoining' resume_ne_joining⟩
  | start n hstarting =>
    refine ⟨?_,fun _ _ hjoining => by cases hjoining⟩
    intro hjobs hne
    cases n with
    | zero =>
      obtain ⟨w,hw,hup⟩ := h.awake hjobs (by simpa using hne)
      exact ⟨w,List.mem_append_left _ hw,hup⟩
    | succ n => exact ⟨.locking,by simp [List.replicate_succ],by simp [WaitingWorker.Up]⟩

lemma works (h : s.Inv) (hdriven : s.driven.Inv) (hworks : s.Works s') : s'.Inv := by
  cases hworks with
  | take before after fn jobs hthreads hjobs =>
    exact h.move hthreads rfl rfl rfl (fun _ => by simp [WaitingWorker.Up]) (by simp)
  | leave before after hthreads hjobs hset =>
    exact h.move hthreads rfl rfl rfl (absurd hjobs) (by simp)
  | block before after hthreads hjobs hclear =>
    refine h.move hthreads rfl rfl rfl (absurd hjobs) ?_
    intro _ joined next hjoining
    have hset := set_of_joining hdriven hjoining
    rw [hclear] at hset
    cases hset
  | spawn before after fn child rest threads hthreads hnotified =>
    have hmoved : (s.enqueue child (before ++ .running fn rest::after)).Inv :=
      h.move hthreads rfl rfl rfl (fun _ => by simp [WaitingWorker.Up]) (by simp)
    exact hmoved.notified hnotified
  | finish before after fn hthreads =>
    exact h.move hthreads rfl rfl rfl (fun _ => by simp [WaitingWorker.Up]) (by simp)
  | lower before after hthreads =>
    exact h.move hthreads rfl rfl rfl (fun _ => by simp [WaitingWorker.Up]) (by simp)

theorem step (h : s.Inv) (hdriven : s.driven.Inv) (hstep : s.Step s') : s'.Inv := by
  rcases hstep with hcalls | hgoes | hworks | hwakes
  · exact h.calls hdriven hcalls
  · exact h.goes hgoes
  · exact h.works hdriven hworks
  · obtain ⟨before,after,hthreads⟩ := hwakes
    exact h.move hthreads rfl rfl rfl (fun _ => by simp [WaitingWorker.Up]) (by simp)

end Inv

theorem Reachable.inv (h : s.Reachable) : s.Inv := by
  induction h with
  | built n _ => exact .built n
  | next hreach hstep ih => exact ih.step hreach.driven.inv hstep

end WaitingPool
end GDFileStore
