import GDFileStore.Pools.ThreadPool
import Mathlib.Data.List.Nodup
import Mathlib.Data.List.Range

/-! A pool under one controller thread, with jobs that enqueue further jobs. A worker returns when
the flag is set and it sees no job, while others may still add some. -/
namespace GDFileStore
variable {α : Type*}

/-- Where the controller is. In `shutdown()` it keeps how many workers `active` has to start
afterwards, nothing where `shutdown()` was called directly. -/
inductive Controller
  | ready
  | shutting (next : Option ℕ)
  | joining (joined : ℕ) (next : Option ℕ)
  | starting (n : ℕ)

/-- Where a `shutdown()` returns to. -/
def Controller.resume : Option ℕ → Controller
  | none => ready
  | some n => starting n

/-- A pool and its controller. The jobs have tickets in the order in which they were enqueued, and the
tickets of the jobs whose run has begun and has ended are kept. -/
structure DrivenPool (α : Type*) where
  pool : ThreadPool (ℕ × α)
  controller : Controller
  issued : ℕ := 0
  started : List ℕ := []
  ended : List ℕ := []

namespace DrivenPool

/-- The pool in its constructor, which calls `active(n)`. -/
def built (n : ℕ) : DrivenPool α := { pool := { shutdown_ := false }, controller := .shutting (some n) }

variable (s : DrivenPool α)

def enqueue (fn : α) : DrivenPool α :=
  { s with pool := s.pool.enqueue (s.issued,fn), issued := s.issued+1 }

/-- A `shutdown()` that found the pool active returns: all threads have been joined. -/
inductive Returns : DrivenPool α → DrivenPool α → Prop
  | clear {s : DrivenPool α} (next : Option ℕ) :
      s.controller = .joining s.pool.threads.length next →
      Returns s { s with
        pool := { s.pool with threads := [] }, controller := .resume next }

/-- One step of the controller or of a worker. -/
inductive Step : DrivenPool α → DrivenPool α → Prop
  | enqueue {s : DrivenPool α} (fn : α) : s.controller = .ready → Step s (s.enqueue fn)
  | shutdown {s : DrivenPool α} : s.controller = .ready →
      Step s { s with controller := .shutting none }
  | active {s : DrivenPool α} (n : ℕ) : 0 < n → s.controller = .ready →
      Step s { s with controller := .shutting (some n) }
  | alreadyShut {s : DrivenPool α} (next : Option ℕ) : s.controller = .shutting next →
      s.pool.shutdown_ = true → Step s { s with controller := .resume next }
  | setFlag {s : DrivenPool α} (next : Option ℕ) : s.controller = .shutting next →
      s.pool.shutdown_ = false → Step s { s with
        pool := { s.pool with shutdown_ := true }, controller := .joining 0 next }
  | join {s : DrivenPool α} (joined : ℕ) (next : Option ℕ) :
      s.controller = .joining joined next → s.pool.threads[joined]? = some .returned →
      Step s { s with controller := .joining (joined+1) next }
  | returns {s s' : DrivenPool α} : s.Returns s' → Step s s'
  | start {s : DrivenPool α} (n : ℕ) : s.controller = .starting n → Step s { s with
      pool := { s.pool with
        shutdown_ := false, threads := s.pool.threads ++ List.replicate n .locking }
      controller := .ready }
  /- The workers. A wait whose condition is false changes nothing. -/
  | take {s : DrivenPool α} (before after : List (Worker (ℕ × α))) (fn : ℕ × α)
      (jobs : List (ℕ × α)) : s.pool.threads = before ++ .locking::after →
      s.pool.jobs = fn::jobs →
      Step s { s with pool := s.pool.take before fn after jobs, started := s.started ++ [fn.1] }
  | leave {s : DrivenPool α} (before after : List (Worker (ℕ × α))) :
      s.pool.threads = before ++ .locking::after → s.pool.jobs = [] → s.pool.shutdown_ = true →
      Step s { s with pool := s.pool.put before .returned after }
  | spawn {s : DrivenPool α} (before after : List (Worker (ℕ × α))) (fn : ℕ × α) (child : α) :
      s.pool.threads = before ++ .running fn::after → Step s (s.enqueue child)
  | finish {s : DrivenPool α} (before after : List (Worker (ℕ × α))) (fn : ℕ × α) :
      s.pool.threads = before ++ .running fn::after →
      Step s { s with pool := s.pool.put before .leaving after, ended := s.ended ++ [fn.1] }
  | lower {s : DrivenPool α} (before after : List (Worker (ℕ × α))) :
      s.pool.threads = before ++ .leaving::after →
      Step s { s with pool := s.pool.lower before after }

/-- The states that a pool with at least one worker in each activation can come to. -/
inductive Reachable : DrivenPool α → Prop
  | built (n : ℕ) : 0 < n → Reachable (built n)
  | next {s s' : DrivenPool α} : Reachable s → Step s s' → Reachable s'

/-- Between two calls of `shutdown()`: no thread where the flag is set, else no thread that has
returned. -/
structure Between (p : ThreadPool (ℕ × α)) : Prop where
  shut : p.shutdown_ = true → p.threads = []
  active : p.shutdown_ = false →
    (∀ w ∈ p.threads, w ≠ .returned) ∧ (p.threads = [] → p.jobs = [])

/-- What the controller can count on. When it joins, the list is empty once all workers have
returned, since the last of them saw it so. -/
def Expects (p : ThreadPool (ℕ × α)) : Controller → Prop
  | .ready => Between p ∧ (p.shutdown_ = false → p.threads ≠ [])
  | .shutting next => Between p ∧ ∀ n ∈ next, 0 < n
  | .joining joined next => p.shutdown_ = true ∧ (∀ w ∈ p.threads.take joined, w = .returned) ∧
      ((∀ w ∈ p.threads, w = .returned) → p.jobs = []) ∧ ∀ n ∈ next, 0 < n
  | .starting n => p.threads = [] ∧ 0 < n

variable {p p' : ThreadPool (ℕ × α)} {before after : List (Worker (ℕ × α))}
  {worker worker' : Worker (ℕ × α)} {joined : ℕ} {next : Option ℕ}

/-- Threads that have been joined come before one that still runs. -/
lemma joined_le (h : ∀ w ∈ (before ++ worker::after).take joined, w = .returned)
    (hworker : worker ≠ .returned) : joined ≤ before.length := by
  by_contra hlt
  refine hworker (h worker ?_)
  rw [List.take_append,List.mem_append]
  right
  obtain ⟨k,hk⟩ : ∃ k, joined - before.length = k+1 := ⟨joined-before.length-1,by omega⟩
  rw [hk,List.take_succ_cons]
  exact List.mem_cons_self

lemma Between.move (h : Between p) (hthreads : p.threads = before ++ worker::after)
    (hflag : p'.shutdown_ = p.shutdown_) (hthreads' : p'.threads = before ++ worker'::after)
    (hreturn : worker' = .returned → p.shutdown_ = true ∧ p'.jobs = []) : Between p' := by
  have hactive : p.shutdown_ = false := by
    by_contra hset
    have hnil := h.shut (Bool.not_eq_false _ ▸ hset)
    rw [hthreads] at hnil
    simp at hnil
  have hold := (h.active hactive).1
  rw [hthreads] at hold
  refine ⟨?_,fun _ => ⟨?_,?_⟩⟩
  · intro hset
    rw [hflag,hactive] at hset
    cases hset
  · intro w hw
    rw [hthreads',List.mem_append,List.mem_cons] at hw
    rcases hw with hw | rfl | hw
    · exact hold w (List.mem_append_left _ hw)
    · intro hreturned
      rw [hactive] at hreturn
      cases (hreturn hreturned).1
    · exact hold w (List.mem_append_right _ (List.mem_cons_of_mem _ hw))
  · intro hnil
    rw [hthreads'] at hnil
    simp at hnil

/-- One worker goes on. It may return only where the flag is set and the list is empty. -/
theorem Expects.move {c : Controller} (h : Expects p c)
    (hthreads : p.threads = before ++ worker::after) (hworker : worker ≠ .returned)
    (hflag : p'.shutdown_ = p.shutdown_) (hthreads' : p'.threads = before ++ worker'::after)
    (hreturn : worker' = .returned → p.shutdown_ = true ∧ p'.jobs = []) : Expects p' c := by
  cases c with
  | ready =>
    refine ⟨h.1.move hthreads hflag hthreads' hreturn,fun _ => ?_⟩
    simp [hthreads']
  | shutting next => exact ⟨h.1.move hthreads hflag hthreads' hreturn,h.2⟩
  | joining joined next =>
    obtain ⟨hset,hjoined,hempty,hnext⟩ := h
    rw [hthreads] at hjoined
    have hle := joined_le hjoined hworker
    rw [List.take_append_of_le_length hle] at hjoined
    refine ⟨hflag ▸ hset,?_,?_,hnext⟩
    · rwa [hthreads',List.take_append_of_le_length hle]
    · intro hall
      apply (hreturn (hall worker' ?_)).2
      rw [hthreads']
      exact List.mem_append_right _ List.mem_cons_self
  | starting n =>
    rw [Expects,hthreads] at h
    simp at h

/-- After a `shutdown()` no thread is left. -/
lemma expects_resume (hset : p.shutdown_ = true) (hthreads : p.threads = [])
    (hnext : ∀ n ∈ next, 0 < n) : Expects p (.resume next) := by
  cases next with
  | none =>
    have hclear : p.shutdown_ ≠ false := by simp [hset]
    exact ⟨⟨fun _ => hthreads,fun h => absurd h hclear⟩,fun h => absurd h hclear⟩
  | some n => exact ⟨hthreads,hnext n rfl⟩

/-- Each ticket is at one place, and the started jobs are those that run or have ended. -/
structure Inv (s : DrivenPool α) : Prop where
  tickets : (s.pool.jobs.map Prod.fst ++ s.pool.running.map Prod.fst ++ s.ended).Perm
    (List.range s.issued)
  started : s.started.Perm (s.pool.running.map Prod.fst ++ s.ended)
  expects : Expects s.pool s.controller

namespace Inv
variable {s s' : DrivenPool α}

lemma built {n : ℕ} (hn : 0 < n) : Inv (built n : DrivenPool α) where
  tickets := .refl _
  started := .refl _
  expects := by
    refine ⟨⟨nofun,fun _ => ⟨nofun,fun _ => rfl⟩⟩,?_⟩
    intro m hm
    obtain rfl := Option.some.inj hm
    exact hn

/-- The tickets where a job is enqueued. -/
lemma enqueue_tickets (h : Inv s) (fn : α) :
    ((s.enqueue fn).pool.jobs.map Prod.fst ++ (s.enqueue fn).pool.running.map Prod.fst ++
      (s.enqueue fn).ended).Perm (List.range (s.enqueue fn).issued) := by
  have hold := h.tickets
  rw [List.perm_iff_count] at hold ⊢
  intro t
  have ht := hold t
  simp only [DrivenPool.enqueue,ThreadPool.enqueue,ThreadPool.running,List.range_succ,
    List.map_append,List.map_cons,List.map_nil,List.count_append] at ht ⊢
  omega

/-- What is run where the threads are others but the jobs in them the same. -/
lemma of_running {p : ThreadPool (ℕ × α)} {c : Controller} (h : Inv s)
    (hjobs : p.jobs = s.pool.jobs) (hrunning : p.running = s.pool.running) (hexpects : Expects p c) :
    Inv { s with pool := p, controller := c } where
  tickets := by
    change (p.jobs.map Prod.fst ++ p.running.map Prod.fst ++ s.ended).Perm _
    rw [hjobs,hrunning]
    exact h.tickets
  started := by
    change s.started.Perm (p.running.map Prod.fst ++ s.ended)
    rw [hrunning]
    exact h.started
  expects := hexpects

theorem step (h : Inv s) (hstep : Step s s') : Inv s' := by
  obtain ⟨htickets,hstarted,hexpects⟩ := id h
  cases hstep with
  | enqueue fn hready =>
    rw [hready] at hexpects
    refine ⟨h.enqueue_tickets fn,hstarted,?_⟩
    change Expects (s.pool.enqueue (s.issued,fn)) s.controller
    rw [hready]
    obtain ⟨hbetween,hthreads⟩ := hexpects
    exact ⟨⟨hbetween.shut,fun hclear => ⟨(hbetween.active hclear).1,
      fun hnil => absurd hnil (hthreads hclear)⟩⟩,hthreads⟩
  | shutdown hready =>
    rw [hready] at hexpects
    exact h.of_running rfl rfl ⟨hexpects.1,by simp⟩
  | active n hn hready =>
    rw [hready] at hexpects
    refine h.of_running rfl rfl ⟨hexpects.1,?_⟩
    intro m hm
    obtain rfl := Option.some.inj hm
    exact hn
  | alreadyShut next hshutting hset =>
    rw [hshutting] at hexpects
    exact h.of_running rfl rfl (expects_resume hset (hexpects.1.shut hset) hexpects.2)
  | setFlag next hshutting hclear =>
    rw [hshutting] at hexpects
    obtain ⟨hno,hempty⟩ := hexpects.1.active hclear
    refine h.of_running rfl rfl ⟨rfl,by simp,?_,hexpects.2⟩
    intro hall
    apply hempty
    apply List.eq_nil_iff_forall_not_mem.2
    intro w hw
    exact hno w hw (hall w hw)
  | join joined next hjoining hreturned =>
    rw [hjoining] at hexpects
    obtain ⟨hset,hjoined,hempty,hnext⟩ := hexpects
    refine h.of_running rfl rfl ⟨hset,?_,hempty,hnext⟩
    intro w hw
    rw [List.take_add_one,hreturned,List.mem_append] at hw
    rcases hw with hw | hw
    · exact hjoined w hw
    · exact List.mem_singleton.1 hw
  | returns hreturns =>
    obtain ⟨next,hjoining⟩ := hreturns
    rw [hjoining] at hexpects
    obtain ⟨hset,hjoined,_,hnext⟩ := hexpects
    rw [List.take_length] at hjoined
    have hrunning := ThreadPool.running_of_returned hjoined
    exact h.of_running rfl hrunning.symm (expects_resume hset rfl hnext)
  | start n hstarting =>
    rw [hstarting] at hexpects
    obtain ⟨hnil,hn⟩ := hexpects
    have hthreads : s.pool.threads ++ List.replicate n Worker.locking =
        List.replicate n Worker.locking := by rw [hnil,List.nil_append]
    have hne : List.replicate n (Worker.locking : Worker (ℕ × α)) ≠ [] := by
      simpa using Nat.ne_of_gt hn
    have hrunning : (List.replicate n (Worker.locking : Worker (ℕ × α))).filterMap Worker.job? = [] := by
      simp [Worker.job?]
    rw [hthreads]
    refine h.of_running rfl ?_ ⟨⟨by simp,fun _ => ⟨?_,fun h => absurd h hne⟩⟩,fun _ => hne⟩
    · rw [ThreadPool.running,hrunning,ThreadPool.running,hnil]
      rfl
    · intro w hw
      rw [List.eq_of_mem_replicate hw]
      simp
  | take before after fn jobs hthreads hjobs =>
    have hrunning := (ThreadPool.running_take_perm hthreads fn jobs).map Prod.fst
    have hmoved := (ThreadPool.jobs_take_perm hthreads hjobs).map Prod.fst
    rw [List.map_append,List.map_append] at hmoved
    refine ⟨(hmoved.append_right s.ended).trans htickets,?_,
      hexpects.move hthreads (by simp) rfl rfl (by simp)⟩
    exact (List.perm_append_singleton _ _).trans
      ((hstarted.cons fn.1).trans (hrunning.append_right s.ended).symm)
  | leave before after hthreads hjobs hset =>
    refine h.of_running rfl ?_ (hexpects.move hthreads (by simp) rfl rfl fun _ => ⟨hset,hjobs⟩)
    rw [ThreadPool.running_put,ThreadPool.running_of_threads before .locking after hthreads]
    rfl
  | spawn before after fn child hthreads =>
    exact ⟨h.enqueue_tickets child,hstarted,hexpects.move hthreads (by simp) rfl hthreads (by simp)⟩
  | finish before after fn hthreads =>
    have hrunning := (ThreadPool.running_finish_perm hthreads).map Prod.fst
    let p := s.pool.put before .leaving after
    have hended : (p.running.map Prod.fst ++ (s.ended ++ [fn.1])).Perm
        (s.pool.running.map Prod.fst ++ s.ended) := by
      rw [← List.append_assoc]
      exact (List.perm_append_singleton _ _).trans (hrunning.append_right s.ended).symm
    refine ⟨?_,hstarted.trans hended.symm,hexpects.move hthreads (by simp) rfl rfl (by simp)⟩
    rw [List.append_assoc] at htickets ⊢
    exact (hended.append_left _).trans htickets
  | lower before after hthreads =>
    refine h.of_running rfl ?_ (hexpects.move hthreads (by simp) rfl rfl (by simp))
    rw [ThreadPool.running_lower,ThreadPool.running_of_threads before .leaving after hthreads]
    rfl

end Inv

theorem Reachable.inv {s : DrivenPool α} (h : Reachable s) : Inv s := by
  induction h with
  | built n hn => exact .built hn
  | next _ hstep ih => exact ih.step hstep

/-- In every reachable state no job has been started twice, and when a `shutdown()` that found the
pool active returns, the list is empty and each job that has been enqueued has been run once, to
its end. -/
theorem Reachable.run_once {s : DrivenPool α} (h : Reachable s) :
    s.started.Nodup ∧ ∀ s', s.Returns s' → s'.pool.jobs = [] ∧
      ∀ t < s'.issued, s'.started.count t = 1 ∧ s'.ended.count t = 1 := by
  obtain ⟨htickets,hstarted,hexpects⟩ := h.inv
  refine ⟨?_,?_⟩
  · have hnodup := htickets.nodup_iff.2 List.nodup_range
    rw [List.append_assoc] at hnodup
    exact hstarted.nodup_iff.2 (List.nodup_append.1 hnodup).2.1
  · intro s' hreturns
    obtain ⟨next,hjoining⟩ := hreturns
    rw [hjoining] at hexpects
    obtain ⟨_,hjoined,hempty,_⟩ := hexpects
    rw [List.take_length] at hjoined
    have hjobs := hempty hjoined
    rw [ThreadPool.running_of_returned hjoined] at htickets hstarted
    rw [hjobs] at htickets
    have hall : s.ended.Perm (List.range s.issued) := htickets
    refine ⟨hjobs,?_⟩
    intro t ht
    have hended : s.ended.count t = 1 := by
      rw [hall.count_eq]
      exact List.count_eq_one_of_mem List.nodup_range (List.mem_range.2 ht)
    exact ⟨(hstarted.count_eq t).trans hended,hended⟩

/-- One worker runs a job that enqueues another one after the flag has been set. -/
theorem run_once_child : ∃ s s' : DrivenPool Unit, s.Reachable ∧ s.Returns s' ∧
    s'.pool.jobs = [] ∧ s'.issued = 2 ∧ s'.started.count 1 = 1 ∧ s'.ended.count 1 = 1 := by
  have r0 : Reachable (built 1 : DrivenPool Unit) := .built 1 (by decide)
  -- The constructor starts one worker, and a job is enqueued and taken.
  have r1 := r0.next (.setFlag (some 1) rfl rfl)
  have r2 := r1.next (.returns (.clear (some 1) rfl))
  have r3 := r2.next (.start 1 rfl)
  have r4 := r3.next (.enqueue () rfl)
  have r5 := r4.next (.take [] [] (0,()) [] rfl rfl)
  -- The controller sets the flag and waits for the worker, whose job goes on.
  have r6 := r5.next (.shutdown rfl)
  have r7 := r6.next (.setFlag none rfl rfl)
  have r8 := r7.next (.spawn [] [] (0,()) () rfl)
  have r9 := r8.next (.finish [] [] (0,()) rfl)
  have r10 := r9.next (.lower [] [] rfl)
  have r11 := r10.next (.take [] [] (1,()) [] rfl rfl)
  have r12 := r11.next (.finish [] [] (1,()) rfl)
  have r13 := r12.next (.lower [] [] rfl)
  have r14 := r13.next (.leave [] [] rfl rfl rfl)
  have r15 := r14.next (.join 0 none rfl rfl)
  obtain ⟨hjobs,hrun⟩ := r15.run_once.2 _ (.clear none rfl)
  exact ⟨_,_,r15,.clear none rfl,hjobs,rfl,hrun 1 (by decide)⟩

end DrivenPool
end GDFileStore
