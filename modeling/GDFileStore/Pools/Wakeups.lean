import GDFileStore.Pools.Waiting
import GDFileStore.Program.Inevitable

/-! No wake-up is lost: each call of the controller comes back, and each job is run. -/
namespace GDFileStore
open Program

/-- The steps that its run takes, with those of a worker it wakes. -/
def Script.work : Script → ℕ
  | done => 3
  | enqueue child rest => child.work+rest.work+2

/-- The steps that a worker takes until it blocks or returns. -/
def WaitingWorker.work : WaitingWorker → ℕ
  | locking => 1
  | running _ rest => rest.work
  | leaving => 2
  | _ => 0

lemma Notified.work {threads threads' : List WaitingWorker} (h : Notified threads threads') :
    (threads'.map WaitingWorker.work).sum ≤ (threads.map WaitingWorker.work).sum+1 := by
  cases h with
  | none _ => exact Nat.le_succ _
  | one before after =>
    simp only [List.map_append,List.map_cons,List.sum_append,List.sum_cons,WaitingWorker.work]
    omega

namespace WaitingPool
variable {s s' : WaitingPool}

section Rest

/-- Where no worker can take a step, all are blocked or have returned. -/
lemma down_of_rest (hrest : ∀ s', ¬s.Works s') {w : WaitingWorker} (hw : w ∈ s.threads) :
    w = .blocked ∨ w = .returned := by
  obtain ⟨before,after,hthreads⟩ := List.append_of_mem hw
  cases w with
  | locking =>
    exfalso
    cases hjobs : s.jobs with
    | cons fn jobs => exact hrest _ (.take before after fn jobs hthreads hjobs)
    | nil =>
      cases hflag : s.shutdown_ with
      | true => exact hrest _ (.leave before after hthreads hjobs hflag)
      | false => exact hrest _ (.block before after hthreads hjobs hflag)
  | blocked => exact .inl rfl
  | running fn rest =>
    exfalso
    cases rest with
    | done => exact hrest _ (.finish before after fn hthreads)
    | enqueue child rest =>
      obtain ⟨threads,hnotified⟩ := Notified.exists_notified (before ++ .running fn rest::after)
      exact hrest _ (.spawn before after fn child rest threads hthreads hnotified)
  | leaving => exact absurd (.lower before after hthreads) (hrest _)
  | returned => exact .inr rfl

/-- Then no job is left, as one would have woken a thread. -/
lemma Inv.jobs_of_rest (h : s.Inv) (hrest : ∀ s', ¬s.Works s') (hthreads : s.threads ≠ []) :
    s.jobs = [] := by
  by_contra hjobs
  obtain ⟨w,hw,hup⟩ := h.awake hjobs hthreads
  rcases down_of_rest hrest hw with hblocked | hreturned
  · exact hup.1 hblocked
  · exact hup.2 hreturned

lemma running_of_rest (hrest : ∀ s', ¬s.Works s') : s.driven.pool.running = [] := by
  apply List.filterMap_eq_nil_iff.2
  intro worker hworker
  obtain ⟨w,hw,rfl⟩ := List.mem_map.1 hworker
  rcases down_of_rest hrest hw with rfl | rfl <;> rfl

/-- Where no job is in the list or run, each that was enqueued has been run to its end. -/
lemma run_of_idle (h : s.driven.Inv) (hjobs : s.jobs = []) (hrunning : s.driven.pool.running = []) :
    ∀ t < s.issued, s.started.count t = 1 ∧ s.ended.count t = 1 := by
  have hnil : s.driven.pool.jobs = [] := hjobs
  have htickets := h.tickets
  have hstarted := h.started
  rw [hnil,hrunning] at htickets
  rw [hrunning] at hstarted
  have hall : s.ended.Perm (List.range s.issued) := htickets
  intro t ht
  have hended : s.ended.count t = 1 := by
    rw [hall.count_eq]
    exact List.count_eq_one_of_mem List.nodup_range (List.mem_range.2 ht)
  exact ⟨(hstarted.count_eq t).trans hended,hended⟩

/-- Where neither a worker nor the controller's call can go on, no call is under way. -/
lemma Inv.ready_of_rest (h : s.Inv) (hgoes : ∀ s', ¬s.Goes s') (hworks : ∀ s', ¬s.Works s') :
    s.controller = .ready := by
  cases hcontroller : s.controller with
  | ready => rfl
  | shutting next =>
    exfalso
    cases hflag : s.shutdown_ with
    | true => exact hgoes _ (.alreadyShut next hcontroller hflag)
    | false => exact hgoes _ (.setFlag next hcontroller hflag)
  | joining joined next =>
    exfalso
    obtain ⟨hjoined,hno⟩ := h.joining joined next hcontroller
    cases hnotifying : s.notifying with
    | true => exact hgoes _ (.notifyAll joined next hcontroller hnotifying)
    | false =>
      rcases hjoined.lt_or_eq with hlt | rfl
      · -- The next thread to join is up, or has returned.
        have hm := List.getElem_mem hlt
        refine hgoes _ (.join joined next hcontroller hnotifying ?_)
        rw [List.getElem?_eq_getElem hlt]
        rcases down_of_rest hworks hm with hblocked | hreturned
        · rw [hblocked] at hm
          exact absurd hm (hno hnotifying)
        · rw [hreturned]
      · exact hgoes _ (.returns next hcontroller hnotifying)
  | starting n => exact absurd (.start n hcontroller) (hgoes _)

end Rest

section Measure

/-- The steps that the workers take until all are blocked or have returned. -/
def load (s : WaitingPool) : ℕ :=
  (s.threads.map WaitingWorker.work).sum + (s.jobs.map (fun fn => fn.2.work)).sum

lemma Works.load_lt (h : s.Works s') : s'.load < s.load := by
  cases h with
  | take before after fn jobs hthreads hjobs =>
    simp only [load,hthreads,hjobs,List.map_append,List.map_cons,List.sum_append,List.sum_cons,
      WaitingWorker.work]
    omega
  | leave before after hthreads hjobs hset =>
    simp only [load,put,hthreads,List.map_append,List.map_cons,List.sum_append,List.sum_cons,
      WaitingWorker.work]
    omega
  | block before after hthreads hjobs hclear =>
    simp only [load,put,hthreads,List.map_append,List.map_cons,List.sum_append,List.sum_cons,
      WaitingWorker.work]
    omega
  | spawn before after fn child rest threads hthreads hnotified =>
    have hwork := hnotified.work
    simp only [load,enqueue,hthreads,List.map_append,List.map_cons,List.map_nil,List.sum_append,
      List.sum_cons,List.sum_nil,WaitingWorker.work,Script.work] at hwork ⊢
    omega
  | finish before after fn hthreads =>
    simp only [load,hthreads,List.map_append,List.map_cons,List.sum_append,List.sum_cons,
      WaitingWorker.work,Script.work]
    omega
  | lower before after hthreads =>
    simp only [load,hthreads,List.map_append,List.map_cons,List.sum_append,List.sum_cons,
      WaitingWorker.work]
    omega

/-- What the workers leave as it is. -/
lemma Works.frame (h : s.Works s') : s'.controller = s.controller ∧ s'.notifying = s.notifying ∧
    s'.shutdown_ = s.shutdown_ := by
  cases h <;> exact ⟨rfl,rfl,rfl⟩

/-- The parts of a call that are still to come. -/
def phase (notifying : Bool) : Controller → ℕ
  | .shutting _ => 4
  | .joining _ _ => if notifying then 3 else 2
  | .starting _ => 1
  | .ready => 0

lemma phase_resume (notifying : Bool) (next : Option ℕ) :
    phase notifying (.resume next) ≤ 1 := by
  cases next with
  | none => exact Nat.zero_le 1
  | some n => exact le_rfl

/-- The threads that the controller has still to join. -/
def unjoined (s : WaitingPool) : ℕ :=
  match s.controller with
  | .joining joined _ => s.threads.length-joined
  | _ => 0

/-- The rank of a pool: its controller's phase, then its workers' load, then the joins. -/
def rank (s : WaitingPool) : ℕ × ℕ × ℕ := (phase s.notifying s.controller,s.load,s.unjoined)

abbrev Lower : ℕ × ℕ × ℕ → ℕ × ℕ × ℕ → Prop := Prod.Lex (· < ·) (Prod.Lex (· < ·) (· < ·))

lemma lower_wf : WellFounded Lower :=
  WellFounded.prod_lex wellFounded_lt (WellFounded.prod_lex wellFounded_lt wellFounded_lt)

lemma Works.rank_lower (h : s.Works s') : Lower s'.rank s.rank := by
  obtain ⟨hcontroller,hnotifying,-⟩ := h.frame
  rw [rank,rank,hcontroller,hnotifying]
  exact .right _ (.left _ _ h.load_lt)

lemma Goes.rank_lower (h : s.Goes s') : Lower s'.rank s.rank := by
  cases h with
  | alreadyShut next hshutting hset =>
    refine .left _ _ (lt_of_le_of_lt (phase_resume _ next) ?_)
    simp [hshutting,phase]
  | setFlag next hshutting hclear =>
    refine .left _ _ ?_
    simp [hshutting,phase]
  | notifyAll joined next hjoining hnotifying =>
    refine .left _ _ ?_
    simp [hjoining,hnotifying,phase]
  | join joined next hjoining hclear hreturned =>
    have hlt := (List.getElem?_eq_some_iff.1 hreturned).1
    simp only [rank,hjoining,phase]
    refine .right _ (.right _ ?_)
    simp only [unjoined,hjoining]
    omega
  | returns next hjoining hclear =>
    refine .left _ _ (lt_of_le_of_lt (phase_resume _ next) ?_)
    simp [hjoining,hclear,phase]
  | start n hstarting =>
    refine .left _ _ ?_
    simp [hstarting,phase]

end Measure

/-- A step of the controller's call or of a worker that needs no spurious wake-up. -/
def Turns (s s' : WaitingPool) : Prop := s.Goes s' ∨ s.Works s'

lemma Turns.step (h : s.Turns s') : s.Step s' := h.elim (.inr ∘ .inl) (.inr ∘ .inr ∘ .inl)

/-- Each call of `shutdown` or `active` that the controller is in comes back, whichever of the
threads takes the next step. -/
theorem calls_return (h : s.Reachable) : Inevitable Turns (fun s' => s'.controller = .ready) s := by
  refine Inevitable.of_rank lower_wf (fun s r => s.Reachable ∧ s.rank = r) ?_ ?_ ⟨h,rfl⟩
  · rintro s s' r ⟨hreach,rfl⟩ hturns
    refine ⟨s'.rank,?_,hreach.next hturns.step,rfl⟩
    rcases hturns with hgoes | hworks
    · exact hgoes.rank_lower
    · exact hworks.rank_lower
  · rintro s r ⟨hreach,-⟩ hrest
    exact hreach.inv.ready_of_rest (fun s' hs' => hrest s' (.inl hs'))
      (fun s' hs' => hrest s' (.inr hs'))

/-- A pool with one worker, which has found nothing to do. -/
def idle : WaitingPool := { threads := [.blocked], shutdown_ := false, controller := .ready }

lemma idle_reachable : idle.Reachable := by
  have r0 : Reachable (built 1) := .built 1 (by decide)
  have r1 := r0.next (.inr (.inl (.setFlag (some 1) rfl rfl)))
  have r2 := r1.next (.inr (.inl (.notifyAll 0 (some 1) rfl rfl)))
  have r3 := r2.next (.inr (.inl (.returns (some 1) rfl rfl)))
  have r4 := r3.next (.inr (.inl (.start 1 rfl)))
  exact r4.next (.inr (.inr (.inl (.block [] [] rfl rfl rfl))))

/-- A shutdown wakes the one worker and returns. -/
theorem calls_return_idle : Inevitable Turns (fun s' => s'.controller = .ready)
    { idle with controller := .shutting none } :=
  calls_return (idle_reachable.next (.inl (.shutdown rfl)))

/-- In a pool that is not shut down every job that has been enqueued, by the controller or by another
job, comes to be run once, to its end, with no further call. -/
theorem jobs_all_run (h : s.Reachable) (hready : s.controller = .ready) (hactive : s.shutdown_ = false) :
    Inevitable Works (fun s' => s'.jobs = [] ∧
      ∀ t < s'.issued, s'.started.count t = 1 ∧ s'.ended.count t = 1) s := by
  refine Inevitable.of_rank wellFounded_lt (fun s r => s.Reachable ∧ s.controller = .ready ∧
    s.shutdown_ = false ∧ s.load = r) ?_ ?_ ⟨h,hready,hactive,rfl⟩
  · rintro s s' r ⟨hreach,hready,hactive,rfl⟩ hworks
    obtain ⟨hcontroller,-,hflag⟩ := hworks.frame
    exact ⟨s'.load,hworks.load_lt,hreach.next (.inr (.inr (.inl hworks))),
      hcontroller.trans hready,hflag.trans hactive,rfl⟩
  · rintro s r ⟨hreach,hready,hactive,-⟩ hrest
    have hinv := hreach.driven.inv
    have hexpects := hinv.expects
    have hcontroller : s.driven.controller = .ready := hready
    rw [hcontroller] at hexpects
    have hthreads : s.threads ≠ [] := by
      intro hnil
      exact hexpects.2 hactive (by simp [driven,hnil])
    have hjobs := hreach.inv.jobs_of_rest hrest hthreads
    refine ⟨hjobs,?_⟩
    exact run_of_idle hinv hjobs (running_of_rest hrest)

/-- A job that enqueues another wakes the one worker, which runs both. -/
theorem jobs_all_run_child : Inevitable Works (fun s' => s'.jobs = [] ∧
    ∀ t < s'.issued, s'.started.count t = 1 ∧ s'.ended.count t = 1)
    (idle.enqueue (.enqueue .done .done) [.locking]) :=
  jobs_all_run (idle_reachable.next (.inl (.enqueue _ _ rfl (.one [] [])))) rfl rfl

end WaitingPool
end GDFileStore
