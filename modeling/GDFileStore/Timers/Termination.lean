import GDFileStore.Timers.Order

/-! `SetTerminationAtEnd` adds a timer at the end of the list whose call shuts the caller down. It
waits for all that the list holds, unless it is called by a timer with others still before it. -/
namespace GDFileStore
open Sequences

/-- A timer, or the one that `SetTerminationAtEnd` makes. -/
inductive Scheduled (β : Type*)
  | timer (t : β)
  | termination (when : ℤ)

instance {β : Type*} [Timed β] : Timed (Scheduled β) where
  when
    | .timer t => Timed.when t
    | .termination when => when
  sentinel := .timer Timed.sentinel
  when_sentinel := Timed.when_sentinel (β := β)

namespace TimerCaller
variable {β : Type*} [Timed β]

/-- `SetTerminationAtEnd`. An empty list has no `----timers.end()`. -/
def setTerminationAtEnd (s : TimerCaller (Scheduled β)) : Option (TimerCaller (Scheduled β)) :=
  if s.timers.length = 1 then some { s with shutdown_ := true }
  else s.timers.dropLast.getLast?.map (fun last => s.addTimer (.termination last.when))

/-- What may follow, when nothing but the call of the timer with this number shuts the caller
down. -/
inductive Later (env : Surroundings (Scheduled β)) (number : ℕ) (s₀ : TimerCaller (Scheduled β)) :
    TimerCaller (Scheduled β) → Prop
  | start : Later env number s₀ s₀
  | step {s s' : TimerCaller (Scheduled β)} :
      Later env number s₀ s → Step env s s' → Later env number s₀ s'
  | active {s : TimerCaller (Scheduled β)} :
      Later env number s₀ s → Later env number s₀ { s with shutdown_ := false }
  | shutdown {s : TimerCaller (Scheduled β)} (it : Entry (Scheduled β)) (now : ℤ)
      (toAdd : List (Scheduled β)) : Later env number s₀ s → s.place = .calling it now toAdd →
      it.number = number → Later env number s₀ { s with shutdown_ := true }

/-- A timer that finds a place in the list is due before one that is there. -/
lemma when_lt_addTimer {s : TimerCaller (Scheduled β)}
    (h : ∀ e ∈ s.timers, e = .sentinel ∨ e.when < timePointMax) (t : Scheduled β) :
    ∀ e ∈ (s.addTimer t).timers, e = .sentinel ∨ e.when < timePointMax := by
  intro e he
  by_cases hlater : ∃ d ∈ s.timers, Timed.when t < d.when
  · obtain ⟨d,hd,hlt⟩ := hlater
    have hle : d.when ≤ timePointMax := by
      rcases h d hd with rfl | hless
      · exact (Timed.when_sentinel (β := β)).le
      · exact hless.le
    rcases mem_insertDue he with rfl | hold
    · exact .inr (hlt.trans_le hle)
    · exact h e hold
  · have hsame : (s.addTimer t).timers = s.timers := insertDue_of_last hlater
    exact h e (hsame ▸ he)

/-- All timers that wait, but the sentinel, are due before `time_point::max()`. -/
lemma Run.when_lt {env : Surroundings (Scheduled β)} {s : TimerCaller (Scheduled β)}
    (h : Run env new s) : ∀ e ∈ s.timers, e = .sentinel ∨ e.when < timePointMax := by
  induction h with
  | start => exact fun e he => .inl (List.mem_singleton.1 he)
  | flag _ _ ih => exact ih
  | step _ hstep ih =>
    cases hstep with
    | add t _ _ _ => exact when_lt_addTimer ih t
    | addInCall it now t toAdd _ _ => exact when_lt_addTimer ih t
    | begin _ => exact ih
    | call it now toAdd _ _ _ _ _ => exact ih
    | erase it now _ => exact fun e he => ih e (List.mem_of_mem_eraseP he)
    | stop it now _ _ _ => exact ih
    | atEnd _ => exact ih

/-- Those of `waited` that have not been called are in the list, before the timer with the number,
and not before the one that `it` points at; and none is left where the caller is shut down. -/
structure Ahead (waited : List (Entry β)) (number : ℕ) (s : TimerCaller β) : Prop where
  given : number < s.added.length
  waiting : ∀ e ∈ waited, e ∈ s.executed.map Prod.fst ∨ e ∈ s.timers ∧
    (∀ d ∈ s.timers, d.number = number → e.Before d) ∧ ∀ it ∈ s.place.it?, ¬e.Before it
  shut : s.shutdown_ = true → ∀ e ∈ waited, e ∈ s.executed.map Prod.fst

namespace Ahead
variable {waited : List (Entry β)} {number : ℕ} {s s' : TimerCaller β}

lemma of_it (h : Ahead waited number s) {place : TickPlace β}
    (hplace : ∀ e ∈ s.timers, ∀ it ∈ place.it?, (∀ it ∈ s.place.it?, ¬e.Before it) → ¬e.Before it) :
    Ahead waited number { s with place := place } := by
  refine ⟨h.given,?_,h.shut⟩
  intro e he
  rcases h.waiting e he with hdone | ⟨hmem,hbefore,hit⟩
  · exact .inl hdone
  · exact .inr ⟨hmem,hbefore,fun it hat => hplace e hmem it hat hit⟩

lemma addTimer (h : Ahead waited number s) (t : β) : Ahead waited number (s.addTimer t) := by
  refine ⟨?_,?_,h.shut⟩
  · exact h.given.trans_le (by simp [TimerCaller.addTimer])
  · intro e he
    rcases h.waiting e he with hdone | ⟨hmem,hbefore,hit⟩
    · exact .inl hdone
    · refine .inr ⟨mem_insertDue_of_mem hmem,?_,hit⟩
      intro d hd hnumber
      rcases mem_insertDue hd with rfl | hold
      · exact absurd hnumber h.given.ne'
      · exact hbefore d hold hnumber

/-- The timer that was called is not waited for any more, and `it` goes on to the next. -/
lemma erase (h : Ahead waited number s) (hinv : s.Inv) {it : Entry β} {now : ℤ}
    (hplace : s.place = .calling it now []) : Ahead waited number { s with
      timers := TimerCaller.erase it s.timers
      place := .turn (next it s.timers)
      executed := s.executed ++ [(it,now)] } := by
  have hat : it ∈ s.place.it? := by rw [hplace]; rfl
  obtain ⟨front,back,hsplit,herase,hnext⟩ := hinv.split (hinv.current it hat).1
  have hsorted := hinv.sorted
  rw [hsplit,List.pairwise_append,List.pairwise_cons] at hsorted
  obtain ⟨-,⟨-,hback⟩,hcross⟩ := hsorted
  have hmore : ∀ e, e ∈ s.executed.map Prod.fst → e ∈ (s.executed ++ [(it,now)]).map Prod.fst := by
    intro e he
    rw [List.map_append]
    exact List.mem_append_left _ he
  refine ⟨h.given,?_,fun hshut e he => hmore e (h.shut hshut e he)⟩
  intro e he
  rcases h.waiting e he with hdone | ⟨hmem,hbefore,hit⟩
  · exact .inl (hmore e hdone)
  · by_cases heq : e = it
    · left
      rw [List.map_append,heq]
      exact List.mem_append_right _ (List.mem_singleton_self _)
    · right
      have hlater : e ∈ back := by
        rw [hsplit] at hmem
        rcases List.mem_append.1 hmem with hf | hb
        · exact absurd (hcross e hf it List.mem_cons_self) (hit it hat)
        · exact (List.mem_cons.1 hb).resolve_left heq
      dsimp only
      rw [herase,hnext]
      refine ⟨List.mem_append_right _ hlater,?_,?_⟩
      · intro d hd
        have hsub : (front ++ back).Sublist (front ++ it::back) :=
          (List.sublist_cons_self it back).append_left front
        exact hbefore d (hsplit ▸ hsub.subset hd)
      · intro new hnew hnot
        obtain ⟨rest,rfl⟩ := List.head?_eq_some_iff.1 hnew
        rcases List.mem_cons.1 hlater with rfl | hm
        · exact hnot.ne rfl
        · exact hnot.asymm ((List.pairwise_cons.1 hback).1 e hm)

theorem step {env : Surroundings β} (h : Ahead waited number s) (hinv : s.Inv)
    (hstep : Step env s s') : Ahead waited number s' := by
  cases hstep with
  | add t _ _ _ => exact h.addTimer t
  | addInCall it now t toAdd hplace _ =>
    refine (h.addTimer t).of_it ?_
    intro e _ new hnew hit
    exact hit new (by rw [TimerCaller.addTimer,hplace]; exact hnew)
  | begin _ =>
    refine h.of_it ?_
    intro e he it hit _ hbefore
    obtain ⟨rest,hlist⟩ := List.head?_eq_some_iff.1 hit
    have hsorted := hinv.sorted
    rw [hlist] at he hsorted
    rcases List.mem_cons.1 he with rfl | hm
    · exact hbefore.ne rfl
    · exact hbefore.asymm ((List.pairwise_cons.1 hsorted).1 e hm)
  | call it now toAdd hplace _ _ _ _ =>
    refine h.of_it ?_
    intro e _ new hnew hit
    exact hit new (by rw [hplace]; exact hnew)
  | erase it now hplace => exact h.erase hinv hplace
  | stop it now _ _ _ => exact h.of_it (fun _ _ _ hnone => absurd hnone (by simp [TickPlace.it?]))
  | atEnd _ => exact h.of_it (fun _ _ _ hnone => absurd hnone (by simp [TickPlace.it?]))

/-- The call of the timer with the number comes when none of the others is left. -/
lemma shutdown (h : Ahead waited number s) (hinv : s.Inv) {it : Entry β} {now : ℤ} {toAdd : List β}
    (hplace : s.place = .calling it now toAdd) (hnumber : it.number = number) :
    Ahead waited number { s with shutdown_ := true } := by
  refine ⟨h.given,h.waiting,?_⟩
  intro _ e he
  have hat : it ∈ s.place.it? := by rw [hplace]; rfl
  rcases h.waiting e he with hdone | ⟨-,hbefore,hit⟩
  · exact hdone
  · exact absurd (hbefore it (hinv.current it hat).1 hnumber) (hit it hat)

end Ahead
lemma Inv.sentinel_last {s : TimerCaller β} (h : s.Inv)
    (hlt : ∀ e ∈ s.timers, e = .sentinel ∨ e.when < timePointMax)
    (hsentinel : .sentinel ∈ s.timers) : ∃ front, s.timers = front ++ [.sentinel] := by
  obtain ⟨front,back,hsplit⟩ := List.append_of_mem hsentinel
  have hsorted := h.sorted
  rw [hsplit,List.pairwise_append,List.pairwise_cons] at hsorted
  cases back with
  | nil => exact ⟨front,hsplit⟩
  | cons e back =>
    have hbefore := hsorted.2.1.1 e List.mem_cons_self
    rcases hlt e (by simp [hsplit]) with rfl | hless
    · exact absurd rfl hbefore.ne
    · have hmax : Entry.when (.sentinel : Entry β) = timePointMax := Timed.when_sentinel
      exact absurd hless (not_lt.2 (hmax ▸ hbefore.le))

section calls
variable {env : Surroundings (Scheduled β)} {s s₀ u : TimerCaller (Scheduled β)} {number : ℕ}

/-- The new timer comes after all that wait, where none of them stands before the one that runs. -/
lemma setTerminationAtEnd_ahead (hinv : s.Inv)
    (hlt : ∀ e ∈ s.timers, e = .sentinel ∨ e.when < timePointMax) (hactive : s.shutdown_ = false)
    (hsentinel : .sentinel ∈ s.timers) (hfirst : ∀ it ∈ s.place.it?, ∀ e ∈ s.timers, ¬e.Before it)
    (hmore : s.timers.length ≠ 1) (hset : s.setTerminationAtEnd = some s₀) : s₀.Inv ∧
      ∃ front, s.timers = front ++ [.sentinel] ∧ Ahead front s.added.length s₀ := by
  obtain ⟨front,hlist⟩ := hinv.sentinel_last hlt hsentinel
  rw [setTerminationAtEnd,if_neg hmore,hlist,List.dropLast_concat] at hset
  obtain ⟨last,hlast,rfl⟩ := Option.map_eq_some_iff.1 hset
  obtain ⟨init,rfl⟩ := List.getLast?_eq_some_iff.1 hlast
  refine ⟨hinv.addTimer _,init ++ [last],hlist,?_,?_,?_⟩
  · simp [addTimer]
  · intro e he
    have hmem : e ∈ s.timers := by
      rw [hlist]
      exact List.mem_append_left _ he
    refine .inr ⟨mem_insertDue_of_mem hmem,?_,fun it hit => hfirst it hit e hmem⟩
    intro d hd hnumber
    rcases mem_insertDue hd with rfl | hold
    · have hsorted := hinv.sorted
      rw [hlist] at hsorted
      have hcross := (List.pairwise_append.1 (List.pairwise_append.1 hsorted).1).2.2
      have hle : e.when ≤ last.when := by
        rcases List.mem_append.1 he with hi | hl
        · exact (hcross e hi last (List.mem_singleton_self _)).le
        · exact (congrArg Entry.when (List.mem_singleton.1 hl)).le
      exact hle.lt_or_eq.imp_right (fun heq => ⟨heq,hinv.number_lt hmem⟩)
    · exact absurd hnumber (hinv.number_lt hold).ne
  · intro hshut
    exact absurd (hactive.symm.trans hshut) Bool.false_ne_true

lemma Later.inv (h : Later env number s₀ u) (hinv : s₀.Inv) : u.Inv := by
  induction h with
  | start => exact hinv
  | step _ hstep ih => exact ih.step hstep
  | active _ ih => exact ⟨ih.sorted,ih.known,ih.current⟩
  | shutdown it now toAdd _ _ _ ih => exact ⟨ih.sorted,ih.known,ih.current⟩

lemma Later.ahead {waited : List (Entry (Scheduled β))} (h : Later env number s₀ u)
    (hinv : s₀.Inv) (hahead : Ahead waited number s₀) : Ahead waited number u := by
  induction h with
  | start => exact hahead
  | step hlater hstep ih => exact ih.step (hlater.inv hinv) hstep
  | active _ ih => exact ⟨ih.given,ih.waiting,nofun⟩
  | shutdown it now toAdd hlater hplace hnumber ih =>
    exact ih.shutdown (hlater.inv hinv) hplace hnumber

/-- Where the list has its sentinel and no timer waits before the one that runs, all that the list
holds when `SetTerminationAtEnd` is called have been called by the time that the caller is shut
down. -/
theorem setTerminationAtEnd_waits (hrun : Run env new s) (hactive : s.shutdown_ = false)
    (hsentinel : .sentinel ∈ s.timers) (hfirst : ∀ it ∈ s.place.it?, ∀ e ∈ s.timers, ¬e.Before it)
    (hset : s.setTerminationAtEnd = some s₀) (hlater : Later env s.added.length s₀ u)
    (hshut : u.shutdown_ = true) : ∀ e ∈ s.timers, e ≠ .sentinel → e ∈ u.executed.map Prod.fst := by
  intro e he hne
  by_cases hone : s.timers.length = 1
  · obtain ⟨d,hlist⟩ := List.length_eq_one_iff.1 hone
    rw [hlist] at he hsentinel
    exact absurd ((List.mem_singleton.1 he).trans (List.mem_singleton.1 hsentinel).symm) hne
  · obtain ⟨hinv,front,hlist,hahead⟩ := setTerminationAtEnd_ahead (hrun.inv inv_new) hrun.when_lt
      hactive hsentinel hfirst hone hset
    rw [hlist] at he
    have hfront : e ∈ front := (List.mem_append.1 he).resolve_right
      (fun hlast => hne (List.mem_singleton.1 hlast))
    exact (hlater.ahead hinv hahead).shut hshut e hfront

end calls

/-- Two timers wait, and after `SetTerminationAtEnd` one is added before it and one after it. -/
theorem setTerminationAtEnd_waits_outside : ∃ u : TimerCaller (Scheduled (Timer Unit)),
    u.shutdown_ = true ∧ ⟨1,.timer (once 5)⟩ ∈ u.executed.map Prod.fst ∧
      ⟨2,.timer (once 8)⟩ ∈ u.executed.map Prod.fst ∧
      u.timers.map Entry.timer = [.termination 8,.timer (once 9),Timed.sentinel] := by
  let given : TimerCaller (Scheduled (Timer Unit)) :=
    addTimer (addTimer { new with shutdown_ := false } (.timer (once 5))) (.timer (once 8))
  have r0 : Run anything (new : TimerCaller (Scheduled (Timer Unit))) new := .start
  have r1 := (r0.flag false).step (.add (.timer (once 5)) rfl trivial (by decide : (5 : ℤ) < _))
  have r2 : Run anything new given :=
    r1.step (.add (Scheduled.timer (once 8)) rfl trivial (by decide : (8 : ℤ) < _))
  have hlast : (⟨0,Timed.sentinel⟩ : Entry (Scheduled (Timer Unit))) ∈ given.timers :=
    List.mem_of_getLast? rfl
  have l0 : Later anything 3 (addTimer given (.termination 8)) _ := .start
  have l1 := l0.step (.add (.timer (once 3)) rfl trivial (by decide : (3 : ℤ) < _))
  have l2 := l1.step (.add (.timer (once 9)) rfl trivial (by decide : (9 : ℤ) < _))
  have hnow : anything.reading (β := Scheduled (Timer Unit)) 10 := (by decide : (10 : ℤ) < _)
  have l3 := l2.step (.begin rfl)
  have l4 := (l3.step (.call ⟨4,.timer (once 3)⟩ 10 [] rfl hnow (by decide) rfl trivial)).step
    (.erase _ 10 rfl)
  have l5 := (l4.step (.call ⟨1,.timer (once 5)⟩ 10 [] rfl hnow (by decide) rfl trivial)).step
    (.erase _ 10 rfl)
  have l6 := (l5.step (.call ⟨2,.timer (once 8)⟩ 10 [] rfl hnow (by decide) rfl trivial)).step
    (.erase _ 10 rfl)
  have l7 := l6.step (.call ⟨3,.termination 8⟩ 10 [] rfl hnow (by decide) rfl trivial)
  have l8 := l7.shutdown _ 10 [] rfl rfl
  have hall := setTerminationAtEnd_waits r2 rfl hlast nofun rfl l8 rfl
  have hnumber : ∀ {n : ℕ} {t : Scheduled (Timer Unit)}, n ≠ 0 →
      (⟨n,t⟩ : Entry (Scheduled (Timer Unit))) ≠ .sentinel :=
    fun hne heq => hne (congrArg Entry.number heq)
  exact ⟨_,rfl,hall _ List.mem_cons_self (hnumber (by decide)),
    hall _ (List.mem_cons_of_mem _ List.mem_cons_self) (hnumber (by decide)),rfl⟩

/-- A timer due at 5 adds one that is due at 3 and calls `SetTerminationAtEnd`. The same `Tick` goes
on with the termination, and the timer due at 3 is not called before the caller is shut down. -/
theorem termination_overtakes : ∃ (s s₀ u : TimerCaller (Scheduled (Timer Unit)))
    (e : Entry (Scheduled (Timer Unit))), Run anything new s ∧ s.shutdown_ = false ∧
    .sentinel ∈ s.timers ∧ e ∈ s.timers ∧ e ≠ .sentinel ∧ s.setTerminationAtEnd = some s₀ ∧
    Later anything s.added.length s₀ u ∧ u.shutdown_ = true ∧ e ∉ u.executed.map Prod.fst := by
  let due : Entry (Scheduled (Timer Unit)) := ⟨1,.timer (once 5)⟩
  let early : Entry (Scheduled (Timer Unit)) := ⟨2,.timer (once 3)⟩
  let busy : TimerCaller (Scheduled (Timer Unit)) :=
    { timers := [early,due,.sentinel]
      shutdown_ := false
      place := .calling due 10 []
      added := [Timed.sentinel,due.timer,early.timer] }
  have r0 : Run anything (new : TimerCaller (Scheduled (Timer Unit))) new := .start
  have r1 := (r0.flag false).step (.add due.timer rfl trivial (by decide : (5 : ℤ) < _))
  have r2 := r1.step (.begin rfl)
  have r3 := r2.step (.call due 10 [early.timer] rfl (by decide : (10 : ℤ) < _) (by decide) rfl
    trivial)
  have r4 : Run anything new busy :=
    r3.step (.addInCall due 10 early.timer [] rfl (by decide : (3 : ℤ) < _))
  have l0 : Later anything 3 (busy.addTimer (.termination 5)) _ := .start
  have l1 := l0.step (.erase due 10 rfl)
  have l2 := l1.step (.call ⟨3,.termination 5⟩ 10 [] rfl (by decide : (10 : ℤ) < _) (by decide) rfl
    trivial)
  have l3 := l2.shutdown _ 10 [] rfl rfl
  have hnumber : ∀ {d e : Entry (Scheduled (Timer Unit))}, d.number ≠ e.number → d ≠ e :=
    fun hne heq => hne (congrArg Entry.number heq)
  refine ⟨busy,_,_,early,r4,rfl,?_,List.mem_cons_self,hnumber (by decide),rfl,l3,rfl,?_⟩
  · exact List.mem_of_getLast? rfl
  · intro hcalled
    exact hnumber (by decide) (List.mem_singleton.1 hcalled)

end TimerCaller
end GDFileStore
