import GDFileStore.Timers.Caller

/-! What holds of the timers of a `TimerCaller` at every moment, while the clock shows times before
`time_point::max()`. -/
namespace GDFileStore
open Sequences

namespace TimerCaller
variable {β : Type*} [Timed β]

/-- The calls made so far and the one under way, in the order in which they began. -/
def calls (s : TimerCaller β) : List (Entry β × ℤ) := s.executed ++ s.place.call?.toList

/-- The number of the timer that runs. -/
def executing (s : TimerCaller β) : List ℕ := s.place.call?.toList.map (fun c => c.1.number)

/-- The numbers in the list, without the one that runs. -/
def pending (s : TimerCaller β) : List ℕ :=
  (s.timers.map Entry.number).filter (fun n => n ∉ s.executing)

/-- A call comes after the calls of all timers that were added before for the same time. -/
def InTurn (added : List β) (calls : List (Entry β × ℤ)) : Prop :=
  ∀ before c after, calls = before ++ c::after → ∀ i t, i < c.1.number → added[i]? = some t →
    Timed.when t = c.1.when → i ∈ before.map (fun d => d.1.number)

/-- The list is sorted with the sentinel last; each timer that was added, the sentinel among them,
is in one place and once; none is called before its time, and those for one time are called in the
order in which they were added. -/
structure Orderly (s : TimerCaller β) : Prop where
  last : ∃ front, s.timers = front ++ [.sentinel]
  sorted : s.timers.Pairwise (fun d e => d.when ≤ e.when)
  known : ∀ e, e ∈ s.timers ∨ e ∈ s.calls.map Prod.fst → s.added[e.number]? = some e.timer
  placed : (s.pending ++ s.executing ++ s.executed.map (fun c => c.1.number)).Perm
    (List.range s.added.length)
  on_time : ∀ c ∈ s.calls, c.1.when ≤ c.2
  in_turn : InTurn s.added s.calls

/-- The times of timers and the readings of the clock are before `time_point::max()`. -/
def anything : Surroundings β where
  adds := fun _ => True
  does := fun _ _ => True
  time := fun when => when < timePointMax
  reading := fun now => now < timePointMax

/-- The list and the calls, with the readings of the clock before `time_point::max()`. -/
structure Tracked (s : TimerCaller β) : Prop where
  last : ∃ front, s.timers = front ++ [.sentinel]
  known : ∀ c ∈ s.calls, s.added[c.1.number]? = some c.1.timer
  placed : (s.timers.map Entry.number ++ s.executed.map (fun c => c.1.number)).Perm
    (List.range s.added.length)
  on_time : ∀ c ∈ s.calls, c.1.when ≤ c.2
  readings : ∀ c ∈ s.calls, c.2 < timePointMax
  in_turn : InTurn s.added s.calls

lemma inTurn_concat {added : List β} {calls : List (Entry β × ℤ)} {c : Entry β × ℤ}
    (h : InTurn added calls) (hc : ∀ i t, i < c.1.number → added[i]? = some t →
      Timed.when t = c.1.when → i ∈ calls.map (fun d => d.1.number)) :
    InTurn added (calls ++ [c]) := by
  intro before d after hsplit
  rcases List.eq_nil_or_concat' after with rfl | ⟨rest,last,rfl⟩
  · obtain ⟨rfl,hlast⟩ := List.append_inj' hsplit rfl
    obtain rfl := List.singleton_inj.1 hlast
    exact hc
  · rw [← List.cons_append,← List.append_assoc] at hsplit
    obtain ⟨rfl,-⟩ := List.append_inj' hsplit rfl
    exact h before d rest rfl

lemma InTurn.addTimer {added : List β} {calls : List (Entry β × ℤ)} (h : InTurn added calls)
    (hknown : ∀ c ∈ calls, c.1.number < added.length) (t : β) : InTurn (added ++ [t]) calls := by
  intro before c after hsplit i u hi hu
  have hlt := hknown c (by simp [hsplit])
  rw [List.getElem?_append_left (hi.trans hlt)] at hu
  exact h before c after hsplit i u hi hu

namespace Tracked
variable {s : TimerCaller β}

lemma of_eq {s' : TimerCaller β} (h : s.Tracked) (htimers : s'.timers = s.timers)
    (hadded : s'.added = s.added) (hexecuted : s'.executed = s.executed)
    (hcalls : s'.calls = s.calls) : s'.Tracked := by
  obtain ⟨hlast,hknown,hplaced,htime,hreadings,hturn⟩ := h
  constructor
  · rwa [htimers]
  · rwa [hcalls,hadded]
  · rwa [htimers,hexecuted,hadded]
  · rwa [hcalls]
  · rwa [hcalls]
  · rwa [hcalls,hadded]

lemma addTimer (h : s.Tracked) {t : β} (ht : Timed.when t < timePointMax) :
    (s.addTimer t).Tracked := by
  obtain ⟨front,hlist⟩ := h.last
  have hsentinel : Entry.when (⟨s.added.length,t⟩ : Entry β) <
      Entry.when (.sentinel : Entry β) := by
    rw [Entry.when,Entry.when,Entry.sentinel,Timed.when_sentinel]
    exact ht
  obtain ⟨front',heq,hperm⟩ := insertDue_concat (l := front) hsentinel
  have htimers : (s.addTimer t).timers = front' ++ [.sentinel] := by
    rw [TimerCaller.addTimer,hlist,heq]
  have hlt : ∀ c ∈ s.calls, c.1.number < s.added.length := fun c hc =>
    (List.getElem?_eq_some_iff.1 (h.known c hc)).1
  constructor
  · exact ⟨front',htimers⟩
  · intro c hc
    exact (List.getElem?_append_left (hlt c hc)).trans (h.known c hc)
  · have hnumbers : ((s.addTimer t).timers.map Entry.number).Perm
        (s.added.length::s.timers.map Entry.number) := by
      rw [htimers,hlist]
      exact (hperm.append_right [.sentinel]).map Entry.number
    have hrange : List.range (s.addTimer t).added.length =
        List.range s.added.length ++ [s.added.length] := by
      rw [TimerCaller.addTimer,List.length_append,List.length_singleton,List.range_succ]
    rw [hrange]
    refine (hnumbers.append_right _).trans ?_
    exact (h.placed.cons s.added.length).trans (List.perm_append_singleton _ _).symm
  · exact h.on_time
  · exact h.readings
  · exact h.in_turn.addTimer hlt t

lemma call (h : s.Tracked) (hinv : s.Inv) {it : Entry β} {now : ℤ} (toAdd : List β)
    (hplace : s.place = .turn (some it)) (hnow : now < timePointMax) (hdue : it.when ≤ now) :
    Tracked { s with place := .calling it now toAdd } := by
  obtain ⟨hmem,hfirst⟩ := hinv.current it (by rw [hplace]; rfl)
  have hbefore : s.calls = s.executed := by
    rw [calls,hplace]
    exact List.append_nil _
  obtain ⟨hlast,hknown,hplaced,htime,hreadings,hturn⟩ := h
  rw [hbefore] at hknown htime hreadings hturn
  have hall : ∀ {P : Entry β × ℤ → Prop}, (∀ c ∈ s.executed, P c) → P (it,now) →
      ∀ c ∈ s.executed ++ [(it,now)], P c := by
    intro P hold hnew c hc
    rcases List.mem_append.1 hc with hm | hm
    · exact hold c hm
    · exact List.mem_singleton.1 hm ▸ hnew
  refine ⟨hlast,hall hknown (hinv.known it hmem),hplaced,hall htime hdue,hall hreadings hnow,?_⟩
  refine inTurn_concat hturn ?_
  -- A timer for the same time that came before is not in the list any more.
  intro i t hi ht hwhen
  have hrange : i ∈ List.range s.added.length :=
    List.mem_range.2 (List.getElem?_eq_some_iff.1 ht).1
  rcases List.mem_append.1 (hplaced.mem_iff.2 hrange) with hlist | hexecuted
  · obtain ⟨e,he,rfl⟩ := List.mem_map.1 hlist
    have htimer : e.timer = t := Option.some.inj ((hinv.known e he).symm.trans ht)
    have hle := hfirst e he (by rw [Entry.when,htimer,hwhen])
    exact absurd hi (not_lt.2 hle)
  · exact hexecuted

lemma erase (h : s.Tracked) (hinv : s.Inv) {it : Entry β} {now : ℤ}
    (hplace : s.place = .calling it now []) : Tracked { s with
      timers := TimerCaller.erase it s.timers
      place := .turn (next it s.timers)
      executed := s.executed ++ [(it,now)] } := by
  have hcalls : s.calls = s.executed ++ [(it,now)] := by
    rw [calls,hplace]
    rfl
  have hcall : (it,now) ∈ s.calls := by
    rw [hcalls]
    exact List.mem_append_right _ (List.mem_singleton_self _)
  obtain ⟨front,back,hsplit,herase,-⟩ := hinv.split (hinv.current it (by rw [hplace]; rfl)).1
  obtain ⟨hlast,hknown,hplaced,htime,hreadings,hturn⟩ := h
  -- The timer that ran is due before the sentinel.
  have hsentinel : it ≠ .sentinel := by
    rintro rfl
    have hdue := htime _ hcall
    have hnow := hreadings _ hcall
    rw [Entry.when,Entry.sentinel,Timed.when_sentinel] at hdue
    exact absurd hdue (not_le.2 hnow)
  rw [hcalls] at hknown htime hreadings hturn
  have hsame : ∀ timers, TimerCaller.calls { s with
      timers := timers
      place := .turn (next it s.timers)
      executed := s.executed ++ [(it,now)] } = s.executed ++ [(it,now)] :=
    fun _ => List.append_nil _
  refine ⟨?_,?_,?_,?_,?_,?_⟩
  · obtain ⟨start,hlist⟩ := hlast
    dsimp only
    rw [herase]
    rcases List.eq_nil_or_concat' back with rfl | ⟨rest,last,rfl⟩
    · obtain ⟨-,hit⟩ := List.append_inj' (hsplit.symm.trans hlist) rfl
      exact absurd (List.singleton_inj.1 hit) hsentinel
    · rw [hsplit,← List.cons_append,← List.append_assoc] at hlist
      obtain ⟨-,hend⟩ := List.append_inj' hlist rfl
      exact ⟨front ++ rest,by rw [hend,List.append_assoc]⟩
  · rw [hsame]
    exact hknown
  · dsimp only
    rw [herase]
    refine List.Perm.trans ?_ hplaced
    simp only [hsplit,List.map_append,List.map_cons,List.map_nil,List.append_assoc]
    apply List.Perm.append_left
    rw [← List.append_assoc]
    exact List.perm_append_singleton _ _
  · rw [hsame]
    exact htime
  · rw [hsame]
    exact hreadings
  · rw [hsame]
    exact hturn

theorem step {s' : TimerCaller β} (h : s.Tracked) (hinv : s.Inv) (hstep : Step anything s s') :
    s'.Tracked := by
  cases hstep with
  | add t _ _ ht => exact h.addTimer ht
  | addInCall it now t toAdd hplace ht =>
    refine (h.addTimer ht).of_eq rfl rfl rfl ?_
    rw [calls,calls,TimerCaller.addTimer,hplace]
    rfl
  | begin hplace =>
    refine h.of_eq rfl rfl rfl ?_
    rw [calls,calls,hplace]
    rfl
  | call it now toAdd hplace hnow hdue _ _ => exact h.call hinv toAdd hplace hnow hdue
  | erase it now hplace => exact h.erase hinv hplace
  | stop it now hplace _ _ =>
    refine h.of_eq rfl rfl rfl ?_
    rw [calls,calls,hplace]
    rfl
  | atEnd hplace =>
    refine h.of_eq rfl rfl rfl ?_
    rw [calls,calls,hplace]
    rfl

/-- The list consists of what is pending and of the timer that runs. -/
lemma pending_executing (hinv : s.Inv) :
    (s.pending ++ s.executing).Perm (s.timers.map Entry.number) := by
  cases hcall : s.place.call? with
  | none =>
    have hnone : s.executing = [] := by
      rw [executing,hcall]
      rfl
    rw [pending,hnone,List.append_nil]
    exact .of_eq (List.filter_eq_self.2 (by simp))
  | some c =>
    obtain ⟨it,now⟩ := c
    have hit : s.place.it? = some it := by
      cases hplace : s.place with
      | calling it' now' toAdd =>
        rw [hplace] at hcall
        cases hcall
        rfl
      | outside => simp [hplace,TickPlace.call?] at hcall
      | turn next => simp [hplace,TickPlace.call?] at hcall
    have hone : s.executing = [it.number] := by
      rw [executing,hcall]
      rfl
    have hmem : it.number ∈ s.timers.map Entry.number :=
      List.mem_map_of_mem (hinv.current it hit).1
    have herase : s.pending = (s.timers.map Entry.number).erase it.number := by
      rw [pending,hone,hinv.numbers_nodup.erase_eq_filter]
      apply List.filter_congr
      intro n _
      by_cases hn : n = it.number <;> simp [hn]
    rw [herase,hone]
    exact (List.perm_append_singleton _ _).trans (List.perm_cons_erase hmem).symm

theorem orderly (h : s.Tracked) (hinv : s.Inv) : s.Orderly where
  last := h.last
  sorted := hinv.sorted.imp (fun hbefore => hbefore.le)
  known := by
    rintro e (he | he)
    · exact hinv.known e he
    · obtain ⟨c,hc,rfl⟩ := List.mem_map.1 he
      exact h.known c hc
  placed := ((pending_executing hinv).append_right _).trans h.placed
  on_time := h.on_time
  in_turn := h.in_turn

end Tracked

lemma tracked_new : (new : TimerCaller β).Tracked where
  last := ⟨[],rfl⟩
  known := nofun
  placed := .refl _
  on_time := nofun
  readings := nofun
  in_turn := by
    intro before c after hsplit
    exact absurd hsplit (by simp [calls,new,TickPlace.call?])

lemma run_tracked {s : TimerCaller β} (h : Run anything new s) : s.Tracked := by
  induction h with
  | start => exact tracked_new
  | step hrun hstep ih => exact ih.step (hrun.inv inv_new) hstep
  | flag _ _ ih => exact ih.of_eq rfl rfl rfl rfl

/-- However timers are added, from outside and by tasks, and whatever the clock shows before
`time_point::max()`: the list and the calls are in order at every moment. -/
theorem run_orderly {s : TimerCaller β} (h : Run anything new s) : s.Orderly :=
  (run_tracked h).orderly (h.inv inv_new)

/-- A timer without repetitions. -/
def once (when : ℤ) : Timer Unit := { task := some (), when := when }

/-- A timer due at 5 adds two others, one due before it and one due at the same time. The `Tick`
goes on with the second, and leaves the first to the next `Tick`. -/
theorem run_orderly_added_in_call : ∃ s : TimerCaller (Timer Unit), s.Orderly ∧
    s.executed.map (fun c => c.1.number) = [1,3] ∧ s.pending = [2,0] := by
  have r0 : Run anything (new : TimerCaller (Timer Unit)) new := .start
  have r1 := r0.flag false
  have r2 := r1.step (.add (once 5) rfl trivial (by decide : (5 : ℤ) < _))
  have r3 := r2.step (.begin rfl)
  have r4 := r3.step (.call ⟨1,once 5⟩ 10 [once 3,once 5] rfl (by decide : (10 : ℤ) < _) (by decide)
    rfl trivial)
  have r5 := r4.step (.addInCall _ 10 (once 3) _ rfl (by decide : (3 : ℤ) < _))
  have r6 := r5.step (.addInCall _ 10 (once 5) _ rfl (by decide : (5 : ℤ) < _))
  have r7 := r6.step (.erase _ 10 rfl)
  have r8 := r7.step (.call ⟨3,once 5⟩ 10 [] rfl (by decide : (10 : ℤ) < _) (by decide) rfl trivial)
  have r9 := r8.step (.erase _ 10 rfl)
  have r10 := r9.step (.stop .sentinel 10 rfl (by decide : (10 : ℤ) < _) (by decide))
  exact ⟨_,run_orderly r10,rfl,rfl⟩

/-- A `Tick` that reads `time_point::max()` calls the sentinel and takes it out of the list. -/
theorem sentinel_called : ∃ s : TimerCaller (Timer Unit),
    Run { anything with reading := fun _ => True } new s ∧ ¬s.Orderly := by
  have r0 : Run { anything with reading := fun _ => True } (new : TimerCaller (Timer Unit))
      new := .start
  have r1 := r0.flag false
  have r2 := r1.step (.begin rfl)
  have r3 := r2.step (.call .sentinel timePointMax [] rfl trivial (by decide) rfl trivial)
  have r4 := r3.step (.erase _ timePointMax rfl)
  refine ⟨_,r4,?_⟩
  intro h
  obtain ⟨front,hlist⟩ := h.last
  exact List.append_ne_nil_of_right_ne_nil front (List.cons_ne_nil _ _) hlist.symm

end TimerCaller
end GDFileStore
