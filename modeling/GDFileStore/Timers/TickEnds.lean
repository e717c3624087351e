import GDFileStore.Timers.Repeats
import Mathlib.Algebra.Order.BigOperators.Group.List

/-! A `Tick` whose calls add repeating timers ends, and once only the sentinel is left each timer has
been called as often as it was to be. -/
namespace GDFileStore
open Sequences

namespace TimerCaller

/-- The `Tick` that is under way ends: each of its steps can be taken whatever the clock shows, and
there are finitely many of them, whatever `active` and `shutdown` do in between. -/
inductive Ends {β : Type*} [Timed β] (env : Surroundings β) : TimerCaller β → Prop
  | outside {s : TimerCaller β} : s.place = .outside → Ends env s
  | inside {s : TimerCaller β} :
      (∀ (shutdown : Bool) (now : ℤ), env.reading now → ∃ s',
        Step { env with reading := fun t => t = now } { s with shutdown_ := shutdown } s') →
      (∀ (shutdown : Bool) (s' : TimerCaller β),
        Step env { s with shutdown_ := shutdown } s' → Ends env s') → Ends env s

variable {τ α : Type*}

/-- What a timer and those that its calls add still cost a `Tick`, each at most three steps. -/
def effort (t : UserTimer τ α) : ℕ := 3*((t.repeatation-1).toNat+1)

/-- The steps before the place of the loop's test. -/
def toTest : TickPlace (UserTimer τ α) → ℕ
  | .outside => 0
  | .turn _ => 1
  | .calling _ _ toAdd => toAdd.length+2

def work (s : TimerCaller (UserTimer τ α)) : ℕ := (s.waiting.map effort).sum + toTest s.place

variable {rs : List (Repeat τ α)} {s s' : TimerCaller (UserTimer τ α)}

/-- A call costs more than what it adds. -/
lemma effort_adds (hin : ∀ r ∈ rs, r.InTime) {t : UserTimer τ α} (h : t = Timed.sentinel ∨ IsCopy rs t) :
    (t.adds.map effort).sum + t.adds.length + 2 ≤ effort t := by
  rcases h with rfl | ⟨k,r,j,hr,-,rfl⟩
  · exact (by decide : 0 + 0 + 2 ≤ 3*((1-1 : ℤ).toNat+1))
  · rw [Repeat.nth_adds (hin r (List.mem_of_getElem? hr))]
    split
    · next hmore =>
      rw [Repeat.calls] at hmore
      simp only [effort,Repeat.nth,List.map_cons,List.map_nil,List.sum_singleton,
        List.length_singleton]
      omega
    · simp only [effort,List.map_nil,List.sum_nil,List.length_nil]
      omega

/-- Whatever the clock shows, a `Tick` that is under way goes on. -/
lemma exists_step (hplace : s.place ≠ .outside) (now : ℤ) :
    ∃ s', Step (repeats (fun t => t = now)) s s' := by
  cases hat : s.place with
  | outside => exact absurd hat hplace
  | turn it =>
    cases it with
    | none => exact ⟨_,.atEnd hat⟩
    | some it =>
      by_cases hdue : it.when ≤ now ∧ s.shutdown_ = false
      · exact ⟨_,.call it now it.timer.adds hat rfl hdue.1 hdue.2 rfl⟩
      · exact ⟨_,.stop it now hat rfl hdue⟩
  | calling it then_ toAdd =>
    cases toAdd with
    | nil => exact ⟨_,.erase it then_ hat⟩
    | cons t toAdd => exact ⟨_,.addInCall it then_ t toAdd hat trivial⟩

namespace RepeatInv

/-- Each step of a `Tick` takes something off its work. -/
theorem work_lt {reading : ℤ → Prop} (hin : ∀ r ∈ rs, r.InTime) (h : RepeatInv rs s) (hinv : s.Inv)
    (hplace : s.place ≠ .outside) (hstep : Step (repeats reading) s s') : s'.work < s.work := by
  cases hstep with
  | add t hout _ _ => exact absurd hout hplace
  | begin hout => exact absurd hout hplace
  | addInCall it now t toAdd hcalling _ =>
    have hle : ((waiting { s.addTimer t with place := .calling it now toAdd }).map effort).sum ≤
        (s.waiting.map effort).sum := by
      rcases hinv.waiting_addInCall hcalling with ⟨-,hwaiting⟩ | ⟨-,hwaiting⟩
      · exact (hwaiting.map effort).sum_eq.le
      · rw [← (hwaiting.map effort).sum_eq,List.map_cons,List.sum_cons]
        exact Nat.le_add_left _ _
    have hless : toTest (.calling it now toAdd) < toTest s.place := by
      rw [hcalling]
      exact Nat.lt_succ_self _
    exact Nat.add_lt_add_of_le_of_lt hle hless
  | call it now toAdd hturn _ _ _ hdoes =>
    obtain rfl : toAdd = it.timer.adds := hdoes
    obtain ⟨others,hwaiting,hnew⟩ : ∃ others : List (UserTimer τ α),
        s.waiting.Perm (it.timer::others) ∧
          waiting { s with place := .calling it now it.timer.adds } = others ++ it.timer.adds :=
      hinv.waiting_call hturn
    have heffort := effort_adds hin (h.copies it.timer (hwaiting.mem_iff.2 List.mem_cons_self))
    rw [work,work,hnew,(hwaiting.map effort).sum_eq,hturn,List.map_append,List.sum_append,
      List.map_cons,List.sum_cons,toTest,toTest]
    omega
  | erase it now hcalling =>
    have hsame : (TimerCaller.erase it s.timers).map Entry.timer = s.waiting := by
      rw [waiting_calling hcalling,List.append_nil]
    rw [work,work,waiting_of_call?_none rfl,hsame,hcalling]
    exact Nat.lt_succ_self _
  | stop it now hturn _ _ =>
    rw [work,work,waiting_of_call?_none rfl,waiting_of_call?_none (by rw [hturn]; rfl),hturn]
    exact Nat.lt_succ_self _
  | atEnd hturn =>
    rw [work,work,waiting_of_call?_none rfl,waiting_of_call?_none (by rw [hturn]; rfl),hturn]
    exact Nat.lt_succ_self _

lemma flag (h : RepeatInv rs s) (shutdown : Bool) : RepeatInv rs { s with shutdown_ := shutdown } :=
  ⟨h.copies,h.toAdd,h.made⟩

/-- A `Tick` that is under way ends. -/
theorem ends (hin : ∀ r ∈ rs, r.InTime) (h : RepeatInv rs s) (hinv : s.Inv) :
    Ends (repeats (fun _ => True)) s := by
  induction hn : s.work using Nat.strong_induction_on generalizing s with
  | h n ih =>
    by_cases hplace : s.place = .outside
    · exact .outside hplace
    · refine .inside (fun shutdown now _ =>
        exists_step (s := { s with shutdown_ := shutdown }) hplace now) ?_
      intro shutdown s' hstep
      have hflag : Inv { s with shutdown_ := shutdown } := ⟨hinv.sorted,hinv.known,hinv.current⟩
      have hlt := (h.flag shutdown).work_lt hin hflag hplace hstep
      exact ih _ (hn ▸ hlt) ((h.flag shutdown).step hin hflag hstep) (hflag.step hstep) rfl

end RepeatInv
/-- The added timers are in the list, each for the first of its calls. -/
lemma start_spec (hin : ∀ r ∈ rs, r.InTime) : (start rs).Inv ∧ RepeatInv rs (start rs) := by
  have hlt : ∀ t ∈ rs.zipIdx.map (fun p => p.1.timer p.2), IsCopy rs t := by
    intro t ht
    obtain ⟨p,hp,rfl⟩ := List.mem_map.1 ht
    refine ⟨p.2,p.1,0,List.mem_zipIdx_iff_getElem?.1 hp,?_,(p.1.nth_zero p.2).symm⟩
    rw [Repeat.calls]
    omega
  have hnew : Inv { (new : TimerCaller (UserTimer τ α)) with shutdown_ := false } :=
    ⟨inv_new.sorted,inv_new.known,inv_new.current⟩
  obtain ⟨hinv,hplace,hexecuted,hperm⟩ := foldl_addTimer
    (fun t ht => (hlt t ht).when_lt hin) hnew ⟨.sentinel,List.mem_singleton_self _,le_rfl⟩
  have hcall : (start rs).place.call? = none := by
    rw [start,hplace]
    rfl
  have hwaiting : (start rs).waiting.Perm
      (rs.zipIdx.map (fun p => p.1.timer p.2) ++ [Timed.sentinel]) := by
    rw [waiting_of_call?_none hcall]
    exact hperm
  refine ⟨hinv,?_,?_,?_⟩
  · intro t ht
    rcases List.mem_append.1 (hwaiting.mem_iff.1 ht) with hm | hm
    · exact .inr (hlt t hm)
    · exact .inl (List.mem_singleton.1 hm)
  · intro it now toAdd hcalling
    rw [hcalling] at hcall
    cases hcall
  · intro _ k r hr
    have hcalls : 0 < r.calls := by
      rw [Repeat.calls]
      omega
    refine ⟨0,Nat.zero_le _,?_,?_⟩
    · have hnone : (start rs).executed = [] := hexecuted
      rw [calls_of_call?_none hcall,hnone]
      rfl
    · refine RepeatInv.filter_perm hwaiting ?_
      have hfirst := filter_timers hr 0
      rw [Nat.zero_add] at hfirst
      rw [if_pos hcalls,List.filter_append,hfirst,r.nth_zero]
      rfl

lemma run_spec (hin : ∀ r ∈ rs, r.InTime)
    (h : Run (repeats (fun _ => True)) (start rs) s) : s.Inv ∧ RepeatInv rs s := by
  have hinv := h.inv (start_spec hin).1
  refine ⟨hinv,?_⟩
  clear hinv
  induction h with
  | start => exact (start_spec hin).2
  | step hrun hstep ih => exact ih.step hin (hrun.inv (start_spec hin).1) hstep
  | flag shutdown _ ih => exact ih.flag shutdown

/-- Where only the sentinel is left, each timer has run what it was to run. -/
lemma RepeatInv.ran_eq (h : RepeatInv rs s) (hplace : s.place = .outside)
    (hlast : s.timers = [.sentinel]) {k : ℕ} {r : Repeat τ α} (hr : rs[k]? = some r) :
    s.ran k = r.runs := by
  have hcall : s.place.call? = none := by rw [hplace]; rfl
  obtain ⟨j,hj,hmade,hwait⟩ := h.made
    ⟨.sentinel,by rw [hlast]; exact List.mem_singleton_self _,le_rfl⟩ k r hr
  have hall : j = r.calls := by
    by_contra hne
    rw [if_pos (by omega),waiting_of_call?_none hcall,hlast] at hwait
    cases hwait
  rw [calls_of_call?_none hcall,List.filter_map,hall] at hmade
  calc s.ran k = ((s.executed.filter (fun c => c.1.timer.origin = some k)).map
        (fun c => c.1.timer)).flatMap UserTimer.runs := by rw [ran,List.flatMap_map]
    _ = ((List.range r.calls).map (r.nth k)).flatMap UserTimer.runs := by
      rw [← hmade]
      rfl
    _ = r.runs := by
      rw [List.flatMap_map,Repeat.runs]
      exact congrArg (fun f => (List.range r.calls).flatMap f) (funext (r.nth_runs k))

/-- Repeating timers in an active caller: every `Tick` ends, and after those that leave only the
sentinel, each timer has been called as often as it was to be, at the times that it was to be. -/
theorem run_repeats (hin : ∀ r ∈ rs, r.InTime)
    (h : Run (repeats (fun _ => True)) (start rs) s) : Ends (repeats (fun _ => True)) s ∧
    (s.place = .outside → s.timers = [.sentinel] → ∀ k r, rs[k]? = some r → s.ran k = r.runs) := by
  obtain ⟨hinv,hrepeat⟩ := run_spec hin h
  exact ⟨hrepeat.ends hin hinv,fun hplace hlast k r hr => hrepeat.ran_eq hplace hlast hr⟩

/-- A timer with two calls and one that is not repeated are called in one `Tick`. -/
theorem run_repeats_twice : ∃ s : TimerCaller (UserTimer Unit Unit),
    Ends (repeats (fun _ => True)) s ∧
    s.ran 0 = [.task () 5,.afterTask () 2,.task () 7,.afterTask () 1] ∧ s.ran 1 = [.task () 6] := by
  let twice : Repeat Unit Unit := ⟨some (),5,2,2,some ()⟩
  let single : Repeat Unit Unit := ⟨some (),6,0,0,none⟩
  have hin : ∀ r ∈ [twice,single], r.InTime := by decide
  have r0 : Run (repeats (fun _ => True)) (start [twice,single]) _ := .start
  have r1 := r0.step (.begin rfl)
  have r2 := r1.step (.call ⟨1,twice.nth 0 0⟩ 10 [twice.nth 0 1] rfl trivial (by decide) rfl rfl)
  have r3 := r2.step (.addInCall _ 10 _ [] rfl trivial)
  have r4 := r3.step (.erase _ 10 rfl)
  have r5 := r4.step (.call ⟨2,single.nth 1 0⟩ 10 [] rfl trivial (by decide) rfl rfl)
  have r6 := r5.step (.erase _ 10 rfl)
  have r7 := r6.step (.call ⟨3,twice.nth 0 1⟩ 10 [] rfl trivial (by decide) rfl rfl)
  have r8 := r7.step (.erase _ 10 rfl)
  have r9 := r8.step (.stop .sentinel 10 rfl trivial (by decide))
  obtain ⟨hends,hran⟩ := run_repeats hin r9
  exact ⟨_,hends,hran rfl rfl 0 twice rfl,hran rfl rfl 1 single rfl⟩

/-- A timer for `time_point::min()` that is to be called again one tick of the clock before. The
second time is that of the sentinel, which no timer in the list comes after. -/
theorem repetition_dropped : ∃ (r : Repeat Unit Unit) (s : TimerCaller (UserTimer Unit Unit)),
    r.times = 2 ∧ (∀ j < r.calls, r.first+j*r.round < timePointMax) ∧
    Run (repeats (fun _ => True)) (start [r]) s ∧ s.place = .outside ∧ s.timers = [.sentinel] ∧
    s.ran 0 = [.task () r.first] ∧ s.ran 0 ≠ r.runs := by
  let r : Repeat Unit Unit := ⟨some (),-2^63,-1,2,none⟩
  have r0 : Run (repeats (fun _ => True)) (start [r]) _ := .start
  have r1 := r0.step (.begin rfl)
  have r2 := r1.step (.call ⟨1,r.timer 0⟩ 0 (r.timer 0).adds rfl trivial (by decide) rfl rfl)
  have r3 := r2.step (.addInCall _ 0 _ [] rfl trivial)
  have r4 := r3.step (.erase _ 0 rfl)
  have r5 := r4.step (.stop .sentinel 0 rfl trivial (by decide))
  exact ⟨r,_,rfl,by decide,r5,rfl,rfl,rfl,by decide⟩

end TimerCaller
end GDFileStore
