import GDFileStore.Sequences.DueOrder
import Mathlib.Data.List.Flatten
import Mathlib.Data.List.Range
import Mathlib.Tactic.Ring

/-! Timers and the list they are kept in. A repeating timer is added again by its own `afterTask`,
with one repetition less, until one is left. -/
namespace GDFileStore
variable {τ : Type*}

/-- `time_point::max()`, the time of the sentinel. -/
def timePointMax : ℤ := 2^63-1

/-- A time that a `time_point` can hold, before that of the sentinel. -/
def InTime (when : ℤ) : Prop := -2^63 ≤ when ∧ when < timePointMax

instance : DecidablePred InTime := fun _ => inferInstanceAs (Decidable (_ ∧ _))

/-- The sum of a `time_point` and a `duration`, in 64 bits. -/
def timeAfter (when round : ℤ) : ℤ := (when+round).bmod (2^64)

lemma timeAfter_of_inTime {when round : ℤ} (h : InTime (when+round)) :
    timeAfter when round = when+round := by
  obtain ⟨hmin,hmax⟩ := h
  rw [timePointMax] at hmax
  exact Int.bmod_eq_of_le (by omega) (by omega)

/-- A timer whose `afterTask` is what `SetRepeat` installed: for each call of it a closure that
holds the `round` it was given, the earliest run first. -/
structure Timer (τ : Type*) where
  task : Option τ
  when : ℤ
  afterTask : List ℤ := []
  round : ℤ := 0
  repeatation : ℤ := 1

namespace Timer

def sentinel : Timer τ := { task := none, when := timePointMax }

def setRepeat (t : Timer τ) (round times : ℤ) : Timer τ :=
  if times ≤ 1 then t else { t with repeatation := times, afterTask := t.afterTask ++ [round] }

/-- The constructor of a repeating timer. -/
def repeating (task : Option τ) (when round times : ℤ) : Timer τ :=
  { task := task, when := when, round := round, repeatation := times : Timer τ }.setRepeat round times

/-- The timer that a closure with `round` adds. -/
def again (t : Timer τ) (round : ℤ) : Timer τ :=
  { t with when := timeAfter t.when round, repeatation := t.repeatation-1 }

/-- The timer that is to be called `round` later, with one repetition less. -/
def next (t : Timer τ) (round : ℤ) : Timer τ :=
  { t with when := t.when+round, repeatation := t.repeatation-1 }

lemma again_eq {t : Timer τ} {round : ℤ} (h : InTime (t.next round).when) :
    t.again round = t.next round := by
  rw [again,timeAfter_of_inTime h]
  rfl

/-- The times at which a timer with `n` repetitions after the first is to be called. -/
def times (rounds : List ℤ) : ℕ → ℤ → List ℤ
  | 0,when => [when]
  | n+1,when => when::rounds.flatMap (fun round => times rounds n (when+round))

/-- The calls that a timer owes, each with its time. -/
def owes (t : Timer τ) : List (Option τ × ℤ) :=
  (times t.afterTask (t.repeatation-1).toNat t.when).map (fun when => (t.task,when))

/-- The calls that are owed by what closures still have to add. -/
def owesLater (t : Timer τ) (rounds : List ℤ) : List (Option τ × ℤ) :=
  if 1 < t.repeatation then rounds.flatMap (fun round => (t.next round).owes) else []

/-- All its calls are due at times that a `time_point` can hold. -/
def InTime (t : Timer τ) : Prop := ∀ call ∈ t.owes, GDFileStore.InTime call.2

instance : DecidablePred (InTime : Timer τ → Prop) :=
  fun t => inferInstanceAs (Decidable (∀ call ∈ t.owes, _))

/-- A timer owes the next call and what its closures add. -/
theorem owes_eq (t : Timer τ) : t.owes = (t.task,t.when)::t.owesLater t.afterTask := by
  rw [owes,owesLater]
  split
  · rename_i hmore
    obtain ⟨n,hn⟩ : ∃ n, (t.repeatation-1).toNat = n+1 := ⟨(t.repeatation-2).toNat,by omega⟩
    have hnext : (t.repeatation-1-1).toNat = n := by omega
    rw [hn,times,List.map_cons,List.map_flatMap]
    simp only [owes,next,hnext]
  · rename_i hlast
    have hzero : (t.repeatation-1).toNat = 0 := by omega
    rw [hzero]
    rfl

lemma owesLater_cons {t : Timer τ} (h : 1 < t.repeatation) (round : ℤ) (rounds : List ℤ) :
    t.owesLater (round::rounds) = (t.next round).owes ++ t.owesLater rounds := by
  rw [owesLater,owesLater,if_pos h,if_pos h,List.flatMap_cons]

lemma owesLater_of_last {t : Timer τ} (h : ¬1 < t.repeatation) (rounds : List ℤ) :
    t.owesLater rounds = [] := if_neg h

@[simp] lemma owesLater_nil (t : Timer τ) : t.owesLater [] = [] := by
  rw [owesLater]
  split <;> rfl

lemma times_singleton (round : ℤ) (n : ℕ) (when : ℤ) : times [round] n when =
    (List.range (n+1)).map (fun i : ℕ => when+i*round) := by
  induction n generalizing when with
  | zero => simp [times]
  | succ n ih =>
    rw [times,List.flatMap_singleton,ih,List.range_succ_eq_map (n := n+1),List.map_cons,List.map_map]
    congr 1
    · simp
    · apply List.map_congr_left
      intro i _
      rw [Function.comp_apply]
      push_cast
      ring

/-- A repeating timer owes one call for each of its `times`. -/
theorem owes_repeating (task : Option τ) (when round : ℤ) (n : ℕ) :
    (repeating task when round (n+1)).owes =
      (List.range (n+1)).map (fun i : ℕ => (task,when+i*round)) := by
  rw [repeating,setRepeat]
  split
  · obtain rfl : n = 0 := by omega
    simp [owes,times]
  · have hcount : ((n:ℤ)+1-1).toNat = n := by omega
    rw [owes]
    simp only [List.nil_append,hcount]
    rw [times_singleton,List.map_map]
    rfl

end Timer

/-- `AddTimer`: before the first timer with a later time, and nowhere where there is none. -/
def addTimer (t : Timer τ) (timers : List (Timer τ)) : List (Timer τ) :=
  Sequences.insertDue Timer.when t timers

end GDFileStore
