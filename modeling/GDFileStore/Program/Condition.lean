import Mathlib.Data.List.Basic

/-! A value under a mutex, with a condition variable: the set of the threads that are blocked on
it. Each section under the mutex is one step, and a notification empties the set. -/
namespace GDFileStore.Program
variable {α : Type*}

/-- The value and the threads blocked on its condition variable. -/
structure Guarded (α : Type*) where
  value : α
  waiters : List ℕ := []

namespace Guarded

/-- Set the value and notify all. -/
def set (_ : Guarded α) (a : α) : Guarded α := { value := a }

/-- Wait with no predicate: the thread blocks, whatever the value is. -/
def block (g : Guarded α) (t : ℕ) : Guarded α := { g with waiters := t::g.waiters }

/-- One look of a thread that waits for `ready`: it goes on with the value, or blocks. -/
def look (g : Guarded α) (t : ℕ) (ready : α → Prop) [DecidablePred ready] :
    Guarded α × Option α :=
  if ready g.value then (g,some g.value) else (g.block t,none)

/-- The thread is blocked only while what it waits for is false: no notification is lost by a
thread that looks before it blocks. -/
def Sound (g : Guarded α) (t : ℕ) (ready : α → Prop) : Prop := t ∈ g.waiters → ¬ready g.value

variable {g : Guarded α} {t : ℕ} {ready : α → Prop}

@[simp] lemma set_value (a : α) : (g.set a).value = a := rfl
@[simp] lemma set_waiters (a : α) : (g.set a).waiters = [] := rfl
@[simp] lemma block_value : (g.block t).value = g.value := rfl
@[simp] lemma block_waiters : (g.block t).waiters = t::g.waiters := rfl

lemma Sound.of_notMem (h : t ∉ g.waiters) : g.Sound t ready := fun ht => absurd ht h

lemma Sound.set (a : α) : (g.set a).Sound t ready := .of_notMem List.not_mem_nil

variable [DecidablePred ready]

/-- A look changes no value. -/
@[simp] lemma look_value : (g.look t ready).1.value = g.value := by
  rw [look]
  split <;> rfl

lemma look_of_ready (h : ready g.value) : g.look t ready = (g,some g.value) := if_pos h

lemma look_of_not_ready (h : ¬ready g.value) : g.look t ready = (g.block t,none) := if_neg h

lemma Sound.look (hfree : t ∉ g.waiters) : (g.look t ready).1.Sound t ready := by
  by_cases h : ready g.value
  · rw [look_of_ready h]
    exact .of_notMem hfree
  · rw [look_of_not_ready h]
    exact fun _ => h

end Guarded
end GDFileStore.Program
