import GDFileStore.Sequences.DueOrder
import GDFileStore.Timers.Timer

/-! A `TimerCaller` whose tasks add timers while `Tick` goes through the list. A timer that is added
in front of the one that runs waits for the next `Tick`. -/
namespace GDFileStore
open Sequences
variable {β : Type*}

/-- What a caller keeps in its list, with the sentinel that its constructor puts there. -/
class Timed (β : Type*) where
  when : β → ℤ
  sentinel : β
  when_sentinel : when sentinel = timePointMax

instance {τ : Type*} : Timed (Timer τ) := ⟨Timer.when,.sentinel,rfl⟩

/-- A node of the list. The nodes are numbered as they are made. -/
structure Entry (β : Type*) where
  number : ℕ
  timer : β

namespace Entry
variable [Timed β]

def when (e : Entry β) : ℤ := Timed.when e.timer

/-- The order of the list: by time, at one time by number. -/
abbrev Before : Entry β → Entry β → Prop := Sequences.Before when number

def sentinel : Entry β := ⟨0,Timed.sentinel⟩

end Entry

/-- Where a `Tick` is: nowhere, before the test of its loop, or in the call of the timer that `it`
points at, with the reading that let it be called and the timers that the call still adds. -/
inductive TickPlace (β : Type*)
  | outside
  | turn (it : Option (Entry β))
  | calling (it : Entry β) (now : ℤ) (toAdd : List β)

namespace TickPlace

/-- `it`, where it is not the end. -/
def it? : TickPlace β → Option (Entry β)
  | outside => none
  | turn it => it
  | calling it _ _ => some it

/-- The call under way. -/
def call? : TickPlace β → Option (Entry β × ℤ)
  | calling it now _ => some (it,now)
  | _ => none

end TickPlace

/-- A `TimerCaller`, with the timers that have been added to it, the sentinel before them, and the
calls that have been made, each with the reading that let it be made. -/
structure TimerCaller (β : Type*) where
  timers : List (Entry β)
  shutdown_ : Bool := true
  place : TickPlace β := .outside
  added : List β
  executed : List (Entry β × ℤ) := []

/-- What a caller meets: the timers added from outside, those that a call of a timer adds in turn,
the times of all these, and the readings of the clock. -/
structure Surroundings (β : Type*) where
  adds : β → Prop
  does : β → List β → Prop
  time : ℤ → Prop
  reading : ℤ → Prop

namespace TimerCaller
variable [Timed β]

def new : TimerCaller β := { timers := [.sentinel], added := [Timed.sentinel] }

/-- `AddTimer`. -/
def addTimer (s : TimerCaller β) (t : β) : TimerCaller β :=
  { s with
    timers := insertDue Entry.when ⟨s.added.length,t⟩ s.timers
    added := s.added ++ [t] }

/-- `timers.erase(tmp)`. -/
def erase (it : Entry β) (timers : List (Entry β)) : List (Entry β) :=
  timers.eraseP (fun e => e.number = it.number)

/-- `it++`. -/
def next (it : Entry β) (timers : List (Entry β)) : Option (Entry β) :=
  (timers.dropWhile (fun e => e.number ≠ it.number)).tail.head?

/-- One step: an `AddTimer`, or a step of `Tick`. -/
inductive Step (env : Surroundings β) : TimerCaller β → TimerCaller β → Prop
  | add {s : TimerCaller β} (t : β) : s.place = .outside → env.adds t →
      env.time (Timed.when t) → Step env s (s.addTimer t)
  | addInCall {s : TimerCaller β} (it : Entry β) (now : ℤ) (t : β) (toAdd : List β) :
      s.place = .calling it now (t::toAdd) → env.time (Timed.when t) →
      Step env s { s.addTimer t with place := .calling it now toAdd }
  | begin {s : TimerCaller β} : s.place = .outside →
      Step env s { s with place := .turn s.timers.head? }
  | call {s : TimerCaller β} (it : Entry β) (now : ℤ) (toAdd : List β) :
      s.place = .turn (some it) → env.reading now → it.when ≤ now → s.shutdown_ = false →
      env.does it.timer toAdd → Step env s { s with place := .calling it now toAdd }
  | erase {s : TimerCaller β} (it : Entry β) (now : ℤ) : s.place = .calling it now [] →
      Step env s { s with
        timers := erase it s.timers
        place := .turn (next it s.timers)
        executed := s.executed ++ [(it,now)] }
  | stop {s : TimerCaller β} (it : Entry β) (now : ℤ) : s.place = .turn (some it) →
      env.reading now → ¬(it.when ≤ now ∧ s.shutdown_ = false) →
      Step env s { s with place := .outside }
  | atEnd {s : TimerCaller β} : s.place = .turn none → Step env s { s with place := .outside }

/-- The states after steps, between which `active` and `shutdown` are called at any time. -/
inductive Run (env : Surroundings β) (s₀ : TimerCaller β) : TimerCaller β → Prop
  | start : Run env s₀ s₀
  | step {s s' : TimerCaller β} : Run env s₀ s → Step env s s' → Run env s₀ s'
  | flag {s : TimerCaller β} (shutdown : Bool) : Run env s₀ s →
      Run env s₀ { s with shutdown_ := shutdown }

/-- The list is in order, its timers are those that were added, and no timer that is due at the
time of the one that `it` points at was added before it. -/
structure Inv (s : TimerCaller β) : Prop where
  sorted : s.timers.Pairwise Entry.Before
  known : ∀ e ∈ s.timers, s.added[e.number]? = some e.timer
  current : ∀ it ∈ s.place.it?, it ∈ s.timers ∧
    ∀ e ∈ s.timers, e.when = it.when → it.number ≤ e.number

namespace Inv
variable {s : TimerCaller β}

lemma number_lt (h : s.Inv) {e : Entry β} (he : e ∈ s.timers) : e.number < s.added.length :=
  (List.getElem?_eq_some_iff.1 (h.known e he)).1

lemma eq_of_number (h : s.Inv) {d e : Entry β} (hd : d ∈ s.timers) (he : e ∈ s.timers)
    (hnumber : d.number = e.number) : d = e := by
  obtain ⟨n,t⟩ := d
  obtain ⟨m,u⟩ := e
  obtain rfl : n = m := hnumber
  have htimer : some t = some u := (h.known ⟨n,t⟩ hd).symm.trans (h.known ⟨n,u⟩ he)
  rw [Option.some.inj htimer]

lemma numbers_nodup (h : s.Inv) : (s.timers.map Entry.number).Nodup := by
  rw [List.Nodup,List.pairwise_map]
  apply h.sorted.imp_of_mem
  intro d e hd he hbefore hnumber
  exact hbefore.ne (h.eq_of_number hd he hnumber)

/-- The list around a node, what is left of it without the node, and the node after it. -/
lemma split (h : s.Inv) {it : Entry β} (hit : it ∈ s.timers) : ∃ front back,
    s.timers = front ++ it::back ∧ erase it s.timers = front ++ back ∧
    next it s.timers = back.head? := by
  obtain ⟨front,back,hsplit⟩ := List.append_of_mem hit
  have hfront : ∀ e ∈ front, e.number ≠ it.number := by
    intro e he hnumber
    have hnodup := h.numbers_nodup
    rw [hsplit,List.map_append,List.map_cons,List.nodup_append] at hnodup
    exact hnodup.2.2 e.number (List.mem_map_of_mem he) it.number List.mem_cons_self hnumber
  refine ⟨front,back,hsplit,?_,?_⟩
  · rw [erase,hsplit,List.eraseP_append_right,List.eraseP_cons_of_pos (by simp)]
    intro e he
    simpa using hfront e he
  · rw [next,hsplit,List.dropWhile_append_of_pos,List.dropWhile_cons_of_neg (by simp),
      List.tail_cons]
    intro e he
    simpa using hfront e he

lemma withPlace (h : s.Inv) {place : TickPlace β}
    (hplace : ∀ it ∈ place.it?, it ∈ s.timers ∧
      ∀ e ∈ s.timers, e.when = it.when → it.number ≤ e.number) :
    Inv { s with place := place } := ⟨h.sorted,h.known,hplace⟩

lemma addTimer (h : s.Inv) (t : β) : (s.addTimer t).Inv where
  sorted := pairwise_insertDue h.sorted (fun _ he => h.number_lt he)
  known := by
    intro e he
    rcases mem_insertDue he with rfl | hold
    · exact List.getElem?_concat_length
    · exact (List.getElem?_append_left (h.number_lt hold)).trans (h.known e hold)
  current := by
    intro it hit
    obtain ⟨hmem,hfirst⟩ := h.current it hit
    refine ⟨mem_insertDue_of_mem hmem,?_⟩
    intro e he hwhen
    rcases mem_insertDue he with rfl | hold
    · exact (h.number_lt hmem).le
    · exact hfirst e hold hwhen

/-- The node that was called is taken out, and `it` goes on: all that stands before its new place
is due earlier. -/
lemma erase (h : s.Inv) {it : Entry β} {now : ℤ} (hplace : s.place = .calling it now []) :
    Inv { s with
      timers := TimerCaller.erase it s.timers
      place := .turn (next it s.timers)
      executed := s.executed ++ [(it,now)] } := by
  obtain ⟨hmem,hfirst⟩ := h.current it (by rw [hplace]; rfl)
  obtain ⟨front,back,hsplit,herase,hnext⟩ := h.split hmem
  have hsorted := h.sorted
  rw [hsplit,List.pairwise_append,List.pairwise_cons] at hsorted
  obtain ⟨hfront,⟨hit,hback⟩,hcross⟩ := hsorted
  have hsub : (front ++ back).Sublist s.timers := by
    rw [hsplit]
    exact (List.sublist_cons_self it back).append_left front
  have hearlier : ∀ e ∈ front, e.when < it.when := by
    intro e he
    rcases hcross e he it List.mem_cons_self with hlt | ⟨heq,hlt⟩
    · exact hlt
    · exact absurd (hfirst e (hsub.subset (List.mem_append_left _ he)) heq) (by omega)
  constructor
  · dsimp only
    rw [herase]
    exact h.sorted.sublist hsub
  · dsimp only
    rw [herase]
    exact fun e he => h.known e (hsub.subset he)
  · dsimp only
    rw [herase,hnext]
    intro new hnew
    obtain ⟨rest,rfl⟩ := List.head?_eq_some_iff.1 hnew
    refine ⟨by simp,?_⟩
    intro e he hwhen
    rcases List.mem_append.1 he with hf | hb
    · have hlt := hearlier e hf
      have hle := (hit new List.mem_cons_self).le
      omega
    · rcases List.mem_cons.1 hb with rfl | hm
      · exact le_rfl
      · rcases (List.pairwise_cons.1 hback).1 e hm with hlt | ⟨-,hlt⟩
        · exact absurd hwhen hlt.ne'
        · exact hlt.le

/-- The first node of the list is the first of its time. -/
lemma head (h : s.Inv) : ∀ it ∈ s.timers.head?, it ∈ s.timers ∧
    ∀ e ∈ s.timers, e.when = it.when → it.number ≤ e.number := by
  intro it hit
  obtain ⟨rest,hlist⟩ := List.head?_eq_some_iff.1 hit
  have hsorted := h.sorted
  rw [hlist] at hsorted ⊢
  refine ⟨List.mem_cons_self,?_⟩
  intro e he hwhen
  rcases List.mem_cons.1 he with rfl | hm
  · exact le_rfl
  · rcases (List.pairwise_cons.1 hsorted).1 e hm with hlt | ⟨-,hlt⟩
    · exact absurd hwhen hlt.ne'
    · exact hlt.le

theorem step {env : Surroundings β} {s' : TimerCaller β} (h : s.Inv) (hstep : Step env s s') :
    s'.Inv := by
  cases hstep with
  | add t _ _ _ => exact h.addTimer t
  | addInCall it now t toAdd hplace _ =>
    refine (h.addTimer t).withPlace ?_
    intro new hnew
    obtain rfl : it = new := Option.some.inj hnew
    exact (h.addTimer t).current it (by rw [TimerCaller.addTimer,hplace]; rfl)
  | begin _ => exact h.withPlace h.head
  | call it now toAdd hplace _ _ _ _ =>
    refine h.withPlace ?_
    intro new hnew
    obtain rfl : it = new := Option.some.inj hnew
    exact h.current it (by rw [hplace]; rfl)
  | erase it now hplace => exact h.erase hplace
  | stop it now _ _ _ => exact h.withPlace nofun
  | atEnd _ => exact h.withPlace nofun

end Inv

lemma inv_new : (new : TimerCaller β).Inv where
  sorted := List.pairwise_singleton _ _
  known := by
    intro e he
    obtain rfl := List.mem_singleton.1 he
    rfl
  current := nofun

lemma Run.inv {env : Surroundings β} {s₀ s : TimerCaller β} (h : Run env s₀ s) (h₀ : s₀.Inv) :
    s.Inv := by
  induction h with
  | start => exact h₀
  | step _ hstep ih => exact ih.step hstep
  | flag _ _ ih => exact ⟨ih.sorted,ih.known,ih.current⟩

end TimerCaller
end GDFileStore
