import GDFileStore.Timers.Order

/-! Repeating timers in a `TimerCaller`. Each call of one adds the next from inside a `Tick`, which
ends all the same, and each is called as often as it was to be. -/
namespace GDFileStore
open Sequences
variable {τ α : Type*}

/-- A timer with the `afterTask` of its user, which the closure of `SetRepeat` calls first, and with
the place among the timers that were added of the one that it is or repeats. -/
structure UserTimer (τ α : Type*) extends Timer τ where
  userAfter : Option α
  origin : Option ℕ

namespace UserTimer

instance : Timed (UserTimer τ α) :=
  ⟨fun t => t.when,{ toTimer := .sentinel, userAfter := none, origin := none },rfl⟩

/-- The timers that the closures of its `afterTask` add. -/
def adds (t : UserTimer τ α) : List (UserTimer τ α) :=
  if 1 < t.repeatation then
    t.afterTask.map (fun round => { t with toTimer := t.toTimer.again round })
  else []

end UserTimer

/-- What a call runs: a task, for the time of its timer, and a user's `afterTask`, which sees the
`repeatation` of its timer. -/
inductive Ran (τ α : Type*)
  | task (f : τ) (when : ℤ)
  | afterTask (g : α) (repeatation : ℤ)
  deriving DecidableEq

/-- What `call()` runs of the user's. -/
def UserTimer.runs (t : UserTimer τ α) : List (Ran τ α) :=
  t.task.toList.map (.task · t.when) ++ t.userAfter.toList.map (.afterTask · t.repeatation)

/-- The arguments of the constructor of a repeating timer. -/
structure Repeat (τ α : Type*) where
  task : Option τ
  first : ℤ
  round : ℤ
  times : ℤ
  userAfter : Option α := none

namespace Repeat
variable (r : Repeat τ α)

def timer (k : ℕ) : UserTimer τ α :=
  { toTimer := .repeating r.task r.first r.round r.times
    userAfter := r.userAfter
    origin := some k }

/-- How often it is to be called. -/
def calls : ℕ := (max 1 r.times).toNat

/-- What its calls are to run, in this order. -/
def runs : List (Ran τ α) := (List.range r.calls).flatMap (fun j : ℕ =>
  r.task.toList.map (.task · (r.first+j*r.round)) ++
    r.userAfter.toList.map (.afterTask · (r.times-j)))

/-- All its calls are to be made at times that a `time_point` can hold. -/
def InTime : Prop := ∀ j < r.calls, GDFileStore.InTime (r.first+j*r.round)

instance : Decidable r.InTime := inferInstanceAs (Decidable (∀ j < r.calls, _))

/-- The timer of its call number `j`. -/
def nth (k j : ℕ) : UserTimer τ α :=
  { r.timer k with when := r.first+j*r.round, repeatation := r.times-j }

lemma timer_eq (k : ℕ) : r.timer k = { (r.timer k) with
    when := r.first, repeatation := r.times, task := r.task, userAfter := r.userAfter } := by
  rw [timer,Timer.repeating,Timer.setRepeat]
  split <;> rfl

lemma timer_afterTask (k : ℕ) : (r.timer k).afterTask = if r.times ≤ 1 then [] else [r.round] := by
  rw [timer,Timer.repeating,Timer.setRepeat]
  split <;> rfl

@[simp] lemma timer_origin (k : ℕ) : (r.timer k).origin = some k := rfl

@[simp] lemma nth_origin (k j : ℕ) : (r.nth k j).origin = some k := rfl

lemma nth_zero (k : ℕ) : r.nth k 0 = r.timer k := by
  rw [nth,timer_eq]
  simp

lemma nth_runs (k j : ℕ) : (r.nth k j).runs = r.task.toList.map (.task · (r.first+j*r.round)) ++
    r.userAfter.toList.map (.afterTask · (r.times-j)) := by
  rw [nth,timer_eq]
  rfl

/-- A call adds the timer of the next one, as long as there is one. -/
theorem nth_adds {r : Repeat τ α} (h : r.InTime) (k j : ℕ) :
    (r.nth k j).adds = if j+1 < r.calls then [r.nth k (j+1)] else [] := by
  have hcalls : j+1 < r.calls ↔ 1 < r.times-j := by
    rw [calls]
    omega
  have hafter : (r.nth k j).afterTask = if r.times ≤ 1 then [] else [r.round] := r.timer_afterTask k
  have hrepeatation : (r.nth k j).repeatation = r.times-j := rfl
  rw [UserTimer.adds,hrepeatation,hafter]
  by_cases hmore : 1 < r.times-j
  · rw [if_pos hmore,if_pos (hcalls.2 hmore),if_neg (by omega),List.map_singleton]
    have hwhen : r.first+j*r.round+r.round = r.first+(j+1:ℕ)*r.round := by
      push_cast
      ring
    have hnext : timeAfter (r.first+j*r.round) r.round = r.first+(j+1:ℕ)*r.round :=
      hwhen ▸ timeAfter_of_inTime (hwhen ▸ h (j+1) (hcalls.2 hmore))
    have hless : r.times-j-1 = r.times-(j+1:ℕ) := by omega
    simp only [nth,Timer.again,hnext,hless]
  · rw [if_neg hmore,if_neg (hcalls.not.2 hmore)]

end Repeat

namespace TimerCaller

section waiting
variable {β : Type*}

/-- The timers still to be called: those in the list, without the one that runs, and those that its
call still adds. -/
def waiting (s : TimerCaller β) : List β :=
  match s.place with
  | .calling it _ toAdd => (erase it s.timers).map Entry.timer ++ toAdd
  | _ => s.timers.map Entry.timer

variable {s : TimerCaller β} {it : Entry β} {now : ℤ} {t : β} {toAdd : List β}

lemma waiting_of_call?_none (h : s.place.call? = none) : s.waiting = s.timers.map Entry.timer := by
  rw [waiting]
  split
  · next hplace => simp [hplace,TickPlace.call?] at h
  · rfl

lemma calls_of_call?_none (h : s.place.call? = none) : s.calls = s.executed := by
  rw [calls,h]
  exact List.append_nil _

lemma waiting_calling (h : s.place = .calling it now toAdd) :
    s.waiting = (erase it s.timers).map Entry.timer ++ toAdd := by
  rw [waiting,h]

variable [Timed β]

lemma Inv.perm_erase (h : s.Inv) (hit : it ∈ s.timers) :
    s.timers.Perm (it::TimerCaller.erase it s.timers) := by
  obtain ⟨front,back,hsplit,herase,-⟩ := h.split hit
  rw [herase,hsplit]
  exact List.perm_middle

/-- A call takes its timer from those that wait and gives them those that it adds. -/
lemma Inv.waiting_call (h : s.Inv) (hplace : s.place = .turn (some it)) : ∃ others : List β,
    s.waiting.Perm (it.timer::others) ∧
      waiting { s with place := .calling it now toAdd } = others ++ toAdd := by
  have hit : it ∈ s.timers := (h.current it (by rw [hplace]; rfl)).1
  refine ⟨(TimerCaller.erase it s.timers).map Entry.timer,?_,waiting_calling rfl⟩
  rw [waiting_of_call?_none (by rw [hplace]; rfl)]
  exact (h.perm_erase hit).map Entry.timer

/-- A timer that a call adds still waits, but where nothing in the list is due later. -/
lemma Inv.waiting_addInCall (h : s.Inv) (hplace : s.place = .calling it now (t::toAdd)) :
    (∃ e ∈ s.timers, Timed.when t < e.when) ∧
      (waiting { s.addTimer t with place := .calling it now toAdd }).Perm s.waiting ∨
    (¬∃ e ∈ s.timers, Timed.when t < e.when) ∧
      (t::waiting { s.addTimer t with place := .calling it now toAdd }).Perm s.waiting := by
  have hit : it ∈ s.timers := (h.current it (by rw [hplace]; rfl)).1
  rw [waiting_calling hplace]
  have hnew : waiting { s.addTimer t with place := .calling it now toAdd } =
      (TimerCaller.erase it (s.addTimer t).timers).map Entry.timer ++ toAdd := rfl
  rw [hnew]
  by_cases hlater : ∃ e ∈ s.timers, Timed.when t < e.when
  · left
    have hperm : (s.addTimer t).timers.Perm (⟨s.added.length,t⟩::s.timers) := insertDue_perm hlater
    have herase := (h.addTimer t).perm_erase (hperm.mem_iff.2 (List.mem_cons_of_mem _ hit))
    have hall := (herase.symm.trans hperm).trans ((h.perm_erase hit).cons _)
    have hothers := (hall.trans (.swap _ _ _)).cons_inv.map Entry.timer
    refine ⟨hlater,(hothers.append_right toAdd).trans ?_⟩
    exact List.perm_middle.symm
  · right
    have hsame : (s.addTimer t).timers = s.timers := insertDue_of_last hlater
    rw [hsame]
    exact ⟨hlater,List.perm_middle.symm⟩

end waiting

/-- What a caller with repeating timers meets: no other timers, calls that add what the closures of
`SetRepeat` add, and any readings of the clock among `reading`. -/
def repeats (reading : ℤ → Prop) : Surroundings (UserTimer τ α) :=
  { adds := fun _ => False
    does := fun t toAdd => toAdd = t.adds
    time := fun _ => True
    reading := reading }

/-- An active caller to which the repeating timers have been added in turn. -/
def start (rs : List (Repeat τ α)) : TimerCaller (UserTimer τ α) :=
  (rs.zipIdx.map (fun p => p.1.timer p.2)).foldl addTimer { new with shutdown_ := false }

/-- What the calls of one of the timers have run. -/
def ran (s : TimerCaller (UserTimer τ α)) (k : ℕ) : List (Ran τ α) :=
  (s.executed.filter (fun c => c.1.timer.origin = some k)).flatMap (fun c => c.1.timer.runs)

/-- The timer of one of the calls that are to be made. -/
def IsCopy (rs : List (Repeat τ α)) (t : UserTimer τ α) : Prop :=
  ∃ (k : ℕ) (r : Repeat τ α) (j : ℕ), rs[k]? = some r ∧ j < r.calls ∧ t = r.nth k j

lemma IsCopy.adds {rs : List (Repeat τ α)} (hin : ∀ r ∈ rs, r.InTime) {t u : UserTimer τ α}
    (h : IsCopy rs t) (hu : u ∈ t.adds) : IsCopy rs u := by
  obtain ⟨k,r,j,hr,-,rfl⟩ := h
  rw [Repeat.nth_adds (hin r (List.mem_of_getElem? hr))] at hu
  split at hu
  · next hmore => exact ⟨k,r,j+1,hr,hmore,List.mem_singleton.1 hu⟩
  · cases hu

lemma adds_sentinel : (Timed.sentinel : UserTimer τ α).adds = [] := rfl

lemma IsCopy.when_lt {rs : List (Repeat τ α)} (hin : ∀ r ∈ rs, r.InTime) {t : UserTimer τ α}
    (h : IsCopy rs t) : Timed.when t < timePointMax := by
  obtain ⟨k,r,j,hr,hj,rfl⟩ := h
  exact (hin r (List.mem_of_getElem? hr) j hj).2

/-- Only the sentinel and the timers of calls to be made wait; and while the sentinel is in the list
the calls of each timer are the first of those to be made, with the timer of the next waiting. -/
structure RepeatInv (rs : List (Repeat τ α)) (s : TimerCaller (UserTimer τ α)) : Prop where
  copies : ∀ t ∈ s.waiting, t = Timed.sentinel ∨ IsCopy rs t
  toAdd : ∀ it now toAdd, s.place = .calling it now toAdd → ∀ t ∈ toAdd, IsCopy rs t
  made : (∃ e ∈ s.timers, timePointMax ≤ e.when) → ∀ k r, rs[k]? = some r → ∃ j ≤ r.calls,
    (s.calls.map (fun c => c.1.timer)).filter (fun t => t.origin = some k) =
      (List.range j).map (r.nth k) ∧
    s.waiting.filter (fun t => t.origin = some k) = if j < r.calls then [r.nth k j] else []

namespace RepeatInv
variable {rs : List (Repeat τ α)} {s s' : TimerCaller (UserTimer τ α)}

lemma filter_perm {xs ys : List (UserTimer τ α)} {p : UserTimer τ α → Bool} {t : UserTimer τ α}
    {c : Prop} [Decidable c] (h : xs.Perm ys) (hys : ys.filter p = if c then [t] else []) :
    xs.filter p = if c then [t] else [] := by
  have hperm := h.filter p
  rw [hys] at hperm
  by_cases hc : c
  · rw [if_pos hc] at hperm ⊢
    exact List.perm_singleton.1 hperm
  · rw [if_neg hc] at hperm ⊢
    exact List.perm_nil.1 hperm

/-- A step that makes no call and after which the same timers wait. -/
lemma of_perm (h : RepeatInv rs s) (hwaiting : s'.waiting.Perm s.waiting)
    (htoAdd : ∀ it now toAdd, s'.place = .calling it now toAdd → ∀ t ∈ toAdd, IsCopy rs t)
    (hsentinel : (∃ e ∈ s'.timers, timePointMax ≤ e.when) →
      ∃ e ∈ s.timers, timePointMax ≤ e.when) (hcalls : s'.calls = s.calls) : RepeatInv rs s' where
  copies := fun t ht => h.copies t (hwaiting.mem_iff.1 ht)
  toAdd := htoAdd
  made := by
    intro hthere k r hr
    obtain ⟨j,hj,hmade,hwait⟩ := h.made (hsentinel hthere) k r hr
    refine ⟨j,hj,by rw [hcalls,hmade],?_⟩
    exact filter_perm hwaiting hwait

/-- A step after which no call is under way. -/
lemma of_idle (h : RepeatInv rs s) (hplace : s'.place.call? = none)
    (hwaiting : s'.timers.map Entry.timer = s.waiting)
    (hsentinel : ∀ e ∈ s'.timers, e ∈ s.timers) (hcalls : s'.executed = s.calls) :
    RepeatInv rs s' := by
  refine h.of_perm (.of_eq ?_) ?_ (fun ⟨e,he,hmax⟩ => ⟨e,hsentinel e he,hmax⟩) ?_
  · rw [waiting_of_call?_none hplace,hwaiting]
  · intro it now toAdd hcalling
    rw [hcalling] at hplace
    cases hplace
  · rw [← hcalls,calls,hplace]
    exact List.append_nil _

/-- The calls and the waiting timers of one of the timers, when one that waits is called. -/
lemma made_call (hin : ∀ r ∈ rs, r.InTime) {k : ℕ} {r : Repeat τ α} {t : UserTimer τ α}
    {made others : List (UserTimer τ α)} {j : ℕ} (hr : rs[k]? = some r)
    (ht : t = Timed.sentinel ∨ IsCopy rs t) (hj : j ≤ r.calls)
    (hmade : made.filter (fun t => t.origin = some k) = (List.range j).map (r.nth k))
    (hwait : (t::others).filter (fun t => t.origin = some k) =
      if j < r.calls then [r.nth k j] else []) : ∃ j ≤ r.calls,
    (made ++ [t]).filter (fun t => t.origin = some k) = (List.range j).map (r.nth k) ∧
    (others ++ t.adds).filter (fun t => t.origin = some k) =
      if j < r.calls then [r.nth k j] else [] := by
  by_cases hk : t.origin = some k
  · -- It is the one that waits for this timer.
    rw [List.filter_cons_of_pos (by simpa using hk)] at hwait
    split at hwait
    · next hmore =>
      obtain ⟨rfl,hothers⟩ := List.cons_eq_cons.1 hwait
      have hone : [r.nth k j].filter (fun t => t.origin = some k) = [r.nth k j] :=
        List.filter_cons_of_pos (by simp)
      refine ⟨j+1,hmore,?_,?_⟩
      · rw [List.filter_append,hmade,hone,List.range_succ,List.map_append,List.map_singleton]
      · rw [List.filter_append,hothers,List.nil_append,
          Repeat.nth_adds (hin r (List.mem_of_getElem? hr))]
        split
        · exact List.filter_cons_of_pos (by simp)
        · rfl
    · cases hwait
  · rw [List.filter_cons_of_neg (by simpa using hk)] at hwait
    refine ⟨j,hj,?_,?_⟩
    · rw [List.filter_append,List.filter_cons_of_neg (by simpa using hk),List.filter_nil,
        List.append_nil,hmade]
    · have hadds : t.adds.filter (fun t => t.origin = some k) = [] := by
        rw [List.filter_eq_nil_iff]
        intro u hu
        rcases ht with rfl | ⟨k',r',j',hr',-,rfl⟩
        · rw [adds_sentinel] at hu
          cases hu
        · rw [Repeat.nth_adds (hin r' (List.mem_of_getElem? hr'))] at hu
          split at hu
          · obtain rfl := List.mem_singleton.1 hu
            simpa using hk
          · cases hu
      rw [List.filter_append,hadds,List.append_nil,hwait]

lemma call (hin : ∀ r ∈ rs, r.InTime) (h : RepeatInv rs s) (hinv : s.Inv)
    {it : Entry (UserTimer τ α)} {now : ℤ} (hplace : s.place = .turn (some it)) :
    RepeatInv rs { s with place := .calling it now it.timer.adds } := by
  obtain ⟨others,hwaiting,hnew⟩ : ∃ others : List (UserTimer τ α),
      s.waiting.Perm (it.timer::others) ∧
        waiting { s with place := .calling it now it.timer.adds } = others ++ it.timer.adds :=
    hinv.waiting_call hplace
  have hcopy : ∀ t ∈ it.timer::others, t = Timed.sentinel ∨ IsCopy rs t := fun t ht =>
    h.copies t (hwaiting.mem_iff.2 ht)
  have hit := hcopy it.timer List.mem_cons_self
  have hadds : ∀ t ∈ it.timer.adds, IsCopy rs t := by
    intro t ht
    rcases hit with heq | hcopy
    · rw [heq,adds_sentinel] at ht
      cases ht
    · exact hcopy.adds hin ht
  constructor
  · intro t ht
    rw [hnew] at ht
    rcases List.mem_append.1 ht with ht | ht
    · exact hcopy t (List.mem_cons_of_mem _ ht)
    · exact .inr (hadds t ht)
  · intro it' now' toAdd hcalling
    cases hcalling
    exact hadds
  · intro hthere k r hr
    obtain ⟨j,hj,hmade,hwait⟩ := h.made hthere k r hr
    have hcalls : (calls { s with place := .calling it now it.timer.adds }).map
        (fun c => c.1.timer) = s.calls.map (fun c => c.1.timer) ++ [it.timer] := by
      simp [calls,hplace,TickPlace.call?]
    rw [hcalls,hnew]
    refine made_call hin hr hit hj hmade ?_
    exact filter_perm hwaiting.symm hwait

/-- A timer that a call adds waits before and after, but once the sentinel is gone. -/
lemma addInCall (hin : ∀ r ∈ rs, r.InTime) (h : RepeatInv rs s) (hinv : s.Inv)
    {it : Entry (UserTimer τ α)} {now : ℤ} {t : UserTimer τ α} {toAdd : List (UserTimer τ α)}
    (hplace : s.place = .calling it now (t::toAdd)) :
    RepeatInv rs { s.addTimer t with place := .calling it now toAdd } := by
  have ht := (h.toAdd it now (t::toAdd) hplace t List.mem_cons_self).when_lt hin
  have hrest : ∀ u ∈ toAdd, IsCopy rs u := fun u hu =>
    h.toAdd it now (t::toAdd) hplace u (List.mem_cons_of_mem _ hu)
  have hcalls : calls { s.addTimer t with place := .calling it now toAdd } = s.calls := by
    rw [calls,calls,hplace]
    rfl
  have hthere : (∃ e ∈ (s.addTimer t).timers, timePointMax ≤ e.when) →
      ∃ e ∈ s.timers, timePointMax ≤ e.when := by
    intro hnew
    obtain ⟨e,he,hmax⟩ := hnew
    rcases mem_insertDue he with rfl | hold
    · exact absurd ht (not_lt.2 hmax)
    · exact ⟨e,hold,hmax⟩
  rcases hinv.waiting_addInCall hplace with ⟨-,hwaiting⟩ | ⟨hlast,hwaiting⟩
  · refine h.of_perm hwaiting ?_ hthere hcalls
    intro it' now' toAdd' hcalling
    cases hcalling
    exact hrest
  · constructor
    · exact fun u hu => h.copies u (hwaiting.mem_iff.1 (List.mem_cons_of_mem _ hu))
    · intro it' now' toAdd' hcalling
      cases hcalling
      exact hrest
    · intro hsentinel
      obtain ⟨e,he,hmax⟩ := hthere hsentinel
      exact absurd ⟨e,he,ht.trans_le hmax⟩ hlast

theorem step {reading : ℤ → Prop} (hin : ∀ r ∈ rs, r.InTime) (h : RepeatInv rs s) (hinv : s.Inv)
    (hstep : Step (repeats reading) s s') : RepeatInv rs s' := by
  cases hstep with
  | add t _ hadds _ => exact hadds.elim
  | addInCall it now t toAdd hplace _ => exact h.addInCall hin hinv hplace
  | begin hplace =>
    have hcall : s.place.call? = none := by rw [hplace]; rfl
    exact h.of_idle rfl (waiting_of_call?_none hcall).symm (fun _ he => he)
      (calls_of_call?_none hcall).symm
  | call it now toAdd hplace _ _ _ hdoes =>
    obtain rfl : toAdd = it.timer.adds := hdoes
    exact h.call hin hinv hplace
  | erase it now hplace =>
    refine h.of_idle rfl ?_ (fun _ he => List.mem_of_mem_eraseP he) ?_
    · rw [waiting_calling hplace,List.append_nil]
    · rw [calls,hplace]
      rfl
  | stop it now hplace _ _ =>
    have hcall : s.place.call? = none := by rw [hplace]; rfl
    exact h.of_idle rfl (waiting_of_call?_none hcall).symm (fun _ he => he)
      (calls_of_call?_none hcall).symm
  | atEnd hplace =>
    have hcall : s.place.call? = none := by rw [hplace]; rfl
    exact h.of_idle rfl (waiting_of_call?_none hcall).symm (fun _ he => he)
      (calls_of_call?_none hcall).symm

end RepeatInv
/-- The timer of a number, among timers that are numbered from `n` on. -/
lemma filter_timers {rs : List (Repeat τ α)} {k : ℕ} {r : Repeat τ α} (h : rs[k]? = some r)
    (n : ℕ) : ((rs.zipIdx n).map (fun p => p.1.timer p.2)).filter
      (fun t => t.origin = some (n+k)) = [r.timer (n+k)] := by
  induction rs generalizing n k with
  | nil => cases h
  | cons q rs ih =>
    rw [List.zipIdx_cons,List.map_cons]
    cases k with
    | zero =>
      obtain rfl : q = r := Option.some.inj h
      rw [List.filter_cons_of_pos (by simp),Nat.add_zero,List.cons_inj_right,
        List.filter_eq_nil_iff]
      intro t ht
      obtain ⟨p,hp,rfl⟩ := List.mem_map.1 ht
      have hle := List.le_snd_of_mem_zipIdx hp
      simp only [Repeat.timer_origin,Option.some.injEq,decide_eq_true_eq]
      omega
    | succ k =>
      rw [List.filter_cons_of_neg (by simp),Nat.add_comm k 1,← Nat.add_assoc]
      exact ih h (n+1)

/-- Timers that are added while there is no `Tick`, before the sentinel. -/
lemma foldl_addTimer {ts : List (UserTimer τ α)} (ht : ∀ t ∈ ts, Timed.when t < timePointMax)
    {s : TimerCaller (UserTimer τ α)} (h : s.Inv)
    (hsentinel : ∃ e ∈ s.timers, timePointMax ≤ e.when) :
    (ts.foldl addTimer s).Inv ∧ (ts.foldl addTimer s).place = s.place ∧
      (ts.foldl addTimer s).executed = s.executed ∧
      ((ts.foldl addTimer s).timers.map Entry.timer).Perm (ts ++ s.timers.map Entry.timer) := by
  induction ts generalizing s with
  | nil => exact ⟨h,rfl,rfl,.refl _⟩
  | cons t ts ih =>
    obtain ⟨e,he,hmax⟩ := hsentinel
    have hlt : Timed.when t < timePointMax := ht t List.mem_cons_self
    have hadded : (s.addTimer t).timers.Perm (⟨s.added.length,t⟩::s.timers) :=
      insertDue_perm ⟨e,he,hlt.trans_le hmax⟩
    obtain ⟨hinv,hplace,hexecuted,hperm⟩ := ih (fun u hu => ht u (List.mem_cons_of_mem _ hu))
      (h.addTimer t) ⟨e,hadded.mem_iff.2 (List.mem_cons_of_mem _ he),hmax⟩
    refine ⟨hinv,hplace,hexecuted,hperm.trans ?_⟩
    exact ((hadded.map Entry.timer).append_left ts).trans List.perm_middle

end TimerCaller
end GDFileStore
