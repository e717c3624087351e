import GDFileStore.Queues.ReadsOnce
import GDFileStore.Program.Inevitable

/-! A server that is sent no more requests answers all those it has: its queues run empty whichever
of its threads takes the next step, unless a worker is at a request that has no outcome. -/
namespace GDFileStore
open Sequences Program Prog
variable {σ : Type}

/-- The phases that a write still has before it, with one more for the worker that finds none. -/
def WopeStateType.ahead : WopeStateType → ℕ
  | .init => 4
  | .onJournal => 3
  | .onDisk => 2
  | .other => 1

/-- A phase hands its write on with fewer phases before it, and then has nothing to hand on. -/
def phaseProtocol : Protocol Action.Resp ℕ where
  allowed k a := ∀ wo ∈ a.queued, wo.wopeState.ahead < k
  next k a _ := if a.queued = [] then k else 0

section follow
variable {α : Type} {k : ℕ}

abbrev Ahead (p : Activity α) (k : ℕ) : Prop := Follows phaseProtocol p k (fun _ _ => True)

lemma ahead_call {a : Action} {rest : a.Resp → Activity α} (ha : a.queued = [])
    (h : ∀ answer, Ahead (rest answer) k) : Ahead (.call a rest) k := by
  refine ⟨?_,fun answer => ?_⟩
  · intro wo hwo
    rw [ha] at hwo
    exact absurd hwo List.not_mem_nil
  · change Ahead _ (if a.queued = [] then k else 0)
    rw [if_pos ha]
    exact h answer

lemma ahead_hand {wo : WOpeLog} {rest : Unit → Activity α} (hwo : wo.wopeState.ahead < k)
    (h : ∀ u, Ahead (rest u) 0) : Ahead (.call (.addWope wo) rest) k :=
  ⟨fun _ hm => List.mem_singleton.1 hm ▸ hwo,h⟩

lemma Task.actions_ahead {β : Type} (p : Task β) {f : β → Activity α} (h : ∀ b, Ahead (f b) k) :
    Ahead (Task.actions p >>= f) k := by
  induction p with
  | done b => exact h b
  | call r rest ih => exact ahead_call rfl ih

namespace FileStore
variable (fs : FileStore)

lemma copyLoop_ahead {l : List Int64} {last : Unit → Job Unit}
    (h : Ahead (fs.jobActions (last ())) k) :
    Ahead (fs.jobActions (fs.copyLoop l >>= last)) k := by
  induction l with
  | nil => exact h
  | cons s l ih =>
    simp only [copyLoop,ask_eq,call_bind,done_bind]
    refine ahead_call rfl (fun attr => ?_)
    dsimp only
    split
    · exact ahead_call rfl (fun _ => ih)
    · exact ih

lemma doWope_ahead (wopelog : WOpeLog) :
    Ahead (fs.jobActions (fs.doWope wopelog)) wopelog.wopeState.ahead := by
  rw [doWope]
  cases wopelog.wopeState with
  | init =>
    refine ahead_call rfl (fun _ => Task.actions_ahead _ (fun _ => ?_))
    exact ahead_call rfl (fun _ => ahead_call rfl (fun _ => ahead_hand (Nat.lt_succ_self _) (fun _ => trivial)))
  | onJournal =>
    refine ahead_call rfl (fun _ => fs.copyLoop_ahead ?_)
    exact ahead_hand (Nat.lt_succ_self _) (fun _ => trivial)
  | onDisk => exact ahead_call rfl (fun _ => trivial)
  | other => trivial

end FileStore
end follow

/-- A worker of the write pool is at some request. -/
lemma Server.Inv.at_call {s : Server σ} (h : s.Inv) {t : ℕ} {p : Activity Unit}
    (hm : (t,p) ∈ s.running) : ∃ a rest, p = .call a rest := by
  have hentry : (t,Presence.running p) ∈ s.entries := by
    simp only [Server.entries]
    exact List.mem_append_left _ (List.mem_append_right _ (List.mem_map.2 ⟨_,hm,rfl⟩))
  obtain ⟨_,_,a,rest,_,hp,_⟩ := h.register.good _ hentry
  exact ⟨a,rest,hp⟩

namespace DataServer

/-- The dispatcher turns with both queues empty. -/
def Spins (d d' : DataServer σ) : Prop :=
  d.writes.wopeLogs = [] ∧ d.ropeLogs = [] ∧ d'.half ≠ d.half

/-- A step that takes in no request, and is no empty turn of the dispatcher. -/
def Serves (fs : FileStore) (threads : ℕ) (outcome : (r : Request) → σ → r.Resp → σ → Prop)
    (d d' : DataServer σ) : Prop :=
  Step fs threads outcome d d' ∧ ¬d.Spins d' ∧ d'.writes.accepted = d.writes.accepted ∧
    d'.asked = d.asked

/-- A worker is at a request that has no outcome. -/
def Stuck (outcome : (r : Request) → σ → r.Resp → σ → Prop) (d : DataServer σ) : Prop :=
  ∃ t a rest, (t,.call a rest) ∈ d.writes.running ++ d.reading ∧
    ∀ answer world, ¬a.changes outcome d.writes.world answer world

/-- Logs that have `places` before them, each with the phases before it. -/
def weigh (places : ℕ) (logs : List (ℕ × WOpeLog)) : ℕ :=
  (logs.map (fun wo => 4*wo.2.wopeState.ahead+places)).sum

@[simp] lemma weigh_nil (places : ℕ) : weigh places [] = 0 := rfl

@[simp] lemma weigh_cons (places : ℕ) (wo : ℕ × WOpeLog) (logs : List (ℕ × WOpeLog)) :
    weigh places (wo::logs) = 4*wo.2.wopeState.ahead+places+weigh places logs := List.sum_cons

@[simp] lemma weigh_append (places : ℕ) (logs later : List (ℕ × WOpeLog)) :
    weigh places (logs ++ later) = weigh places logs+weigh places later := by
  rw [weigh,List.map_append,List.sum_append,weigh,weigh]

lemma weigh_succ (places : ℕ) (logs : List (ℕ × WOpeLog)) :
    weigh (places+1) logs = weigh places logs+logs.length := by
  induction logs with
  | nil => rfl
  | cons wo logs ih =>
    rw [weigh_cons,weigh_cons,ih,List.length_cons]
    omega

/-- What the queues, the batches and the job lists hold, and what the workers are at, those of
writes with the phases before theirs. -/
def load (d : DataServer σ) (phases : List ℕ) : ℕ :=
  weigh 3 d.writes.wopeLogs+weigh 2 d.writes.wtmp+weigh 1 d.writes.jobs+4*phases.sum+
    4*d.ropeLogs.length+3*d.rtmp.length+2*d.jobs.length+d.reading.length

/-- Whether the dispatcher has to turn before it comes to a queue that is not empty. -/
def turns (d : DataServer σ) : ℕ :=
  match d.half with
  | .wopes => if d.writes.wopeLogs = [] then 1 else 0
  | .ropes => if d.ropeLogs = [] then 1 else 0

/-- The programs of the workers of a pool. -/
def bag (workers : List (ℕ × Activity Unit)) : Multiset (Activity Unit) := workers.map Prod.snd

lemma bag_append (workers later : List (ℕ × Activity Unit)) :
    bag (workers ++ later) = bag workers+bag later := by
  rw [bag,List.map_append,← Multiset.coe_add,bag,bag]

lemma bag_cons (t : ℕ) (p : Activity Unit) (workers : List (ℕ × Activity Unit)) :
    bag ((t,p)::workers) = p ::ₘ bag workers := rfl

/-- The programs of all the workers. -/
def programs (d : DataServer σ) : Multiset (Activity Unit) :=
  bag d.writes.running+bag d.reading

/-- The rank of a server: its load, then its dispatcher's turns, then its workers' programs. -/
abbrev Rank := ℕ × ℕ × Multiset (Activity Unit)

def Rank.Lower : Rank → Rank → Prop :=
  Prod.Lex (· < ·) (Prod.Lex (· < ·) (Relation.CutExpand Prog.Rest))

lemma Rank.lower_wf : WellFounded Rank.Lower :=
  WellFounded.prod_lex wellFounded_lt (WellFounded.prod_lex wellFounded_lt rest_wf.cutExpand)

/-- The worker of each write is in a phase with so many before it. -/
abbrev InPhases (running : List (ℕ × Activity Unit)) (phases : List ℕ) : Prop :=
  List.Forall₂ (fun k p => Ahead p.2 k) phases running

structure Ranked (d : DataServer σ) (r : Rank) : Prop where
  inv : d.Inv
  rank : ∃ phases, InPhases d.writes.running phases ∧ r = (d.load phases,d.turns,d.programs)

variable {fs : FileStore} {threads : ℕ} {outcome : (r : Request) → σ → r.Resp → σ → Prop}
  {d d' : DataServer σ} {r : Rank} {phases : List ℕ}

/-- A worker begins with a program: it is at its first request, or done at once. -/
lemma inPhases_occupied {running : List (ℕ × Activity Unit)} {t k : ℕ} {p : Activity Unit}
    (h : InPhases running phases) (hp : Ahead p k) :
    ∃ later, InPhases (running ++ Server.occupied t p) (phases ++ later) ∧ later.sum ≤ k := by
  cases p with
  | done u => exact ⟨[],by simpa [Server.occupied] using h,Nat.zero_le k⟩
  | call a rest => exact ⟨[k],List.rel_append h (.cons hp .nil),by simp⟩

/-- The load goes down. -/
lemma lower_of_load {phases' : List ℕ} (hinv : d'.Inv) (hphases : InPhases d'.writes.running phases')
    (hload : d'.load phases' < d.load phases) :
    ∃ r', Rank.Lower r' (d.load phases,d.turns,d.programs) ∧ d'.Ranked r' :=
  ⟨_,.left _ _ hload,hinv,phases',hphases,rfl⟩

/-- The dispatcher turns from an empty queue to the one that is not empty. -/
lemma lower_of_turns (hinv : d'.Inv) (hphases : InPhases d'.writes.running phases)
    (hload : d'.load phases = d.load phases) (hturns : d'.turns < d.turns) :
    ∃ r', Rank.Lower r' (d.load phases,d.turns,d.programs) ∧ d'.Ranked r' := by
  refine ⟨_,?_,hinv,phases,hphases,rfl⟩
  rw [hload]
  exact .right _ (.left _ _ hturns)

/-- A worker goes on with its program, and the load does not grow. -/
lemma lower_of_programs {phases' : List ℕ} (hinv : d'.Inv)
    (hphases : InPhases d'.writes.running phases') (hload : d'.load phases' ≤ d.load phases)
    (hturns : d'.turns = d.turns) (hprograms : Relation.CutExpand Prog.Rest d'.programs d.programs) :
    ∃ r', Rank.Lower r' (d.load phases,d.turns,d.programs) ∧ d'.Ranked r' := by
  rcases hload.lt_or_eq with hlt | heq
  · exact lower_of_load hinv hphases hlt
  · refine ⟨_,?_,hinv,phases',hphases,rfl⟩
    rw [heq,hturns]
    exact .right _ (.right _ hprograms)

/-- An action of a phase leaves a phase with as many before it, or hands on a log with fewer. -/
lemma ahead_rest {t k : ℕ} {a : Action} {rest : a.Resp → Activity Unit}
    (h : Ahead (.call a rest) k) (answer : a.Resp) : ∃ k', Ahead (rest answer) k' ∧
      (a.queued = [] ∧ k' = k ∨ weigh 3 (a.queued.map (fun wo => (t,wo)))+4*k' < 4*k) := by
  obtain ⟨hqueued,hrest⟩ := h
  refine ⟨_,hrest answer,?_⟩
  cases a with
  | addWope wo =>
    have hwo := hqueued wo (List.mem_singleton_self wo)
    right
    simp only [phaseProtocol,Action.queued,List.map_cons,List.map_nil,weigh_cons,weigh_nil]
    simp only [List.cons_ne_nil,if_false]
    omega
  | _ => exact .inl ⟨rfl,rfl⟩

/-- A worker's action brings the programs of its pool down. -/
lemma cutExpand_worker (before after : List (ℕ × Activity Unit)) (t : ℕ) {a : Action}
    (rest : a.Resp → Activity Unit) (answer : a.Resp) (others : Multiset (Activity Unit)) :
    Relation.CutExpand Prog.Rest
      (bag (before ++ Server.occupied t (rest answer) ++ after)+others)
      (bag (before ++ (t,Prog.call a rest)::after)+others) := by
  have hleft : bag (Server.occupied t (rest answer)) ≤ {rest answer} := by
    cases rest answer with
    | done u => exact Multiset.zero_le _
    | call b rest' => exact le_refl _
  have hcut := cutExpand_rest (bag before+(bag after+others)) hleft
  rw [bag_append,bag_append,bag_append,bag_cons]
  convert hcut using 1
  · ac_rfl
  · rw [Multiset.add_cons,Multiset.cons_add,add_assoc]

/-- The phases of the workers before one of them, its own, and those of the workers after it. -/
lemma inPhases_split {before after : List (ℕ × Activity Unit)} {p : ℕ × Activity Unit}
    (h : InPhases (before ++ p::after) phases) : ∃ ks k ls, phases = ks ++ k::ls ∧
      InPhases before ks ∧ Ahead p.2 k ∧ InPhases after ls := by
  have hbefore := List.forall₂_take_append phases before (p::after) h
  have hafter := List.forall₂_drop_append phases before (p::after) h
  obtain ⟨k,ls,hk,hls,hdrop⟩ := List.forall₂_cons_right_iff.1 hafter
  exact ⟨_,k,ls,by rw [← hdrop,List.take_append_drop],hbefore,hk,hls⟩

theorem Ranked.serves (h : d.Ranked r) (hserves : d.Serves fs threads outcome d') :
    ∃ r', Rank.Lower r' r ∧ d'.Ranked r' := by
  obtain ⟨hinv,phases,hphases,rfl⟩ := h
  obtain ⟨hstep,hspins,haccepted,hasked⟩ := hserves
  have hinv' := hinv.step hstep
  cases hstep with
  | reqWrite opeId wope fromNode => simp [Server.reqWrite] at haccepted
  | reqRead ropelog => simp [reqRead] at hasked
  | swapWopes hhalf hround hreads =>
    by_cases hlogs : d.writes.wopeLogs = []
    · have hropes : d.ropeLogs ≠ [] := fun hnil => hspins ⟨hlogs,hnil,by simp [swapWopes,hhalf]⟩
      refine lower_of_turns hinv' hphases ?_ ?_
      · simp [load,swapWopes,Server.swap,hlogs,hround]
      · simp [turns,swapWopes,hhalf,hlogs,hropes]
    · refine lower_of_load hinv' hphases ?_
      have hlength := List.length_pos_iff.2 hlogs
      have hweigh : weigh 3 d.writes.wopeLogs = _ := weigh_succ 2 d.writes.wopeLogs
      simp only [load,swapWopes,Server.swap,hround,weigh_nil]
      omega
  | swapRopes hhalf hround =>
    by_cases hlogs : d.ropeLogs = []
    · have hwopes : d.writes.wopeLogs ≠ [] := fun hnil => hspins ⟨hnil,hlogs,by simp [swapRopes,hhalf]⟩
      refine lower_of_turns hinv' hphases ?_ ?_
      · simp [load,swapRopes,hlogs,hinv.round hhalf]
      · simp [turns,swapRopes,hhalf,hlogs,hwopes]
    · refine lower_of_load hinv' hphases ?_
      have hlength := List.length_pos_iff.2 hlogs
      simp only [load,swapRopes,hinv.round hhalf,List.length_nil]
      omega
  | enqueueWope hbatch =>
    refine lower_of_load hinv' hphases ?_
    simp only [load,Server.enqueue,hbatch,weigh_append,weigh_cons,weigh_nil]
    omega
  | enqueueRope hbatch =>
    refine lower_of_load hinv' hphases ?_
    simp only [load,enqueueRope,hbatch,List.length_append,List.length_cons,List.length_nil]
    omega
  | @takeWope wo jobs hjobs _ =>
    obtain ⟨later,hlater,hsum⟩ := inPhases_occupied hphases (fs.doWope_ahead wo.2)
    refine lower_of_load hinv' hlater ?_
    simp only [load,Server.take,hjobs,weigh_cons,List.sum_append]
    omega
  | @takeRope ro jobs hjobs _ =>
    refine lower_of_load hinv' hphases ?_
    have hone : (Server.occupied ro.1 (fs.jobActions (fs.doRope ro.2))).length ≤ 1 := by
      cases fs.jobActions (fs.doRope ro.2) <;> simp [Server.occupied]
    simp only [load,takeRope,hjobs,List.length_append,List.length_cons]
    omega
  | @actWope before after t a rest answer world hrunning _ =>
    rw [hrunning] at hphases
    obtain ⟨ks,k,ls,rfl,hks,hk,hls⟩ := inPhases_split hphases
    obtain ⟨k',hk',hqueued⟩ := ahead_rest (t := t) hk answer
    obtain ⟨later,hlater,hsum⟩ := inPhases_occupied (t := t) hks hk'
    have hphases' : InPhases (before ++ Server.occupied t (rest answer) ++ after)
        (ks ++ later ++ ls) := List.rel_append hlater hls
    rcases hqueued with ⟨hnone,rfl⟩ | hqueued
    · refine lower_of_programs hinv' hphases' ?_ ?_ ?_
      · simp only [load,actWope,Server.act,hnone,List.map_nil,List.append_nil,List.sum_append,
          List.sum_cons]
        omega
      · simp [turns,actWope,Server.act,hnone]
      · rw [programs,programs,hrunning]
        exact cutExpand_worker before after t rest answer _
    · refine lower_of_load hinv' hphases' ?_
      simp only [load,actWope,Server.act,weigh_append,List.sum_append,List.sum_cons]
      omega
  | @actRope before after t a rest answer world hreading _ =>
    have hone : (Server.occupied t (rest answer)).length ≤ 1 := by
      cases rest answer <;> simp [Server.occupied]
    refine lower_of_programs hinv' hphases ?_ rfl ?_
    · simp only [load,actRope,hreading,List.length_append,List.length_cons]
      omega
    · rw [programs,programs,hreading,add_comm,add_comm (bag d.writes.running)]
      exact cutExpand_worker before after t rest answer _

/-- Every worker that a step leaves is in some phase. -/
lemma InPhases.step (h : InPhases d.writes.running phases) (hstep : Step fs threads outcome d d') :
    ∃ phases', InPhases d'.writes.running phases' := by
  cases hstep with
  | @takeWope wo jobs _ _ =>
    obtain ⟨later,hlater,-⟩ := inPhases_occupied h (fs.doWope_ahead wo.2)
    exact ⟨_,hlater⟩
  | @actWope before after t a rest answer world hrunning _ =>
    rw [hrunning] at h
    obtain ⟨ks,k,ls,rfl,hks,hk,hls⟩ := inPhases_split h
    obtain ⟨k',hk',-⟩ := ahead_rest (t := t) hk answer
    obtain ⟨later,hlater,-⟩ := inPhases_occupied (t := t) hks hk'
    exact ⟨_,List.rel_append hlater hls⟩
  | _ => exact ⟨phases,h⟩

lemma Reachable.inPhases {world₀ : σ} (h : Reachable fs threads outcome world₀ d) :
    ∃ phases, InPhases d.writes.running phases := by
  induction h with
  | start => exact ⟨[],.nil⟩
  | step _ hstep ih =>
    obtain ⟨phases,hphases⟩ := ih
    exact hphases.step hstep

/-- Where no step serves, a step that takes in no request is an empty turn. -/
lemma spins_of_rest (hrest : ∀ d', ¬d.Serves fs threads outcome d')
    (hstep : Step fs threads outcome d d') (haccepted : d'.writes.accepted = d.writes.accepted)
    (hasked : d'.asked = d.asked) : d.Spins d' := by
  by_contra hspins
  exact hrest d' ⟨hstep,hspins,haccepted,hasked⟩

/-- Where no worker is stuck and none can act, none is at a request. -/
lemma workers_idle (hinv : d.Inv) (hstuck : ¬d.Stuck outcome)
    (hwopes : ∀ (before after : List (ℕ × Activity Unit)) {t : ℕ} {a : Action}
      {rest : a.Resp → Activity Unit} (answer : a.Resp) {world : σ},
      d.writes.running = before ++ (t,.call a rest)::after →
        ¬a.changes outcome d.writes.world answer world)
    (hropes : ∀ (before after : List (ℕ × Activity Unit)) {t : ℕ} {a : Action}
      {rest : a.Resp → Activity Unit} (answer : a.Resp) {world : σ},
      d.reading = before ++ (t,.call a rest)::after →
        ¬a.changes outcome d.writes.world answer world) :
    d.writes.running = [] ∧ d.reading = [] := by
  have hacts : ∀ {t a rest}, (t,.call a rest) ∈ d.writes.running ++ d.reading →
      ∃ answer world, a.changes outcome d.writes.world answer world := by
    intro t a rest hm
    by_contra hnone
    refine hstuck ⟨t,a,rest,hm,?_⟩
    intro answer world hchanges
    exact hnone ⟨answer,world,hchanges⟩
  constructor
  · rw [List.eq_nil_iff_forall_not_mem]
    rintro ⟨t,p⟩ hm
    obtain ⟨a,rest,rfl⟩ := hinv.writes.at_call hm
    obtain ⟨answer,world,hchanges⟩ := hacts (List.mem_append_left _ hm)
    obtain ⟨before,after,hrunning⟩ := List.append_of_mem hm
    exact hwopes before after answer hrunning hchanges
  · rw [List.eq_nil_iff_forall_not_mem]
    rintro ⟨t,p⟩ hm
    obtain ⟨a,rest,rfl⟩ := hinv.at_call hm
    obtain ⟨answer,world,hchanges⟩ := hacts (List.mem_append_right _ hm)
    obtain ⟨before,after,hreading⟩ := List.append_of_mem hm
    exact hropes before after answer hreading hchanges

/-- Where no step serves, no worker of either pool is left that could act. -/
lemma workers_of_rest (hinv : d.Inv) (hrest : ∀ d', ¬d.Serves fs threads outcome d')
    (hstuck : ¬d.Stuck outcome) : d.writes.running = [] ∧ d.reading = [] := by
  refine workers_idle hinv hstuck ?_ ?_
  · intro before after t a rest answer world hrunning hchanges
    exact (spins_of_rest hrest (.actWope before after answer hrunning hchanges) rfl rfl).2.2 rfl
  · intro before after t a rest answer world hreading hchanges
    exact (spins_of_rest hrest (.actRope before after answer hreading hchanges) rfl rfl).2.2 rfl

/-- Where no step serves, the dispatcher finds nothing in either queue. -/
lemma queues_of_rest (hrest : ∀ d', ¬d.Serves fs threads outcome d') (hwtmp : d.writes.wtmp = [])
    (hrtmp : d.rtmp = []) : d.writes.wopeLogs = [] ∧ d.ropeLogs = [] := by
  cases hhalf : d.half with
  | wopes =>
    have hspins := spins_of_rest hrest (.swapWopes hhalf hwtmp hrtmp) rfl rfl
    exact ⟨hspins.1,hspins.2.1⟩
  | ropes =>
    have hspins := spins_of_rest hrest (.swapRopes hhalf hwtmp) rfl rfl
    exact ⟨hspins.1,hspins.2.1⟩

/-- No request is on its way in a server. -/
structure Empty (d : DataServer σ) : Prop where
  wopes : d.writes.wopeLogs = [] ∧ d.writes.wtmp = [] ∧ d.writes.jobs = [] ∧ d.writes.running = []
  ropes : d.ropeLogs = [] ∧ d.rtmp = [] ∧ d.jobs = [] ∧ d.reading = []

lemma empty_of_rest (hinv : d.Inv) (hthreads : 0 < threads)
    (hrest : ∀ d', ¬d.Serves fs threads outcome d') (hstuck : ¬d.Stuck outcome) : d.Empty := by
  obtain ⟨hrunning,hreading⟩ := workers_of_rest hinv hrest hstuck
  have hjobs : d.writes.jobs = [] := by
    cases hjobs : d.writes.jobs with
    | nil => rfl
    | cons wo jobs =>
      have hidle : d.writes.running.length < threads := by rwa [hrunning]
      exact absurd rfl (spins_of_rest hrest (.takeWope hjobs hidle) rfl rfl).2.2
  have hreads : d.jobs = [] := by
    cases hjobs : d.jobs with
    | nil => rfl
    | cons ro jobs =>
      have hidle : d.reading.length < threads := by rwa [hreading]
      exact absurd rfl (spins_of_rest hrest (.takeRope hjobs hidle) rfl rfl).2.2
  have hwtmp : d.writes.wtmp = [] := by
    cases hbatch : d.writes.wtmp with
    | nil => rfl
    | cons wo wtmp => exact absurd rfl (spins_of_rest hrest (.enqueueWope hbatch) rfl rfl).2.2
  have hrtmp : d.rtmp = [] := by
    cases hbatch : d.rtmp with
    | nil => rfl
    | cons ro rtmp => exact absurd rfl (spins_of_rest hrest (.enqueueRope hbatch) rfl rfl).2.2
  obtain ⟨hwopes,hropes⟩ := queues_of_rest hrest hwtmp hrtmp
  exact ⟨⟨hwopes,hwtmp,hjobs,hrunning⟩,hropes,hrtmp,hreads,hreading⟩

/-- In an empty server every accepted write is finished, with the replies it is owed. -/
lemma Empty.replied (h : d.Empty) (hinv : d.Inv) {t : ℕ} {wopelog : WOpeLog}
    (haccepted : d.writes.accepted[t]? = some wopelog) : d.writes.repliesTo t = wopelog.owed := by
  obtain ⟨stage,hevents,hclosed⟩ := hinv.writes.stage haccepted
  obtain ⟨hwopes,hwtmp,hjobs,hrunning⟩ := h.wopes
  have ht := (List.getElem?_eq_some_iff.1 haccepted).1
  obtain ⟨p,hm,-⟩ := hinv.writes.register.exists_entry ht
  have hfinished : t ∈ d.writes.finished := by
    simp only [Server.entries,Server.queuedEntries,Server.runningEntries,Server.finishedEntries,
      hwopes,hwtmp,hjobs,hrunning,List.map_nil,List.nil_append,List.mem_map] at hm
    obtain ⟨u,hu,heq⟩ := hm
    rwa [← (Prod.mk.inj heq).1]
  rw [Server.repliesTo,hevents]
  exact stage.replies_eq_owed.2 (hclosed.2 hfinished)

/-- In an empty server every read is finished. -/
lemma Empty.finished (h : d.Empty) (hinv : d.Inv) {t : ℕ} (ht : t < d.asked.length) :
    t ∈ d.finished := by
  obtain ⟨hropes,hrtmp,hjobs,hreading⟩ := h.ropes
  obtain ⟨p,hm,-⟩ := hinv.register.exists_entry ht
  simp only [entries,queuedEntries,readingEntries,finishedEntries,hropes,hrtmp,hjobs,hreading,
    List.map_nil,List.nil_append,List.mem_map] at hm
  obtain ⟨u,hu,heq⟩ := hm
  rwa [← (Prod.mk.inj heq).1]

/-- A server that is sent no more requests comes, whichever of its threads takes the next step, to a
state in which every write it accepted has been sent both its replies and every read it was asked
its answer, or in which a worker is at a request that has no outcome. -/
theorem server_answers_all {world₀ : σ} (hthreads : 0 < threads)
    (hreach : Reachable fs threads outcome world₀ d) :
    Inevitable (Serves fs threads outcome) (fun d => d.Stuck outcome ∨
      (∀ t wopelog, d.writes.accepted[t]? = some wopelog → d.writes.repliesTo t =
        [.repWrite wopelog .primaryJournalWrite,
          .repWrite { wopelog with wopeState := .onDisk } .primaryDiskWrite]) ∧
      ∀ t ropelog, d.asked[t]? = some ropelog → ∃ datas : List Bytes,
        datas.length = ropelog.rope.blocks.length ∧ d.answersTo t =
          [.repRead ropelog ⟨ropelog.opeId,ropelog.rope.ghobj,ropelog.rope.blocks,datas⟩]) d := by
  obtain ⟨phases,hphases⟩ := hreach.inPhases
  refine Inevitable.of_rank Rank.lower_wf Ranked Ranked.serves ?_ ⟨hreach.inv,phases,hphases,rfl⟩
  intro d r hranked hrest
  rw [or_iff_not_imp_left]
  intro hstuck
  have hinv := hranked.inv
  have hempty := empty_of_rest hinv hthreads hrest hstuck
  constructor
  · intro t wopelog haccepted
    exact hempty.replied hinv haccepted
  · intro t ropelog hasked
    have hfinished := hempty.finished hinv (List.getElem?_eq_some_iff.1 hasked).1
    rcases hinv.answered hasked with ⟨-,hnot⟩ | ⟨-,hanswered⟩
    · exact absurd hfinished hnot
    · exact hanswered

/-- The store after the first write of an object, with a reading of the clock left. -/
def oneJournaled : World := (World.fresh [7,9]).afterWOPE sampleStore firstWrite.wope

/-- A server on this store, sent a write with a block of its own and a read of the block there is. -/
def twoReceived : DataServer World :=
  let received : Server World := { world := oneJournaled }
  reqRead { writes := received.reqWrite writeOne.opeId writeOne.wope {} } readFirst

/-- A server with one worker in each pool answers both. -/
theorem server_answers_all_two : Inevitable (Serves sampleStore 1 Request.Gives)
    (fun d => d.Stuck Request.Gives ∨
      (∀ t wopelog, d.writes.accepted[t]? = some wopelog → d.writes.repliesTo t =
        [.repWrite wopelog .primaryJournalWrite,
          .repWrite { wopelog with wopeState := .onDisk } .primaryDiskWrite]) ∧
      ∀ t ropelog, d.asked[t]? = some ropelog → ∃ datas : List Bytes,
        datas.length = ropelog.rope.blocks.length ∧ d.answersTo t =
          [.repRead ropelog ⟨ropelog.opeId,ropelog.rope.ghobj,ropelog.rope.blocks,datas⟩]) twoReceived := by
  have r0 : Reachable sampleStore 1 Request.Gives oneJournaled
      { writes := { world := oneJournaled } } := .start
  have r1 := r0.step (.reqWrite _ writeOne.opeId writeOne.wope {})
  exact server_answers_all (by decide) (r1.step (.reqRead _ readFirst))

end DataServer
end GDFileStore
