import GDFileStore.Blocks.Phases

/-! The order of acceptance through the write pool, with each call of `do_wope` as one step. The
queue, the batch and the job list are first in, first out, but a worker that has taken a job may
run it after a worker that took a later one. -/
namespace GDFileStore
open Sequences Program Prog

/-- A write with the number of its acceptance. -/
abbrev Numbered := ℕ × WOpeLog

def numbered (wopelogs : List WOpeLog) : List Numbered :=
  wopelogs.zipIdx.map (fun e => (e.2,e.1))

/-- The write side of a server: the requests to come, the shared queue, the dispatcher's batch,
the pool's job list, and the jobs that workers have taken and not run. -/
structure Pipeline where
  world : World
  sent : List Reply := []
  requests : List Numbered := []
  wopeLogs : List Numbered := []
  wtmp : List Numbered := []
  jobs : List Numbered := []
  taken : List Numbered := []

inductive Move where
  | addWope
  | swap
  | enqueue
  | take
  | run (i : ℕ)
  deriving DecidableEq, Repr

namespace Pipeline

/-- A worker runs its job: what `do_wope` adds to the queue keeps its number. -/
def doWope (fs : FileStore) (s : Pipeline) (wo : Numbered) (taken : List Numbered) :
    Option Pipeline :=
  (Prog.run (Call.handle fs) (fs.doWope wo.2) { world := s.world, sent := s.sent }).map
    (fun r => { s with
      world := r.2.world
      sent := r.2.sent
      wopeLogs := s.wopeLogs ++ r.2.wopeLogs.map (fun wopelog => (wo.1,wopelog))
      taken := taken })

/-- One step of the request handler, of the dispatcher, or of a worker of the pool. -/
def step (fs : FileStore) (threads : ℕ) : Move → Pipeline → Option Pipeline
  | .addWope,s =>
    match s.requests with
    | [] => none
    | wo::requests => some { s with requests := requests, wopeLogs := s.wopeLogs ++ [wo] }
  | .swap,s => if s.wtmp = [] then some { s with wtmp := s.wopeLogs, wopeLogs := [] } else none
  | .enqueue,s =>
    match s.wtmp with
    | [] => none
    | wo::wtmp => some { s with wtmp := wtmp, jobs := s.jobs ++ [wo] }
  | .take,s =>
    match s.jobs with
    | [] => none
    | wo::jobs =>
      if s.taken.length < threads then some { s with jobs := jobs, taken := s.taken ++ [wo] }
      else none
  | .run i,s =>
    match s.taken.drop i with
    | [] => none
    | wo::after => s.doWope fs wo (s.taken.take i ++ after)

/-- The pipelines reached by moves that `allowed` lets happen. -/
inductive Run (fs : FileStore) (threads : ℕ) (allowed : Pipeline → Move → Prop) (s₀ : Pipeline) :
    Pipeline → Prop
  | start : Run fs threads allowed s₀ s₀
  | step {s s' : Pipeline} (m : Move) : Run fs threads allowed s₀ s → allowed s m →
      s.step fs threads m = some s' → Run fs threads allowed s₀ s'

/-- A given sequence of moves, as far as `allowed` lets it happen. -/
def moves (fs : FileStore) (threads : ℕ) (allowed : Pipeline → Move → Prop)
    [∀ s m, Decidable (allowed s m)] : List Move → Pipeline → Option Pipeline
  | [],s => some s
  | m::ms,s =>
    if allowed s m then (s.step fs threads m).bind (moves fs threads allowed ms) else none

lemma Run.of_moves {fs : FileStore} {threads : ℕ} {allowed : Pipeline → Move → Prop}
    [∀ s m, Decidable (allowed s m)] {s₀ s s' : Pipeline} {ms : List Move}
    (hrun : Run fs threads allowed s₀ s) (hms : moves fs threads allowed ms s = some s') :
    Run fs threads allowed s₀ s' := by
  induction ms generalizing s with
  | nil =>
    cases hms
    exact hrun
  | cons m ms ih =>
    rw [moves] at hms
    split_ifs at hms with hm
    obtain ⟨t,ht,hrest⟩ := Option.bind_eq_some_iff.1 hms
    exact ih (hrun.step m hm ht) hrest

/-- The writes that are not finished. -/
def pending (s : Pipeline) : List Numbered :=
  s.requests ++ s.wopeLogs ++ s.wtmp ++ s.jobs ++ s.taken

/-- The writes whose init phase is still to be run. -/
def unwritten (s : Pipeline) : List Numbered :=
  s.pending.filter (fun wo => wo.2.wopeState = .init)

/-- When an init phase is run, no write that was accepted earlier is still to be journaled. -/
def InOrder (s : Pipeline) : Move → Prop
  | .run i => ∀ wo ∈ (s.taken.drop i).head?, wo.2.wopeState = .init →
      ∀ other ∈ s.unwritten, wo.1 ≤ other.1
  | _ => True

instance (s : Pipeline) : (m : Move) → Decidable (s.InOrder m)
  | .run i => inferInstanceAs (Decidable (∀ wo ∈ (s.taken.drop i).head?, wo.2.wopeState = .init →
      ∀ other ∈ s.unwritten, wo.1 ≤ other.1))
  | .addWope => inferInstanceAs (Decidable True)
  | .swap => inferInstanceAs (Decidable True)
  | .enqueue => inferInstanceAs (Decidable True)
  | .take => inferInstanceAs (Decidable True)

end Pipeline

lemma Request.handle_copy_frame {source directory : Bytes} {w w' : World} {ok : Bool}
    (h : Request.handle (.copy source directory) w = some (ok,w')) :
    w'.objs = w.objs ∧ w'.clock = w.clock := by
  cases hfile : w.files source with
  | none =>
    simp only [Request.handle,hfile,Option.some.injEq,Prod.mk.injEq] at h
    obtain ⟨_,rfl⟩ := h
    exact ⟨rfl,rfl⟩
  | some content =>
    simp only [Request.handle,hfile,Option.some.injEq,Prod.mk.injEq] at h
    obtain ⟨_,rfl⟩ := h
    exact ⟨rfl,rfl⟩

namespace FileStore
variable (fs : FileStore)

/-- The copying phase changes neither the lists nor the clock, and puts nothing into the queue
but the write itself. -/
lemma copyLoop_frame {l : List Int64} {n n' : Node}
    (h : run (Call.handle fs) (fs.copyLoop l) n = some ((),n')) :
    n'.world.objs = n.world.objs ∧ n'.world.clock = n.world.clock ∧ n'.wopeLogs = n.wopeLogs := by
  induction l generalizing n with
  | nil =>
    cases h
    exact ⟨rfl,rfl,rfl⟩
  | cons rbs l ih =>
    simp only [copyLoop,ask_eq,call_bind,done_bind] at h
    obtain ⟨⟨attr,n1⟩,hget,h⟩ := Option.bind_eq_some_iff.1 h
    cases hget
    dsimp only at h
    split at h
    · obtain ⟨⟨ok,n2⟩,hcopy,h⟩ := Option.bind_eq_some_iff.1 h
      obtain ⟨⟨answer,w⟩,hanswer,hn⟩ := Option.map_eq_some_iff.1 hcopy
      cases hn
      have hworld := Request.handle_copy_frame hanswer
      obtain ⟨hobjs,hclock,hlogs⟩ := ih h
      exact ⟨hobjs.trans hworld.1,hclock.trans hworld.2,hlogs⟩
    · exact ih h

/-- What a phase after the first does to the lists, the clock and the queue. -/
lemma doWope_later {wopelog : WOpeLog} {n n' : Node} (hstate : wopelog.wopeState ≠ .init)
    (h : run (Call.handle fs) (fs.doWope wopelog) n = some ((),n')) :
    n'.world.objs = n.world.objs ∧ n'.world.clock = n.world.clock ∧
      ∃ queued : List WOpeLog, n'.wopeLogs = n.wopeLogs ++ queued ∧
        ∀ next ∈ queued, next.wopeState ≠ .init := by
  cases hs : wopelog.wopeState with
  | init => exact absurd hs hstate
  | onJournal =>
    simp only [doWope,hs,ask_eq,call_bind,done_bind] at h
    rw [run_call rfl,run_bind] at h
    obtain ⟨⟨_,n1⟩,hcopy,h⟩ := Option.bind_eq_some_iff.1 h
    obtain ⟨hobjs,hclock,hlogs⟩ := fs.copyLoop_frame hcopy
    cases h
    refine ⟨hobjs,hclock,[_],congrArg (· ++ [_]) hlogs,?_⟩
    intro next hnext
    rw [List.mem_singleton.1 hnext]
    exact WopeStateType.noConfusion
  | onDisk =>
    rw [fs.run_doWope_onDisk _ _ hs] at h
    cases h
    exact ⟨rfl,rfl,[],(List.append_nil _).symm,fun _ hnext => absurd hnext List.not_mem_nil⟩
  | other =>
    simp only [doWope,hs] at h
    cases h
    exact ⟨rfl,rfl,[],(List.append_nil _).symm,fun _ hnext => absurd hnext List.not_mem_nil⟩

end FileStore

lemma mem_drop_numbered {l : List WOpeLog} {k : ℕ} {wo : Numbered} :
    wo ∈ (numbered l).drop k ↔ k ≤ wo.1 ∧ l[wo.1]? = some wo.2 := by
  have hget : ∀ j : ℕ, (numbered l)[j]? = (l[j]?).map (fun wopelog => (j,wopelog)) := by
    intro j
    cases h : l[j]? <;> simp [numbered,h]
  constructor
  · intro hm
    obtain ⟨j,hj⟩ := List.mem_iff_getElem?.1 hm
    rw [List.getElem?_drop,hget] at hj
    obtain ⟨wopelog,hl,rfl⟩ := Option.map_eq_some_iff.1 hj
    exact ⟨Nat.le_add_right k j,hl⟩
  · intro ⟨hk,hl⟩
    apply List.mem_iff_getElem?.2
    refine ⟨wo.1-k,?_⟩
    rw [List.getElem?_drop,Nat.add_sub_of_le hk,hget,hl]
    rfl

namespace World
variable (fs : FileStore)

/-- The store once the writes have been run one after another. -/
def inOrder (w : World) (wopelogs : List WOpeLog) : World :=
  wopelogs.foldl (fun w wopelog => w.afterWOPE fs wopelog.wope) w

/-- The lists that a write leaves depend on the lists and the clock alone. -/
lemma afterWOPE_congr {w w' : World} (wope : WOPE) (hobjs : w.objs = w'.objs)
    (hclock : w.clock = w'.clock) : (w.afterWOPE fs wope).objs = (w'.afterWOPE fs wope).objs ∧
      (w.afterWOPE fs wope).clock = (w'.afterWOPE fs wope).clock := by
  have hlist : w.newList wope = w'.newList wope := by
    rw [newList,newList,serials,serials,hobjs,hclock]
  constructor
  · change AList.insert _ _ (w.counted fs wope).objs = AList.insert _ _ (w'.counted fs wope).objs
    rw [hlist,counted_objs,counted_objs,hobjs]
  · rw [afterWOPE_clock,afterWOPE_clock,news,news,hclock]

/-- The second write's edits, on the list that the first write's edits make of its base. -/
def editedInTurn (w : World) (first second : WOPE) : List Int64 :=
  applyEdits ((nameEdits second.edits (w.clock.drop (w.news first).length)).map
    (Edit.map Prod.fst)) (w.newList first)

lemma newList_afterWOPE (w : World) {first second : WOPE}
    (hbase : second.ghobj.key = first.newGhobj.key) :
    (w.afterWOPE fs first).newList second = w.editedInTurn first second := by
  rw [newList,afterWOPE_clock,afterWOPE_serials,if_pos hbase,editedInTurn]

end World

namespace Pipeline
variable {fs : FileStore} {threads : ℕ} {s s' : Pipeline} {wo : Numbered}

lemma unwritten_perm (h : s'.pending.Perm s.pending) : s'.unwritten.Perm s.unwritten :=
  h.filter _

/-- What a job does to the writes that are still to be journaled, and to the lists. -/
lemma doWope_spec {before after : List Numbered} (htaken : s.taken = before ++ wo::after)
    (h : s.doWope fs wo (before ++ after) = some s') :
    (wo.2.wopeState = .init → s.unwritten.Perm (wo::s'.unwritten) ∧
      s'.world = s.world.afterWOPE fs wo.2.wope) ∧
    (wo.2.wopeState ≠ .init → s.unwritten.Perm s'.unwritten ∧
      s'.world.objs = s.world.objs ∧ s'.world.clock = s.world.clock) := by
  obtain ⟨⟨_,n'⟩,hrun,rfl⟩ := Option.map_eq_some_iff.1 h
  let rest := s.requests ++ s.wopeLogs ++ s.wtmp ++ s.jobs ++ (before ++ after)
  have hbefore : s.pending.Perm (wo::rest) := by
    rw [pending,htaken,← List.append_assoc]
    apply (List.perm_middle).trans
    rw [List.append_assoc]
  have hafter : ∀ queued : List Numbered,
      (s.requests ++ (s.wopeLogs ++ queued) ++ s.wtmp ++ s.jobs ++ (before ++ after)).Perm
        (queued ++ rest) := by
    intro queued
    apply List.perm_iff_count.2
    intro a
    simp only [rest,List.count_append]
    omega
  constructor
  · intro hinit
    obtain ⟨_,rfl⟩ := fs.doWope_init hinit hrun
    refine ⟨?_,rfl⟩
    have hs := hbefore.filter (fun wo => wo.2.wopeState = .init)
    have hs' := (hafter [(wo.1,{ wo.2 with wopeState := .onJournal })]).filter
      (fun wo => wo.2.wopeState = .init)
    rw [List.filter_cons_of_pos (by simpa using hinit)] at hs
    rw [List.singleton_append,List.filter_cons_of_neg (by simp)] at hs'
    exact hs.trans (hs'.symm.cons wo)
  · intro hinit
    obtain ⟨hobjs,hclock,queued,hqueued,hlater⟩ := fs.doWope_later hinit hrun
    refine ⟨?_,hobjs,hclock⟩
    have hs := hbefore.filter (fun wo => wo.2.wopeState = .init)
    have hs' := (hafter (n'.wopeLogs.map (fun wopelog => (wo.1,wopelog)))).filter
      (fun wo => wo.2.wopeState = .init)
    have hnone : (n'.wopeLogs.map (fun wopelog => (wo.1,wopelog))).filter
        (fun wo => wo.2.wopeState = .init) = [] := by
      apply List.filter_eq_nil_iff.2
      intro next hnext
      obtain ⟨wopelog,hm,rfl⟩ := List.mem_map.1 hnext
      rw [hqueued,List.nil_append] at hm
      simpa using hlater wopelog hm
    rw [List.filter_cons_of_neg (by simpa using hinit)] at hs
    rw [List.filter_append _ rest,hnone,List.nil_append] at hs'
    exact hs.trans hs'.symm

/-- The first `k` writes have been journaled, in the order of acceptance. -/
structure Ordered (fs : FileStore) (w₀ : World) (wopelogs : List WOpeLog) (s : Pipeline)
    (k : ℕ) : Prop where
  unwritten : s.unwritten.Perm ((numbered wopelogs).drop k)
  objs : s.world.objs = (w₀.inOrder fs (wopelogs.take k)).objs
  clock : s.world.clock = (w₀.inOrder fs (wopelogs.take k)).clock

variable {w₀ : World} {wopelogs : List WOpeLog} {k : ℕ}

lemma Ordered.move (h : s.Ordered fs w₀ wopelogs k) (hworld : s'.world = s.world)
    (hpending : s'.pending.Perm s.pending) : s'.Ordered fs w₀ wopelogs k :=
  ⟨(unwritten_perm hpending).trans h.unwritten,hworld ▸ h.objs,hworld ▸ h.clock⟩

/-- An init phase that is run in order is that of the next write. -/
lemma Ordered.journaled (h : s.Ordered fs w₀ wopelogs k)
    (hfirst : ∀ other ∈ s.unwritten, wo.1 ≤ other.1)
    (hperm : s.unwritten.Perm (wo::s'.unwritten))
    (hworld : s'.world = s.world.afterWOPE fs wo.2.wope) : s'.Ordered fs w₀ wopelogs (k+1) := by
  have hmem : wo ∈ (numbered wopelogs).drop k :=
    h.unwritten.mem_iff.1 (hperm.mem_iff.2 List.mem_cons_self)
  obtain ⟨hle,hget⟩ := mem_drop_numbered.1 hmem
  have hlt : k < wopelogs.length := hle.trans_lt (List.getElem?_eq_some_iff.1 hget).1
  have hnext : (k,wopelogs[k]) ∈ (numbered wopelogs).drop k :=
    mem_drop_numbered.2 ⟨le_rfl,List.getElem?_eq_getElem hlt⟩
  have hk : wo.1 = k := le_antisymm (hfirst _ (h.unwritten.mem_iff.2 hnext)) hle
  have hwo : wo = (k,wopelogs[k]) := by
    rw [hk,List.getElem?_eq_getElem hlt] at hget
    exact Prod.ext hk (Option.some.inj hget).symm
  subst hwo
  have hlen : k < (numbered wopelogs).length := by simpa [numbered] using hlt
  have hcons : (numbered wopelogs).drop k = (k,wopelogs[k])::(numbered wopelogs).drop (k+1) := by
    rw [List.drop_eq_getElem_cons hlen]
    simp [numbered]
  have htake : w₀.inOrder fs (wopelogs.take (k+1)) =
      (w₀.inOrder fs (wopelogs.take k)).afterWOPE fs wopelogs[k].wope := by
    rw [World.inOrder,World.inOrder,List.take_add_one,List.getElem?_eq_getElem hlt,
      List.foldl_append]
    rfl
  have hcongr := World.afterWOPE_congr fs wopelogs[k].wope h.objs h.clock
  refine ⟨?_,?_,?_⟩
  · apply List.Perm.cons_inv (a := (k,wopelogs[k]))
    rw [← hcons]
    exact hperm.symm.trans h.unwritten
  · rw [htake,hworld]
    exact hcongr.1
  · rw [htake,hworld]
    exact hcongr.2

theorem Ordered.next (h : s.Ordered fs w₀ wopelogs k) {m : Move} (hm : s.InOrder m)
    (hstep : s.step fs threads m = some s') : ∃ k, s'.Ordered fs w₀ wopelogs k := by
  cases m with
  | addWope =>
    cases hrequests : s.requests with
    | nil => simp [step,hrequests] at hstep
    | cons wo requests =>
      simp only [step,hrequests,Option.some.injEq] at hstep
      subst hstep
      refine ⟨k,h.move rfl ?_⟩
      apply List.perm_iff_count.2
      intro a
      simp only [pending,hrequests,List.count_append,List.count_cons,List.count_nil]
      omega
  | swap =>
    simp only [step] at hstep
    split at hstep
    · rename_i hwtmp
      cases hstep
      refine ⟨k,h.move rfl ?_⟩
      simp [pending,hwtmp]
    · cases hstep
  | enqueue =>
    cases hwtmp : s.wtmp with
    | nil => simp [step,hwtmp] at hstep
    | cons wo wtmp =>
      simp only [step,hwtmp,Option.some.injEq] at hstep
      subst hstep
      refine ⟨k,h.move rfl ?_⟩
      apply List.perm_iff_count.2
      intro a
      simp only [pending,hwtmp,List.count_append,List.count_cons,List.count_nil]
      omega
  | take =>
    cases hjobs : s.jobs with
    | nil => simp [step,hjobs] at hstep
    | cons wo jobs =>
      simp only [step,hjobs] at hstep
      split at hstep
      · cases hstep
        refine ⟨k,h.move rfl ?_⟩
        apply List.perm_iff_count.2
        intro a
        simp only [pending,hjobs,List.count_append,List.count_cons,List.count_nil]
        omega
      · cases hstep
  | run i =>
    cases hdrop : s.taken.drop i with
    | nil => simp [step,hdrop] at hstep
    | cons wo after =>
      simp only [step,hdrop] at hstep
      have htaken : s.taken = s.taken.take i ++ wo::after := by
        rw [← hdrop,List.take_append_drop]
      obtain ⟨hinit,hlater⟩ := doWope_spec htaken hstep
      by_cases hstate : wo.2.wopeState = .init
      · obtain ⟨hperm,hworld⟩ := hinit hstate
        exact ⟨k+1,h.journaled (hm wo (by simp [hdrop]) hstate) hperm hworld⟩
      · obtain ⟨hperm,hobjs,hclock⟩ := hlater hstate
        exact ⟨k,hperm.symm.trans h.unwritten,hobjs.trans h.objs,hclock.trans h.clock⟩

/-- A server that is to be sent these writes. -/
def receiving (w : World) (wopelogs : List WOpeLog) : Pipeline :=
  { world := w, requests := numbered wopelogs }

theorem Run.ordered (hinit : ∀ wopelog ∈ wopelogs, wopelog.wopeState = .init)
    (hrun : Run fs threads InOrder (receiving w₀ wopelogs) s) :
    ∃ k, s.Ordered fs w₀ wopelogs k := by
  induction hrun with
  | start =>
    refine ⟨0,?_,rfl,rfl⟩
    have hall : (numbered wopelogs).filter (fun wo => wo.2.wopeState = .init) =
        numbered wopelogs := by
      apply List.filter_eq_self.2
      intro wo hwo
      have hget := (mem_drop_numbered (k := 0).1 (by simpa using hwo)).2
      simpa using hinit wo.2 (List.mem_of_getElem? hget)
    simp [unwritten,pending,receiving,hall]
  | step m _ hm hstep ih =>
    obtain ⟨k,hk⟩ := ih
    exact hk.next hm hstep

/-- Once every write is finished, the lists are those that the writes leave when they are run
one after another in the order of acceptance. -/
theorem Run.finished (hinit : ∀ wopelog ∈ wopelogs, wopelog.wopeState = .init)
    (hrun : Run fs threads InOrder (receiving w₀ wopelogs) s) (hdone : s.pending = []) :
    s.world.objs = (w₀.inOrder fs wopelogs).objs := by
  obtain ⟨k,hk⟩ := hrun.ordered hinit
  have hnone : (numbered wopelogs).drop k = [] := by
    have hnil := hk.unwritten
    rw [unwritten,hdone] at hnil
    exact List.nil_perm.1 hnil
  have hlen : wopelogs.length ≤ k := by simpa [numbered] using List.drop_eq_nil_iff.1 hnone
  rw [hk.objs,List.take_of_length_le hlen]

end Pipeline

/-- Two writes, the second from the version the first writes: in every run that journals the
second after the first, its stored list has both writes' edits. -/
theorem stored_in_acceptance_order (fs : FileStore) {threads : ℕ} {w₀ : World}
    {first second : WOpeLog} {s : Pipeline} (hfirst : first.wopeState = .init)
    (hsecond : second.wopeState = .init)
    (hbase : second.wope.ghobj.key = first.wope.newGhobj.key)
    (hrun : Pipeline.Run fs threads Pipeline.InOrder (.receiving w₀ [first,second]) s)
    (hdone : s.pending = []) :
    s.world.objs.lookup second.wope.newGhobj.key =
      some ⟨w₀.editedInTurn first.wope second.wope⟩ := by
  have hinit : ∀ wopelog ∈ [first,second], wopelog.wopeState = .init := by
    intro wopelog hm
    rcases List.mem_pair.1 hm with rfl | rfl
    · exact hfirst
    · exact hsecond
  rw [hrun.finished hinit hdone]
  change (World.afterWOPE fs (World.afterWOPE fs w₀ first.wope) second.wope).objs.lookup _ = _
  rw [World.afterWOPE_lookup,if_pos rfl,World.newList_afterWOPE fs w₀ hbase]

/-- One block into version 1, from version 0. -/
def firstVersion : WOpeLog :=
  ⟨lit "1",⟨generation 0,generation 1,[.insert],[0],[lit "x"]⟩,{},.init⟩

/-- Version 2, which shares every block of version 1. -/
def nextVersion : WOpeLog := ⟨lit "2",⟨generation 1,generation 2,[],[],[]⟩,{},.init⟩

/-- Both writes go through a round of the dispatcher, and the workers run the jobs they took in
the given order. -/
def bothTaken (order : List Move) : List Move :=
  [.swap,.enqueue,.enqueue,.take,.take] ++ order

/-- A pool of two workers that run their jobs in the order they took them, in one round of the
dispatcher for each phase. -/
theorem stored_in_acceptance_order_two : ∃ s,
    Pipeline.Run sampleStore 2 Pipeline.InOrder
      (.receiving (World.fresh [7]) [firstVersion,nextVersion]) s ∧ s.pending = [] ∧
    s.world.objs.lookup (generation 2).key =
      some ⟨(World.fresh [7]).editedInTurn firstVersion.wope nextVersion.wope⟩ := by
  let start : Pipeline := .receiving (World.fresh [7]) [firstVersion,nextVersion]
  let round := bothTaken [.run 0,.run 0]
  have heval : (Pipeline.moves sampleStore 2 Pipeline.InOrder
      ([.addWope,.addWope] ++ round ++ round ++ round) start).map Pipeline.pending = some [] := by
    decide +kernel
  obtain ⟨s,hs,hpending⟩ := Option.map_eq_some_iff.1 heval
  have hrun := Pipeline.Run.of_moves .start hs
  exact ⟨s,hrun,hpending,stored_in_acceptance_order sampleStore rfl rfl rfl hrun hpending⟩

/-- The worker that took the second write runs it first: the base version is not stored yet and
is taken for an empty one. -/
theorem dependent_write_overtakes : ∃ (w₀ : World) (first second : WOpeLog) (s : Pipeline),
    first.wopeState = .init ∧ second.wopeState = .init ∧
    second.wope.ghobj.key = first.wope.newGhobj.key ∧
    first.wope.InRange (w₀.serials first.wope.ghobj.key).length ∧
    second.wope.InRange (w₀.newList first.wope).length ∧
    Pipeline.Run sampleStore 2 (fun _ _ => True) (.receiving w₀ [first,second]) s ∧
    s.pending = [] ∧
    s.world.objs.lookup second.wope.newGhobj.key = some ⟨[]⟩ ∧
    w₀.editedInTurn first.wope second.wope = [7] := by
  let start : Pipeline := .receiving (World.fresh [7]) [firstVersion,nextVersion]
  let round := bothTaken [.run 0,.run 0]
  have heval : (Pipeline.moves sampleStore 2 (fun _ _ => True)
      ([.addWope,.addWope] ++ bothTaken [.run 1,.run 0] ++ round ++ round) start).map
        (fun s => (s.pending,s.world.objs.lookup (generation 2).key)) = some ([],some ⟨[]⟩) := by
    decide +kernel
  obtain ⟨s,hs,hview⟩ := Option.map_eq_some_iff.1 heval
  obtain ⟨hpending,hlist⟩ := Prod.mk.inj hview
  exact ⟨World.fresh [7],firstVersion,nextVersion,s,rfl,rfl,rfl,
    ⟨rfl,rfl,by simp [firstVersion],by decide⟩,inRange_noEdits _ _ _,
    Pipeline.Run.of_moves .start hs,hpending,hlist,by decide⟩

end GDFileStore
