import GDFileStore.Journal.Calls

/-! Calls of many threads, each of which appends one operation and flushes: an appended operation is
pending in the journal, in the hands of one flush, or written. -/
namespace GDFileStore
open Sequences Program Prog Operation

namespace Journal
variable (journal : Journal)

def appends : JournalTask Operation → Bool
  | .call (.add _) _ => true
  | _ => false

def clears : JournalTask Operation → Bool
  | .call .clear _ => true
  | _ => false

/-- No thread appends while another has grouped `wOpes` and not yet cleared it. -/
def NoAppendBeforeClear (p : JournalTask Operation) (others : List (JournalTask Operation)) : Prop :=
  appends p = true → ∀ q ∈ others, clears q = false

instance (p : JournalTask Operation) (others : List (JournalTask Operation)) :
    Decidable (NoAppendBeforeClear p others) := inferInstanceAs (Decidable (_ → _))

/-- The operations in all contents that were written, each with the file it went to. -/
def written (flushed : List FlushedContent) : List (Bytes × Operation) :=
  flushed.flatMap (fun r => r.opes.map (fun ope => (r.path,ope)))

/-- How often an operation has been written into the file of its object. -/
def timesWritten (s : JournalState) (op : Operation) : ℕ :=
  (written s.flushed).count (journal.path op.obj,op)

/-- The calls of an operation that have appended it, and those that have returned. -/
def callsAppended (views : List CallView) (op : Operation) : ℕ :=
  views.countP (fun v => v.op = op && v.stage.appended)

def callsReturned (views : List CallView) (op : Operation) : ℕ :=
  views.countP (fun v => v.op = op && v.stage.ended)

/-- How often a flush has still to write an operation. -/
def timesInHand (views : List CallView) (op : Operation) : ℕ :=
  (views.flatMap (fun v => v.stage.inHand)).count (journal.path op.obj,op)

section counts
variable (v : CallView) (views : List CallView) (op : Operation)

lemma callsAppended_cons : callsAppended (v::views) op =
    callsAppended views op+if v.op = op then v.stage.appended.toNat else 0 := by
  rw [callsAppended,List.countP_cons,← callsAppended]
  by_cases h : v.op = op <;> cases hs : v.stage.appended <;> simp [h]

lemma callsReturned_cons : callsReturned (v::views) op =
    callsReturned views op+if v.op = op then v.stage.ended.toNat else 0 := by
  rw [callsReturned,List.countP_cons,← callsReturned]
  by_cases h : v.op = op <;> cases hs : v.stage.ended <;> simp [h]

lemma timesInHand_cons : journal.timesInHand (v::views) op =
    v.stage.inHand.count (journal.path op.obj,op)+journal.timesInHand views op := by
  rw [timesInHand,List.flatMap_cons,List.count_append,timesInHand]

lemma timesWritten_write (s : JournalState) (path content : Bytes) (opes : List Operation) :
    journal.timesWritten (s.write path content opes) op = journal.timesWritten s op+
      (opes.map (fun ope => (path,ope))).count (journal.path op.obj,op) := by
  simp only [timesWritten,written,JournalState.write,List.flatMap_append,List.flatMap_singleton,
    List.count_append]

/-- What has returned has appended. -/
lemma callsReturned_le : callsReturned views op ≤ callsAppended views op := by
  apply List.countP_mono_left
  intro v _ hv
  cases hstage : v.stage <;> simp_all [FlushStage.appended,FlushStage.ended]

end counts

/-- One flush at a time, which takes all of `wOpes`; every appended operation is pending, in hand or
written, and a flush that has taken its operations covers its own call and all that have
returned. -/
structure FlushInv (ops : List Operation) (views : List CallView) (s : JournalState) : Prop where
  known : ∀ op ∈ s.wOpes, op ∈ ops
  called : ∀ v ∈ views, v.op ∈ ops
  held : views.countP (fun v => v.stage.holds) = if s.locked then 1 else 0
  grouped : ∀ v ∈ views, ∀ todo, v.stage = .clearing todo →
    ∀ op, s.wOpes.count op ≤ todo.count (journal.path op.obj,op)
  appended : ∀ op, callsAppended views op ≤
    s.wOpes.count op+journal.timesInHand views op+journal.timesWritten s op
  covered : ∀ v ∈ views, ∀ todo, v.stage = .writing todo → ∀ op,
    callsReturned views op+(if v.op = op then 1 else 0) ≤
      todo.count (journal.path op.obj,op)+journal.timesWritten s op
  returned : ∀ op, callsReturned views op ≤ journal.timesWritten s op
  made : ∀ r ∈ s.flushed, ∃ v, v.tail = r.opes ∧ combined v = some r.content

namespace FlushInv
variable {journal} {ops : List Operation} {views others : List CallView} {s : JournalState}
  {op : Operation}

lemma perm {us vs : List CallView} {s : JournalState} (hperm : us.Perm vs)
    (h : journal.FlushInv ops us s) : journal.FlushInv ops vs s where
  known := h.known
  called v hv := h.called v (hperm.mem_iff.2 hv)
  held := by rw [← hperm.countP_eq,h.held]
  grouped v hv := h.grouped v (hperm.mem_iff.2 hv)
  appended o := by
    have hhand := (hperm.flatMap_right (fun v => v.stage.inHand)).count_eq (journal.path o.obj,o)
    rw [callsAppended,timesInHand,← hperm.countP_eq,← hhand]
    exact h.appended o
  covered v hv todo htodo o := by
    rw [callsReturned,← hperm.countP_eq]
    exact h.covered v (hperm.mem_iff.2 hv) todo htodo o
  returned o := by
    rw [callsReturned,← hperm.countP_eq]
    exact h.returned o
  made := h.made

/-- Calls that have not begun. -/
lemma begin (files : Bytes → Option Bytes) :
    journal.FlushInv ops (ops.map (fun op => ⟨op,.adding⟩)) { files := files } where
  known := by simp
  called := by
    intro v hv
    obtain ⟨o,ho,rfl⟩ := List.mem_map.1 hv
    exact ho
  held := by
    rw [List.countP_map,if_neg Bool.false_ne_true]
    exact List.countP_eq_zero.2 (fun _ _ => Bool.false_ne_true)
  grouped := by
    intro v hv todo htodo
    obtain ⟨o,_,rfl⟩ := List.mem_map.1 hv
    cases htodo
  appended := by
    intro o
    have hzero : callsAppended (ops.map (fun op => ⟨op,.adding⟩)) o = 0 := by
      rw [callsAppended,List.countP_map]
      exact List.countP_eq_zero.2 (fun _ _ => by simp [FlushStage.appended])
    rw [hzero]
    exact Nat.zero_le _
  covered := by
    intro v hv todo htodo
    obtain ⟨o,_,rfl⟩ := List.mem_map.1 hv
    cases htodo
  returned := by
    intro o
    have hzero : callsReturned (ops.map (fun op => ⟨op,.adding⟩)) o = 0 := by
      rw [callsReturned,List.countP_map]
      exact List.countP_eq_zero.2 (fun _ _ => by simp [FlushStage.ended])
    rw [hzero]
    exact Nat.zero_le _
  made := by simp

/-- While one call holds the lock no other does. -/
lemma alone {v : CallView} (h : journal.FlushInv ops (v::others) s) (hv : v.stage.holds = true) :
    s.locked = true ∧ ∀ u ∈ others, u.stage.holds = false := by
  have hheld := h.held
  rw [List.countP_cons,if_pos hv] at hheld
  cases hlocked : s.locked with
  | false => simp [hlocked] at hheld
  | true =>
    refine ⟨rfl,?_⟩
    have hzero : others.countP (fun u => u.stage.holds) = 0 := by
      rw [hlocked,if_pos rfl] at hheld
      omega
    intro u hu
    simpa using List.countP_eq_zero.1 hzero u hu

/-- Nothing of the others is grouped or in hand then. -/
lemma others_idle {v : CallView} (h : journal.FlushInv ops (v::others) s)
    (hv : v.stage.holds = true) : (∀ u ∈ others, ∀ todo, u.stage ≠ .clearing todo) ∧
      (∀ u ∈ others, ∀ todo, u.stage ≠ .writing todo) ∧
      ∀ op, journal.timesInHand others op = 0 := by
  have hfree := (h.alone hv).2
  refine ⟨?_,?_,?_⟩
  · intro u hu todo hstage
    have hholds := hfree u hu
    simp [hstage,FlushStage.holds] at hholds
  · intro u hu todo hstage
    have hholds := hfree u hu
    simp [hstage,FlushStage.holds] at hholds
  · intro o
    have hnil : others.flatMap (fun u => u.stage.inHand) = [] := by
      rw [List.flatMap_eq_nil_iff]
      intro u hu
      have hholds := hfree u hu
      cases hstage : u.stage <;> simp_all [FlushStage.holds,FlushStage.inHand]
    rw [timesInHand,hnil,List.count_nil]

section steps
variable {stage stage' : FlushStage}

lemma called_move (h : journal.FlushInv ops (⟨op,stage⟩::others) s) :
    ∀ v ∈ (⟨op,stage'⟩::others : List CallView), v.op ∈ ops := by
  intro v hv
  rcases List.mem_cons.1 hv with rfl | hv
  · exact h.called ⟨op,stage⟩ List.mem_cons_self
  · exact h.called v (List.mem_cons_of_mem _ hv)

/-- What is asked of a call that has grouped stays true while another moves that has not. -/
lemma grouped_move (h : journal.FlushInv ops (⟨op,stage⟩::others) s)
    (hstage : ∀ todo, stage' ≠ .clearing todo) :
    ∀ v ∈ (⟨op,stage'⟩::others : List CallView), ∀ todo, v.stage = .clearing todo →
      ∀ o, s.wOpes.count o ≤ todo.count (journal.path o.obj,o) := by
  intro v hv todo htodo
  rcases List.mem_cons.1 hv with rfl | hv
  · exact absurd htodo (hstage todo)
  · exact h.grouped v (List.mem_cons_of_mem _ hv) todo htodo

/-- And so does what is asked of one that writes, until another returns. -/
lemma covered_move (h : journal.FlushInv ops (⟨op,stage⟩::others) s)
    (hstage : ∀ todo, stage' ≠ .writing todo) (hended : stage'.ended = stage.ended) :
    ∀ v ∈ (⟨op,stage'⟩::others : List CallView), ∀ todo, v.stage = .writing todo → ∀ o,
      callsReturned (⟨op,stage'⟩::others) o+(if v.op = o then 1 else 0) ≤
        todo.count (journal.path o.obj,o)+journal.timesWritten s o := by
  intro v hv todo htodo o
  rcases List.mem_cons.1 hv with rfl | hv
  · exact absurd htodo (hstage todo)
  · have hcovered := h.covered v (List.mem_cons_of_mem _ hv) todo htodo o
    rw [callsReturned_cons] at hcovered ⊢
    rwa [hended]

/-- An append adds one to what is appended and to what is pending. -/
lemma add (h : journal.FlushInv ops (⟨op,.adding⟩::others) s)
    (hclear : ∀ u ∈ others, ∀ todo, u.stage ≠ .clearing todo) :
    journal.FlushInv ops (⟨op,.locking⟩::others) { s with wOpes := s.wOpes ++ [op] } where
  known o ho := by
    rcases List.mem_append.1 ho with hold | hnew
    · exact h.known o hold
    · rw [List.mem_singleton.1 hnew]
      exact h.called ⟨op,.adding⟩ List.mem_cons_self
  called := h.called_move
  held := h.held
  grouped v hv todo htodo := by
    rcases List.mem_cons.1 hv with rfl | hv
    · cases htodo
    · exact absurd htodo (hclear v hv todo)
  appended o := by
    have hold := h.appended o
    simp only [callsAppended_cons,timesInHand_cons,FlushStage.appended,FlushStage.inHand,
      List.count_nil,List.count_append,List.count_singleton] at hold ⊢
    simp only [timesWritten] at hold ⊢
    by_cases ho : op = o <;> simp [ho] at hold ⊢ <;> omega
  covered := h.covered_move nofun rfl
  returned o := h.returned o
  made := h.made

lemma lock (h : journal.FlushInv ops (⟨op,.locking⟩::others) s) (hfree : s.locked = false) :
    journal.FlushInv ops (⟨op,.grouping⟩::others) { s with locked := true } where
  known := h.known
  called := h.called_move
  held := by
    have hheld := h.held
    simp only [List.countP_cons,FlushStage.holds,hfree] at hheld ⊢
    simpa using hheld
  grouped := h.grouped_move nofun
  appended o := h.appended o
  covered := h.covered_move nofun rfl
  returned o := h.returned o
  made := h.made

/-- The groups hold all that is pending. -/
lemma group (h : journal.FlushInv ops (⟨op,.grouping⟩::others) s) (hfile : OneFile ops) :
    journal.FlushInv ops (⟨op,.clearing
      (journal.toWrite (journal.groupOperations s.files s.wOpes).entries)⟩::others) s where
  known := h.known
  called := h.called_move
  held := h.held
  grouped v hv todo htodo o := by
    rcases List.mem_cons.1 hv with rfl | hv
    · cases htodo
      exact journal.count_toWrite
        (fun a ha b hb => hfile a (h.known a ha) b (h.known b hb)) o
    · exact absurd htodo ((h.others_idle rfl).1 v hv todo)
  appended o := h.appended o
  covered := h.covered_move nofun rfl
  returned o := h.returned o
  made := h.made

/-- What was pending is in hand. The call that flushes has appended its own operation, and so have
all that have returned. -/
lemma clear {todo : List (Bytes × Operation)}
    (h : journal.FlushInv ops (⟨op,.clearing todo⟩::others) s) :
    journal.FlushInv ops (⟨op,.writing todo⟩::others) { s with wOpes := [] } where
  known := by simp
  called := h.called_move
  held := h.held
  grouped v hv todo' htodo := by
    rcases List.mem_cons.1 hv with rfl | hv
    · cases htodo
    · exact absurd htodo ((h.others_idle rfl).1 v hv todo')
  appended o := by
    have happended := h.appended o
    have hgrouped := h.grouped _ List.mem_cons_self todo rfl o
    simp only [timesInHand_cons,(h.others_idle rfl).2.2 o,FlushStage.inHand,List.count_nil,
      callsAppended_cons,FlushStage.appended,timesWritten] at happended ⊢
    omega
  covered v hv todo' htodo o := by
    rcases List.mem_cons.1 hv with rfl | hv
    · cases htodo
      have happended := h.appended o
      have hgrouped := h.grouped _ List.mem_cons_self todo rfl o
      have hreturned := callsReturned_le others o
      simp only [timesInHand_cons,(h.others_idle rfl).2.2 o,FlushStage.inHand,List.count_nil,
        callsAppended_cons,callsReturned_cons,FlushStage.appended,FlushStage.ended,timesWritten] at happended ⊢
      by_cases ho : op = o <;> simp [ho] at happended ⊢ <;> omega
    · exact absurd htodo ((h.others_idle rfl).2.1 v hv todo')
  returned o := h.returned o
  made := h.made

lemma files (h : journal.FlushInv ops views s) (files : Bytes → Option Bytes) :
    journal.FlushInv ops views { s with files := files } :=
  ⟨h.known,h.called,h.held,h.grouped,h.appended,h.covered,h.returned,h.made⟩

/-- What is written is no longer in hand. -/
lemma write {path content : Bytes} {opes : List Operation} {later : List (Bytes × Operation)}
    (hmade : ∃ v, v.tail = opes ∧ combined v = some content)
    (h : journal.FlushInv ops
      (⟨op,.writing (opes.map (fun ope => (path,ope)) ++ later)⟩::others) s) :
    journal.FlushInv ops (⟨op,.writing later⟩::others) (s.write path content opes) where
  known := h.known
  called := h.called_move
  held := h.held
  grouped := h.grouped_move nofun
  appended o := by
    have happended := h.appended o
    simp only [timesInHand_cons,FlushStage.inHand,List.count_append,callsAppended_cons,
      FlushStage.appended,timesWritten_write,JournalState.write_wOpes] at happended ⊢
    omega
  covered v hv todo htodo o := by
    rcases List.mem_cons.1 hv with rfl | hv
    · cases htodo
      have hcovered := h.covered _ List.mem_cons_self _ rfl o
      simp only [callsReturned_cons,FlushStage.ended,List.count_append,timesWritten_write]
        at hcovered ⊢
      omega
    · exact absurd htodo ((h.others_idle rfl).2.1 v hv todo)
  returned o := by
    have hreturned := h.returned o
    simp only [callsReturned_cons,FlushStage.ended,timesWritten_write]
      at hreturned ⊢
    omega
  made r hr := by
    rcases List.mem_append.1 hr with hold | hnew
    · exact h.made r hold
    · rw [List.mem_singleton.1 hnew]
      exact hmade

/-- A flush with nothing left in hand has written what it covers. -/
lemma unlock (h : journal.FlushInv ops (⟨op,.writing []⟩::others) s) :
    journal.FlushInv ops (⟨op,.returned⟩::others) { s with locked := false } where
  known := h.known
  called := h.called_move
  held := by
    have hheld := h.held
    rw [(h.alone rfl).1] at hheld
    simp only [List.countP_cons,FlushStage.holds] at hheld ⊢
    simpa using hheld
  grouped := h.grouped_move nofun
  appended o := h.appended o
  covered v hv todo htodo := by
    rcases List.mem_cons.1 hv with rfl | hv
    · cases htodo
    · exact absurd htodo ((h.others_idle rfl).2.1 v hv todo)
  returned o := by
    have hcovered := h.covered _ List.mem_cons_self _ rfl o
    simp only [callsReturned_cons,FlushStage.ended,List.count_nil,timesWritten] at hcovered ⊢
    by_cases ho : op = o <;> simp [ho] at hcovered ⊢ <;> omega
  made := h.made

end steps
end FlushInv

section run
variable {journal} {ops : List Operation}

/-- A call that has grouped clears next. -/
lemma clears_of_clearing {p : JournalTask Operation} {v : CallView}
    (h : Follows journal.callProtocol p v Returned) {todo : List (Bytes × Operation)}
    (hv : v.stage = .clearing todo) : clears p = true := by
  cases p with
  | done a =>
    obtain rfl : v = ⟨a,.returned⟩ := h
    cases hv
  | call r rest =>
    have hallowed : callAllowed v r := h.1
    cases r with
    | clear => rfl
    | _ =>
      simp only [callAllowed,hv] at hallowed

/-- One request of one call, beside any others. -/
theorem FlushInv.step (hfile : OneFile ops)
    {others : Seen JournalRequest.Resp Operation CallView} {v : CallView} {r : JournalRequest}
    {s s' : JournalState} {answer : r.Resp}
    (hstep : SeenStep journal.callProtocol journal.handle NoAppendBeforeClear Returned others v r s
      s' answer)
    (h : journal.FlushInv ops (v::others.views) s) :
    journal.FlushInv ops (journal.callProtocol.next v r answer::others.views) s' := by
  obtain ⟨hfollow,hallowed,⟨rest,hmay⟩,hop⟩ := hstep
  obtain ⟨op,stage⟩ := v
  -- One case for each request the protocol allows at each stage.
  cases stage with
  | adding =>
    cases r with
    | add opes =>
      obtain rfl : opes = [op] := hallowed
      cases hop
      apply h.add
      intro u hu todo hclearing
      obtain ⟨t,ht,rfl⟩ := List.mem_map.1 hu
      have hfalse := hmay rfl t.1 (List.mem_map_of_mem ht)
      rw [clears_of_clearing (hfollow t ht) hclearing] at hfalse
      cases hfalse
    | _ => exact hallowed.elim
  | locking =>
    cases r with
    | lock =>
      cases hlocked : s.locked with
      | true => simp [handle,hlocked] at hop
      | false =>
        simp only [handle,hlocked,Bool.false_eq_true,if_false,Option.some.injEq,
          Prod.mk.injEq] at hop
        obtain ⟨-,rfl⟩ := hop
        exact h.lock hlocked
    | _ => exact hallowed.elim
  | grouping =>
    cases r with
    | group =>
      cases hop
      exact h.group hfile
    | _ => exact hallowed.elim
  | clearing todo =>
    cases r with
    | clear =>
      cases hop
      exact h.clear
    | _ => exact hallowed.elim
  | writing todo =>
    cases r with
    | openFile path =>
      cases hop
      exact h.files _
    | writeContent path content opes =>
      obtain ⟨hmade,later,rfl⟩ := hallowed
      cases hop
      have hdrop : (opes.map (fun ope => (path,ope)) ++ later).drop opes.length = later := by
        rw [List.drop_left' (List.length_map _)]
      change journal.FlushInv ops (⟨op,.writing ((opes.map _ ++ later).drop opes.length)⟩::_) _
      rw [hdrop]
      exact h.write hmade
    | unlock =>
      obtain rfl : todo = [] := hallowed
      cases hop
      exact h.unlock
    | outOfRange => cases hop
    | _ => exact hallowed.elim
  | returned => exact (show False by cases r <;> exact hallowed).elim

lemma count_results {ts : Seen JournalRequest.Resp Operation CallView}
    (hfollow : ∀ t ∈ ts, Follows journal.callProtocol t.1 t.2 Returned) (op : Operation) :
    (ts.programs.filterMap Prog.result?).count op ≤ callsReturned ts.views op := by
  induction ts with
  | nil => exact Nat.zero_le _
  | cons t ts ih =>
    obtain ⟨p,v⟩ := t
    have hrest := ih (fun u hu => hfollow u (List.mem_cons_of_mem _ hu))
    have hviews : Seen.views ((p,v)::ts) = v::Seen.views ts := rfl
    have hprograms : Seen.programs ((p,v)::ts) = p::Seen.programs ts := rfl
    rw [hviews,hprograms,callsReturned_cons]
    cases p with
    | done a =>
      obtain rfl : v = ⟨a,.returned⟩ := hfollow _ List.mem_cons_self
      have hresult : Prog.result? (.done a : JournalTask Operation) = some a := rfl
      rw [List.filterMap_cons_some hresult,List.count_cons]
      simp only [FlushStage.ended,Bool.toNat_true,beq_iff_eq]
      split_ifs <;> omega
    | call r rest =>
      have hresult : Prog.result? (.call r rest : JournalTask Operation) = none := rfl
      rw [List.filterMap_cons_none hresult]
      omega

end run

/-- In every run in which no append comes between a grouping loop and its `clear`, and objects that
share a group share a file: every content that was written is combined from its operations, and the
contents written into the file of an operation's object contain it as often as calls with it have
returned. -/
theorem returned_written {ops : List Operation} (hfile : OneFile ops) (files : Bytes → Option Bytes)
    {ps : List (JournalTask Operation)} {s : JournalState}
    (hrun : PoolRun journal.handle NoAppendBeforeClear (ops.map journal.call) { files := files } ps
      s) :
    (∀ r ∈ s.flushed, ∃ v, v.tail = r.opes ∧ combined v = some r.content) ∧
      ∀ op, (ps.filterMap Prog.result?).count op ≤ journal.timesWritten s op := by
  let ts₀ : Seen JournalRequest.Resp Operation CallView :=
    ops.map (fun op => (journal.call op,⟨op,.adding⟩))
  have hprograms : ts₀.programs = ops.map journal.call := by simp [ts₀,Seen.programs]
  have hviews : ts₀.views = ops.map (fun op => ⟨op,.adding⟩) := by simp [ts₀,Seen.views]
  have hfollow : ∀ t ∈ ts₀, Follows journal.callProtocol t.1 t.2 Returned := by
    intro t ht
    obtain ⟨o,_,rfl⟩ := List.mem_map.1 ht
    exact journal.call_follows o
  have hbegin : journal.FlushInv ops ts₀.views { files := files } := by
    rw [hviews]
    exact .begin files
  rw [← hprograms] at hrun
  obtain ⟨ts,rfl,hts,hinv⟩ := PoolRun.invariant (journal.FlushInv ops) FlushInv.perm
    (FlushInv.step hfile) hfollow hbegin hrun
  exact ⟨hinv.made,fun op => (count_results hts op).trans (hinv.returned op)⟩

def samplePair : List Operation :=
  [OperationWrapper.appendWrapper (generation 1) (lit "a"),
    OperationWrapper.appendWrapper (generation 2) (lit "b")]

/-- Two calls, of which the first flushes both operations. -/
theorem returned_written_pair : ∃ ps s,
    PoolRun sampleJournal.handle NoAppendBeforeClear (samplePair.map sampleJournal.call) {} ps s ∧
      ps.filterMap Prog.result? = samplePair ∧
      ∀ op, samplePair.count op ≤ sampleJournal.timesWritten s op := by
  have horder : (schedule sampleJournal.handle NoAppendBeforeClear [0,1,0,0,0,0,0,0,0,0,1,1,1,1]
      (samplePair.map sampleJournal.call) {}).map (fun r => r.1.filterMap Prog.result?) =
      some samplePair := by decide +kernel
  obtain ⟨⟨ps,s⟩,hs,hreturned⟩ := Option.map_eq_some_iff.1 horder
  have hrun := PoolRun.of_schedule .start hs
  refine ⟨ps,s,hrun,hreturned,?_⟩
  have hfile : OneFile samplePair := by
    unfold OneFile
    decide +kernel
  have hle := (sampleJournal.returned_written hfile (fun _ => none) hrun).2
  rwa [hreturned] at hle

/-- The second call appends after the first has grouped: the first clears that operation away, and
the second flushes nothing. -/
theorem append_lost : ∃ (ops : List Operation) (ps : List (JournalTask Operation))
    (s : JournalState) (op : Operation),
    PoolRun sampleJournal.handle (fun _ _ => True) (ops.map sampleJournal.call) {} ps s ∧
      op ∈ ps.filterMap Prog.result? ∧ sampleJournal.timesWritten s op = 0 ∧ s.wOpes = [] ∧
      s.files (sampleJournal.path op.obj) = none := by
  have horder : (schedule sampleJournal.handle (fun _ _ => True) [0,0,0,1,0,0,0,0,1,1,1,1]
      (samplePair.map sampleJournal.call) {}).map (fun r =>
        (r.1.filterMap Prog.result?,
          sampleJournal.timesWritten r.2 (OperationWrapper.appendWrapper (generation 2) (lit "b")),
          r.2.wOpes,r.2.files (sampleJournal.path (generation 2)))) =
      some (samplePair,0,[],none) := by decide +kernel
  obtain ⟨⟨ps,s⟩,hs,hresult⟩ := Option.map_eq_some_iff.1 horder
  simp only [Prod.mk.injEq] at hresult
  obtain ⟨hreturned,hwritten,hwOpes,hfile⟩ := hresult
  refine ⟨samplePair,ps,s,_,PoolRun.of_schedule .start hs,?_,hwritten,hwOpes,hfile⟩
  rw [hreturned]
  exact List.mem_cons_of_mem _ List.mem_cons_self

end Journal
end GDFileStore
