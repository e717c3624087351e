import GDFileStore.Blocks.Tidy
import GDFileStore.Arithmetic.Int32Range

/-! The reference counts after whole writes, each to a version of its own. The recorded count
is the number of occurrences in the machine's `int`, so it is exact until a block occurs
`2^31` times. -/
namespace GDFileStore
open Sequences Program Prog

namespace World
variable (fs : FileStore)

/-- Every recorded count is the number of occurrences, as an `int32_t`. -/
def Counted (w : World) : Prop := ∀ s, w.refCount s = Int32.ofNat (w.occurrences s)

lemma counted_fresh (clock : List Int64) : (fresh clock).Counted := by
  intro s
  simp [fresh,refCount,occurrences]

/-- A new block starts at zero and is in no list yet, so only the counting pass and the
publication matter, and they move both sides alike. -/
theorem Counted.afterWOPE {w : World} {wope : WOPE} (htidy : w.Tidy) (hw : w.Counted)
    (hnew : w.objs.lookup wope.newGhobj.key = none) : (w.afterWOPE fs wope).Counted := by
  intro s
  rw [afterWOPE_occurrences_of_none fs w wope hnew,afterWOPE_refCount,addBlocks_refCount,
    Int32.ofNat_add]
  split
  · next hs =>
    rw [occurrences_eq_zero (htidy.news_unlisted wope hs)]
    exact Int32.add_comm _ _
  · rw [hw s]
    exact Int32.add_comm _ _

end World

/-- The states after completed writes, one at a time, each to a version that has no list yet. -/
inductive Completed (fs : FileStore) (w₀ : World) : World → Prop
  | start : Completed fs w₀ w₀
  | write {w w' : World} (wopelog : WOpeLog) : Completed fs w₀ w →
      wopelog.wope.InRange (w.serials wopelog.wope.ghobj.key).length →
      w.objs.lookup wopelog.wope.newGhobj.key = none →
      run Request.handle (fs.doWOPE wopelog) w = some ((),w') → Completed fs w₀ w'

lemma Completed.tidy_counted {fs : FileStore} {w₀ w : World} (h : Completed fs w₀ w)
    (htidy : w₀.Tidy) (hcounted : w₀.Counted) : w.Tidy ∧ w.Counted := by
  induction h with
  | start => exact ⟨htidy,hcounted⟩
  | write wopelog _ _ hnew hrun ih =>
    obtain ⟨henough,rfl⟩ := fs.afterWOPE_of_run hrun
    exact ⟨ih.1.afterWOPE fs henough,ih.2.afterWOPE fs ih.1 hnew⟩

lemma count_of_completed (fs : FileStore) {clock : List Int64} {w : World} (hclock : clock.Nodup)
    (h : Completed fs (World.fresh clock) w) (s : Int64) (hs : w.occurrences s < 2^31) :
    (w.refCount s).toInt = w.occurrences s := by
  obtain ⟨_,hcounted⟩ := h.tidy_counted (World.tidy_fresh hclock) (World.counted_fresh clock)
  rw [hcounted s,Int32Range.toInt_ofNat_of_lt hs]

/-- After any number of completed writes, each to its own new version, a block that occurs
fewer than `2^31` times in the stored lists has exactly that number as its count. -/
theorem refCount_exact (fs : FileStore) {clock : List Int64} {w : World} (hclock : clock.Nodup)
    (h : Completed fs (World.fresh clock) w) (s : Int64) (hs : w.occurrences s < 2^31) :
    (w.refCount s).toInt = w.occurrences s :=
  count_of_completed fs hclock h s hs

/-- A first version of two blocks. -/
def firstTwo : WOpeLog :=
  ⟨[],⟨generation 0,generation 0,[.insert,.insert],[0,1],[lit "x",lit "y"]⟩,{},.init⟩

/-- A second version: a new block is dropped by the same write, and so is the second old one. -/
def dropTwo : WOpeLog :=
  ⟨[],⟨generation 0,generation 1,[.insert,.delete,.delete],[0,0,1],[lit "z",[],[]]⟩,{},.init⟩

/-- The exact counts of a shared block, of a block that the second version has no more, and of one
that no version has. -/
theorem refCount_exact_shared : ∃ w, Completed sampleStore (World.fresh [7,9,11]) w ∧
    (w.refCount 7).toInt = 2 ∧ (w.refCount 9).toInt = 1 ∧ (w.refCount 11).toInt = 0 := by
  let w1 := (World.fresh [7,9,11]).afterWOPE sampleStore firstTwo.wope
  let w2 := w1.afterWOPE sampleStore dropTwo.wope
  have hrange1 : firstTwo.wope.InRange
      ((World.fresh [7,9,11]).serials firstTwo.wope.ghobj.key).length :=
    ⟨rfl,rfl,by simp [firstTwo],by decide⟩
  have hrun1 := sampleStore.run_doWOPE firstTwo _ hrange1 (by decide)
  have hrange2 : dropTwo.wope.InRange (w1.serials dropTwo.wope.ghobj.key).length :=
    ⟨rfl,rfl,by simp [dropTwo],by decide⟩
  have hrun2 := sampleStore.run_doWOPE dropTwo w1 hrange2 (by decide)
  have hcompleted : Completed sampleStore (World.fresh [7,9,11]) w2 :=
    .write dropTwo (.write firstTwo .start hrange1 rfl hrun1) hrange2 (by decide) hrun2
  have hexact := refCount_exact sampleStore (by decide) hcompleted
  have hshared : w2.occurrences 7 = 2 := by decide
  have hkept : w2.occurrences 9 = 1 := by decide
  have hdropped : w2.occurrences 11 = 0 := by decide
  refine ⟨w2,hcompleted,?_,?_,?_⟩
  · rw [hexact 7 (by omega),hshared]
    rfl
  · rw [hexact 9 (by omega),hkept]
    rfl
  · rw [hexact 11 (by omega),hdropped]
    rfl

/-- One block after `n` further versions that share it. -/
lemma shared_by (n : ℕ) (hn : n < 2^31) : ∃ w, Completed sampleStore (World.fresh [7]) w ∧
    w.occurrences 7 = n+1 ∧ w.serials (generation 0).key = [7] ∧
    ∀ k, n < k → k < 2^32 → w.objs.lookup (generation k).key = none := by
  induction n with
  | zero =>
    have hrange : firstWrite.wope.InRange
        ((World.fresh [7]).serials firstWrite.wope.ghobj.key).length :=
      ⟨rfl,rfl,by simp [firstWrite],by decide⟩
    have hrun := sampleStore.run_doWOPE firstWrite _ hrange (by decide)
    have hnone : (World.fresh [7]).objs.lookup firstWrite.wope.newGhobj.key = none := rfl
    have hlist : (World.fresh [7]).newList firstWrite.wope = [7] := by decide
    refine ⟨_,.write firstWrite .start hrange hnone hrun,?_,?_,?_⟩
    · rw [World.afterWOPE_occurrences_of_none _ _ _ hnone,hlist]
      rfl
    · rw [World.afterWOPE_serials]
      exact (if_pos rfl).trans hlist
    · intro k hk hk'
      rw [World.afterWOPE_lookup]
      exact if_neg (generation_key_ne (by omega) (by omega) (by omega))
  | succ n ih =>
    obtain ⟨w,hw,hocc,hbase,hfree⟩ := ih (by omega)
    have hrun := sampleStore.run_doWOPE (shareWrite (n+1)) w
      (inRange_noEdits _ _ _) (by simp [World.Enough,WOPE.edits,shareWrite,toEdits])
    have hnone : w.objs.lookup (shareWrite (n+1)).wope.newGhobj.key = none :=
      hfree (n+1) (by omega) (by omega)
    have hlist : w.newList (shareWrite (n+1)).wope = [7] := (newList_noEdits _ _ _).trans hbase
    refine ⟨_,.write (shareWrite (n+1)) hw (inRange_noEdits _ _ _) hnone hrun,?_,?_,?_⟩
    · rw [World.afterWOPE_occurrences_of_none _ _ _ hnone,hlist,hocc]
      simp [Nat.add_comm]
    · rw [World.afterWOPE_serials,hbase,hlist,ite_self]
    · intro k hk hk'
      rw [World.afterWOPE_lookup]
      exact (if_neg (generation_key_ne (by omega) (by omega) (by omega))).trans
        (hfree k (by omega) hk')

/-- The `2^31`-th version that shares a block wraps its count. -/
theorem refCount_wraps : ∃ (w : World) (s : Int64), Completed sampleStore (World.fresh [7]) w ∧
    (w.refCount s).toInt ≠ w.occurrences s := by
  obtain ⟨w,hw,hocc,_⟩ := shared_by (2^31-1) (by omega)
  have hcounted := (hw.tidy_counted (World.tidy_fresh (by decide)) (World.counted_fresh _)).2
  refine ⟨w,7,hw,?_⟩
  rw [hcounted 7,hocc]
  decide

end GDFileStore
