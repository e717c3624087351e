import GDFileStore.Blocks.Counts

/-! The reference counts of writes that store a list over an existing version, as a write that is
sent again does. Nothing ever lowers a count, so each keeps the references of the replaced
lists. -/
namespace GDFileStore
open Sequences Program Prog

/-- The runs of completed writes, one at a time, each with the list that its version had before. -/
inductive Rewritten (fs : FileStore) (w₀ : World) : List (List Int64) → World → Prop
  | start : Rewritten fs w₀ [] w₀
  | write {replaced : List (List Int64)} {w w' : World} (wopelog : WOpeLog) :
      Rewritten fs w₀ replaced w →
      wopelog.wope.InRange (w.serials wopelog.wope.ghobj.key).length →
      run Request.handle (fs.doWOPE wopelog) w = some ((),w') →
      Rewritten fs w₀ (replaced ++ [w.serials wopelog.wope.newGhobj.key]) w'

/-- The counts after the lists in `replaced` have been replaced. -/
structure CountedWith (replaced : List (List Int64)) (w : World) : Prop where
  unreplaced : ∀ s ∈ w.clock, s ∉ replaced.flatten
  counts : ∀ s, w.refCount s = Int32.ofNat (w.occurrences s+replaced.flatten.count s)

namespace CountedWith
variable {replaced : List (List Int64)} {w : World}

lemma fresh (clock : List Int64) : CountedWith [] (World.fresh clock) where
  unreplaced := fun _ _ => List.not_mem_nil
  counts := World.counted_fresh clock

/-- What the new list adds to the occurrences the counting pass adds to the counts, and what the
publication takes away the replaced lists keep. -/
theorem afterWOPE (fs : FileStore) {wope : WOPE} (htidy : w.Tidy) (h : CountedWith replaced w) :
    CountedWith (replaced ++ [w.serials wope.newGhobj.key]) (w.afterWOPE fs wope) where
  unreplaced := by
    intro s hs hmem
    rw [World.afterWOPE_clock] at hs
    have hclock : s ∈ w.clock := List.mem_of_mem_drop hs
    rw [List.flatten_concat] at hmem
    rcases List.mem_append.1 hmem with hold | hlist
    · exact h.unreplaced s hclock hold
    · exact htidy.unlisted s hclock ⟨_,hlist⟩
  counts := by
    intro s
    have hocc := World.afterWOPE_occurrences fs w wope s
    have htotal : (w.afterWOPE fs wope).occurrences s+
        (replaced ++ [w.serials wope.newGhobj.key]).flatten.count s =
        w.occurrences s+replaced.flatten.count s+(w.newList wope).count s := by
      rw [List.flatten_concat,List.count_append]
      omega
    rw [htotal,World.afterWOPE_refCount,World.addBlocks_refCount,Int32.ofNat_add]
    split
    · next hnew =>
      have hclock := World.mem_clock_of_mem_news wope hnew
      rw [World.occurrences_eq_zero (htidy.news_unlisted wope hnew),
        List.count_eq_zero_of_not_mem (h.unreplaced s hclock)]
      rfl
    · rw [h.counts s]

end CountedWith

lemma Rewritten.tidy_counted {fs : FileStore} {clock : List Int64} {replaced : List (List Int64)}
    {w : World} (hclock : clock.Nodup) (h : Rewritten fs (World.fresh clock) replaced w) :
    w.Tidy ∧ CountedWith replaced w := by
  induction h with
  | start => exact ⟨World.tidy_fresh hclock,.fresh clock⟩
  | write wopelog _ _ hrun ih =>
    obtain ⟨henough,rfl⟩ := fs.afterWOPE_of_run hrun
    exact ⟨ih.1.afterWOPE fs henough,ih.2.afterWOPE fs ih.1⟩

lemma count_of_rewritten (fs : FileStore) {clock : List Int64}
    {replaced : List (List Int64)} {w : World} (hclock : clock.Nodup)
    (h : Rewritten fs (World.fresh clock) replaced w) (s : Int64) :
    w.refCount s = Int32.ofNat (w.occurrences s+replaced.flatten.count s) ∧
    (¬w.Listed s → (w.refCount s = 0 ↔ 2^32 ∣ replaced.flatten.count s)) := by
  have hcount := (h.tidy_counted hclock).2.counts s
  refine ⟨hcount,fun hunlisted => ?_⟩
  rw [hcount,World.occurrences_eq_zero hunlisted,Nat.zero_add,Int32Range.ofNat_eq_zero_iff]

/-- A count is, as an `int32_t`, the number of occurrences in the stored lists and in all that
were replaced; without a stored list that holds the block it is zero when no replaced list held
it, and when they did a multiple of `2^32` times. -/
theorem refCount_with_replaced (fs : FileStore) {clock : List Int64}
    {replaced : List (List Int64)} {w : World} (hclock : clock.Nodup)
    (h : Rewritten fs (World.fresh clock) replaced w) (s : Int64) :
    w.refCount s = Int32.ofNat (w.occurrences s+replaced.flatten.count s) ∧
    (¬w.Listed s → (w.refCount s = 0 ↔ 2^32 ∣ replaced.flatten.count s)) :=
  count_of_rewritten fs hclock h s

/-- A write of one new block into version 1 of an object without a version 0. -/
def resent : WOpeLog := ⟨[],⟨generation 0,generation 1,[.insert],[0],[lit "x"]⟩,{},.init⟩

/-- The store after the write was sent twice. -/
def sentTwice : World :=
  ((World.fresh [7,8]).afterWOPE sampleStore resent.wope).afterWOPE sampleStore resent.wope

lemma rewritten_sentTwice : Rewritten sampleStore (World.fresh [7,8]) [[],[7]] sentTwice := by
  have hrange : resent.wope.InRange ((World.fresh [7,8]).serials resent.wope.ghobj.key).length :=
    ⟨rfl,rfl,by simp [resent],by decide⟩
  have hfirst := sampleStore.run_doWOPE resent (World.fresh [7,8]) hrange (by decide)
  have hsecond := sampleStore.run_doWOPE resent
    ((World.fresh [7,8]).afterWOPE sampleStore resent.wope) hrange (by decide)
  exact .write resent (.write resent .start hrange hfirst) hrange hsecond

lemma sentTwice_unlisted : ¬sentTwice.Listed 7 := by
  rintro ⟨key,hkey⟩
  have hnew : ((World.fresh [7,8]).afterWOPE sampleStore resent.wope).newList resent.wope = [8] := by
    decide
  have hfresh : (World.fresh [7,8]).serials key = [] := by simp [World.serials,World.fresh]
  rw [sentTwice,World.afterWOPE_serials,World.afterWOPE_serials,hnew,hfresh] at hkey
  split at hkey
  · exact absurd hkey (by decide)
  · exact absurd hkey List.not_mem_nil

theorem refCount_with_replaced_resent : sentTwice.refCount 7 = Int32.ofNat 1 := by
  have hcount := (refCount_with_replaced sampleStore (by decide) rewritten_sentTwice 7).1
  rw [World.occurrences_eq_zero sentTwice_unlisted] at hcount
  exact hcount

/-- The write sent again replaces the list that held the first block, and the block keeps its
reference. -/
theorem replaced_reference_kept : ∃ (replaced : List (List Int64)) (w : World) (s : Int64),
    Rewritten sampleStore (World.fresh [7,8]) replaced w ∧ ¬w.Listed s ∧ w.refCount s ≠ 0 :=
  ⟨_,sentTwice,7,rewritten_sentTwice,sentTwice_unlisted,by decide⟩

end GDFileStore
