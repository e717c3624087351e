import GDFileStore.Blocks.Counts

/-! Writes that may be cut off by a crash after any of their requests. The order of those
requests (file, zero count, increments, list) keeps every count at or above the number of
occurrences and every listed block readable in the journal, at every single state. -/
namespace GDFileStore
open Sequences Program Prog

/-- The blocks, with their data, for which a write drew a reading between `w` and `w'`. -/
def drawn (w w' : World) (wope : WOPE) : List (Int64 × Bytes) :=
  (w.clock.take (w.clock.length-w'.clock.length)).zip (values wope.edits)

/-- The states reached by `n` writes, each cut off after any number of its requests or run to its
end, with the data each block was inserted with. -/
inductive CrashRun (fs : FileStore) (w₀ : World) : List (Int64 × Bytes) → ℕ → World → Prop
  | start : CrashRun fs w₀ [] 0 w₀
  | write {inserted : List (Int64 × Bytes)} {n : ℕ} {w w' : World} {rest : Task Unit}
      (wopelog : WOpeLog) : CrashRun fs w₀ inserted n w →
      wopelog.wope.InRange (w.serials wopelog.wope.ghobj.key).length →
      Steps Request.handle (fs.doWOPE wopelog) w rest w' →
      CrashRun fs w₀ (inserted ++ drawn w w' wopelog.wope) (n+1) w'

/-- What holds at every state of such a run. -/
structure Covered (fs : FileStore) (inserted : List (Int64 × Bytes)) (n : ℕ) (w : World) :
    Prop where
  tidy : w.Tidy
  low : ∀ s, w.occurrences s ≤ (w.refCount s).toInt
  high : ∀ s, (w.refCount s).toInt ≤ n
  stored : ∀ s, w.Listed s → ∃ data, (s,data) ∈ inserted ∧
    w.files (fs.journalFile s) = some data

namespace Covered
variable {fs : FileStore} {inserted : List (Int64 × Bytes)} {n : ℕ} {w : World}

lemma mono (h : Covered fs inserted n w) (more : List (Int64 × Bytes)) {m : ℕ} (hnm : n ≤ m) :
    Covered fs (inserted ++ more) m w where
  tidy := h.tidy
  low := h.low
  high := fun s => (h.high s).trans (by omega)
  stored := by
    intro s hs
    obtain ⟨data,hmem,hfile⟩ := h.stored s hs
    exact ⟨data,List.mem_append_left _ hmem,hfile⟩

/-- A block about to be created is in no list and its file is no listed block's file. -/
lemma stamped [fs.hash.Separates] (h : Covered fs inserted n w) {serial : Int64}
    {clock : List Int64}
    (hclock : w.clock = serial::clock) (data : Bytes) :
    Covered fs inserted n { w with
      clock := clock, files := Function.update w.files (fs.journalFile serial) (some data) } where
  tidy := h.tidy.stamped hclock _
  low := h.low
  high := h.high
  stored := by
    intro s hs
    have hne : s ≠ serial := by
      rintro rfl
      exact h.tidy.unlisted s (by simp [hclock]) hs
    obtain ⟨d,hmem,hfile⟩ := h.stored s hs
    refine ⟨d,hmem,?_⟩
    exact (Function.update_of_ne (fun heq => hne (fs.journalFile_inj.1 heq)) _ _).trans hfile

lemma addBlock [fs.hash.Separates] (h : Covered fs inserted n w) {serial : Int64}
    {clock : List Int64}
    (hclock : w.clock = serial::clock) (data : Bytes) :
    Covered fs inserted n (w.addBlock fs serial data) := by
  have hw := h.stamped hclock data
  have hcount : ∀ s, (w.addBlock fs serial data).refCount s =
      if s = serial then 0 else w.refCount s := by
    intro s
    have hadd := World.addBlocks_refCount fs w [(serial,data)] s
    simpa using hadd
  have hzero : w.occurrences serial = 0 :=
    World.occurrences_eq_zero (h.tidy.unlisted serial (by simp [hclock]))
  refine ⟨h.tidy.addBlock fs hclock data,?_,?_,hw.stored⟩
  · intro s
    have hocc : (w.addBlock fs serial data).occurrences s = w.occurrences s := rfl
    rw [hcount,hocc]
    split
    · next hs => simp [hs,hzero]
    · exact h.low s
  · intro s
    rw [hcount]
    split
    · simp
    · exact h.high s

lemma editing [fs.hash.Separates] {es : List (Edit Bytes)} {w' : World} (hrun : Editing fs es w w')
    (h : Covered fs inserted n w) : Covered fs inserted n w' := by
  induction hrun with
  | here => exact h
  | stamped _ hclock => exact ⟨h.tidy.stamped hclock _,h.low,h.high,h.stored⟩
  | written _ hclock => exact h.stamped hclock _
  | kept _ _ ih => exact ih h
  | added _ hclock _ ih => exact ih (h.addBlock hclock _)

/-- Counting each block of a list without repetitions raises a count by at most one. -/
lemma bumpAll (h : Covered fs inserted n w) {l : List Int64} (hl : l.Nodup) (hn : n+1 < 2^31) :
    (∀ s, ((w.bumpAll l).refCount s).toInt = (w.refCount s).toInt+l.count s) ∧
    Covered fs inserted (n+1) (w.bumpAll l) := by
  have hsum : ∀ s, ((w.bumpAll l).refCount s).toInt = (w.refCount s).toInt+l.count s := by
    intro s
    have hcount := List.nodup_iff_count_le_one.1 hl s
    have hlow := h.low s
    have hhigh := h.high s
    have hval : (Int32.ofNat (l.count s)).toInt = l.count s :=
      Int32Range.toInt_ofNat_of_lt (by omega)
    rw [World.bumpAll_refCount,Int32Range.toInt_add_of_fits,hval]
    rw [hval]
    exact ⟨by omega,by omega⟩
  have hocc : ∀ s, (w.bumpAll l).occurrences s = w.occurrences s := by
    intro s
    rw [World.occurrences,World.bumpAll_objs,World.occurrences]
  refine ⟨hsum,h.tidy.bumpAll l,?_,?_,?_⟩
  · intro s
    rw [hsum,hocc]
    have hlow := h.low s
    omega
  · intro s
    rw [hsum]
    have hcount := List.nodup_iff_count_le_one.1 hl s
    have hhigh := h.high s
    omega
  · intro s hs
    rw [World.bumpAll_files]
    exact h.stored s ((World.listed_of_objs_eq w (World.bumpAll_objs w l) s).1 hs)

/-- The publication adds to the occurrences what the counting pass has just added to the counts,
and the blocks it lists are old listed ones or new ones whose files are written. -/
lemma afterWOPE [fs.hash.Separates] {wope : WOPE} (h : Covered fs inserted n w)
    (henough : w.Enough wope)
    (hn : n+1 < 2^31) :
    Covered fs (inserted ++ drawn w (w.afterWOPE fs wope) wope) (n+1) (w.afterWOPE fs wope) := by
  have hadded := h.editing (World.editing_addBlocks fs w _ henough)
  obtain ⟨hsum,hcounted⟩ := hadded.bumpAll (h.tidy.newList_nodup wope) hn
  have hdrawn : drawn w (w.afterWOPE fs wope) wope = w.news wope := by
    have hlen : (w.news wope).length = (values wope.edits).length := by
      rw [World.news,List.length_zip,Nat.min_eq_right henough]
    have hsub : w.clock.length-(w.clock.length-(values wope.edits).length) =
        (values wope.edits).length := Nat.sub_sub_self henough
    rw [drawn,World.afterWOPE_clock,List.length_drop,hlen,hsub,take_length_zip,World.news]
  refine ⟨h.tidy.afterWOPE fs henough,?_,hcounted.high,?_⟩
  · intro s
    have hocc := World.afterWOPE_occurrences fs w wope s
    have hcount : ((w.afterWOPE fs wope).refCount s).toInt = _ := hsum s
    have hlow := hadded.low s
    rw [World.addBlocks_occurrences] at hlow
    omega
  · intro s hs
    rw [hdrawn,World.afterWOPE_files]
    by_cases hnew : s ∈ (w.news wope).map Prod.fst
    · obtain ⟨b,hb,rfl⟩ := List.mem_map.1 hnew
      exact ⟨b.2,List.mem_append_right _ hb,
        World.addBlocks_journalFile_of_mem fs w _ (h.tidy.news_nodup wope) hb⟩
    · obtain ⟨data,hmem,hfile⟩ := h.stored s
        ((World.afterWOPE_listed fs w wope hs).resolve_right hnew)
      exact ⟨data,List.mem_append_left _ hmem,
        (World.addBlocks_journalFile_of_notMem fs w _ hnew).trans hfile⟩

theorem inFlight [fs.hash.Separates] {wope : WOPE} {w' : World} (h : Covered fs inserted n w)
    (hn : n+1 < 2^31)
    (hrun : InFlight fs wope w w') :
    Covered fs (inserted ++ drawn w w' wope) (n+1) w' := by
  cases hrun with
  | editing hedit => exact (h.editing hedit).mono _ (Nat.le_succ n)
  | @counting done todo henough hl =>
    have hdone : done.Nodup :=
      (hl ▸ h.tidy.newList_nodup wope : (done ++ todo).Nodup).sublist (List.sublist_append_left _ _)
    have hadded := h.editing (World.editing_addBlocks fs w _ henough)
    exact (hadded.bumpAll hdone hn).2.mono _ le_rfl
  | published henough => exact h.afterWOPE henough hn

end Covered

lemma Editing.clock_suffix {fs : FileStore} {es : List (Edit Bytes)} {w w' : World}
    (h : Editing fs es w w') : w'.clock <:+ w.clock := by
  induction h with
  | here => exact List.suffix_refl _
  | stamped _ hclock => exact hclock ▸ List.suffix_cons _ _
  | written _ hclock => exact hclock ▸ List.suffix_cons _ _
  | kept _ _ ih => exact ih
  | added _ _ _ ih => exact ih.trans (List.tail_suffix _)

lemma InFlight.clock_suffix {fs : FileStore} {wope : WOPE} {w w' : World}
    (h : InFlight fs wope w w') : w'.clock <:+ w.clock := by
  cases h with
  | editing hedit => exact hedit.clock_suffix
  | counting => simpa [World.addBlocks_clock] using List.drop_suffix _ _
  | published => simpa using List.drop_suffix _ _

/-- A write names each new block by a reading it has drawn. -/
lemma drawn_sublist {w w' : World} (wope : WOPE) (h : w'.clock <:+ w.clock) :
    List.Sublist ((drawn w w' wope).map Prod.fst ++ w'.clock) w.clock := by
  obtain ⟨pre,hpre⟩ := h
  have htake : w.clock.take (w.clock.length-w'.clock.length) = pre := by
    rw [← hpre,List.length_append,Nat.add_sub_cancel,List.take_left]
  rw [drawn,map_fst_zip,htake,← hpre]
  exact (List.take_sublist _ _).append_right _

namespace CrashRun
variable {fs : FileStore} {w₀ w : World} {inserted : List (Int64 × Bytes)} {n : ℕ}

lemma inserted_sublist (h : CrashRun fs w₀ inserted n w) :
    List.Sublist (inserted.map Prod.fst ++ w.clock) w₀.clock := by
  induction h with
  | start => exact List.Sublist.refl _
  | @write inserted n w w' rest wopelog _ _ hsteps ih =>
    have hflight := (fs.doWOPE_always wopelog w).at_steps hsteps
    rw [List.map_append,List.append_assoc]
    exact ((drawn_sublist wopelog.wope hflight.clock_suffix).append_left _).trans ih

lemma covered [fs.hash.Separates] (h : CrashRun fs w₀ inserted n w) (h₀ : Covered fs [] 0 w₀)
    (hn : n < 2^31) :
    Covered fs inserted n w := by
  induction h with
  | start => exact h₀
  | @write inserted n w w' rest wopelog _ _ hsteps ih =>
    exact (ih (by omega)).inFlight hn ((fs.doWOPE_always wopelog w).at_steps hsteps)

end CrashRun

lemma covered_fresh (fs : FileStore) {clock : List Int64} (h : clock.Nodup) :
    Covered fs [] 0 (World.fresh clock) := by
  have htidy := World.tidy_fresh h
  refine ⟨htidy,?_,?_,?_⟩
  · intro s
    rfl
  · intro s
    rfl
  · rintro s ⟨key,hkey⟩
    simp [World.serials,World.fresh] at hkey

lemma counts_and_files (fs : FileStore) [fs.hash.Separates] {clock : List Int64}
    {inserted : List (Int64 × Bytes)} {n : ℕ}
    {w : World} (hclock : clock.Nodup) (h : CrashRun fs (World.fresh clock) inserted n w)
    (hn : n < 2^31) :
    (inserted.map Prod.fst).Nodup ∧
    (∀ s, w.occurrences s ≤ (w.refCount s).toInt) ∧
    ∀ s, w.Listed s → (∃ rb, w.blocks s = some rb ∧ rb.serial = s) ∧
      ∃ data, (s,data) ∈ inserted ∧ w.files (fs.journalFile s) = some data := by
  have hcovered := h.covered (covered_fresh fs hclock) hn
  refine ⟨?_,hcovered.low,?_⟩
  · exact (List.nodup_append.1 (hclock.sublist h.inserted_sublist)).1
  · intro s hs
    exact ⟨hcovered.tidy.recorded s hs,hcovered.stored s hs⟩

/-- At every state of fewer than `2^31` writes, each possibly cut off by a crash: no count is
below the number of occurrences, and every listed block has its record and its journal file
with the data it was inserted with. -/
theorem crash_safe (fs : FileStore) [fs.hash.Separates] {clock : List Int64}
    {inserted : List (Int64 × Bytes)} {n : ℕ}
    {w : World} (hclock : clock.Nodup) (h : CrashRun fs (World.fresh clock) inserted n w)
    (hn : n < 2^31) :
    (inserted.map Prod.fst).Nodup ∧
    (∀ s, w.occurrences s ≤ (w.refCount s).toInt) ∧
    ∀ s, w.Listed s → (∃ rb, w.blocks s = some rb ∧ rb.serial = s) ∧
      ∃ data, (s,data) ∈ inserted ∧ w.files (fs.journalFile s) = some data :=
  counts_and_files fs hclock h hn

/-- One block of one version, written over again `n` times. -/
lemma rewritten (n : ℕ) : ∃ inserted w, CrashRun sampleStore (World.fresh [7]) inserted (n+1) w ∧
    w.refCount 7 = Int32.ofNat (n+1) ∧ w.occurrences 7 = 1 ∧
    w.serials (generation 0).key = [7] ∧ w.clock = [] := by
  induction n with
  | zero =>
    have hrange : firstWrite.wope.InRange
        ((World.fresh [7]).serials firstWrite.wope.ghobj.key).length :=
      ⟨rfl,rfl,by simp [firstWrite],by decide⟩
    have hrun := sampleStore.run_doWOPE firstWrite _ hrange (by decide)
    have hlist : (World.fresh [7]).newList firstWrite.wope = [7] := by decide
    refine ⟨_,_,.write firstWrite .start hrange (Prog.steps_of_run hrun),?_,?_,?_,?_⟩
    · rw [World.afterWOPE_refCount,World.addBlocks_refCount,hlist]
      decide
    · rw [World.afterWOPE_occurrences_of_none _ _ _ rfl,hlist]
      rfl
    · rw [World.afterWOPE_serials]
      exact (if_pos rfl).trans hlist
    · rw [World.afterWOPE_clock]
      decide
  | succ n ih =>
    obtain ⟨inserted,w,hw,hcount,hocc,hbase,hclock⟩ := ih
    have hrun := sampleStore.run_doWOPE (shareWrite 0) w
      (inRange_noEdits _ _ _) (by simp [World.Enough,WOPE.edits,shareWrite,toEdits])
    have hlist : w.newList (shareWrite 0).wope = [7] := (newList_noEdits _ _ _).trans hbase
    refine ⟨_,_,.write (shareWrite 0) hw (inRange_noEdits _ _ _) (Prog.steps_of_run hrun),
      ?_,?_,?_,?_⟩
    · rw [World.afterWOPE_refCount,World.addBlocks_refCount,hlist,World.news,hclock,hcount]
      exact (Int32.ofNat_add (n+1) 1).symm
    · have hocc' := World.afterWOPE_occurrences sampleStore w (shareWrite 0).wope 7
      have hold : w.serials (shareWrite 0).wope.newGhobj.key = [7] := hbase
      rw [hlist,hold,hocc] at hocc'
      simpa using hocc'
    · rw [World.afterWOPE_serials,hbase,hlist,ite_self]
    · rw [World.afterWOPE_clock,hclock,List.drop_nil]

/-- Writing one version over again `2^31` times wraps the count of its block below zero. -/
theorem refCount_undercounts : ∃ inserted n w s,
    CrashRun sampleStore (World.fresh [7]) inserted n w ∧
      ¬(w.occurrences s ≤ (w.refCount s).toInt) := by
  obtain ⟨inserted,w,hw,hcount,hocc,_⟩ := rewritten (2^31-1)
  refine ⟨inserted,_,w,7,hw,?_⟩
  rw [hcount,hocc]
  decide

/-- A block written over three times is still covered by its count. -/
theorem crash_safe_rewritten : ∃ inserted w,
    CrashRun sampleStore (World.fresh [7]) inserted 3 w ∧
      (∀ s, w.occurrences s ≤ (w.refCount s).toInt) ∧ w.refCount 7 = 3 := by
  obtain ⟨inserted,w,hw,hcount,_⟩ := rewritten 2
  exact ⟨inserted,w,hw,(crash_safe sampleStore (by decide) hw (by omega)).2.1,hcount⟩

end GDFileStore
