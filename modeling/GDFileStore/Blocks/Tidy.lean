import GDFileStore.Blocks.Effect

/-! The blocks and the lists that writes leave. In a tidy world no list repeats a serial, the
readings to come are new, and every listed block has its record; writes, whole or cut off
between two requests, keep the world tidy. -/
namespace GDFileStore
open Sequences Program Prog

namespace World
variable (fs : FileStore) (w : World)

section addBlocks
variable (news : List (Int64 × Bytes))

@[simp] lemma addBlocks_nil : w.addBlocks fs [] = w := rfl

@[simp] lemma addBlocks_cons (b : Int64 × Bytes) :
    w.addBlocks fs (b::news) = (w.addBlock fs b.1 b.2).addBlocks fs news := rfl

@[simp] lemma addBlocks_objs : (w.addBlocks fs news).objs = w.objs := by
  induction news generalizing w with
  | nil => rfl
  | cons b news ih => exact ih (w.addBlock fs b.1 b.2)

@[simp] lemma addBlocks_occurrences (s : Int64) :
    (w.addBlocks fs news).occurrences s = w.occurrences s := by
  rw [occurrences,addBlocks_objs,occurrences]

lemma addBlocks_clock : (w.addBlocks fs news).clock = w.clock.drop news.length := by
  induction news generalizing w with
  | nil => rfl
  | cons b news ih => rw [addBlocks_cons,ih,addBlock,List.length_cons,List.drop_tail]

lemma addBlocks_blocks (s : Int64) : (w.addBlocks fs news).blocks s =
    if s ∈ news.map Prod.fst then some { serial := s } else w.blocks s := by
  induction news generalizing w with
  | nil => rfl
  | cons b news ih =>
    rw [addBlocks_cons,ih]
    by_cases hs : s = b.1
    · subst hs
      simp [addBlock]
    · have hold : (w.addBlock fs b.1 b.2).blocks s = w.blocks s := Function.update_of_ne hs _ _
      simp only [hold,List.map_cons,List.mem_cons,hs,false_or]

lemma addBlocks_refCount (s : Int64) : (w.addBlocks fs news).refCount s =
    if s ∈ news.map Prod.fst then 0 else w.refCount s := by
  rw [refCount,addBlocks_blocks]
  split <;> rfl

lemma addBlocks_files_of_ne {path : Bytes} (h : ∀ s ∈ news.map Prod.fst, path ≠ fs.journalFile s) :
    (w.addBlocks fs news).files path = w.files path := by
  induction news generalizing w with
  | nil => rfl
  | cons b news ih =>
    rw [addBlocks_cons,ih]
    · exact Function.update_of_ne (h b.1 (by simp)) _ _
    · intro s hs
      exact h s (List.mem_cons_of_mem _ hs)

@[simp] lemma addBlocks_diskFile (s : Int64) :
    (w.addBlocks fs news).files (fs.diskFile s) = w.files (fs.diskFile s) :=
  addBlocks_files_of_ne fs w news (fun t _ => fs.diskFile_ne_journalFile s t)

lemma addBlocks_journalFile_of_notMem [fs.hash.Separates] {s : Int64} (h : s ∉ news.map Prod.fst) :
    (w.addBlocks fs news).files (fs.journalFile s) = w.files (fs.journalFile s) := by
  apply addBlocks_files_of_ne
  intro t ht heq
  exact h (fs.journalFile_inj.1 heq ▸ ht)

lemma addBlocks_journalFile_of_mem [fs.hash.Separates] {b : Int64 × Bytes}
    (hnodup : (news.map Prod.fst).Nodup)
    (h : b ∈ news) : (w.addBlocks fs news).files (fs.journalFile b.1) = some b.2 := by
  induction news generalizing w with
  | nil => cases h
  | cons c news ih =>
    obtain ⟨hc,hrest⟩ := List.nodup_cons.1 hnodup
    rcases List.mem_cons.1 h with rfl | hm
    · rw [addBlocks_cons,addBlocks_journalFile_of_notMem fs _ _ hc]
      exact Function.update_self _ _ _
    · exact ih _ hrest hm

end addBlocks

lemma listed_of_objs_eq {w' : World} (h : w'.objs = w.objs) (s : Int64) :
    w'.Listed s ↔ w.Listed s := by simp only [Listed,serials,h]

/-- No list repeats a serial, no reading to come repeats or is listed, and every listed block
has a record under its own serial. -/
structure Tidy (w : World) : Prop where
  clock_nodup : w.clock.Nodup
  serials_nodup : ∀ key, (w.serials key).Nodup
  unlisted : ∀ s ∈ w.clock, ¬w.Listed s
  recorded : ∀ s, w.Listed s → ∃ rb, w.blocks s = some rb ∧ rb.serial = s

section lists
variable {w} (wope : WOPE)

lemma news_fst : (w.news wope).map Prod.fst = w.clock.take (values wope.edits).length := by
  rw [news,map_fst_zip]

lemma mem_clock_of_mem_news {s : Int64} (h : s ∈ (w.news wope).map Prod.fst) : s ∈ w.clock := by
  rw [news_fst] at h
  exact List.mem_of_mem_take h

lemma Tidy.news_nodup (hw : w.Tidy) : ((w.news wope).map Prod.fst).Nodup := by
  rw [news_fst]
  exact hw.clock_nodup.sublist (List.take_sublist _ _)

lemma Tidy.news_unlisted (hw : w.Tidy) {s : Int64} (h : s ∈ (w.news wope).map Prod.fst) :
    ¬w.Listed s := hw.unlisted s (mem_clock_of_mem_news wope h)

lemma values_named : values ((nameEdits wope.edits w.clock).map (Edit.map Prod.fst)) =
    (w.news wope).map Prod.fst := by
  rw [values_map,values_nameEdits,news]

/-- A block of the new list is kept from the base version or is one of the new ones. -/
lemma mem_newList {s : Int64} (h : s ∈ w.newList wope) :
    s ∈ w.serials wope.ghobj.key ∨ s ∈ (w.news wope).map Prod.fst := by
  rw [← values_named]
  exact mem_of_mem_applyEdits h

lemma Tidy.newList_nodup (hw : w.Tidy) : (w.newList wope).Nodup := by
  refine nodup_applyEdits (hw.serials_nodup _) ?_ ?_
  · rw [values_named]
    exact hw.news_nodup wope
  · rw [values_named]
    intro s hs hbase
    exact hw.news_unlisted wope hs ⟨_,hbase⟩

end lists

section after
variable (wope : WOPE)

lemma counted_refCount (s : Int64) : (w.counted fs wope).refCount s =
    (w.addBlocks fs (w.news wope)).refCount s+Int32.ofNat ((w.newList wope).count s) :=
  bumpAll_refCount _ _ _

@[simp] lemma counted_objs : (w.counted fs wope).objs = w.objs := by simp [counted]

@[simp] lemma counted_files :
    (w.counted fs wope).files = (w.addBlocks fs (w.news wope)).files := by simp [counted]

@[simp] lemma counted_clock : (w.counted fs wope).clock = w.clock.drop (w.news wope).length := by
  simp [counted,addBlocks_clock]

lemma afterWOPE_serials (key : GHKey) : (w.afterWOPE fs wope).serials key =
    if key = wope.newGhobj.key then w.newList wope else w.serials key := by
  rw [afterWOPE,publish_serials,serials,counted_objs,serials]

lemma afterWOPE_lookup (key : GHKey) : (w.afterWOPE fs wope).objs.lookup key =
    if key = wope.newGhobj.key then some ⟨w.newList wope⟩ else w.objs.lookup key := by
  by_cases h : key = wope.newGhobj.key
  · subst h
    simp [afterWOPE,publish]
  · simp [afterWOPE,publish,AList.lookup_insert_ne h,h]

@[simp] lemma afterWOPE_files :
    (w.afterWOPE fs wope).files = (w.addBlocks fs (w.news wope)).files := by
  rw [afterWOPE,publish_files,counted_files]

@[simp] lemma afterWOPE_clock :
    (w.afterWOPE fs wope).clock = w.clock.drop (w.news wope).length := by
  rw [afterWOPE,publish_clock,counted_clock]

lemma afterWOPE_refCount (s : Int64) : (w.afterWOPE fs wope).refCount s =
    (w.addBlocks fs (w.news wope)).refCount s+Int32.ofNat ((w.newList wope).count s) :=
  counted_refCount fs w wope s

lemma afterWOPE_occurrences (s : Int64) :
    (w.afterWOPE fs wope).occurrences s+(w.serials wope.newGhobj.key).count s =
      (w.newList wope).count s+w.occurrences s := by
  have hocc := publish_occurrences (w.counted fs wope) wope.newGhobj.key (w.newList wope) s
  have hcounted : (w.counted fs wope).occurrences s = w.occurrences s := by
    rw [occurrences,counted_objs,occurrences]
  have hserials : (w.counted fs wope).serials wope.newGhobj.key = w.serials wope.newGhobj.key := by
    rw [serials,counted_objs,serials]
  rwa [hcounted,hserials] at hocc

lemma serials_of_none {key : GHKey} (h : w.objs.lookup key = none) : w.serials key = [] := by
  simp [serials,h]

lemma afterWOPE_occurrences_of_none (h : w.objs.lookup wope.newGhobj.key = none) (s : Int64) :
    (w.afterWOPE fs wope).occurrences s = (w.newList wope).count s+w.occurrences s := by
  have hocc := afterWOPE_occurrences fs w wope s
  rwa [serials_of_none w h] at hocc

lemma afterWOPE_listed {s : Int64} (h : (w.afterWOPE fs wope).Listed s) :
    w.Listed s ∨ s ∈ (w.news wope).map Prod.fst := by
  obtain ⟨key,hkey⟩ := h
  rw [afterWOPE_serials] at hkey
  split at hkey
  · rcases mem_newList wope hkey with hbase | hnew
    · exact .inl ⟨_,hbase⟩
    · exact .inr hnew
  · exact .inl ⟨key,hkey⟩

end after

namespace Tidy
variable {w}

lemma addBlock (hw : w.Tidy) {serial : Int64} {clock : List Int64}
    (hclock : w.clock = serial::clock) (data : Bytes) : (w.addBlock fs serial data).Tidy where
  clock_nodup := hw.clock_nodup.sublist (List.tail_sublist _)
  serials_nodup := hw.serials_nodup
  unlisted := fun s hs => hw.unlisted s (List.mem_of_mem_tail hs)
  recorded := by
    intro s hs
    have hne : s ≠ serial := by
      rintro rfl
      exact hw.unlisted s (by simp [hclock]) hs
    obtain ⟨rb,hrb,hserial⟩ := hw.recorded s hs
    exact ⟨rb,(Function.update_of_ne hne _ _).trans hrb,hserial⟩

lemma stamped (hw : w.Tidy) {serial : Int64} {clock : List Int64}
    (hclock : w.clock = serial::clock) (files : Bytes → Option Bytes) :
    Tidy { w with clock := clock, files := files } where
  clock_nodup := (List.nodup_cons.1 (hclock ▸ hw.clock_nodup)).2
  serials_nodup := hw.serials_nodup
  unlisted := fun s hs => hw.unlisted s (by simp [hclock,hs])
  recorded := hw.recorded

lemma editing {es : List (Edit Bytes)} {w' : World} (h : Editing fs es w w') (hw : w.Tidy) :
    w'.Tidy := by
  induction h with
  | here => exact hw
  | stamped _ hclock => exact hw.stamped hclock _
  | written _ hclock => exact hw.stamped hclock _
  | kept _ _ ih => exact ih hw
  | added _ hclock _ ih => exact ih (hw.addBlock fs hclock _)

lemma bumpAll (hw : w.Tidy) (l : List Int64) : (w.bumpAll l).Tidy where
  clock_nodup := by simpa using hw.clock_nodup
  serials_nodup := by simpa [serials] using hw.serials_nodup
  unlisted := by
    intro s hs
    rw [listed_of_objs_eq w (bumpAll_objs w l)]
    exact hw.unlisted s (by simpa using hs)
  recorded := by
    intro s hs
    exact bumpAll_serial w l (hw.recorded s ((listed_of_objs_eq w (bumpAll_objs w l) s).1 hs))

end Tidy

/-- The world with all new blocks is the last state of the loop over the edits. -/
lemma editing_addBlocks (es : List (Edit Bytes)) (h : (values es).length ≤ w.clock.length) :
    Editing fs es w (w.addBlocks fs (w.clock.zip (values es))) := by
  induction es generalizing w with
  | nil => simpa using Editing.here [] w
  | cons e es ih =>
    cases he : e.value with
    | none =>
      have hv : values (e::es) = values es := List.filterMap_cons_none he
      rw [hv] at h ⊢
      exact .kept he (ih w h)
    | some data =>
      have hv : values (e::es) = data::values es := List.filterMap_cons_some he
      rw [hv] at h ⊢
      cases hclock : w.clock with
      | nil => simp [hclock] at h
      | cons serial clock =>
        have htail : (w.addBlock fs serial data).clock = clock := by simp [addBlock,hclock]
        have hrest := ih (w.addBlock fs serial data) (by simpa [htail,hclock] using h)
        rw [htail] at hrest
        exact .added he hclock hrest

namespace Tidy
variable {w} {wope : WOPE}

lemma addBlocks (hw : w.Tidy) (henough : w.Enough wope) : (w.addBlocks fs (w.news wope)).Tidy :=
  editing fs (editing_addBlocks fs w _ henough) hw

theorem afterWOPE (hw : w.Tidy) (henough : w.Enough wope) : (w.afterWOPE fs wope).Tidy := by
  have hcounted : (w.counted fs wope).Tidy := (hw.addBlocks fs henough).bumpAll _
  refine ⟨hcounted.clock_nodup,?_,?_,?_⟩
  · intro key
    rw [afterWOPE_serials]
    split
    · exact hw.newList_nodup wope
    · exact hw.serials_nodup key
  · intro s hs hlisted
    rw [afterWOPE_clock] at hs
    rcases afterWOPE_listed fs w wope hlisted with hold | hnew
    · exact hw.unlisted s (List.mem_of_mem_drop hs) hold
    · have hlen : (w.news wope).length = (values wope.edits).length := by
        rw [news,List.length_zip,Nat.min_eq_right henough]
      rw [news_fst] at hnew
      rw [hlen] at hs
      exact List.disjoint_take_drop hw.clock_nodup le_rfl hnew hs
  · intro s hs
    have hadded : ∃ rb, (w.addBlocks fs (w.news wope)).blocks s = some rb ∧ rb.serial = s := by
      rcases afterWOPE_listed fs w wope hs with hold | hnew
      · exact (hw.addBlocks fs henough).recorded s
          ((listed_of_objs_eq w (addBlocks_objs fs w _) s).2 hold)
      · exact ⟨{ serial := s },by rw [addBlocks_blocks,if_pos hnew],rfl⟩
    exact bumpAll_serial _ (w.newList wope) hadded

/-- A new block that is still in the list counts one. -/
lemma refCount_new (hw : w.Tidy) {s : Int64} (hs : s ∈ w.newList wope)
    (hnew : s ∈ (w.news wope).map Prod.fst) : (w.afterWOPE fs wope).refCount s = 1 := by
  rw [afterWOPE_refCount,addBlocks_refCount,if_pos hnew,
    List.count_eq_one_of_mem (hw.newList_nodup wope) hs]
  rfl

end Tidy

/-- A store before its first write. -/
def fresh (clock : List Int64) : World := { clock := clock }

lemma tidy_fresh {clock : List Int64} (h : clock.Nodup) : (fresh clock).Tidy := by
  have hserials : ∀ key, (fresh clock).serials key = [] := by
    intro key
    simp [serials,fresh]
  refine ⟨h,?_,?_,?_⟩
  · intro key
    simp [hserials]
  · rintro s _ ⟨key,hkey⟩
    simp [hserials] at hkey
  · rintro s ⟨key,hkey⟩
    simp [hserials] at hkey

end World
end GDFileStore
