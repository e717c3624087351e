import GDFileStore.Blocks.Tidy

/-! Two journaled writes that touch no version in common can run in either order. What they share
are blocks: each counts the blocks of its own list, and counting commutes with counting and
with the creation of blocks that are not counted. -/
namespace GDFileStore
open Sequences Program Prog

namespace Sequences
variable {α σ : Type*}

/-- A change of state that commutes with every step of a fold commutes with the fold. -/
lemma foldl_comm {f : σ → α → σ} {g : σ → σ} {l : List α}
    (h : ∀ s, ∀ a ∈ l, g (f s a) = f (g s) a) (s : σ) : g (l.foldl f s) = l.foldl f (g s) := by
  induction l generalizing s with
  | nil => rfl
  | cons a l ih =>
    have htail : ∀ s, ∀ b ∈ l, g (f s b) = f (g s) b :=
      fun s b hb => h s b (List.mem_cons_of_mem a hb)
    rw [List.foldl_cons,List.foldl_cons,ih htail,h s a List.mem_cons_self]

lemma nameEdits_append {ι : Type*} {es : List (Edit α)} {ts : List ι}
    (h : ts.length = (values es).length) (rest : List ι) :
    nameEdits es (ts ++ rest) = nameEdits es ts := by
  induction es, ts using nameEdits.induct with
  | case1 ts => simp [nameEdits]
  | case2 p es ts ih => rw [nameEdits,nameEdits,ih h]
  | case3 p x es t ts ih => simp [nameEdits,ih (by simpa using h)]
  | case4 p x es t ts ih => simp [nameEdits,ih (by simpa using h)]
  | case5 => simp at h
  | case6 => simp at h

end Sequences

namespace WOPE

/-- Neither write reads or replaces the version the other writes. -/
structure Independent (a b : WOPE) : Prop where
  versions : a.newGhobj.key ≠ b.newGhobj.key
  first : a.ghobj.key ≠ b.newGhobj.key
  second : b.ghobj.key ≠ a.newGhobj.key

lemma Independent.symm {a b : WOPE} (h : a.Independent b) : b.Independent a :=
  ⟨h.versions.symm,h.second,h.first⟩

end WOPE

namespace World

/-- The stores agree on every version's list, every block's record and every file. -/
structure SameStore (w w' : World) : Prop where
  lists : ∀ key, w.objs.lookup key = w'.objs.lookup key
  blocks : w.blocks = w'.blocks
  files : w.files = w'.files

variable (fs : FileStore) (w : World)

/-- The record of a block that has been counted once more. -/
def countedOnce (record : Option ReferedBlock) : ReferedBlock :=
  { record.getD {} with referCount := (record.getD {}).referCount+1 }

lemma bump_blocks (s : Int64) :
    (w.bump s).blocks = Function.update w.blocks s (some (countedOnce (w.blocks s))) := rfl

lemma bump_bump (s t : Int64) : (w.bump s).bump t = (w.bump t).bump s := by
  by_cases h : s = t
  · rw [h]
  · refine World.ext rfl ?_ rfl rfl
    rw [bump_blocks,bump_blocks_ne w (Ne.symm h),bump_blocks,bump_blocks,bump_blocks_ne w h,
      bump_blocks]
    exact Function.update_comm h _ _ _

lemma bumpAll_bump (l : List Int64) (t : Int64) : (w.bumpAll l).bump t = (w.bump t).bumpAll l :=
  foldl_comm (g := fun w => bump w t) (fun w s _ => bump_bump w s t) w

/-- Two counting passes can be taken in either order, whatever blocks they share. -/
lemma bumpAll_bumpAll (l m : List Int64) : (w.bumpAll l).bumpAll m = (w.bumpAll m).bumpAll l :=
  foldl_comm (g := fun w => bumpAll w m) (fun w s _ => (bumpAll_bump w m s).symm) w

lemma addBlock_bump {s t : Int64} (data : Bytes) (h : s ≠ t) :
    (w.addBlock fs s data).bump t = (w.bump t).addBlock fs s data := by
  have ht : (w.addBlock fs s data).blocks t = w.blocks t := Function.update_of_ne (Ne.symm h) _ _
  refine World.ext rfl ?_ rfl rfl
  rw [bump_blocks,ht]
  exact Function.update_comm h _ _ _

lemma addBlocks_bump (news : List (Int64 × Bytes)) {t : Int64} (h : t ∉ news.map Prod.fst) :
    (w.addBlocks fs news).bump t = (w.bump t).addBlocks fs news := by
  refine foldl_comm (g := fun w => bump w t) ?_ w
  intro w b hb
  exact addBlock_bump fs w b.2 (fun heq => h (heq ▸ List.mem_map_of_mem hb))

lemma addBlocks_bumpAll (news : List (Int64 × Bytes)) {l : List Int64}
    (h : ∀ t ∈ l, t ∉ news.map Prod.fst) :
    (w.addBlocks fs news).bumpAll l = (w.bumpAll l).addBlocks fs news := by
  refine (foldl_comm (g := fun w => addBlocks fs w news) ?_ w).symm
  intro w t ht
  exact (addBlocks_bump fs w news (h t ht)).symm

lemma addBlock_addBlock [fs.hash.Separates] {s t : Int64} (data data' : Bytes) (h : s ≠ t) :
    (w.addBlock fs s data).addBlock fs t data' = (w.addBlock fs t data').addBlock fs s data := by
  have hfile : fs.journalFile s ≠ fs.journalFile t := fun heq => h (fs.journalFile_inj.1 heq)
  simp only [addBlock,Function.update_comm h,Function.update_comm hfile]

lemma addBlocks_addBlocks [fs.hash.Separates] {news news' : List (Int64 × Bytes)}
    (h : (news.map Prod.fst).Disjoint (news'.map Prod.fst)) :
    (w.addBlocks fs news).addBlocks fs news' = (w.addBlocks fs news').addBlocks fs news := by
  refine foldl_comm (g := fun w => addBlocks fs w news') ?_ w
  intro w b hb
  refine (foldl_comm (g := fun w => addBlock fs w b.1 b.2) ?_ w).symm
  intro w c hc
  refine (addBlock_addBlock fs w b.2 c.2 ?_).symm
  exact fun heq => h (List.mem_map_of_mem hb) (heq ▸ List.mem_map_of_mem hc)

/-- What a write does to the blocks, its new blocks and its list being given. -/
def putBlocks (w : World) (news : List (Int64 × Bytes)) (l : List Int64) : World :=
  (w.addBlocks fs news).bumpAll l

/-- Two writes whose new blocks are not in each other's lists. -/
theorem putBlocks_comm [fs.hash.Separates] (news news' : List (Int64 × Bytes)) (l l' : List Int64)
    (hnews : (news.map Prod.fst).Disjoint (news'.map Prod.fst))
    (hl : ∀ t ∈ l, t ∉ news'.map Prod.fst) (hl' : ∀ t ∈ l', t ∉ news.map Prod.fst) :
    (w.putBlocks fs news l).putBlocks fs news' l' =
      (w.putBlocks fs news' l').putBlocks fs news l := by
  calc (w.putBlocks fs news l).putBlocks fs news' l'
      = (((w.addBlocks fs news).addBlocks fs news').bumpAll l).bumpAll l' := by
        rw [putBlocks,putBlocks,addBlocks_bumpAll fs _ news' hl]
    _ = (((w.addBlocks fs news').addBlocks fs news).bumpAll l').bumpAll l := by
        rw [addBlocks_addBlocks fs w hnews,bumpAll_bumpAll]
    _ = (w.putBlocks fs news' l').putBlocks fs news l := by
        rw [putBlocks,putBlocks,addBlocks_bumpAll fs _ news hl']

/-- The store with no reading of the clock left. -/
def halted (w : World) : World := { w with clock := [] }

lemma halted_putBlocks (news : List (Int64 × Bytes)) (l : List Int64) :
    (w.putBlocks fs news l).halted = w.halted.putBlocks fs news l := by
  rw [putBlocks,putBlocks,bumpAll,bumpAll,addBlocks,addBlocks]
  rw [foldl_comm (g := halted) (fun _ _ _ => rfl),foldl_comm (g := halted) (fun _ _ _ => rfl)]

lemma publish_putBlocks (key : GHKey) (k : List Int64) (news : List (Int64 × Bytes))
    (l : List Int64) :
    (w.publish key k).putBlocks fs news l = (w.putBlocks fs news l).publish key k := by
  rw [putBlocks,putBlocks,bumpAll,bumpAll,addBlocks,addBlocks]
  rw [foldl_comm (g := fun w => publish w key k) (fun _ _ _ => rfl),
    foldl_comm (g := fun w => publish w key k) (fun _ _ _ => rfl)]

section given
variable (wope : WOPE) {serials rest : List Int64}

/-- The new blocks of a write that is given its serials. -/
def given (serials : List Int64) : List (Int64 × Bytes) := serials.zip (values wope.edits)

/-- The list of a write that is given its serials. -/
def givenList (serials : List Int64) : List Int64 :=
  applyEdits ((nameEdits wope.edits serials).map (Edit.map Prod.fst)) (w.serials wope.ghobj.key)

lemma given_fst (h : serials.length = (values wope.edits).length) :
    (given wope serials).map Prod.fst = serials := by
  rw [given,map_fst_zip,← h,List.take_length]

lemma mem_givenList (h : serials.length = (values wope.edits).length) {s : Int64}
    (hs : s ∈ w.givenList wope serials) : s ∈ w.serials wope.ghobj.key ∨ s ∈ serials := by
  have hvalues : values ((nameEdits wope.edits serials).map (Edit.map Prod.fst)) = serials := by
    rw [values_map,values_nameEdits]
    exact given_fst wope h
  have hmem := mem_of_mem_applyEdits hs
  rwa [hvalues] at hmem

lemma newList_given (hclock : w.clock = serials ++ rest)
    (h : serials.length = (values wope.edits).length) :
    w.newList wope = w.givenList wope serials := by
  rw [newList,givenList,hclock,nameEdits_append h]

/-- A write draws its own serials and leaves the others to the clock. -/
theorem afterWOPE_given (hclock : w.clock = serials ++ rest)
    (h : serials.length = (values wope.edits).length) :
    w.afterWOPE fs wope = (w.putBlocks fs (given wope serials) (w.givenList wope serials)).publish
      wope.newGhobj.key (w.givenList wope serials) := by
  have hnews : w.news wope = given wope serials := by
    rw [news,given,hclock,← List.append_nil (values wope.edits),List.zip_append h]
    simp
  rw [afterWOPE,counted,hnews,w.newList_given wope hclock h,putBlocks]

lemma afterWOPE_clock_given (hclock : w.clock = serials ++ rest)
    (h : serials.length = (values wope.edits).length) : (w.afterWOPE fs wope).clock = rest := by
  rw [afterWOPE_clock,news,hclock,List.length_zip,← h,List.length_append,
    Nat.min_eq_right (Nat.le_add_right _ _),List.drop_left]

lemma enough_given (hclock : w.clock = serials ++ rest)
    (h : serials.length = (values wope.edits).length) : w.Enough wope := by
  rw [Enough,hclock,List.length_append]
  omega

end given

section both
variable {a b : WOPE} {serialsA serialsB : List Int64}

/-- Two independent writes, each given its serials: their blocks first, then their lists. -/
theorem afterBoth (hclock : w.clock = serialsA ++ serialsB) (hind : a.Independent b)
    (hA : serialsA.length = (values a.edits).length)
    (hB : serialsB.length = (values b.edits).length) :
    ((w.afterWOPE fs a).afterWOPE fs b).halted =
      (((w.halted.putBlocks fs (given a serialsA) (w.givenList a serialsA)).putBlocks fs
        (given b serialsB) (w.givenList b serialsB)).publish
          a.newGhobj.key (w.givenList a serialsA)).publish
          b.newGhobj.key (w.givenList b serialsB) := by
  have hrest : (w.afterWOPE fs a).clock = serialsB ++ [] := by
    rw [List.append_nil,afterWOPE_clock_given fs w a hclock hA]
  have hlist : (w.afterWOPE fs a).givenList b serialsB = w.givenList b serialsB := by
    rw [givenList,afterWOPE_serials,if_neg hind.second,givenList]
  rw [afterWOPE_given fs _ b hrest hB,hlist,afterWOPE_given fs w a hclock hA,publish_putBlocks]
  change ((halted (putBlocks fs _ _ _)).publish _ _).publish _ _ = _
  rw [halted_putBlocks,halted_putBlocks]

/-- The two publications, whose versions differ, can be taken in either order. -/
lemma SameStore.publish_publish {key key' : GHKey} (h : key ≠ key') (l l' : List Int64) :
    SameStore ((w.publish key l).publish key' l') ((w.publish key' l').publish key l) where
  lists := by
    intro k
    exact AList.perm_lookup (AList.insert_insert_of_ne _ h)
  blocks := rfl
  files := rfl

end both
end World

namespace FileStore
variable (fs : FileStore)

/-- One write after another. -/
def doBoth (first second : WOpeLog) : Task Unit := do
  fs.doWOPE first
  fs.doWOPE second

lemma run_doBoth {first second : WOpeLog} {w : World} {serials serials' : List Int64}
    (hind : first.wope.Independent second.wope) (hclock : w.clock = serials ++ serials')
    (hserials : serials.length = (values first.wope.edits).length)
    (hserials' : serials'.length = (values second.wope.edits).length)
    (hrange : first.wope.InRange (w.serials first.wope.ghobj.key).length)
    (hrange' : second.wope.InRange (w.serials second.wope.ghobj.key).length) :
    run Request.handle (fs.doBoth first second) w =
      some ((),(w.afterWOPE fs first.wope).afterWOPE fs second.wope) := by
  have hfirst := fs.run_doWOPE first w hrange (World.enough_given w _ hclock hserials)
  have hrest : (w.afterWOPE fs first.wope).clock = serials' ++ [] := by
    rw [List.append_nil,World.afterWOPE_clock_given fs w _ hclock hserials]
  have hbase : (w.afterWOPE fs first.wope).serials second.wope.ghobj.key =
      w.serials second.wope.ghobj.key := by rw [World.afterWOPE_serials,if_neg hind.second]
  rw [doBoth,run_bind,hfirst]
  exact fs.run_doWOPE second _ (hbase ▸ hrange') (World.enough_given _ _ hrest hserials')

lemma doBoth_sameStore [fs.hash.Separates] {w : World} {a b : WOpeLog}
    {serialsA serialsB : List Int64}
    (hind : a.wope.Independent b.wope)
    (hrangeA : a.wope.InRange (w.serials a.wope.ghobj.key).length)
    (hrangeB : b.wope.InRange (w.serials b.wope.ghobj.key).length)
    (hA : serialsA.length = (values a.wope.edits).length)
    (hB : serialsB.length = (values b.wope.edits).length)
    (hnodup : (serialsA ++ serialsB).Nodup) (hfresh : ∀ s ∈ serialsA ++ serialsB, ¬w.Listed s) :
    ∃ wAB wBA,
      run Request.handle (fs.doBoth a b) { w with clock := serialsA ++ serialsB } =
        some ((),wAB) ∧
      run Request.handle (fs.doBoth b a) { w with clock := serialsB ++ serialsA } =
        some ((),wBA) ∧
      wAB.SameStore wBA := by
  let w₁ : World := { w with clock := serialsA ++ serialsB }
  let w₂ : World := { w with clock := serialsB ++ serialsA }
  refine ⟨_,_,fs.run_doBoth (w := w₁) hind rfl hA hB hrangeA hrangeB,
    fs.run_doBoth (w := w₂) hind.symm rfl hB hA hrangeB hrangeA,?_⟩
  have h₁ := World.afterBoth fs w₁ rfl hind hA hB
  have h₂ := World.afterBoth fs w₂ rfl hind.symm hB hA
  -- Neither list has a new block of the other write.
  have hdisjoint : serialsA.Disjoint serialsB := (List.nodup_append'.1 hnodup).2.2
  have hlistA : ∀ t ∈ w.givenList a.wope serialsA, t ∉ serialsB := by
    intro t ht htB
    rcases World.mem_givenList w a.wope hA ht with hbase | hnew
    · exact hfresh t (List.mem_append_right _ htB) ⟨_,hbase⟩
    · exact hdisjoint hnew htB
  have hlistB : ∀ t ∈ w.givenList b.wope serialsB, t ∉ serialsA := by
    intro t ht htA
    rcases World.mem_givenList w b.wope hB ht with hbase | hnew
    · exact hfresh t (List.mem_append_left _ htA) ⟨_,hbase⟩
    · exact hdisjoint htA hnew
  have hblocks := World.putBlocks_comm fs w₁.halted (World.given a.wope serialsA)
    (World.given b.wope serialsB) (w.givenList a.wope serialsA) (w.givenList b.wope serialsB) (by
      rw [World.given_fst _ hA,World.given_fst _ hB]
      exact hdisjoint)
    (by rwa [World.given_fst _ hB]) (by rwa [World.given_fst _ hA])
  have hsame : (World.halted ((w₁.afterWOPE fs a.wope).afterWOPE fs b.wope)).SameStore
      (World.halted ((w₂.afterWOPE fs b.wope).afterWOPE fs a.wope)) := by
    rw [h₁,h₂]
    change World.SameStore ((World.publish (((World.halted w₁).putBlocks fs _
      (w.givenList a.wope serialsA)).putBlocks fs _ (w.givenList b.wope serialsB)) _ _).publish _ _) _
    rw [hblocks]
    exact World.SameStore.publish_publish _ hind.versions _ _
  exact ⟨hsame.lists,hsame.blocks,hsame.files⟩

/-- Two independent writes, each with serials of its own that no stored list has, leave the same
store in either order. -/
theorem doWOPE_commute [fs.hash.Separates] {w : World} {a b : WOpeLog}
    {serialsA serialsB : List Int64}
    (hind : a.wope.Independent b.wope)
    (hrangeA : a.wope.InRange (w.serials a.wope.ghobj.key).length)
    (hrangeB : b.wope.InRange (w.serials b.wope.ghobj.key).length)
    (hA : serialsA.length = (values a.wope.edits).length)
    (hB : serialsB.length = (values b.wope.edits).length)
    (hnodup : (serialsA ++ serialsB).Nodup) (hfresh : ∀ s ∈ serialsA ++ serialsB, ¬w.Listed s) :
    ∃ wAB wBA,
      run Request.handle (fs.doBoth a b) { w with clock := serialsA ++ serialsB } =
        some ((),wAB) ∧
      run Request.handle (fs.doBoth b a) { w with clock := serialsB ++ serialsA } =
        some ((),wBA) ∧
      wAB.SameStore wBA :=
  fs.doBoth_sameStore hind hrangeA hrangeB hA hB hnodup hfresh

end FileStore

/-- A second version of a stored object, which shares its block, and a third that adds one. -/
theorem doWOPE_commute_shared :
    let w := (World.fresh [7]).afterWOPE sampleStore firstWrite.wope
    let added : WOpeLog := ⟨[],⟨generation 0,generation 2,[.insert],[1],[lit "y"]⟩,{},.init⟩
    ∃ wAB wBA,
      run Request.handle (sampleStore.doBoth (shareWrite 1) added) { w with clock := [9] } =
        some ((),wAB) ∧
      run Request.handle (sampleStore.doBoth added (shareWrite 1)) { w with clock := [9] } =
        some ((),wBA) ∧
      wAB.SameStore wBA := by
  intro w added
  have hfresh : ∀ s ∈ [] ++ [(9 : Int64)], ¬w.Listed s := by
    intro s hs hlisted
    have hlisted' := World.afterWOPE_listed sampleStore _ _ hlisted
    obtain rfl := List.mem_singleton.1 hs
    rcases hlisted' with ⟨key,hkey⟩ | hnew
    · simp [World.serials,World.fresh] at hkey
    · exact absurd hnew (by decide)
  exact @FileStore.doWOPE_commute sampleStore _ w (shareWrite 1) added [] [9]
    ⟨by decide,by decide,by decide⟩ (inRange_noEdits _ _ _)
    ⟨rfl,rfl,by simp [added],by decide⟩ rfl rfl (by decide) hfresh

end GDFileStore
