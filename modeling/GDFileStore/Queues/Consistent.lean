import GDFileStore.Queues.Work
import GDFileStore.Blocks.EarlyReads

/-! What the database and the files have while phases and reads are under way: every version of the
table is in the journal, and so is what each worker has in hand. -/
namespace GDFileStore
open Sequences Program Prog

section settle
variable {α β ι : Type*}

lemma settle_mem {es : List (Sequences.Edit α)} {l : List ι} {s : ι} (h : s ∈ (settle es l).2) : s ∈ l := by
  induction es, l using settle.induct with
  | case1 p es l ih => exact List.mem_of_mem_eraseIdx (ih h)
  | case2 es l hes =>
    rw [settle] at h
    · exact h
    · exact hes

lemma settle_nodup {es : List (Sequences.Edit α)} {l : List ι} (h : l.Nodup) : (settle es l).2.Nodup := by
  induction es, l using settle.induct with
  | case1 p es l ih => exact ih (h.sublist (List.eraseIdx_sublist l p))
  | case2 es l hes =>
    rw [settle]
    · exact h
    · exact hes

/-- What is still to be done leaves the list that the whole script leaves. -/
lemma applyEdits_settle (es : List (Sequences.Edit α)) (l : List ι) (f : ι → α) :
    applyEdits (settle es l).1 ((settle es l).2.map f) = applyEdits es (l.map f) := by
  induction es, l using settle.induct with
  | case1 p es l ih =>
    rw [settle,ih,applyEdits,Sequences.Edit.apply,List.eraseIdx_map]
  | case2 es l hes =>
    rw [settle]
    exact hes

end settle

namespace World
variable (fs : FileStore)

/-- The block has its record and its data in the journal, and on the disk nothing else. -/
structure Sound (w : World) (s : Int64) : Prop where
  recorded : ∃ rb, w.blocks s = some rb ∧ rb.serial = s
  journal : (w.files (fs.journalFile s)).isSome
  disk : w.OnDisk fs s → w.files (fs.diskFile s) = w.files (fs.journalFile s)

/-- The data of a block in the journal. -/
def data (w : World) (s : Int64) : Bytes := (w.files (fs.journalFile s)).getD []

end World

namespace Work
variable (fs : FileStore)

/-- The serial drawn for a block that has no record yet. -/
def drawn : Work → List Int64
  | .stamped _ _ _ serial => [serial]
  | .written _ _ _ serial => [serial]
  | _ => []

/-- The blocks that the worker may still ask for or list. -/
def mentions : Work → List Int64
  | .editing _ _ l => l
  | .stamped _ _ l _ => l
  | .written _ _ l _ => l
  | .counting _ l serial _ => serial::l
  | .copying l serial => serial.toList ++ l
  | .reading _ serials _ => serials
  | _ => []

/-- The version that a write is going to publish. -/
def drafts (w : World) : Work → List (WOpeLog × List Bytes)
  | .editing wopelog edits l => [(wopelog,applyEdits edits (l.map (w.data fs)))]
  | .stamped wopelog edits l _ => [(wopelog,applyEdits edits (l.map (w.data fs)))]
  | .written wopelog edits l _ => [(wopelog,applyEdits edits (l.map (w.data fs)))]
  | .counting wopelog l _ _ => [(wopelog,l.map (w.data fs))]
  | _ => []

/-- The write that is published and not yet answered. -/
def unanswered : Work → List WOpeLog
  | .published wopelog => [wopelog]
  | _ => []

/-- The version that a read has looked up. -/
def found (w : World) : Work → List (ROpeLog × List Bytes)
  | .reading ropelog serials _ => [(ropelog,serials.map (w.data fs))]
  | _ => []

/-- The worker has nothing in hand. -/
def Idle : Work → Prop
  | .accepted _ => True
  | .moving => True
  | .closing => True
  | .asked _ => True
  | .free => True
  | _ => False

/-- What is known of the things in hand. -/
def Holds (w : World) : Work → Prop
  | .editing _ _ l => l.Nodup
  | .stamped _ _ l _ => l.Nodup
  | .written _ edits l serial => l.Nodup ∧ ∃ e rest data, edits = e::rest ∧ e.value = some data ∧
      w.files (fs.journalFile serial) = some data
  | .counting _ l serial attr => l.Nodup ∧ attr.serial = serial
  | .reading ropelog serials datas =>
    RightOrEmpty (serials.map (w.data fs)) (ropelog.rope.blocks.take datas.length) datas
  | _ => True

variable {fs} {w w' : World} {v : Work}

/-- The data of the blocks that a worker has in hand is all that it depends on. -/
lemma frame (h : ∀ s ∈ v.drawn ++ v.mentions,
    w'.files (fs.journalFile s) = w.files (fs.journalFile s)) :
    v.drafts fs w' = v.drafts fs w ∧ v.found fs w' = v.found fs w ∧
      (v.Holds fs w → v.Holds fs w') := by
  have hdata : ∀ l, l ⊆ v.mentions → l.map (w'.data fs) = l.map (w.data fs) := by
    intro l hl
    apply List.map_congr_left
    intro s hs
    rw [World.data,World.data,h s (List.mem_append_right _ (hl hs))]
  cases v with
  | editing wopelog edits l =>
    have hl := hdata l (fun s hs => hs)
    exact ⟨by rw [drafts,drafts,hl],rfl,fun hv => hv⟩
  | stamped wopelog edits l serial =>
    have hl := hdata l (fun s hs => hs)
    exact ⟨by rw [drafts,drafts,hl],rfl,fun hv => hv⟩
  | written wopelog edits l serial =>
    have hl := hdata l (fun s hs => hs)
    refine ⟨by rw [drafts,drafts,hl],rfl,?_⟩
    rintro ⟨hnodup,e,rest,data,hedits,he,hfile⟩
    exact ⟨hnodup,e,rest,data,hedits,he,(h serial List.mem_cons_self).trans hfile⟩
  | counting wopelog l serial attr =>
    have hl := hdata l (fun s hs => List.mem_cons_of_mem _ hs)
    exact ⟨by rw [drafts,drafts,hl],rfl,fun hv => hv⟩
  | reading ropelog serials datas =>
    have hl := hdata serials (fun s hs => hs)
    refine ⟨rfl,by rw [found,found,hl],?_⟩
    intro hv
    rw [Holds,hl]
    exact hv
  | accepted => exact ⟨rfl,rfl,fun hv => hv⟩
  | published => exact ⟨rfl,rfl,fun hv => hv⟩
  | moving => exact ⟨rfl,rfl,fun hv => hv⟩
  | copying => exact ⟨rfl,rfl,fun hv => hv⟩
  | closing => exact ⟨rfl,rfl,fun hv => hv⟩
  | asked => exact ⟨rfl,rfl,fun hv => hv⟩
  | free => exact ⟨rfl,rfl,fun hv => hv⟩

end Work

/-- What is stored, and what the workers have drawn and hold, go together: a serial that is drawn
or still to be drawn is nowhere in use, and every block in hand is sound. -/
structure Consistent (fs : FileStore) (vs : List Work) (w : World) (table : Versions) : Prop where
  journaled : Journaled fs w table
  fresh_nodup : (vs.flatMap Work.drawn ++ w.clock).Nodup
  fresh : ∀ s ∈ vs.flatMap Work.drawn ++ w.clock,
    ¬w.Listed s ∧ ¬w.OnDisk fs s ∧ s ∉ vs.flatMap Work.mentions
  sound : ∀ s ∈ vs.flatMap Work.mentions, w.Sound fs s
  holds : ∀ v ∈ vs, v.Holds fs w

lemma Journaled.sound {fs : FileStore} {w : World} {table : Versions} (h : Journaled fs w table)
    {s : Int64} (hs : w.Listed s) : w.Sound fs s := by
  obtain ⟨data,hdata⟩ := h.journal_isSome hs
  exact ⟨h.tidy.recorded s hs,by rw [hdata];rfl,h.disk s hs⟩

/-- The data along a list are the blocks of the version. -/
lemma Journaled.datas {fs : FileStore} {w : World} {table : Versions} (h : Journaled fs w table)
    (key : GHKey) : (w.serials key).map (w.data fs) = table.blocks key := by
  have hserials := congrArg (List.map (fun file : Option Bytes => file.getD [])) (h.serials key)
  rw [List.map_map,List.map_map] at hserials
  exact hserials.trans (List.map_id _)

/-- The versions are kept when the lists, the clock and the listed blocks are. -/
lemma Journaled.keep {fs : FileStore} {w w' : World} {table : Versions} (h : Journaled fs w table)
    (hobjs : w'.objs = w.objs) (hclock : w'.clock = w.clock)
    (hfiles : ∀ s, w.Listed s → w'.files (fs.journalFile s) = w.files (fs.journalFile s))
    (hsound : ∀ s, w.Listed s → w'.Sound fs s) (hunused : ∀ s ∈ w.clock, ¬w'.OnDisk fs s) :
    Journaled fs w' table := by
  have hlisted : ∀ s, w'.Listed s ↔ w.Listed s := World.listed_of_objs_eq w hobjs
  refine ⟨⟨hclock ▸ h.tidy.clock_nodup,?_,?_,?_⟩,?_,?_,hclock ▸ hunused⟩
  · intro key
    rw [World.serials,hobjs]
    exact h.tidy.serials_nodup key
  · intro s hs
    rw [hlisted]
    exact h.tidy.unlisted s (hclock ▸ hs)
  · exact fun s hs => (hsound s ((hlisted s).1 hs)).recorded
  · intro key
    rw [hobjs,← h.lists key]
    cases hl : w.objs.lookup key with
    | none => rfl
    | some orb =>
      rw [Option.map_some,Option.map_some]
      congr 1
      apply List.map_congr_left
      intro s hs
      exact hfiles s ⟨key,World.serials_of_lookup hl ▸ hs⟩
  · exact fun s hs => (hsound s ((hlisted s).1 hs)).disk

/-- The journal files of everything that the workers have in hand are as they were. -/
def SameFiles (fs : FileStore) (vs : List Work) (w w' : World) : Prop :=
  ∀ v ∈ vs, ∀ s ∈ v.drawn ++ v.mentions, w'.files (fs.journalFile s) = w.files (fs.journalFile s)

namespace SameFiles
variable {fs : FileStore} {vs : List Work} {w w' : World}

lemma drafts (h : SameFiles fs vs w w') :
    vs.flatMap (Work.drafts fs w') = vs.flatMap (Work.drafts fs w) :=
  List.flatMap_congr (fun v hv => (Work.frame (h v hv)).1)

lemma found (h : SameFiles fs vs w w') :
    vs.flatMap (Work.found fs w') = vs.flatMap (Work.found fs w) :=
  List.flatMap_congr (fun v hv => (Work.frame (h v hv)).2.1)

end SameFiles

namespace Consistent
variable {fs : FileStore} {vs others : List Work} {w w' : World} {table table' : Versions}
  {v v' : Work}

lemma perm {us : List Work} (hp : us.Perm vs) (h : Consistent fs us w table) :
    Consistent fs vs w table where
  journaled := h.journaled
  fresh_nodup := ((hp.flatMap_right _).append_right _).nodup_iff.1 h.fresh_nodup
  fresh := by
    intro s hs
    obtain ⟨hlisted,hdisk,hmention⟩ := h.fresh s (((hp.flatMap_right _).append_right _).mem_iff.2 hs)
    exact ⟨hlisted,hdisk,fun hm => hmention ((hp.flatMap_right _).mem_iff.2 hm)⟩
  sound := fun s hs => h.sound s ((hp.flatMap_right _).mem_iff.2 hs)
  holds := fun v hv => h.holds v (hp.mem_iff.2 hv)

lemma of_journaled (h : Journaled fs w table) : Consistent fs [] w table where
  journaled := h
  fresh_nodup := h.tidy.clock_nodup
  fresh := fun s hs => ⟨h.tidy.unlisted s hs,h.unused s hs,List.not_mem_nil⟩
  sound := fun _ hs => absurd hs List.not_mem_nil
  holds := fun _ hv => absurd hv List.not_mem_nil

/-- A worker that has nothing in hand comes or goes. -/
lemma idle_iff (hv : v.Idle) : Consistent fs (v::vs) w table ↔ Consistent fs vs w table := by
  have hnone : v.drawn = [] ∧ v.mentions = [] ∧ v.Holds fs w := by
    cases v <;> first | exact hv.elim | exact ⟨rfl,rfl,trivial⟩
  have hd : (v::vs).flatMap Work.drawn = vs.flatMap Work.drawn := by
    rw [List.flatMap_cons,hnone.1,List.nil_append]
  have hm : (v::vs).flatMap Work.mentions = vs.flatMap Work.mentions := by
    rw [List.flatMap_cons,hnone.2.1,List.nil_append]
  constructor
  · rintro ⟨hjournaled,hnodup,hfresh,hsound,hholds⟩
    rw [hd] at hnodup hfresh
    rw [hm] at hfresh hsound
    exact ⟨hjournaled,hnodup,hfresh,hsound,fun u hu => hholds u (List.mem_cons_of_mem v hu)⟩
  · rintro ⟨hjournaled,hnodup,hfresh,hsound,hholds⟩
    refine ⟨hjournaled,hd ▸ hnodup,?_,hm ▸ hsound,List.forall_mem_cons.2 ⟨hnone.2.2,hholds⟩⟩
    rw [hd,hm]
    exact hfresh

/-- One worker has moved on from `v` to `v'`: what has to be shown of it and of the world. -/
lemma move (h : Consistent fs (v::others) w table) (hjournaled : Journaled fs w' table')
    (hnodup : ((v'::others).flatMap Work.drawn ++ w'.clock).Nodup)
    (hfresh : ∀ s ∈ (v'::others).flatMap Work.drawn ++ w'.clock,
      s ∈ (v::others).flatMap Work.drawn ++ w.clock ∧ (w'.Listed s → w.Listed s) ∧
        (w'.OnDisk fs s → w.OnDisk fs s) ∧ s ∉ v'.mentions)
    (hsame : SameFiles fs others w w')
    (hothers : ∀ s ∈ others.flatMap Work.mentions, w.Sound fs s → w'.Sound fs s)
    (hsound : ∀ s ∈ v'.mentions, w'.Sound fs s) (hholds : v'.Holds fs w') :
    Consistent fs (v'::others) w' table' where
  journaled := hjournaled
  fresh_nodup := hnodup
  fresh := by
    intro s hs
    obtain ⟨hold,hlisted,hdisk,hself⟩ := hfresh s hs
    obtain ⟨hunlisted,hunused,hmention⟩ := h.fresh s hold
    refine ⟨fun hl => hunlisted (hlisted hl),fun hd => hunused (hdisk hd),?_⟩
    intro hm
    rcases List.mem_append.1 hm with hm | hm
    · exact hself hm
    · exact hmention (List.mem_append_right _ hm)
  sound := by
    intro s hs
    rcases List.mem_append.1 hs with hs | hs
    · exact hsound s hs
    · exact hothers s hs (h.sound s (List.mem_append_right _ hs))
  holds := by
    intro u hu
    rcases List.mem_cons.1 hu with rfl | hm
    · exact hholds
    · exact (Work.frame (hsame u hm)).2.2 (h.holds u (List.mem_cons_of_mem v hm))

/-- A worker goes on without a change to the world, with blocks that it had or that are listed. -/
lemma look (h : Consistent fs (v::others) w table) (hdrawn : v'.drawn = v.drawn)
    (hmentions : ∀ s ∈ v'.mentions, s ∈ v.mentions ∨ w.Listed s) (hholds : v'.Holds fs w) :
    Consistent fs (v'::others) w table := by
  have hd : (v'::others).flatMap Work.drawn = (v::others).flatMap Work.drawn := by
    rw [List.flatMap_cons,List.flatMap_cons,hdrawn]
  refine h.move h.journaled (hd ▸ h.fresh_nodup) ?_ (fun _ _ _ _ => rfl) (fun _ _ hs => hs) ?_ hholds
  · intro s hs
    rw [hd] at hs
    obtain ⟨hunlisted,_,hmention⟩ := h.fresh s hs
    refine ⟨hs,id,id,?_⟩
    intro hm
    rcases hmentions s hm with hold | hlisted
    · exact hmention (List.mem_append_left _ hold)
    · exact hunlisted hlisted
  · intro s hs
    rcases hmentions s hs with hold | hlisted
    · exact h.sound s (List.mem_append_left _ hold)
    · exact h.journaled.sound hlisted

variable {wopelog : WOpeLog} {e : Sequences.Edit Bytes} {es : List (Sequences.Edit Bytes)} {l : List Int64}
  {serial : Int64}

/-- A reading is drawn. -/
lemma now (h : Consistent fs (.editing wopelog es l::others) w table) {clock : List Int64}
    (hclock : w.clock = serial::clock) :
    Consistent fs (.stamped wopelog es l serial::others) { w with clock := clock } table := by
  have hperm : (serial::(others.flatMap Work.drawn ++ clock)).Perm
      (others.flatMap Work.drawn ++ w.clock) := hclock ▸ List.perm_middle.symm
  have hjournaled : Journaled fs { w with clock := clock } table :=
    ⟨h.journaled.tidy.stamped hclock w.files,h.journaled.lists,h.journaled.disk,
      fun s hs => h.journaled.unused s (hclock ▸ List.mem_cons_of_mem _ hs)⟩
  refine h.move hjournaled (hperm.nodup_iff.2 h.fresh_nodup) ?_ (fun _ _ _ _ => rfl)
    (fun _ _ hs => ⟨hs.recorded,hs.journal,hs.disk⟩) ?_ (h.holds _ List.mem_cons_self)
  · intro s hs
    have hold := hperm.mem_iff.1 hs
    exact ⟨hold,id,id,fun hm => (h.fresh s hold).2.2 (List.mem_append_left _ hm)⟩
  · intro s hs
    obtain ⟨hrecorded,hjournal,hdisk⟩ := h.sound s (List.mem_append_left _ hs)
    exact ⟨hrecorded,hjournal,hdisk⟩

/-- A serial that a worker has drawn is in nobody's hand and drawn by nobody else. -/
lemma drawn_unused (h : Consistent fs (v::others) w table) {s : Int64} (hs : s ∈ v.drawn) :
    s ∉ v.mentions ∧ s ∉ others.flatMap Work.drawn ++ w.clock ∧
      ∀ u ∈ others, s ∉ u.drawn ++ u.mentions := by
  have hmem : s ∈ (v::others).flatMap Work.drawn ++ w.clock :=
    List.mem_append_left _ (List.mem_append_left _ hs)
  have hmention := (h.fresh s hmem).2.2
  have hnodup := h.fresh_nodup
  rw [List.flatMap_cons,List.append_assoc] at hnodup
  have hrest := fun hm => (List.nodup_append.1 hnodup).2.2 s hs s hm rfl
  refine ⟨fun hm => hmention (List.mem_append_left _ hm),hrest,?_⟩
  intro u hu hm
  rcases List.mem_append.1 hm with hm | hm
  · exact hrest (List.mem_append_left _ (List.mem_flatMap.2 ⟨u,hu,hm⟩))
  · exact hmention (List.mem_append_right _ (List.mem_flatMap.2 ⟨u,hu,hm⟩))

/-- A change that leaves the lists and the clock alone, by a worker that may give up a serial it
has drawn for a block in its hand. -/
lemma change (h : Consistent fs (v::others) w table) (hobjs : w'.objs = w.objs)
    (hclock : w'.clock = w.clock) (hdrawn : v'.drawn.Sublist v.drawn)
    (hmentions : ∀ s ∈ v'.mentions, s ∈ v.mentions ∨ s ∈ v.drawn ∧ s ∉ v'.drawn ∧ w'.Sound fs s)
    (hdisk : ∀ s, w'.OnDisk fs s → w.OnDisk fs s ∨ s ∈ v.mentions)
    (hfiles : ∀ s, s ∉ v.drawn → w'.files (fs.journalFile s) = w.files (fs.journalFile s))
    (hsound : ∀ s, s ∉ v.drawn → w.Sound fs s → w'.Sound fs s) (hholds : v'.Holds fs w') :
    Consistent fs (v'::others) w' table := by
  have hlisted : ∀ s, w'.Listed s ↔ w.Listed s := World.listed_of_objs_eq w hobjs
  have hsub : ((v'::others).flatMap Work.drawn ++ w'.clock).Sublist
      ((v::others).flatMap Work.drawn ++ w.clock) := by
    rw [hclock]
    exact (hdrawn.append (List.Sublist.refl _)).append (List.Sublist.refl _)
  have hunused : ∀ s ∈ (v::others).flatMap Work.drawn ++ w.clock, ¬w'.OnDisk fs s := by
    intro s hs hon
    obtain ⟨_,hold,hmention⟩ := h.fresh s hs
    rcases hdisk s hon with hon | hm
    · exact hold hon
    · exact hmention (List.mem_append_left _ hm)
  have hnotDrawn : ∀ s, w.Listed s → s ∉ v.drawn := by
    intro s hs hm
    exact (h.fresh s (List.mem_append_left _ (List.mem_append_left _ hm))).1 hs
  have hjournaled : Journaled fs w' table := by
    apply h.journaled.keep hobjs hclock
    · exact fun s hs => hfiles s (hnotDrawn s hs)
    · exact fun s hs => hsound s (hnotDrawn s hs) (h.journaled.sound hs)
    · exact fun s hs => hunused s (List.mem_append_right _ hs)
  refine h.move hjournaled (hsub.nodup h.fresh_nodup) ?_ ?_ ?_ ?_ hholds
  · intro s hs
    have hold := hsub.subset hs
    refine ⟨hold,(hlisted s).1,fun hon => absurd hon (hunused s hold),?_⟩
    intro hm
    rcases hmentions s hm with hm | ⟨hmine,hgiven,_⟩
    · exact (h.fresh s hold).2.2 (List.mem_append_left _ hm)
    · rw [List.flatMap_cons,List.append_assoc,hclock] at hs
      exact (List.mem_append.1 hs).elim hgiven (h.drawn_unused hmine).2.1
  · intro u hu s hs
    exact hfiles s (fun hm => (h.drawn_unused hm).2.2 u hu hs)
  · intro s hs
    obtain ⟨u,hu,hm⟩ := List.mem_flatMap.1 hs
    exact hsound s (fun hd => (h.drawn_unused hd).2.2 u hu (List.mem_append_right _ hm))
  · intro s hs
    rcases hmentions s hs with hm | ⟨_,_,hnew⟩
    · exact hsound s (fun hd => (h.drawn_unused hd).1 hm) (h.sound s (List.mem_append_left _ hm))
    · exact hnew

/-- The file of the serial drawn is written. -/
lemma write [fs.hash.Separates]
    (h : Consistent fs (.stamped wopelog (e::es) l serial::others) w table) {data : Bytes}
    (he : e.value = some data) (hfiles : w'.files =
      Function.update w.files (fs.journalFile serial) (some data)) (hobjs : w'.objs = w.objs)
    (hblocks : w'.blocks = w.blocks) (hclock : w'.clock = w.clock) :
    Consistent fs (.written wopelog (e::es) l serial::others) w' table := by
  have hjournal : ∀ s, s ∉ [serial] → w'.files (fs.journalFile s) = w.files (fs.journalFile s) := by
    intro s hs
    rw [hfiles]
    exact Function.update_of_ne (fun heq => hs (by simpa using heq)) _ _
  have hdisk : ∀ s, w'.files (fs.diskFile s) = w.files (fs.diskFile s) := by
    intro s
    rw [hfiles]
    exact Function.update_of_ne (fs.diskFile_ne_journalFile s serial) _ _
  refine h.change hobjs hclock ?_ (fun s hs => .inl hs) ?_ hjournal ?_ ?_
  · exact List.Sublist.refl _
  · intro s hs
    rw [World.OnDisk,hdisk] at hs
    exact .inl hs
  · intro s hs hsound
    refine ⟨hblocks ▸ hsound.recorded,?_,?_⟩
    · rw [hjournal s hs]
      exact hsound.journal
    · rw [World.OnDisk,hdisk,hjournal s hs]
      exact hsound.disk
  · refine ⟨h.holds _ List.mem_cons_self,e,es,data,rfl,he,?_⟩
    rw [hfiles]
    exact Function.update_self _ _ _

/-- The new block gets its record, and the edit is done. -/
lemma record (h : Consistent fs (.written wopelog (e::es) l serial::others) w table)
    (hblocks : w'.blocks = Function.update w.blocks serial (some { serial := serial }))
    (hobjs : w'.objs = w.objs) (hfiles : w'.files = w.files) (hclock : w'.clock = w.clock) :
    Consistent fs (.editing wopelog (settle es ((e.map (fun _ => serial)).apply l)).1
      (settle es ((e.map (fun _ => serial)).apply l)).2::others) w' table := by
  obtain ⟨hnodup,_,_,data,hcons,he,hfile⟩ := h.holds _ List.mem_cons_self
  obtain ⟨rfl,rfl⟩ := List.cons.inj hcons
  have hserial : serial ∉ l := (h.drawn_unused List.mem_cons_self).1
  have hunused : ¬w.OnDisk fs serial :=
    (h.fresh serial (List.mem_append_left _ (List.mem_append_left _ List.mem_cons_self))).2.1
  have hvalue : (e.map (fun _ => serial)).value = some serial := by
    rw [Sequences.Edit.value_map,he]
    rfl
  refine h.change hobjs hclock ?_ ?_ ?_ (fun s _ => by rw [hfiles]) ?_ ?_
  · exact List.nil_sublist _
  · intro s hs
    rcases Sequences.Edit.mem_of_mem_apply (settle_mem hs) with hl | hx
    · exact .inl hl
    · obtain rfl := Option.some.inj (hvalue.symm.trans hx)
      refine .inr ⟨List.mem_cons_self,List.not_mem_nil,⟨{ serial := serial },?_,rfl⟩,?_,?_⟩
      · rw [hblocks,Function.update_self]
      · rw [hfiles,hfile]
        rfl
      · rw [World.OnDisk,hfiles]
        exact fun hon => absurd hon hunused
  · intro s hs
    rw [World.OnDisk,hfiles] at hs
    exact .inl hs
  · intro s hs hsound
    refine ⟨?_,?_,?_⟩
    · rw [hblocks,Function.update_of_ne (fun heq => hs (List.mem_singleton.2 heq))]
      exact hsound.recorded
    · rw [hfiles]
      exact hsound.journal
    · rw [World.OnDisk,hfiles]
      exact hsound.disk
  · apply settle_nodup
    apply Sequences.Edit.nodup_apply hnodup
    intro x hx
    obtain rfl := Option.some.inj (hvalue.symm.trans hx)
    exact hserial

/-- The record of a block is put back with another count. -/
lemma count (h : Consistent fs (.counting wopelog l serial attr::others) w table)
    {attr' : ReferedBlock} (hserial : attr'.serial = attr.serial)
    (hblocks : w'.blocks = Function.update w.blocks serial (some attr'))
    (hobjs : w'.objs = w.objs) (hfiles : w'.files = w.files) (hclock : w'.clock = w.clock) :
    Consistent fs (.editing wopelog [] l::others) w' table := by
  obtain ⟨hnodup,hattr⟩ := h.holds _ List.mem_cons_self
  refine h.change hobjs hclock ?_ ?_ ?_ (fun s _ => by rw [hfiles]) ?_ hnodup
  · exact List.Sublist.refl _
  · exact fun s hs => .inl (List.mem_cons_of_mem _ hs)
  · intro s hs
    rw [World.OnDisk,hfiles] at hs
    exact .inl hs
  · intro s _ hsound
    refine ⟨?_,?_,?_⟩
    · by_cases hs : s = serial
      · subst hs
        rw [hblocks,Function.update_self]
        exact ⟨_,rfl,hserial.trans hattr⟩
      · rw [hblocks,Function.update_of_ne hs]
        exact hsound.recorded
    · rw [hfiles]
      exact hsound.journal
    · rw [World.OnDisk,hfiles]
      exact hsound.disk

/-- A block in hand is copied to the disk root. -/
lemma copy [fs.hash.Separates] (h : Consistent fs (.copying l (some serial)::others) w table) :
    Consistent fs (.copying l none::others) (w.copyFile fs serial) table := by
  have hself := h.sound serial (List.mem_append_left _ List.mem_cons_self)
  have hjournal : ∀ s,
      (w.copyFile fs serial).files (fs.journalFile s) = w.files (fs.journalFile s) := by
    intro s
    rw [World.copyFile_eq]
    exact Function.update_of_ne (fs.journalFile_ne_diskFile s serial) _ _
  have hdisk : ∀ s, s ≠ serial →
      (w.copyFile fs serial).files (fs.diskFile s) = w.files (fs.diskFile s) := by
    intro s hs
    rw [World.copyFile_eq]
    exact Function.update_of_ne (fun heq => hs (fs.diskFile_inj.1 heq)) _ _
  have hcopied : (w.copyFile fs serial).files (fs.diskFile serial) =
      w.files (fs.journalFile serial) := by
    rw [World.copyFile_eq]
    dsimp only
    rw [Function.update_self,Option.or_of_isSome hself.journal]
  have hrest := World.copyFile_eq fs w serial
  refine h.change (by rw [hrest]) (by rw [hrest]) ?_ ?_ ?_ (fun s _ => hjournal s) ?_ trivial
  · exact List.Sublist.refl _
  · exact fun s hs => .inl (List.mem_cons_of_mem _ hs)
  · intro s hs
    by_cases hne : s = serial
    · exact .inr (hne ▸ List.mem_cons_self)
    · rw [World.OnDisk,hdisk s hne] at hs
      exact .inl hs
  · intro s _ hsound
    refine ⟨by rw [hrest];exact hsound.recorded,?_,?_⟩
    · rw [hjournal]
      exact hsound.journal
    · rw [hjournal]
      by_cases hne : s = serial
      · subst hne
        exact fun _ => hcopied
      · rw [World.OnDisk,hdisk s hne]
        exact hsound.disk

/-- The list of a new version is stored. -/
lemma publish (h : Consistent fs (.editing wopelog [] l::others) w table) :
    Consistent fs (.published wopelog::others) (w.publish wopelog.newKey l)
      (Function.update table wopelog.newKey (some (l.map (w.data fs)))) := by
  have hold := h.journaled
  have hserials := fun key => w.publish_serials wopelog.newKey l key
  have hlisted : ∀ s, (w.publish wopelog.newKey l).Listed s → w.Listed s ∨ s ∈ l := by
    rintro s ⟨key,hkey⟩
    rw [hserials] at hkey
    split at hkey
    · exact .inr hkey
    · exact .inl ⟨key,hkey⟩
  have hfresh : ∀ s ∈ (Work.editing wopelog [] l::others).flatMap Work.drawn ++ w.clock,
      ¬(w.publish wopelog.newKey l).Listed s := by
    intro s hs hl
    obtain ⟨hunlisted,_,hmention⟩ := h.fresh s hs
    rcases hlisted s hl with hw | hm
    · exact hunlisted hw
    · exact hmention (List.mem_append_left _ hm)
  have hsound : ∀ s, (w.publish wopelog.newKey l).Listed s → w.Sound fs s := by
    intro s hs
    rcases hlisted s hs with hw | hm
    · exact hold.sound hw
    · exact h.sound s (List.mem_append_left _ hm)
  have hjournaled : Journaled fs (w.publish wopelog.newKey l)
      (Function.update table wopelog.newKey (some (l.map (w.data fs)))) := by
    refine ⟨⟨hold.tidy.clock_nodup,?_,?_,?_⟩,?_,?_,hold.unused⟩
    · intro key
      rw [hserials]
      split
      · exact h.holds _ List.mem_cons_self
      · exact hold.tidy.serials_nodup key
    · exact fun s hs => hfresh s (List.mem_append_right _ hs)
    · exact fun s hs => (hsound s hs).recorded
    · intro key
      rw [World.publish]
      by_cases hkey : key = wopelog.newKey
      · rw [hkey,AList.lookup_insert,Function.update_self,Option.map_some,Option.map_some,
          List.map_map]
        congr 1
        apply List.map_congr_left
        intro s hs
        obtain ⟨data,hdata⟩ := Option.isSome_iff_exists.1
          (h.sound s (List.mem_append_left _ hs)).journal
        simp [World.data,hdata]
      · rw [AList.lookup_insert_ne hkey,Function.update_of_ne hkey]
        exact hold.lists key
    · exact fun s hs => (hsound s hs).disk
  refine h.move hjournaled h.fresh_nodup ?_ (fun _ _ _ _ => rfl) (fun s _ hs => ⟨hs.1,hs.2,hs.3⟩)
    (fun _ hs => absurd hs List.not_mem_nil) trivial
  intro s hs
  exact ⟨hs,fun hl => absurd hl (hfresh s hs),id,List.not_mem_nil⟩

end Consistent
end GDFileStore
