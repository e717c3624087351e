import GDFileStore.Blocks.Commute
import GDFileStore.Blocks.Crash
import GDFileStore.Blocks.ReadBack
import GDFileStore.Blocks.Recorded
import GDFileStore.Blocks.Replaced

/-! Runs of writes and reads on the records of a `RocksKV`. What is known of the typed attributes
after a run is known of those that the records hold, since each such run is one on the attributes;
and within the sizes that an `int` can index the writes and reads run on records as well. -/
namespace GDFileStore
open Sequences Program Prog

/-- A write with the states before and after the requests that it has made, and what is left of
it. -/
structure Written (σ : Type) where
  wopelog : WOpeLog
  before : σ
  rest : Task Unit
  after : σ

namespace Written
variable {σ τ : Type}

/-- The same requests of the same write, on two components that are in step. -/
structure Same (R : σ → τ → Prop) (e : Written σ) (e' : Written τ) : Prop where
  wopelog : e.wopelog = e'.wopelog
  rest : e.rest = e'.rest
  before : R e.before e'.before
  after : R e.after e'.after

/-- The blocks, with their data, for which the write drew a reading. -/
def inserted (clock : σ → List Int64) (e : Written σ) : List (Int64 × Bytes) :=
  drawn { clock := clock e.before } { clock := clock e.after } e.wopelog.wope

end Written

section WriteRun
variable {σ τ : Type} {outcome : (r : Request) → σ → r.Resp → σ → Prop}
  {outcome' : (r : Request) → τ → r.Resp → τ → Prop} {allowed : σ → WOPE → Prop}
  {allowed' : τ → WOPE → Prop} {fs : FileStore} {s₀ s : σ} {t₀ : τ} {trace : List (Written σ)}

/-- Writes that are allowed when they come, one after another, each run to its end or cut off after
any number of its requests. -/
inductive WriteRun (outcome : (r : Request) → σ → r.Resp → σ → Prop) (allowed : σ → WOPE → Prop)
    (fs : FileStore) (s₀ : σ) : List (Written σ) → σ → Prop
  | start : WriteRun outcome allowed fs s₀ [] s₀
  | write {trace : List (Written σ)} {s s' : σ} {rest : Task Unit} (wopelog : WOpeLog) :
      WriteRun outcome allowed fs s₀ trace s → allowed s wopelog.wope →
      Makes outcome (fs.doWOPE wopelog) s rest s' →
      WriteRun outcome allowed fs s₀ (trace ++ [⟨wopelog,s,rest,s'⟩]) s'

theorem WriteRun.embed {R : σ → τ → Prop} (hembeds : Embeds outcome outcome' R)
    (hallowed : ∀ ⦃s t wope⦄, R s t → allowed s wope → allowed' t wope) (hstart : R s₀ t₀)
    (h : WriteRun outcome allowed fs s₀ trace s) : ∃ trace' t,
      WriteRun outcome' allowed' fs t₀ trace' t ∧ R s t ∧
        List.Forall₂ (Written.Same R) trace trace' := by
  induction h with
  | start => exact ⟨[],t₀,.start,hstart,.nil⟩
  | write wopelog _ hallow hmade ih =>
    obtain ⟨trace',t,hrun,hR,hsame⟩ := ih
    obtain ⟨t',hmade',hR'⟩ := hmade.embed hembeds hR
    exact ⟨_,t',hrun.write wopelog (hallowed hR hallow) hmade',hR',
      List.rel_append hsame (.cons ⟨rfl,rfl,hR,hR'⟩ .nil)⟩

end WriteRun

section Typed
variable {allowed : World → WOPE → Prop} {fs : FileStore} {w₀ w : World}
  {trace : List (Written World)}

/-- The write's block numbers are in range of its base list. -/
def World.Admits (w : World) (wope : WOPE) : Prop :=
  wope.InRange (w.serials wope.ghobj.key).length

lemma WriteRun.crashRun (h : WriteRun Request.Gives World.Admits fs w₀ trace w) :
    CrashRun fs w₀ (trace.flatMap (Written.inserted World.clock)) trace.length w := by
  induction h with
  | start => exact .start
  | write wopelog _ hrange hmade ih =>
    rw [List.flatMap_append,List.flatMap_singleton,List.length_append,List.length_singleton]
    exact ih.write wopelog hrange hmade.steps

/-- Writes that all run to their ends. -/
lemma WriteRun.rewritten (h : WriteRun Request.Gives World.Admits fs w₀ trace w)
    (hdone : ∀ e ∈ trace, e.rest = .done ()) : Rewritten fs w₀
      (trace.map (fun e => e.before.serials e.wopelog.wope.newGhobj.key)) w := by
  induction h with
  | start => exact .start
  | write wopelog _ hrange hmade ih =>
    obtain ⟨hbefore,hlast⟩ := List.forall_mem_append.1 hdone
    obtain rfl := hlast _ (List.mem_singleton_self _)
    rw [List.map_append]
    exact (ih hbefore).write wopelog hrange hmade.steps.run

/-- Such writes, each to a version that has no list yet. -/
lemma WriteRun.completed (h : WriteRun Request.Gives (fun w wope => w.Admits wope ∧
      w.objs.lookup wope.newGhobj.key = none) fs w₀ trace w)
    (hdone : ∀ e ∈ trace, e.rest = .done ()) : Completed fs w₀ w := by
  induction h with
  | start => exact .start
  | write wopelog _ hallowed hmade ih =>
    obtain ⟨hbefore,hlast⟩ := List.forall_mem_append.1 hdone
    obtain rfl := hlast _ (List.mem_singleton_self _)
    exact (ih hbefore).write wopelog hallowed.1 hallowed.2 hmade.steps.run

end Typed

section Safety
variable {headers : TypeHeaders} {fs : FileStore} {w : World} {raw : RecordWorld}

namespace RecordWorld

/-- `GetAttr` of a version finds this on the records. -/
def Finds (raw : RecordWorld) (headers : TypeHeaders) (key : GHKey) (found : ObjectWithRB × Bool) :
    Prop := Request.Stores headers (.getObjAttr key) raw found raw

/-- The write's block numbers are in range of the list that is found for its base version. -/
def Admits (raw : RecordWorld) (headers : TypeHeaders) (wope : WOPE) : Prop :=
  ∃ found, raw.Finds headers wope.ghobj.key found ∧ wope.InRange found.1.serialsList.length

end RecordWorld

lemma Recorded.found (h : Recorded headers w raw) {key : GHKey} {found : ObjectWithRB × Bool}
    (hfound : raw.Finds headers key found) : found = getAttr (w.objs.lookup key) {} := by
  obtain ⟨w',hgives,-⟩ := stores_embeds h hfound
  exact (congrArg Prod.fst (Option.some.inj hgives)).symm

lemma Recorded.admits (h : Recorded headers w raw) {wope : WOPE} (hrange : raw.Admits headers wope) :
    w.Admits wope := by
  obtain ⟨found,hfound,hrange⟩ := hrange
  rw [h.found hfound] at hrange
  exact hrange

lemma Recorded.lookup_none (h : Recorded headers w raw) {key : GHKey} {attr : ObjectWithRB}
    (hfound : raw.Finds headers key (attr,false)) : w.objs.lookup key = none := by
  have hsome := congrArg Prod.snd (h.found hfound)
  exact Option.not_isSome_iff_eq_none.1 (by simpa [getAttr] using hsome.symm)

lemma inserted_of_same {trace : List (Written RecordWorld)} {trace' : List (Written World)}
    (h : List.Forall₂ (Written.Same (fun raw w => Recorded headers w raw)) trace trace') :
    trace.flatMap (Written.inserted RecordWorld.clock) =
      trace'.flatMap (Written.inserted World.clock) := by
  induction h with
  | nil => rfl
  | cons hsame _ ih =>
    rw [List.flatMap_cons,List.flatMap_cons,ih,Written.inserted,Written.inserted,hsame.wopelog,
      hsame.before.clock,hsame.after.clock]

lemma done_of_same {σ τ : Type} {R : σ → τ → Prop} {trace : List (Written σ)}
    {trace' : List (Written τ)} (h : List.Forall₂ (Written.Same R) trace trace')
    (hdone : ∀ e ∈ trace, e.rest = .done ()) : ∀ e ∈ trace', e.rest = .done () := by
  induction h with
  | nil => exact fun _ he => absurd he List.not_mem_nil
  | cons hsame _ ih =>
    obtain ⟨hfirst,hrest⟩ := List.forall_mem_cons.1 hdone
    exact List.forall_mem_cons.2 ⟨hsame.rest ▸ hfirst,ih hrest⟩

/-- A run on records is one on the attributes that they hold. -/
lemma WriteRun.typed {clock : List Int64} {trace : List (Written RecordWorld)}
    (h : WriteRun (Request.Stores headers) (fun raw wope => raw.Admits headers wope) fs
      { clock := clock } trace raw) : ∃ trace' w,
    WriteRun Request.Gives World.Admits fs (World.fresh clock) trace' w ∧ Recorded headers w raw ∧
      List.Forall₂ (Written.Same (fun raw w => Recorded headers w raw)) trace trace' :=
  h.embed stores_embeds (fun _ _ _ hR hrange => Recorded.admits hR hrange)
    (Recorded.start headers clock)

/-- On records, at every state of fewer than `2^31` writes, each possibly cut off by a crash: no
count is below the number of occurrences, and every listed block has its record and its journal
file with the data it was inserted with. -/
theorem crash_safe_on_records (fs : FileStore) [fs.hash.Separates] {clock : List Int64}
    {trace : List (Written RecordWorld)} (hclock : clock.Nodup)
    (h : WriteRun (Request.Stores headers) (fun raw wope => raw.Admits headers wope) fs
      { clock := clock } trace raw) (hn : trace.length < 2^31) :
    ((trace.flatMap (Written.inserted RecordWorld.clock)).map Prod.fst).Nodup ∧
    ∃ w, Recorded headers w raw ∧ (∀ s, w.occurrences s ≤ (w.refCount s).toInt) ∧
      ∀ s, w.Listed s → (∃ rb, w.blocks s = some rb ∧ rb.serial = s) ∧
        ∃ data, (s,data) ∈ trace.flatMap (Written.inserted RecordWorld.clock) ∧
          raw.files (fs.journalFile s) = some data := by
  obtain ⟨trace',w,hrun,hrecorded,hsame⟩ := h.typed
  rw [hsame.length_eq] at hn
  obtain ⟨hnodup,hcounts,hlisted⟩ := counts_and_files fs hclock hrun.crashRun hn
  rw [inserted_of_same hsame,hrecorded.files]
  exact ⟨hnodup,w,hrecorded,hcounts,hlisted⟩

/-- On records, after any number of completed writes, each to its own new version, a block that
occurs fewer than `2^31` times in the stored lists has exactly that number as its count. -/
theorem refCount_exact_on_records (fs : FileStore) {clock : List Int64}
    {trace : List (Written RecordWorld)} (hclock : clock.Nodup)
    (h : WriteRun (Request.Stores headers) (fun raw wope => raw.Admits headers wope ∧
      ∃ attr, raw.Finds headers wope.newGhobj.key (attr,false)) fs { clock := clock } trace raw)
    (hdone : ∀ e ∈ trace, e.rest = .done ()) : ∃ w, Recorded headers w raw ∧
      ∀ s, w.occurrences s < 2^31 → (w.refCount s).toInt = w.occurrences s := by
  have hallowed : ∀ ⦃raw w wope⦄, Recorded headers w raw → (raw.Admits headers wope ∧
      ∃ attr, raw.Finds headers wope.newGhobj.key (attr,false)) →
        w.Admits wope ∧ w.objs.lookup wope.newGhobj.key = none :=
    fun _ _ _ hR hall => ⟨hR.admits hall.1,hR.lookup_none hall.2.choose_spec⟩
  obtain ⟨trace',w,hrun,hrecorded,hsame⟩ :=
    h.embed stores_embeds hallowed (Recorded.start headers clock)
  exact ⟨w,hrecorded,count_of_completed fs hclock (hrun.completed (done_of_same hsame hdone))⟩

/-- On records, a count is, as an `int32_t`, the number of occurrences in the stored lists and in
all that were replaced. -/
theorem refCount_with_replaced_on_records (fs : FileStore) {clock : List Int64}
    {trace : List (Written RecordWorld)} (hclock : clock.Nodup)
    (h : WriteRun (Request.Stores headers) (fun raw wope => raw.Admits headers wope) fs
      { clock := clock } trace raw) (hdone : ∀ e ∈ trace, e.rest = .done ()) :
    ∃ w replaced, Recorded headers w raw ∧
      List.Forall₂ (fun e l => ∀ found, e.before.Finds headers e.wopelog.wope.newGhobj.key found →
        found.1.serialsList = l) trace replaced ∧
      ∀ s, w.refCount s = Int32.ofNat (w.occurrences s+replaced.flatten.count s) ∧
        (¬w.Listed s → (w.refCount s = 0 ↔ 2^32 ∣ replaced.flatten.count s)) := by
  obtain ⟨trace',w,hrun,hrecorded,hsame⟩ := h.typed
  refine ⟨w,_,hrecorded,?_,count_of_rewritten fs hclock
    (hrun.rewritten (done_of_same hsame hdone))⟩
  rw [List.forall₂_map_right_iff]
  refine hsame.imp ?_
  intro e e' he found hfound
  rw [he.before.found hfound,he.wopelog]
  rfl

end Safety

/-- The strings of both versions' keys are shorter than `2^31`, and the list that the write makes has
fewer than `2^28` serials. -/
structure WOPE.Small (wope : WOPE) (l : List Int64) : Prop where
  base : wope.ghobj.Sized
  new : wope.newGhobj.Sized
  list : l.length < 2^28

namespace FileStore
variable (fs : FileStore)

lemma newBlock_sized {α : Type} (data : Bytes) {rest : ReferedBlock → Task α} (w : World)
    (hrest : ∀ rb w, Requests Request.handle (fun r _ => r.Sized) (rest rb) w) :
    Requests Request.handle (fun r _ => r.Sized)
      (fs.addNewReferedBlock data fs.getJournalRBRoot >>= rest) w := by
  simp only [addNewReferedBlock,ask_eq,call_bind,done_bind,pure_eq]
  exact ⟨trivial,fun _ _ _ => ⟨trivial,fun _ _ _ => hrest _ _⟩⟩

lemma editLoop_sized (types : List OpeType) (blockNums : List Int32) (blockDatas : List Bytes)
    (l : List Int64) (w : World) : Requests Request.handle (fun r _ => r.Sized)
      (fs.editLoop types blockNums blockDatas l) w := by
  have hstuck : ∀ w, Requests Request.handle (fun r _ => r.Sized)
      (outOfRange : Task (List Int64)) w := fun _ => ⟨trivial,fun e => e.elim⟩
  induction blockNums generalizing types blockDatas l w with
  | nil =>
    rw [editLoop]
    trivial
  | cons blockNum blockNums ih =>
    cases types with
    | nil => exact hstuck w
    | cons opetype types =>
      cases blockDatas with
      | nil => exact hstuck w
      | cons blockData blockDatas =>
        simp only [editLoop]
        split
        · exact hstuck w
        · cases opetype with
          | delete =>
            simp only
            split
            · exact ih types blockDatas _ w
            · exact hstuck w
          | insert =>
            exact fs.newBlock_sized blockData w (fun _ _ => ⟨trivial,fun _ _ _ => ih _ _ _ _⟩)
          | overWrite =>
            refine fs.newBlock_sized blockData w (fun _ w => ?_)
            split
            · exact ⟨trivial,fun _ _ _ => ih _ _ _ _⟩
            · exact hstuck w

lemma countLoop_sized (l : List Int64) (w : World) :
    Requests Request.handle (fun r _ => r.Sized) (countLoop l) w := by
  induction l generalizing w with
  | nil => trivial
  | cons rb l ih =>
    simp only [countLoop,ask_eq,call_bind,done_bind]
    exact ⟨trivial,fun _ _ _ => ⟨trivial,fun _ _ _ => ih _⟩⟩

/-- A write whose names and new list are small makes no request beyond the sizes. -/
theorem doWOPE_sized {wopelog : WOpeLog} {w : World}
    (h : wopelog.wope.Small (w.newList wopelog.wope)) :
    Requests Request.handle (fun r _ => r.Sized) (fs.doWOPE wopelog) w := by
  simp only [doWOPE,ask_eq,call_bind,done_bind]
  refine (Requests.call_iff rfl).2 ⟨h.base,?_⟩
  rw [base_serialsList,Requests.bind_iff]
  refine ⟨fs.editLoop_sized _ _ _ _ _,?_⟩
  intro l w₁ hedits
  obtain ⟨-,rfl,-⟩ := (fs.editLoop_always _ _ _ _ w).at_run hedits
  refine Requests.bind_iff.2 ⟨countLoop_sized _ _,fun _ _ _ => ?_⟩
  exact ⟨⟨h.new,h.list⟩,fun _ _ _ => trivial⟩

/-- Such a write runs on records as it does on the attributes that they hold. -/
theorem doWOPE_on_records {headers : TypeHeaders} {wopelog : WOpeLog} {w w' : World}
    {raw : RecordWorld} {rest : Task Unit} (h : Recorded headers w raw)
    (hsmall : wopelog.wope.Small (w.newList wopelog.wope))
    (hsteps : Steps Request.handle (fs.doWOPE wopelog) w rest w') :
    ∃ raw', Makes (Request.Stores headers) (fs.doWOPE wopelog) raw rest raw' ∧
      Recorded headers w' raw' :=
  (Makes.of_steps hsteps (fs.doWOPE_sized hsmall)).embed gives_embeds h

end FileStore

section Within
variable {headers : TypeHeaders} {fs : FileStore} {w w₀ : World} {raw raw₀ : RecordWorld}

lemma Recorded.finds (h : Recorded headers w raw) {g : GHObject} (hg : g.Sized) :
    raw.Finds headers g.key (getAttr (w.objs.lookup g.key) {}) :=
  ⟨rfl,g,rfl,hg,{},h.getAttr_ghobj hg {}⟩

/-- Writes whose names and lists are small run on records as they do on attributes. -/
theorem WriteRun.on_records {trace : List (Written World)} (hstart : Recorded headers w₀ raw₀)
    (h : WriteRun Request.Gives (fun w wope => w.Admits wope ∧ wope.Small (w.newList wope)) fs w₀
      trace w) :
    ∃ trace' raw, WriteRun (Request.Stores headers) (fun raw wope => raw.Admits headers wope) fs
        raw₀ trace' raw ∧ Recorded headers w raw ∧
      List.Forall₂ (Written.Same (Recorded headers)) trace trace' := by
  induction h with
  | start => exact ⟨[],raw₀,.start,hstart,.nil⟩
  | write wopelog _ hallowed hmade ih =>
    obtain ⟨hrange,hsmall⟩ := hallowed
    obtain ⟨trace',raw,hrun,hrecorded,hsame⟩ := ih
    obtain ⟨raw',hmade',hrecorded'⟩ := fs.doWOPE_on_records hrecorded hsmall hmade.steps
    have hfinds := hrecorded.finds hsmall.base
    exact ⟨_,raw',hrun.write wopelog ⟨_,hfinds,hrange⟩ hmade',hrecorded',
      List.rel_append hsame (.cons ⟨rfl,rfl,hrecorded,hrecorded'⟩ .nil)⟩

/-- The records of all versions and blocks, and all files, are the same. -/
structure RecordWorld.SameRecords (headers : TypeHeaders) (raw raw' : RecordWorld) : Prop where
  ghobj : ∀ g : GHObject, g.Sized → raw.db.find (RocksKV.keyBytes headers.ghobj g) =
    raw'.db.find (RocksKV.keyBytes headers.ghobj g)
  block : ∀ rb : ReferedBlock, raw.db.find (RocksKV.keyBytes headers.block rb) =
    raw'.db.find (RocksKV.keyBytes headers.block rb)
  files : raw.files = raw'.files

lemma Recorded.sameRecords {w' : World} {raw' : RecordWorld} (h : Recorded headers w raw)
    (h' : Recorded headers w' raw') (hsame : w.SameStore w') : raw.SameRecords headers raw' where
  ghobj := fun g hg => by rw [h.ghobj g hg,h'.ghobj g hg,hsame.lists]
  block := fun rb => by rw [h.block rb,h'.block rb,hsame.blocks]
  files := by rw [h.files,h'.files,hsame.files]

/-- Two independent writes, each given its serials, run on records one after the other where their
names and lists are small. -/
lemma doBoth_on_records {a b : WOpeLog} {serialsA serialsB : List Int64}
    (h : Recorded headers w raw) (hind : a.wope.Independent b.wope)
    (hclock : w.clock = serialsA ++ serialsB) (hrangeA : w.Admits a.wope) (hrangeB : w.Admits b.wope)
    (hA : serialsA.length = (values a.wope.edits).length)
    (hB : serialsB.length = (values b.wope.edits).length)
    (hsmallA : a.wope.Small (w.givenList a.wope serialsA))
    (hsmallB : b.wope.Small (w.givenList b.wope serialsB)) :
    ∃ raw', Makes (Request.Stores headers) (fs.doBoth a b) raw (.done ()) raw' := by
  have hrun := fs.run_doBoth hind hclock hA hB hrangeA hrangeB
  have hsized : Requests Request.handle (fun r _ => r.Sized) (fs.doBoth a b) w := by
    refine Requests.bind_iff.2 ⟨fs.doWOPE_sized ?_,?_⟩
    · rwa [w.newList_given a.wope hclock hA]
    · intro _ w₁ hfirst
      obtain ⟨-,rfl⟩ := fs.afterWOPE_of_run hfirst
      have hrest : (w.afterWOPE fs a.wope).clock = serialsB ++ [] := by
        rw [List.append_nil,World.afterWOPE_clock_given fs w _ hclock hA]
      refine fs.doWOPE_sized ?_
      rwa [World.newList_given _ b.wope hrest hB,World.givenList,World.afterWOPE_serials,
        if_neg hind.second]
  obtain ⟨raw',hmade,-⟩ := (Makes.of_steps (steps_of_run hrun) hsized).embed gives_embeds h
  exact ⟨raw',hmade⟩

/-- On records, two independent writes, each with serials of its own that no stored list has, run in
either order where their names and lists are small, and leave the same records. -/
theorem doWOPE_commute_on_records [fs.hash.Separates] (h : Recorded headers w raw) {a b : WOpeLog}
    {serialsA serialsB : List Int64} (hind : a.wope.Independent b.wope)
    (hrangeA : raw.Admits headers a.wope) (hrangeB : raw.Admits headers b.wope)
    (hA : serialsA.length = (values a.wope.edits).length)
    (hB : serialsB.length = (values b.wope.edits).length)
    (hnodup : (serialsA ++ serialsB).Nodup) (hfresh : ∀ s ∈ serialsA ++ serialsB, ¬w.Listed s)
    (hsmallA : a.wope.Small (w.givenList a.wope serialsA))
    (hsmallB : b.wope.Small (w.givenList b.wope serialsB)) :
    (∃ rawAB, Makes (Request.Stores headers) (fs.doBoth a b)
      { raw with clock := serialsA ++ serialsB } (.done ()) rawAB) ∧
    (∃ rawBA, Makes (Request.Stores headers) (fs.doBoth b a)
      { raw with clock := serialsB ++ serialsA } (.done ()) rawBA) ∧
    ∀ rawAB rawBA, Makes (Request.Stores headers) (fs.doBoth a b)
        { raw with clock := serialsA ++ serialsB } (.done ()) rawAB →
      Makes (Request.Stores headers) (fs.doBoth b a)
        { raw with clock := serialsB ++ serialsA } (.done ()) rawBA →
      rawAB.SameRecords headers rawBA := by
  refine ⟨doBoth_on_records (h.timed (serialsA ++ serialsB)) hind rfl (h.admits hrangeA)
    (h.admits hrangeB) hA hB hsmallA hsmallB,doBoth_on_records (h.timed (serialsB ++ serialsA))
    hind.symm rfl (h.admits hrangeB) (h.admits hrangeA) hB hA hsmallB hsmallA,?_⟩
  intro rawAB rawBA hAB hBA
  obtain ⟨wAB,wBA,hrunAB,hrunBA,hsame⟩ :=
    fs.doBoth_sameStore hind (h.admits hrangeA) (h.admits hrangeB) hA hB hnodup hfresh
  obtain ⟨_,hmadeAB,hrecordedAB⟩ := hAB.embed stores_embeds (h.timed (serialsA ++ serialsB))
  obtain ⟨_,hmadeBA,hrecordedBA⟩ := hBA.embed stores_embeds (h.timed (serialsB ++ serialsA))
  obtain ⟨-,rfl⟩ := Prod.mk.inj (Option.some.inj (hmadeAB.steps.run.symm.trans hrunAB))
  obtain ⟨-,rfl⟩ := Prod.mk.inj (Option.some.inj (hmadeBA.steps.run.symm.trans hrunBA))
  exact hrecordedAB.sameRecords hrecordedBA hsame

end Within
end GDFileStore
