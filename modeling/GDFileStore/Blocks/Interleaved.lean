import GDFileStore.Blocks.Counts
import GDFileStore.Program.Pool

/-! Writes that run side by side on different workers, one request at a time. The counting pass
reads a record and puts it back one higher with no lock, so an increment is lost when another
write reads the same record in between; where that never happens the counts stay exact. -/
namespace GDFileStore
open Sequences Program Prog

/-- How far a write has come: the version it will publish, the blocks it has counted, those it
has seen in its list, and the new block or the record it has in hand. -/
inductive View where
  | start (key : GHKey)
  | working (key : GHKey) (counted held : List Int64)
  | stamped (key : GHKey) (counted held : List Int64) (serial : Int64)
  | got (key : GHKey) (counted held : List Int64) (serial : Int64) (attr : ReferedBlock)
  | finished

namespace View

def allowed : View → Request → Prop
  | .start _,.getObjAttr _ => True
  | .working _ _ _,.now => True
  | .working _ _ held,.getBlockAttr s => s ∈ held
  | .working key counted _,.setObjAttr k attr => k = key ∧ attr.serialsList = counted
  | .working _ _ _,.outOfRange => True
  | .stamped _ _ _ _,.writeFile _ _ => True
  | .stamped _ _ _ serial,.setBlockAttr s attr => s = serial ∧ attr = { serial := serial }
  | .stamped _ _ _ _,.outOfRange => True
  | .got _ _ _ serial attr,.setBlockAttr s attr' =>
    s = serial ∧ attr' = { attr with referCount := attr.referCount+1 }
  | _,_ => False

def next : View → (r : Request) → r.Resp → View
  | .start key,.getObjAttr _,orb => .working key [] orb.1.serialsList
  | .working key counted held,.now,serial => .stamped key counted held serial
  | .working key counted held,.getBlockAttr s,attr => .got key counted held s attr.1
  | .working _ _ _,.setObjAttr _ _,_ => .finished
  | .stamped key counted held serial,.setBlockAttr _ _,_ => .working key counted (serial::held)
  | .got key counted held serial _,.setBlockAttr _ _,_ => .working key (counted ++ [serial]) held
  | v,_,_ => v

/-- The version still to be published. -/
def keys : View → List GHKey
  | .start key => [key]
  | .working key _ _ => [key]
  | .stamped key _ _ _ => [key]
  | .got key _ _ _ _ => [key]
  | .finished => []

/-- The new block that has a serial but no record yet. -/
def stampedSerials : View → List Int64
  | .stamped _ _ _ serial => [serial]
  | _ => []

/-- The block whose record has been read and not yet put back, with that record. -/
def inHand : View → List (Int64 × ReferedBlock)
  | .got _ _ _ serial attr => [(serial,attr)]
  | _ => []

/-- The blocks counted for a version that is not yet published. -/
def countedSerials : View → List Int64
  | .working _ counted _ => counted
  | .stamped _ counted _ _ => counted
  | .got _ counted _ _ _ => counted
  | _ => []

def mentions : View → List Int64
  | .working _ counted held => counted ++ held
  | .stamped _ counted held _ => counted ++ held
  | .got _ counted held serial _ => serial::(counted ++ held)
  | _ => []

lemma countedSerials_subset (v : View) : v.countedSerials ⊆ v.mentions := by
  intro s hs
  cases v with
  | start => cases hs
  | finished => cases hs
  | working => exact List.mem_append_left _ hs
  | stamped => exact List.mem_append_left _ hs
  | got => exact List.mem_cons_of_mem _ (List.mem_append_left _ hs)

lemma mem_mentions_of_inHand {v : View} {b : Int64 × ReferedBlock} (h : b ∈ v.inHand) :
    b.1 ∈ v.mentions := by
  cases v with
  | got =>
    obtain rfl := List.mem_singleton.1 h
    exact List.mem_cons_self
  | _ => cases h

lemma mem_flatMap_mentions (vs : List View) {b : Int64 × ReferedBlock}
    (h : b ∈ vs.flatMap inHand) : b.1 ∈ vs.flatMap mentions := by
  obtain ⟨v,hv,hb⟩ := List.mem_flatMap.1 h
  exact List.mem_flatMap.2 ⟨v,hv,mem_mentions_of_inHand hb⟩

lemma count_eq_zero_of_unmentioned {vs : List View} {s : Int64} (h : s ∉ vs.flatMap mentions) :
    (vs.flatMap countedSerials).count s = 0 := by
  apply List.count_eq_zero_of_not_mem
  intro hm
  obtain ⟨v,hv,hs⟩ := List.mem_flatMap.1 hm
  exact h (List.mem_flatMap.2 ⟨v,hv,countedSerials_subset v hs⟩)

end View

/-- The requests a write makes, in terms of the view it has reached. -/
def writeProtocol : Protocol Request.Resp View := ⟨View.allowed,View.next⟩

namespace FileStore
variable (fs : FileStore)

lemma editLoop_follows (types : List OpeType) (blockNums : List Int32) (blockDatas : List Bytes)
    (key : GHKey) {l : List Int64} (held : List Int64) (hl : l ⊆ held) :
    Follows writeProtocol (fs.editLoop types blockNums blockDatas l) (.working key [] held)
      (fun l' v => ∃ held', v = .working key [] held' ∧ l' ⊆ held') := by
  induction blockNums generalizing types blockDatas l held with
  | nil =>
    rw [editLoop]
    exact ⟨held,rfl,hl⟩
  | cons blockNum blockNums ih =>
    have hstuck : ∀ v : View, v.allowed .outOfRange → Follows writeProtocol
        (outOfRange : Task (List Int64)) v
        (fun l' v => ∃ held', v = .working key [] held' ∧ l' ⊆ held') :=
      fun v hv => ⟨hv,fun e => e.elim⟩
    cases types with
    | nil => exact hstuck _ trivial
    | cons opetype types =>
      cases blockDatas with
      | nil => exact hstuck _ trivial
      | cons blockData blockDatas =>
        simp only [editLoop]
        split
        · exact hstuck _ trivial
        · cases opetype with
          | delete =>
            simp only
            split
            · exact ih _ _ _ (fun s hs => hl (List.mem_of_mem_eraseIdx hs))
            · exact hstuck _ trivial
          | insert =>
            refine ⟨trivial,fun serial => ⟨trivial,fun _ => ⟨⟨rfl,rfl⟩,fun _ => ih _ _ _ ?_⟩⟩⟩
            intro s hs
            rcases (List.mem_insertIdx (by omega)).1 hs with rfl | hm
            · exact List.mem_cons_self
            · exact List.mem_cons_of_mem _ (hl hm)
          | overWrite =>
            refine ⟨trivial,fun serial => ⟨trivial,fun _ => ?_⟩⟩
            simp only
            split
            · refine ⟨⟨rfl,rfl⟩,fun _ => ih _ _ _ ?_⟩
              intro s hs
              rcases List.mem_or_eq_of_mem_set hs with hm | rfl
              · exact List.mem_cons_of_mem _ (hl hm)
              · exact List.mem_cons_self
            · exact hstuck _ trivial

lemma countLoop_follows (key : GHKey) (counted : List Int64) {l held : List Int64}
    (hl : l ⊆ held) : Follows writeProtocol (countLoop l) (.working key counted held)
      (fun _ v => v = .working key (counted ++ l) held) := by
  induction l generalizing counted with
  | nil => simp [countLoop,Follows]
  | cons s l ih =>
    have happend : counted ++ s::l = (counted ++ [s]) ++ l := by simp
    simp only [countLoop,ask_eq,call_bind,done_bind,happend]
    refine ⟨hl List.mem_cons_self,fun attr => ⟨⟨rfl,rfl⟩,fun _ => ?_⟩⟩
    exact ih (counted ++ [s]) (fun t ht => hl (List.mem_cons_of_mem s ht))

/-- A write follows the protocol, whatever its requests return. -/
theorem doWOPE_follows (wopelog : WOpeLog) : Follows writeProtocol (fs.doWOPE wopelog)
    (.start wopelog.wope.newGhobj.key) (fun _ v => v = .finished) := by
  simp only [doWOPE,ask_eq,call_bind,done_bind]
  refine ⟨trivial,fun orb => ?_⟩
  refine Follows.bind (fs.editLoop_follows _ _ _ _ orb.1.serialsList ?_) ?_
  · split
    · exact fun s hs => hs
    · exact List.nil_subset _
  · rintro l _ ⟨held,rfl,hl⟩
    apply Follows.bind (countLoop_follows _ [] hl)
    rintro _ _ rfl
    exact ⟨⟨rfl,rfl⟩,fun _ => rfl⟩

end FileStore
/-- The counts while writes are under way: each is the number of occurrences in the stored lists
and of the increments already made for lists that are not yet published. -/
structure CountInv (vs : List View) (w : World) : Prop where
  fresh_nodup : (vs.flatMap View.stampedSerials ++ w.clock).Nodup
  unlisted : ∀ t ∈ vs.flatMap View.stampedSerials ++ w.clock, ¬w.Listed t
  unmentioned : ∀ t ∈ vs.flatMap View.stampedSerials ++ w.clock, t ∉ vs.flatMap View.mentions
  keys_nodup : (vs.flatMap View.keys).Nodup
  unstored : ∀ key ∈ vs.flatMap View.keys, w.objs.lookup key = none
  inHand_nodup : ((vs.flatMap View.inHand).map Prod.fst).Nodup
  current : ∀ b ∈ vs.flatMap View.inHand, (w.blocks b.1).getD {} = b.2
  counts : ∀ s, w.refCount s =
    Int32.ofNat (w.occurrences s+(vs.flatMap View.countedSerials).count s)

namespace CountInv
variable {vs others : List View} {w : World} {key : GHKey} {counted held : List Int64}

lemma perm {us : List View} (hp : us.Perm vs) (h : CountInv us w) : CountInv vs w where
  fresh_nodup := ((hp.flatMap_right _).append_right _).nodup_iff.1 h.fresh_nodup
  unlisted := fun t ht => h.unlisted t (((hp.flatMap_right _).append_right _).mem_iff.2 ht)
  unmentioned := fun t ht hm => h.unmentioned t
    (((hp.flatMap_right _).append_right _).mem_iff.2 ht) ((hp.flatMap_right _).mem_iff.2 hm)
  keys_nodup := (hp.flatMap_right _).nodup_iff.1 h.keys_nodup
  unstored := fun k hk => h.unstored k ((hp.flatMap_right _).mem_iff.2 hk)
  inHand_nodup := ((hp.flatMap_right _).map _).nodup_iff.1 h.inHand_nodup
  current := fun b hb => h.current b ((hp.flatMap_right _).mem_iff.2 hb)
  counts := by
    intro s
    rw [← (hp.flatMap_right View.countedSerials).count_eq]
    exact h.counts s

/-- The base list is read: its blocks are listed, so none of them is new. -/
lemma start (h : CountInv (.start key::others) w) (base : GHKey) :
    CountInv (.working key [] (w.serials base)::others) w where
  fresh_nodup := h.fresh_nodup
  unlisted := h.unlisted
  unmentioned := by
    intro t ht hm
    rcases List.mem_append.1 hm with hbase | hothers
    · exact h.unlisted t ht ⟨base,hbase⟩
    · exact h.unmentioned t ht hothers
  keys_nodup := h.keys_nodup
  unstored := h.unstored
  inHand_nodup := h.inHand_nodup
  current := h.current
  counts := h.counts

/-- A reading is drawn. -/
lemma now (h : CountInv (.working key counted held::others) w) {serial : Int64}
    {clock : List Int64} (hclock : w.clock = serial::clock) :
    CountInv (.stamped key counted held serial::others) { w with clock := clock } := by
  have hperm : List.Perm (serial::(others.flatMap View.stampedSerials ++ clock))
      (others.flatMap View.stampedSerials ++ w.clock) := hclock ▸ List.perm_middle.symm
  exact {
    fresh_nodup := hperm.nodup_iff.2 h.fresh_nodup
    unlisted := fun t ht => h.unlisted t (hperm.mem_iff.1 ht)
    unmentioned := fun t ht => h.unmentioned t (hperm.mem_iff.1 ht)
    keys_nodup := h.keys_nodup
    unstored := h.unstored
    inHand_nodup := h.inHand_nodup
    current := h.current
    counts := h.counts }

/-- A file is written, which no count depends on. -/
lemma files (h : CountInv vs w) (files : Bytes → Option Bytes) :
    CountInv vs { w with files := files } :=
  ⟨h.fresh_nodup,h.unlisted,h.unmentioned,h.keys_nodup,h.unstored,h.inHand_nodup,h.current,
    h.counts⟩

/-- A new block gets its record: nothing lists or counts it yet. -/
lemma record {serial : Int64} (h : CountInv (.stamped key counted held serial::others) w) :
    CountInv (.working key counted (serial::held)::others)
      { w with blocks := Function.update w.blocks serial (some { serial := serial }) } := by
  obtain ⟨hserial,hnodup⟩ := List.nodup_cons.1 h.fresh_nodup
  have hmention := h.unmentioned serial List.mem_cons_self
  have hother : ∀ s, s ≠ serial → Function.update w.blocks serial (some { serial := serial }) s =
      w.blocks s := fun s hs => Function.update_of_ne hs _ _
  refine ⟨hnodup,fun t ht => h.unlisted t (List.mem_cons_of_mem _ ht),?_,h.keys_nodup,h.unstored,
    h.inHand_nodup,?_,?_⟩
  · intro t ht hm
    have hne : t ≠ serial := by
      rintro rfl
      exact hserial ht
    apply h.unmentioned t (List.mem_cons_of_mem _ ht)
    simp only [List.flatMap_cons,View.mentions,List.mem_append,List.mem_cons] at hm ⊢
    tauto
  · intro b hb
    have hne : b.1 ≠ serial := by
      rintro rfl
      exact hmention (View.mem_flatMap_mentions (.stamped key counted held b.1::others) hb)
    exact (congrArg (fun o => o.getD {}) (hother b.1 hne)).trans (h.current b hb)
  · intro s
    by_cases hs : s = serial
    · subst hs
      have hocc : w.occurrences s = 0 :=
        World.occurrences_eq_zero (h.unlisted s List.mem_cons_self)
      have hcount := View.count_eq_zero_of_unmentioned hmention
      change _ = Int32.ofNat (w.occurrences s+_)
      rw [hocc,Nat.zero_add]
      refine Eq.trans ?_ (congrArg Int32.ofNat hcount).symm
      simp [World.refCount]
    · refine Eq.trans ?_ (h.counts s)
      exact congrArg (fun o => (o.getD {}).referCount) (hother s hs)

/-- A record is read while no other thread has that record in hand. -/
lemma get (h : CountInv (.working key counted held::others) w) {s : Int64} (hs : s ∈ held)
    (hfree : s ∉ (others.flatMap View.inHand).map Prod.fst) :
    CountInv (.got key counted held s ((w.blocks s).getD {})::others) w where
  fresh_nodup := h.fresh_nodup
  unlisted := h.unlisted
  unmentioned := by
    intro t ht hm
    apply h.unmentioned t ht
    rcases List.mem_cons.1 hm with rfl | hrest
    · exact List.mem_append_left _ (List.mem_append_right _ hs)
    · exact hrest
  keys_nodup := h.keys_nodup
  unstored := h.unstored
  inHand_nodup := List.nodup_cons.2 ⟨hfree,h.inHand_nodup⟩
  current := by
    intro b hb
    rcases List.mem_cons.1 hb with rfl | hrest
    · rfl
    · exact h.current b hrest
  counts := h.counts

/-- The record in hand, which is still the current one, is put back one higher. -/
lemma put {s : Int64} {attr : ReferedBlock} (h : CountInv (.got key counted held s attr::others) w) :
    CountInv (.working key (counted ++ [s]) held::others) (w.bump s) where
  fresh_nodup := h.fresh_nodup
  unlisted := h.unlisted
  unmentioned := by
    intro t ht hm
    apply h.unmentioned t ht
    simp only [List.flatMap_cons,View.mentions,List.mem_append,List.mem_cons] at hm ⊢
    tauto
  keys_nodup := h.keys_nodup
  unstored := h.unstored
  inHand_nodup := (List.nodup_cons.1 h.inHand_nodup).2
  current := by
    intro b hb
    have hne : b.1 ≠ s := by
      rintro rfl
      exact (List.nodup_cons.1 h.inHand_nodup).1 (List.mem_map.2 ⟨b,hb,rfl⟩)
    rw [World.bump_blocks_ne w hne]
    exact h.current b (List.mem_cons_of_mem _ hb)
  counts := by
    intro t
    have hcount := h.counts t
    simp only [List.flatMap_cons,View.countedSerials,List.count_append] at hcount ⊢
    rw [World.bump_refCount,hcount]
    change _ = Int32.ofNat (w.occurrences t+_)
    by_cases hts : t = s
    · subst hts
      rw [if_pos rfl,List.count_singleton_self]
      refine (Int32.ofNat_add _ 1).symm.trans (congrArg Int32.ofNat ?_)
      omega
    · rw [if_neg hts,List.count_singleton,if_neg (by simpa using Ne.symm hts),Nat.add_zero]

/-- The counted list is published: its increments become occurrences. -/
lemma publish (h : CountInv (.working key counted held::others) w) :
    CountInv (.finished::others) (w.publish key counted) where
  fresh_nodup := h.fresh_nodup
  unlisted := by
    rintro t ht ⟨k,hk⟩
    rw [World.publish_serials] at hk
    split at hk
    · exact h.unmentioned t ht (List.mem_append_left _ (List.mem_append_left _ hk))
    · exact h.unlisted t ht ⟨k,hk⟩
  unmentioned := fun t ht hm => h.unmentioned t ht (List.mem_append_right _ hm)
  keys_nodup := (List.nodup_cons.1 h.keys_nodup).2
  unstored := by
    intro k hk
    have hne : k ≠ key := by
      rintro rfl
      exact (List.nodup_cons.1 h.keys_nodup).1 hk
    rw [World.publish,AList.lookup_insert_ne hne]
    exact h.unstored k (List.mem_cons_of_mem _ hk)
  inHand_nodup := h.inHand_nodup
  current := h.current
  counts := by
    intro s
    have hnone := h.unstored key List.mem_cons_self
    have hocc := World.publish_occurrences w key counted s
    rw [World.serials_of_none w hnone,List.count_nil,Nat.add_zero] at hocc
    have hcount := h.counts s
    simp only [List.flatMap_cons,View.countedSerials,List.count_append,List.count_nil] at hcount ⊢
    rw [World.publish_refCount,hcount,hocc]
    congr 1
    omega

end CountInv
/-- No thread reads a block's record while another has read the same record and not yet put it
back. -/
def NoRace (p : Task Unit) (others : List (Task Unit)) : Prop :=
  ∀ s rest, p = .call (.getBlockAttr s) rest →
    ∀ attr rest', (.call (.setBlockAttr s attr) rest' : Task Unit) ∉ others

/-- A thread that has a record in hand is about to put it back. -/
lemma put_of_inHand {p : Task Unit} {v : View} (h : Follows writeProtocol p v (fun _ v => v = .finished))
    {b : Int64 × ReferedBlock} (hb : b ∈ v.inHand) :
    ∃ attr rest, p = .call (.setBlockAttr b.1 attr) rest := by
  cases v with
  | got key counted held serial attr =>
    obtain rfl := List.mem_singleton.1 hb
    cases p with
    | done a => cases h
    | call op rest =>
      cases op with
      | setBlockAttr s attr' =>
        obtain ⟨rfl,_⟩ := h.1
        exact ⟨attr',rest,rfl⟩
      | _ => exact h.1.elim
  | _ => cases hb

lemma inHand_free {others : Seen Request.Resp Unit View}
    (hfollow : ∀ t ∈ others, Follows writeProtocol t.1 t.2 (fun _ v => v = .finished))
    {s : Int64} {rest : ReferedBlock × Bool → Task Unit}
    (hrace : NoRace (.call (.getBlockAttr s) rest) others.programs) :
    s ∉ (others.views.flatMap View.inHand).map Prod.fst := by
  intro hs
  obtain ⟨b,hb,rfl⟩ := List.mem_map.1 hs
  obtain ⟨v,hv,hbv⟩ := List.mem_flatMap.1 hb
  obtain ⟨t,ht,rfl⟩ := List.mem_map.1 hv
  obtain ⟨attr,rest',hput⟩ := put_of_inHand (hfollow t ht) hbv
  exact hrace b.1 rest rfl attr rest' (hput ▸ List.mem_map_of_mem ht)

/-- One request of one write, beside any others. -/
theorem CountInv.step {others : Seen Request.Resp Unit View} {v : View} {op : Request}
    {w w' : World} {r : op.Resp}
    (hstep : SeenStep writeProtocol Request.handle NoRace (fun _ v => v = .finished) others v op w w' r)
    (h : CountInv (v::others.views) w) :
    CountInv (writeProtocol.next v op r::others.views) w' := by
  obtain ⟨hfollow,hallowed,⟨rest,hrace⟩,hop⟩ := hstep
  -- One case for each request the protocol allows in each view.
  cases v with
  | start key =>
    cases op with
    | getObjAttr base =>
      cases hop
      exact h.start base
    | _ => exact hallowed.elim
  | working key counted held =>
    cases op with
    | now =>
      cases hclock : w.clock with
      | nil => simp [Request.handle,hclock] at hop
      | cons serial clock =>
        simp only [Request.handle,hclock,Option.some.injEq,Prod.mk.injEq] at hop
        obtain ⟨rfl,rfl⟩ := hop
        exact h.now hclock
    | getBlockAttr s =>
      cases hop
      exact h.get hallowed (inHand_free hfollow hrace)
    | setObjAttr k attr =>
      obtain ⟨rfl,rfl⟩ := hallowed
      cases hop
      exact h.publish
    | outOfRange => cases hop
    | _ => exact hallowed.elim
  | stamped key counted held serial =>
    cases op with
    | writeFile path content =>
      cases hop
      exact h.files _
    | setBlockAttr s attr =>
      obtain ⟨rfl,rfl⟩ := hallowed
      cases hop
      exact h.record
    | outOfRange => cases hop
    | _ => exact hallowed.elim
  | got key counted held serial attr =>
    cases op with
    | setBlockAttr s attr' =>
      obtain ⟨rfl,rfl⟩ := hallowed
      have hcurrent : (w.blocks s).getD {} = attr := h.current (s,attr) List.mem_cons_self
      have hput : Request.handle (.setBlockAttr s { attr with referCount := attr.referCount+1 }) w =
          some ((),w.bump s) := by
        rw [← hcurrent]
        rfl
      cases hput.symm.trans hop
      exact h.put
    | _ => exact hallowed.elim
  | finished => exact (show False by cases op <;> exact hallowed).elim

/-- Writes that have not begun, each to its own new version. -/
lemma CountInv.begin {keys : List GHKey} {w : World} (htidy : w.Tidy) (hcounted : w.Counted)
    (hkeys : keys.Nodup) (hnew : ∀ key ∈ keys, w.objs.lookup key = none) :
    CountInv (keys.map View.start) w := by
  have hnil : ∀ {γ : Type} (f : View → List γ), (∀ key, f (.start key) = []) →
      (keys.map View.start).flatMap f = [] := by
    intro γ f hf
    rw [List.flatMap_eq_nil_iff]
    intro v hv
    obtain ⟨key,_,rfl⟩ := List.mem_map.1 hv
    exact hf key
  have hall : (keys.map View.start).flatMap View.keys = keys := by
    rw [List.flatMap_map]
    exact List.flatMap_singleton' keys
  have hstamped := hnil View.stampedSerials (fun _ => rfl)
  have hmentions := hnil View.mentions (fun _ => rfl)
  have hinHand := hnil View.inHand (fun _ => rfl)
  have hcountedSerials := hnil View.countedSerials (fun _ => rfl)
  constructor
  · rw [hstamped]
    exact htidy.clock_nodup
  · rw [hstamped]
    exact htidy.unlisted
  · rw [hmentions]
    exact fun t _ => List.not_mem_nil
  · rwa [hall]
  · rwa [hall]
  · rw [hinHand]
    exact List.nodup_nil
  · rw [hinHand]
    exact fun b hb => absurd hb List.not_mem_nil
  · intro s
    rw [hcountedSerials]
    exact hcounted s

/-- In every run in which no write reads a record between another's read and write of it, once
all have finished every block that occurs fewer than `2^31` times has exactly that count. -/
theorem interleaved_counts (fs : FileStore) {wopelogs : List WOpeLog} {w₀ w : World}
    {ps : List (Task Unit)} (htidy : w₀.Tidy) (hcounted : w₀.Counted)
    (hkeys : (wopelogs.map (fun wopelog => wopelog.wope.newGhobj.key)).Nodup)
    (hnew : ∀ wopelog ∈ wopelogs, w₀.objs.lookup wopelog.wope.newGhobj.key = none)
    (hrun : PoolRun Request.handle NoRace (wopelogs.map fs.doWOPE) w₀ ps w)
    (hdone : ∀ p ∈ ps, p = .done ()) {s : Int64} (hs : w.occurrences s < 2^31) :
    (w.refCount s).toInt = w.occurrences s := by
  let ts₀ : Seen Request.Resp Unit View :=
    wopelogs.map (fun wopelog => (fs.doWOPE wopelog,.start wopelog.wope.newGhobj.key))
  have hprograms : ts₀.programs = wopelogs.map fs.doWOPE := by simp [ts₀,Seen.programs]
  have hviews : ts₀.views =
      (wopelogs.map (fun wopelog => wopelog.wope.newGhobj.key)).map View.start := by
    simp [ts₀,Seen.views]
  have hfollow : ∀ t ∈ ts₀, Follows writeProtocol t.1 t.2 (fun _ v => v = .finished) := by
    intro t ht
    obtain ⟨wopelog,_,rfl⟩ := List.mem_map.1 ht
    exact fs.doWOPE_follows wopelog
  have hbegin : CountInv ts₀.views w₀ := by
    rw [hviews]
    refine .begin htidy hcounted hkeys ?_
    intro key hkey
    obtain ⟨wopelog,hmem,rfl⟩ := List.mem_map.1 hkey
    exact hnew wopelog hmem
  rw [← hprograms] at hrun
  obtain ⟨ts,rfl,hts,hinv⟩ := PoolRun.invariant CountInv CountInv.perm CountInv.step hfollow
    hbegin hrun
  -- Every thread has ended, so no increment is waiting for its list.
  have hfinished : ts.views.flatMap View.countedSerials = [] := by
    rw [List.flatMap_eq_nil_iff]
    intro v hv
    obtain ⟨t,ht,rfl⟩ := List.mem_map.1 hv
    have hp := hdone t.1 (List.mem_map_of_mem ht)
    have hend := hts t ht
    rw [hp] at hend
    have hview : t.2 = .finished := hend
    rw [hview]
    rfl
  have hcount := hinv.counts s
  rw [hfinished,List.count_nil,Nat.add_zero] at hcount
  rw [hcount,Int32Range.toInt_ofNat_of_lt hs]

/-- A store with one version that holds one block. -/
def oneBlock : World := (World.fresh [7]).afterWOPE sampleStore firstWrite.wope

lemma oneBlock_tidy_counted : oneBlock.Tidy ∧ oneBlock.Counted := by
  have htidy : (World.fresh [7]).Tidy := World.tidy_fresh (by decide)
  exact ⟨htidy.afterWOPE sampleStore (by decide),
    (World.counted_fresh [7]).afterWOPE sampleStore htidy rfl⟩

/-- Two writes that take turns at the record of the block they share. -/
theorem interleaved_counts_turns : ∃ (w : World) (ps : List (Task Unit)),
    PoolRun Request.handle NoRace ([shareWrite 1,shareWrite 2].map sampleStore.doWOPE) oneBlock
      ps w ∧ w.occurrences 7 = 3 ∧ (w.refCount 7).toInt = w.occurrences 7 := by
  have r0 : PoolRun Request.handle NoRace
      ([shareWrite 1,shareWrite 2].map sampleStore.doWOPE) oneBlock
      [sampleStore.doWOPE (shareWrite 1),sampleStore.doWOPE (shareWrite 2)] oneBlock := .start
  have r1 := r0.next [] [sampleStore.doWOPE (shareWrite 2)] rfl nofun rfl
  have r2 := r1.next [_] [] rfl nofun rfl
  have r3 := r2.next [] [_] rfl (by rintro s rest - attr rest' h; cases List.mem_singleton.1 h) rfl
  have r4 := r3.next [] [_] rfl nofun rfl
  have r5 := r4.next [_] [] rfl (by rintro s rest - attr rest' h; cases List.mem_singleton.1 h) rfl
  have r6 := r5.next [_] [] rfl nofun rfl
  have r7 := r6.next [] [_] rfl nofun rfl
  have r8 := r7.next [_] [] rfl nofun rfl
  have hcounts := interleaved_counts sampleStore (s := 7) oneBlock_tidy_counted.1
    oneBlock_tidy_counted.2 (by decide) (by decide) r8 (by simp) (by decide)
  exact ⟨_,_,r8,by decide,hcounts⟩

/-- Two new versions share one block. Both writes read its record with count one, and both put
back two. -/
theorem increment_lost : ∃ (wopelogs : List WOpeLog) (w₀ w : World) (ps : List (Task Unit)),
    w₀.Tidy ∧ w₀.Counted ∧
    (wopelogs.map (fun wopelog => wopelog.wope.newGhobj.key)).Nodup ∧
    (∀ wopelog ∈ wopelogs, wopelog.wope.InRange (w₀.serials wopelog.wope.ghobj.key).length ∧
      w₀.objs.lookup wopelog.wope.newGhobj.key = none) ∧
    PoolRun Request.handle (fun _ _ => True) (wopelogs.map sampleStore.doWOPE) w₀ ps w ∧
    (∀ p ∈ ps, p = .done ()) ∧ ∃ s, (w.refCount s).toInt ≠ w.occurrences s := by
  have r0 : PoolRun Request.handle (fun _ _ => True)
      ([shareWrite 1,shareWrite 2].map sampleStore.doWOPE) oneBlock
      [sampleStore.doWOPE (shareWrite 1),sampleStore.doWOPE (shareWrite 2)] oneBlock := .start
  -- The first write reads its base list and the record, and waits before it puts it back.
  have r1 := r0.next [] [sampleStore.doWOPE (shareWrite 2)] rfl trivial rfl
  have r2 := r1.next [] [sampleStore.doWOPE (shareWrite 2)] rfl trivial rfl
  have r3 := r2.next [_] [] rfl trivial rfl
  have r4 := r3.next [_] [] rfl trivial rfl
  have r5 := r4.next [] [_] rfl trivial rfl
  have r6 := r5.next [_] [] rfl trivial rfl
  have r7 := r6.next [] [_] rfl trivial rfl
  have r8 := r7.next [_] [] rfl trivial rfl
  refine ⟨[shareWrite 1,shareWrite 2],oneBlock,_,_,oneBlock_tidy_counted.1,
    oneBlock_tidy_counted.2,by decide,?_,r8,?_,7,by decide⟩
  · intro wopelog hmem
    rcases List.mem_pair.1 hmem with rfl | rfl
    · exact ⟨inRange_noEdits _ _ _,rfl⟩
    · exact ⟨inRange_noEdits _ _ _,rfl⟩
  · intro p hp
    rcases List.mem_pair.1 hp with rfl | rfl
    · rfl
    · rfl

end GDFileStore
