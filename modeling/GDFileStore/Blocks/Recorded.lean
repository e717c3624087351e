import GDFileStore.Attributes.Records
import GDFileStore.Blocks.World
import GDFileStore.Program.Simulation

/-! The records of a `RocksKV`, byte strings under byte strings: they do for each request what a map
of attributes under key members does, as long as an `int` can index what is stored. -/
namespace GDFileStore
open Sequences Program Prog

/-- The request is none to the database. -/
def Request.Apart : Request → Prop
  | .getObjAttr _ => False
  | .setObjAttr _ _ => False
  | .getBlockAttr _ => False
  | .setBlockAttr _ _ => False
  | _ => True

/-- Such a request sees the files and the clock only. -/
lemma Request.handle_apart {r : Request} (h : r.Apart) (w : World) :
    r.handle w = (r.handle { files := w.files, clock := w.clock }).map
      (fun a => (a.1,{ w with files := a.2.files, clock := a.2.clock })) := by
  cases r with
  | now =>
    simp only [handle]
    cases w.clock <;> rfl
  | writeFile => rfl
  | readFile => rfl
  | copy source directory =>
    simp only [handle]
    cases w.files source <;> rfl
  | outOfRange => rfl
  | _ => exact h.elim

/-- What a store keeps outside its memory, with the records of its database as they are. -/
structure RecordWorld where
  db : Database := ∅
  files : Bytes → Option Bytes := fun _ => none
  clock : List Int64 := []

/-- The outcome of a request on the records. A version is named by any object with its key members,
a block by any `ReferedBlock` with its serial; an attribute is read into memory of any content. -/
def Request.Stores (headers : TypeHeaders) : (r : Request) → RecordWorld → r.Resp → RecordWorld → Prop
  | .getObjAttr key,w,answer,w' => w' = w ∧ ∃ g : GHObject, g.key = key ∧ g.Sized ∧
      ∃ memory, RocksKV.getAttr headers.ghobj w.db g memory = some answer
  | .setObjAttr key attr,w,_,w' => ∃ g : GHObject, g.key = key ∧ g.Sized ∧
      attr.serialsList.length < 2^28 ∧
      ∃ db, RocksKV.setAttr headers.ghobj w.db g attr = some db ∧ w' = { w with db := db }
  | .getBlockAttr serial,w,answer,w' => w' = w ∧ ∃ rb : ReferedBlock, rb.serial = serial ∧
      ∃ memory, RocksKV.getAttr headers.block w.db rb memory = some answer
  | .setBlockAttr serial attr,w,_,w' => ∃ rb : ReferedBlock, rb.serial = serial ∧
      ∃ db, RocksKV.setAttr headers.block w.db rb attr = some db ∧ w' = { w with db := db }
  | r,w,answer,w' => ∃ world, Request.handle r { files := w.files, clock := w.clock } =
      some (answer,world) ∧ w' = { w with files := world.files, clock := world.clock }

lemma Request.stores_apart {headers : TypeHeaders} {r : Request} (h : r.Apart) {raw raw' : RecordWorld}
    {answer : r.Resp} : r.Stores headers raw answer raw' ↔ ∃ world,
      r.handle { files := raw.files, clock := raw.clock } = some (answer,world) ∧
        raw' = { raw with files := world.files, clock := world.clock } := by
  cases r with
  | now => rfl
  | writeFile => rfl
  | readFile => rfl
  | copy => rfl
  | outOfRange => rfl
  | _ => exact h.elim

/-- The strings of a version's key are shorter than `2^31`, and its list has fewer than `2^28`
serials. -/
def Request.Sized : Request → Prop
  | .getObjAttr key => key.name.length < 2^31 ∧ key.owner.length < 2^31
  | .setObjAttr key attr => (key.name.length < 2^31 ∧ key.owner.length < 2^31) ∧
      attr.serialsList.length < 2^28
  | _ => True

/-- An object with the key members. -/
def GHKey.object (key : GHKey) : GHObject where
  hobj := ⟨⟨key.name⟩,⟨key.timeStamp⟩,key.hash,key.max,0⟩
  generation := key.generation
  shardId := ⟨key.shard⟩
  owner := key.owner

/-- The records hold the attributes: each under the encoding of its key, nothing where there is
none. -/
structure Recorded (headers : TypeHeaders) (w : World) (raw : RecordWorld) : Prop where
  ghobj : ∀ g : GHObject, g.Sized → raw.db.find (RocksKV.keyBytes headers.ghobj g) =
    (w.objs.lookup g.key).map Serializable.encode
  block : ∀ rb : ReferedBlock, raw.db.find (RocksKV.keyBytes headers.block rb) =
    (w.blocks rb.serial).map Serializable.encode
  short : ∀ key, ∀ attr ∈ w.objs.lookup key, attr.serialsList.length < 2^28
  files : raw.files = w.files
  clock : raw.clock = w.clock

namespace Recorded
variable {headers : TypeHeaders} {w w' : World} {raw raw' : RecordWorld}

lemma start (headers : TypeHeaders) (clock : List Int64) :
    Recorded headers { clock := clock } { clock := clock } :=
  ⟨fun _ _ => rfl,fun _ => rfl,by simp,rfl,rfl⟩

/-- `GetAttr` on the records gives what the map has. -/
lemma getAttr_ghobj (h : Recorded headers w raw) {g : GHObject} (hg : g.Sized)
    (memory : ObjectWithRB) : RocksKV.getAttr headers.ghobj raw.db g memory =
      some (getAttr (w.objs.lookup g.key) {}) := by
  refine RocksKV.getAttr_eq (RocksKV.fits_ghobjKey hg) (h.ghobj g hg) ?_ ?_ memory
  · intro attr hattr
    exact RocksKV.fits_serials ((h.short _ attr hattr).trans (by decide))
  · intro attr hattr
    have hlt := h.short _ attr hattr
    rw [RocksKV.length_encode_serials]
    omega

lemma getAttr_block (h : Recorded headers w raw) (rb memory : ReferedBlock) :
    RocksKV.getAttr headers.block raw.db rb memory = some (getAttr (w.blocks rb.serial) {}) := by
  refine RocksKV.getAttr_eq (RocksKV.fits_blockKey rb) (h.block rb) ?_ ?_ memory
  · exact fun attr _ => RocksKV.fits_block attr
  · intro attr _
    rw [RocksKV.length_encode_block]
    decide

/-- A version is stored in both. -/
lemma setObjAttr (h : Recorded headers w raw) {g : GHObject} (hg : g.Sized) {attr : ObjectWithRB}
    (hattr : attr.serialsList.length < 2^28) :
    ∃ db, RocksKV.setAttr headers.ghobj raw.db g attr = some db ∧
      Recorded headers { w with objs := w.objs.insert g.key attr } { raw with db := db } := by
  have hfits := RocksKV.fits_serials (hattr.trans (by decide))
  refine ⟨_,RocksKV.setAttr_eq (RocksKV.fits_ghobjKey hg) hfits,?_,?_,?_,h.files,h.clock⟩
  · intro g' hg'
    rw [OrderedMap.find_insert,h.ghobj g' hg']
    simp only [RocksKV.ghobjKey_inj_iff hg' hg]
    by_cases hkey : g'.key = g.key
    · rw [if_pos hkey,hkey,AList.lookup_insert,Option.map_some]
    · rw [if_neg hkey,AList.lookup_insert_ne hkey]
  · intro rb
    rw [OrderedMap.find_insert,if_neg (RocksKV.keyBytes_ne headers g rb).symm,h.block rb]
  · intro key a ha
    by_cases hkey : key = g.key
    · subst hkey
      rw [AList.lookup_insert] at ha
      cases ha
      exact hattr
    · rw [AList.lookup_insert_ne hkey] at ha
      exact h.short key a ha

lemma setBlockAttr (h : Recorded headers w raw) (rb attr : ReferedBlock) :
    ∃ db, RocksKV.setAttr headers.block raw.db rb attr = some db ∧
      Recorded headers { w with blocks := Function.update w.blocks rb.serial (some attr) }
        { raw with db := db } := by
  have hset : RocksKV.setAttr headers.block raw.db rb attr = some (raw.db.insert
      (RocksKV.keyBytes headers.block rb) (Serializable.encode attr)) :=
    RocksKV.setAttr_eq (RocksKV.fits_blockKey rb) (RocksKV.fits_block attr)
  refine ⟨_,hset,?_,?_,h.short,h.files,h.clock⟩
  · intro g hg
    rw [OrderedMap.find_insert,if_neg (RocksKV.keyBytes_ne headers g rb),h.ghobj g hg]
  · intro rb'
    rw [OrderedMap.find_insert,h.block rb']
    simp only [RocksKV.blockKey_inj_iff,Function.update_apply]
    split <;> rfl

/-- Only the files and the clock change. -/
lemma keep (h : Recorded headers w raw) (world : World) :
    Recorded headers { w with files := world.files, clock := world.clock }
      { raw with files := world.files, clock := world.clock } :=
  ⟨h.ghobj,h.block,h.short,rfl,rfl⟩

lemma timed (h : Recorded headers w raw) (clock : List Int64) :
    Recorded headers { w with clock := clock } { raw with clock := clock } :=
  ⟨h.ghobj,h.block,h.short,h.files,rfl⟩

end Recorded

variable {headers : TypeHeaders}

/-- What is done on the records is done on the attributes. -/
theorem stores_embeds : Embeds (Request.Stores headers) Request.Gives
    (fun raw w => Recorded headers w raw) := by
  intro r raw raw' w answer h hop
  have hfiles (hr : r.Apart) : ∃ w', r.Gives w answer w' ∧ Recorded headers w' raw' := by
    obtain ⟨world,hworld,rfl⟩ := (Request.stores_apart hr).1 hop
    refine ⟨_,?_,h.keep world⟩
    rw [Request.Gives,Request.handle_apart hr,← h.files,← h.clock,hworld,Option.map_some]
  cases r with
  | getObjAttr key =>
    obtain ⟨rfl,g,rfl,hg,memory,hget⟩ := hop
    rw [h.getAttr_ghobj hg] at hget
    exact ⟨w,congrArg (fun a => some (a,w)) (Option.some.inj hget),h⟩
  | setObjAttr key attr =>
    obtain ⟨g,rfl,hg,hattr,db,hset,rfl⟩ := hop
    obtain ⟨db',hset',h'⟩ := h.setObjAttr hg hattr
    obtain rfl : db' = db := Option.some.inj (hset'.symm.trans hset)
    exact ⟨_,rfl,h'⟩
  | getBlockAttr serial =>
    obtain ⟨rfl,rb,rfl,memory,hget⟩ := hop
    rw [h.getAttr_block] at hget
    exact ⟨w,congrArg (fun a => some (a,w)) (Option.some.inj hget),h⟩
  | setBlockAttr serial attr =>
    obtain ⟨rb,rfl,db,hset,rfl⟩ := hop
    obtain ⟨db',hset',h'⟩ := h.setBlockAttr rb attr
    obtain rfl : db' = db := Option.some.inj (hset'.symm.trans hset)
    exact ⟨_,rfl,h'⟩
  | _ => exact hfiles trivial

/-- What is done on the attributes is done on the records, within the sizes. -/
theorem gives_embeds : Embeds (fun r w answer w' => r.Sized ∧ r.Gives w answer w')
    (Request.Stores headers) (Recorded headers) := by
  rintro r w w' raw answer h ⟨hsized,hop⟩
  have hfiles (hr : r.Apart) : ∃ raw', r.Stores headers raw answer raw' ∧
      Recorded headers w' raw' := by
    rw [Request.Gives,Request.handle_apart hr,← h.files,← h.clock] at hop
    obtain ⟨⟨_,world⟩,hworld,heq⟩ := Option.map_eq_some_iff.1 hop
    obtain ⟨rfl,rfl⟩ := Prod.mk.inj heq
    exact ⟨_,(Request.stores_apart hr).2 ⟨world,hworld,rfl⟩,h.keep world⟩
  cases r with
  | getObjAttr key =>
    obtain ⟨rfl,rfl⟩ := Prod.mk.inj (Option.some.inj hop)
    exact ⟨raw,⟨rfl,key.object,rfl,hsized,{},h.getAttr_ghobj (g := key.object) hsized {}⟩,h⟩
  | setObjAttr key attr =>
    obtain ⟨-,rfl⟩ := Prod.mk.inj (Option.some.inj hop)
    obtain ⟨db,hset,h'⟩ := h.setObjAttr (g := key.object) hsized.1 hsized.2
    exact ⟨_,⟨key.object,rfl,hsized.1,hsized.2,db,hset,rfl⟩,h'⟩
  | getBlockAttr serial =>
    obtain ⟨rfl,rfl⟩ := Prod.mk.inj (Option.some.inj hop)
    exact ⟨raw,⟨rfl,{ serial := serial },rfl,{},h.getAttr_block _ {}⟩,h⟩
  | setBlockAttr serial attr =>
    obtain ⟨-,rfl⟩ := Prod.mk.inj (Option.some.inj hop)
    obtain ⟨db,hset,h'⟩ := h.setBlockAttr { serial := serial } attr
    exact ⟨_,⟨{ serial := serial },rfl,db,hset,rfl⟩,h'⟩
  | _ => exact hfiles trivial

end GDFileStore
