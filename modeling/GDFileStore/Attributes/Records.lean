import GDFileStore.Attributes.Key
import GDFileStore.Serialize.Taken

/-! Any run of `SetAttr` calls on the two kinds of subjects that share one key space: what `GetAttr`
gives afterwards is the attribute of the last call with the same key members. -/
namespace GDFileStore
open Sequences Codec

/-- The strings that `GetTypeHeader` gives for the two types. -/
structure TypeHeaders where
  ghobj : Bytes
  block : Bytes
  apart : ¬ghobj <+: block ∧ ¬block <+: ghobj

lemma TypeHeaders.append_ne (headers : TypeHeaders) (rest rest' : Bytes) :
    headers.ghobj ++ rest ≠ headers.block ++ rest' := by
  intro h
  rcases List.prefix_or_prefix_of_prefix ⟨rest,h⟩ (List.prefix_append _ rest') with hp | hp
  · exact headers.apart.1 hp
  · exact headers.apart.2 hp

/-- One call of `SetAttr`. -/
inductive SetAttrCall where
  | ghobj (g : GHObject) (attr : ObjectWithRB)
  | block (rb attr : ReferedBlock)
  deriving DecidableEq, Repr

/-- The strings of an object's key are shorter than `2^31`. -/
def GHObject.Sized (g : GHObject) : Prop :=
  g.hobj.oid.name.length < 2^31 ∧ g.owner.length < 2^31

namespace SetAttrCall

/-- The strings of the key are shorter than `2^31`, and the list has fewer than `limit` serials. -/
def Sized (limit : ℕ) : SetAttrCall → Prop
  | .ghobj g attr => g.Sized ∧ attr.serialsList.length < limit
  | .block _ _ => True

/-- The attribute that a call gives to the object. -/
def forGHObject (g : GHObject) : SetAttrCall → Option ObjectWithRB
  | .ghobj g' attr => if g'.key = g.key then some attr else none
  | .block _ _ => none

def forBlock (rb : ReferedBlock) : SetAttrCall → Option ReferedBlock
  | .ghobj _ _ => none
  | .block rb' attr => if rb'.serial = rb.serial then some attr else none

/-- What the last of the calls gives that gives anything. -/
def last {A : Type} (gives : SetAttrCall → Option A) (calls : List SetAttrCall) : Option A :=
  calls.reverse.findSome? gives

lemma last_concat {A : Type} (gives : SetAttrCall → Option A) (calls : List SetAttrCall)
    (call : SetAttrCall) : last gives (calls ++ [call]) = (gives call).or (last gives calls) := by
  rw [last,List.reverse_append,List.reverse_singleton,List.singleton_append,List.findSome?_cons,last]
  cases gives call <;> rfl

end SetAttrCall

namespace RocksKV

/-- One call on the database. -/
def apply (headers : TypeHeaders) (db : Database) : SetAttrCall → Option Database
  | .ghobj g attr => setAttr headers.ghobj db g attr
  | .block rb attr => setAttr headers.block db rb attr

def setAttrs (headers : TypeHeaders) (calls : List SetAttrCall) (db : Database) : Option Database :=
  calls.foldlM (apply headers) db

lemma setAttrs_concat (headers : TypeHeaders) (calls : List SetAttrCall) (call : SetAttrCall)
    (db : Database) : setAttrs headers (calls ++ [call]) db =
      (setAttrs headers calls db).bind (fun db => apply headers db call) := by
  rw [setAttrs,List.foldlM_append,setAttrs]
  simp

section Access
variable {T K A : Type} [HasAttr T K A] [Members K] {typeHeader : Bytes} {db : Database} {t : T}

/-- The key of a subject whose strings an `int` can measure. -/
def keyBytes (typeHeader : Bytes) (t : T) : Bytes := typeHeader ++ Members.encode (HasAttr.key t)

lemma getKey_eq (h : Members.Fits (HasAttr.key t)) :
    getKey typeHeader t = some (keyBytes typeHeader t) := by
  rw [getKey,asStringOfMembers_eq h,Option.map_some,keyBytes]

variable [Serializable A] {attr : A}

lemma setAttr_eq (hkey : Members.Fits (HasAttr.key t)) (hattr : Serializable.Fits attr) :
    setAttr typeHeader db t attr =
      some (db.insert (keyBytes typeHeader t) (Serializable.encode attr)) := by
  simp [setAttr,getKey_eq hkey,asString_eq hattr]

/-- The attribute that a record holds, the empty string standing for no record. -/
lemma getAttr_eq [Complete A] {found : Option A} (hkey : Members.Fits (HasAttr.key t))
    (hfind : db.find (keyBytes typeHeader t) = found.map Serializable.encode)
    (hfits : ∀ a ∈ found, Serializable.Fits a)
    (hlength : ∀ a ∈ found, 0 < (Serializable.encode a).length ∧ (Serializable.encode a).length < 2^31)
    (memory : A) : getAttr typeHeader db t memory =
      some (found.getD (HasAttr.attr T),found.isSome) := by
  cases found with
  | none => simp [getAttr,getKey_eq hkey,hfind]
  | some a =>
    have hne : Serializable.encode a ≠ [] := List.length_pos_iff.1 (hlength a rfl).1
    simp [getAttr,getKey_eq hkey,hfind,hne,fromString_encode (hfits a rfl) (hlength a rfl).2]

end Access

lemma fits_ghobjKey {g : GHObject} (h : g.Sized) : Members.Fits (HasAttr.key g) :=
  ⟨⟨⟨h.1,trivial⟩,⟨trivial,trivial⟩,trivial,trivial,trivial⟩,trivial,⟨trivial,trivial⟩,h.2,trivial⟩

lemma fits_blockKey (rb : ReferedBlock) : Members.Fits (HasAttr.key rb) := ⟨trivial,trivial⟩

lemma keyBytes_ne (headers : TypeHeaders) (g : GHObject) (rb : ReferedBlock) :
    keyBytes headers.ghobj g ≠ keyBytes headers.block rb := headers.append_ne _ _

/-- The key bytes of an object say what its key members are. -/
theorem ghobjKey_inj_iff {typeHeader : Bytes} {g h : GHObject} (hg : g.Sized) (hh : h.Sized) :
    keyBytes typeHeader g = keyBytes typeHeader h ↔ g.key = h.key := by
  constructor
  · intro heq
    have hbytes : Members.encode (HasAttr.key g) ++ [] = Members.encode (HasAttr.key h) ++ [] :=
      congrArg (· ++ []) (List.append_cancel_left heq)
    have hes := (encodeMembers_append_inj (fits_ghobjKey hg) (fits_ghobjKey hh) hbytes).1
    exact GHObject.es_eq_iff.1 hes
  · intro heq
    exact congrArg (fun v => typeHeader ++ Ty.encode _ v) (GHObject.es_eq_iff.2 heq)

theorem blockKey_inj_iff {typeHeader : Bytes} {rb rb' : ReferedBlock} :
    keyBytes typeHeader rb = keyBytes typeHeader rb' ↔ rb.serial = rb'.serial := by
  constructor
  · intro heq
    have hbytes : Members.encode (HasAttr.key rb) ++ [] = Members.encode (HasAttr.key rb') ++ [] :=
      congrArg (· ++ []) (List.append_cancel_left heq)
    have hes := (encodeMembers_append_inj (fits_blockKey rb) (fits_blockKey rb') hbytes).1
    exact Int64.toBitVec_inj.1 (congrArg Prod.fst hes)
  · intro heq
    simp only [keyBytes,HasAttr.key,heq]

lemma length_encode_serials (attr : ObjectWithRB) :
    (Serializable.encode attr).length = 4+8*attr.serialsList.length := by
  have hserials := Ty.length_flatMap_arith .eight (attr.serialsList.map Serializable.es)
  change (intBytes _ ++ (attr.serialsList.map Serializable.es).flatMap _ ++ []).length = _
  rw [List.length_map] at hserials
  rw [List.append_nil,List.length_append,length_intBytes]
  exact congrArg (4+·) hserials

lemma fits_serials {attr : ObjectWithRB} (h : attr.serialsList.length < 2^31) :
    Serializable.Fits attr :=
  ⟨⟨(List.length_map _).trans_lt h,fun _ _ => trivial⟩,trivial⟩

lemma fits_block (attr : ReferedBlock) : Serializable.Fits attr := ⟨trivial,trivial,trivial⟩

lemma length_encode_block (attr : ReferedBlock) : (Serializable.encode attr).length = 12 := by
  change (leBytes 8 _ ++ (leBytes 4 _ ++ [])).length = 12
  simp

/-- The records are those of the last call for each key, and no key has two kinds of records. -/
structure Stores (headers : TypeHeaders) (calls : List SetAttrCall) (db : Database) : Prop where
  ghobj : ∀ g : GHObject, g.Sized → db.find (keyBytes headers.ghobj g) =
    (SetAttrCall.last (SetAttrCall.forGHObject g) calls).map Serializable.encode
  block : ∀ rb : ReferedBlock, db.find (keyBytes headers.block rb) =
    (SetAttrCall.last (SetAttrCall.forBlock rb) calls).map Serializable.encode

namespace Stores
variable {headers : TypeHeaders} {calls : List SetAttrCall} {db : Database}

lemma start (headers : TypeHeaders) : Stores headers [] ∅ :=
  ⟨fun _ _ => rfl,fun _ => rfl⟩

theorem step {call : SetAttrCall} (h : Stores headers calls db) (hsized : call.Sized (2^31)) :
    ∃ db', apply headers db call = some db' ∧ Stores headers (calls ++ [call]) db' := by
  cases call with
  | ghobj g attr =>
    obtain ⟨hg,hattr⟩ := hsized
    refine ⟨_,setAttr_eq (fits_ghobjKey hg) (fits_serials hattr),?_,?_⟩
    · intro g' hg'
      rw [OrderedMap.find_insert,SetAttrCall.last_concat,SetAttrCall.forGHObject,h.ghobj g' hg']
      simp only [ghobjKey_inj_iff hg' hg,eq_comm (a := g'.key)]
      split <;> rfl
    · intro rb
      rw [OrderedMap.find_insert,if_neg (keyBytes_ne headers g rb).symm,
        SetAttrCall.last_concat,SetAttrCall.forBlock,Option.none_or,h.block rb]
  | block rb attr =>
    refine ⟨_,setAttr_eq (fits_blockKey rb) (fits_block attr),?_,?_⟩
    · intro g hg
      rw [OrderedMap.find_insert,if_neg (keyBytes_ne headers g rb),
        SetAttrCall.last_concat,SetAttrCall.forGHObject,Option.none_or,h.ghobj g hg]
    · intro rb'
      rw [OrderedMap.find_insert,SetAttrCall.last_concat,SetAttrCall.forBlock,h.block rb']
      simp only [blockKey_inj_iff,eq_comm (a := rb'.serial)]
      split <;> rfl

theorem run (headers : TypeHeaders) (h : ∀ call ∈ calls, call.Sized (2^31)) :
    ∃ db, setAttrs headers calls ∅ = some db ∧ Stores headers calls db := by
  induction calls using List.reverseRecOn with
  | nil => exact ⟨∅,rfl,start headers⟩
  | append_singleton calls call ih =>
    obtain ⟨db,hrun,hdb⟩ := ih (fun c hc => h c (List.mem_append_left _ hc))
    obtain ⟨db',hcall,hdb'⟩ := hdb.step (h call (by simp))
    exact ⟨db',by rw [setAttrs_concat,hrun,Option.bind_some,hcall],hdb'⟩

/-- What `GetAttr` gives of an object, as long as an `int` can index the records. -/
lemma getAttr_ghobj (h : Stores headers calls db) {g : GHObject} (hg : g.Sized)
    (hshort : ∀ attr ∈ SetAttrCall.last (SetAttrCall.forGHObject g) calls,
      attr.serialsList.length < 2^28) (memory : ObjectWithRB) :
    getAttr headers.ghobj db g memory =
      some ((SetAttrCall.last (SetAttrCall.forGHObject g) calls).getD {},
        (SetAttrCall.last (SetAttrCall.forGHObject g) calls).isSome) := by
  refine getAttr_eq (fits_ghobjKey hg) (h.ghobj g hg) ?_ ?_ memory
  · intro attr hattr
    exact fits_serials ((hshort attr hattr).trans (by decide))
  · intro attr hattr
    have hlt := hshort attr hattr
    rw [length_encode_serials]
    omega

lemma getAttr_block (h : Stores headers calls db) (rb memory : ReferedBlock) :
    getAttr headers.block db rb memory =
      some ((SetAttrCall.last (SetAttrCall.forBlock rb) calls).getD {},
        (SetAttrCall.last (SetAttrCall.forBlock rb) calls).isSome) := by
  refine getAttr_eq (fits_blockKey rb) (h.block rb) ?_ ?_ memory
  · exact fun attr _ => fits_block attr
  · intro attr _
    rw [length_encode_block]
    decide

end Stores

/-- The calls succeed, `GetAttr` then gives the attribute of the last call with the same key
members and the default where there was none, and one more call on another key changes nothing. -/
def ReturnsLast (headers : TypeHeaders) (calls : List SetAttrCall) : Prop :=
  ∃ db, setAttrs headers calls ∅ = some db ∧
    (∀ g : GHObject, g.Sized → ∀ memory, getAttr headers.ghobj db g memory =
      some ((SetAttrCall.last (SetAttrCall.forGHObject g) calls).getD {},
        (SetAttrCall.last (SetAttrCall.forGHObject g) calls).isSome)) ∧
    (∀ rb memory : ReferedBlock, getAttr headers.block db rb memory =
      some ((SetAttrCall.last (SetAttrCall.forBlock rb) calls).getD {},
        (SetAttrCall.last (SetAttrCall.forBlock rb) calls).isSome)) ∧
    ∀ call : SetAttrCall, call.Sized (2^31) → ∃ db', apply headers db call = some db' ∧
      (∀ g : GHObject, g.Sized → call.forGHObject g = none → ∀ memory,
        getAttr headers.ghobj db' g memory = getAttr headers.ghobj db g memory) ∧
      ∀ rb : ReferedBlock, call.forBlock rb = none → ∀ memory,
        getAttr headers.block db' rb memory = getAttr headers.block db rb memory

/-- With lists of fewer than `2^28` serials, whose records an `int` can index. -/
theorem setAttrs_returnsLast (headers : TypeHeaders) (calls : List SetAttrCall)
    (hsized : ∀ call ∈ calls, call.Sized (2^28)) : ReturnsLast headers calls := by
  have hwiden : ∀ call : SetAttrCall, call.Sized (2^28) → call.Sized (2^31) := by
    intro call hcall
    cases call with
    | ghobj g attr => exact ⟨hcall.1,hcall.2.trans (by decide)⟩
    | block rb attr => trivial
  have hshort : ∀ g, ∀ attr ∈ SetAttrCall.last (SetAttrCall.forGHObject g) calls,
      attr.serialsList.length < 2^28 := by
    intro g attr hattr
    obtain ⟨call,hcall,hgives⟩ := List.exists_of_findSome?_eq_some hattr
    have hcallSized := hsized call (List.mem_reverse.1 hcall)
    cases call with
    | ghobj g' attr' =>
      obtain ⟨-,heq⟩ := Option.ite_none_right_eq_some.1 hgives
      obtain rfl := Option.some.inj heq
      exact hcallSized.2
    | block rb attr' => cases hgives
  obtain ⟨db,hrun,hdb⟩ := Stores.run headers (fun call hcall => hwiden call (hsized call hcall))
  refine ⟨db,hrun,fun g hg memory => hdb.getAttr_ghobj hg (hshort g) memory,hdb.getAttr_block,?_⟩
  intro call hcall
  obtain ⟨db',happly,hdb'⟩ := hdb.step hcall
  refine ⟨db',happly,?_,?_⟩
  · intro g hg hnone memory
    have hlast : SetAttrCall.last (SetAttrCall.forGHObject g) (calls ++ [call]) =
        SetAttrCall.last (SetAttrCall.forGHObject g) calls := by
      rw [SetAttrCall.last_concat,hnone,Option.none_or]
    rw [hdb'.getAttr_ghobj hg (hlast ▸ hshort g),hlast,hdb.getAttr_ghobj hg (hshort g)]
  · intro rb hnone memory
    rw [hdb'.getAttr_block,hdb.getAttr_block,SetAttrCall.last_concat,hnone,Option.none_or]

/-- An `int` has indexed the record of a list that is read back. -/
lemma length_of_fromString {memory attr : ObjectWithRB} {str : Bytes}
    (h : fromString memory str = some attr) : attr.serialsList.length ≤ 2^28 := by
  obtain ⟨⟨attr',b'⟩,hread,rfl⟩ := Option.map_eq_some_iff.1 h
  obtain ⟨⟨v,mid⟩,hmembers,hfill⟩ := Option.bind_eq_some_iff.1 hread
  obtain ⟨⟨vs,b⟩,hlist,hrest⟩ := Option.bind_eq_some_iff.1 hmembers
  obtain ⟨⟨u,last⟩,-,hv⟩ := Option.map_eq_some_iff.1 hrest
  obtain ⟨rfl,-⟩ := Prod.mk.inj hv
  obtain ⟨x,hx,hr⟩ := Option.map_eq_some_iff.1 hfill
  obtain ⟨rfl,-⟩ := Prod.mk.inj hr
  have hserials : x.serialsList = List.map Int64.ofBitVec vs := by
    obtain ⟨m,hm,rfl⟩ := Option.map_eq_some_iff.1 hx
    obtain ⟨l,hl,hnil⟩ := Option.bind_eq_some_iff.1 hm
    obtain ⟨u,-,rfl⟩ := Option.map_eq_some_iff.1 hnil
    have hmap : List.mapM (fun v => some (Int64.ofBitVec v)) vs = some l := hl
    exact (Option.some.inj ((List.mapM_pure).symm.trans hmap)).symm
  rcases Ty.list_length_lt hlist with hnil | hlt
  · simp [hserials,hnil]
  · rw [hserials,List.length_map]
    have hbytes : (8 : ℕ)*(vs.length-1) < 2^31 := hlt
    omega

lemma fromString_of_getAttr {headers : TypeHeaders} {db : Database} {g : GHObject}
    {memory attr : ObjectWithRB} (h : getAttr headers.ghobj db g memory = some (attr,true)) :
    ∃ str, fromString memory str = some attr := by
  obtain ⟨key,-,h⟩ := Option.bind_eq_some_iff.1 h
  simp only at h
  split at h
  · obtain ⟨attr',hread,hr⟩ := Option.bind_eq_some_iff.1 h
    obtain ⟨rfl,-⟩ := Prod.mk.inj (Option.some.inj hr)
    exact ⟨_,hread⟩
  · cases (Prod.mk.inj (Option.some.inj h)).2

/-- A list of `2^28+1` serials, each of them zero, is written but cannot be read back. -/
theorem long_list_not_returned :
    ¬ ∀ (headers : TypeHeaders) (calls : List SetAttrCall),
      (∀ call ∈ calls, call.Sized (2^31)) → ReturnsLast headers calls := by
  intro h
  have hlength : (List.replicate (2^28+1) (0 : Int64)).length = 2^28+1 := List.length_replicate
  generalize List.replicate (2^28+1) (0 : Int64) = serials at hlength
  have hsized : ∀ call ∈ [SetAttrCall.ghobj {} ⟨serials⟩], call.Sized (2^31) := by
    intro call hcall
    obtain rfl := List.mem_singleton.1 hcall
    exact ⟨⟨by decide,by decide⟩,hlength.trans_lt (by decide)⟩
  obtain ⟨db,-,hghobj,-⟩ := h ⟨[1],[2],by decide⟩ _ hsized
  obtain ⟨str,hstr⟩ := fromString_of_getAttr (hghobj {} ⟨by decide,by decide⟩ {})
  have hle := length_of_fromString hstr
  simp only [SetAttrCall.last,SetAttrCall.forGHObject,List.reverse_singleton,List.findSome?_cons,
    if_true,Option.getD_some] at hle
  omega

theorem setAttrs_returnsLast_overwritten :
    ReturnsLast ⟨lit "G",lit "R",by decide⟩ [.ghobj {} ⟨[1,2,3]⟩,.block {} { serial := 7 },
      .ghobj { owner := lit "u" } ⟨[4]⟩,.ghobj {} ⟨[]⟩] :=
  setAttrs_returnsLast _ _ (by
    simp only [List.mem_cons,List.not_mem_nil,or_false,forall_eq_or_imp,forall_eq]
    exact ⟨⟨⟨by decide,by decide⟩,by decide⟩,trivial,⟨⟨by decide,by decide⟩,by decide⟩,
      ⟨by decide,by decide⟩,by decide⟩)

end RocksKV
end GDFileStore
