import GDFileStore.Headers.Header
import GDFileStore.Program.Registry
import Mathlib.Data.List.TakeWhile
import Mathlib.Data.Set.Defs

/-! The headers as a registry of numbers: every operation that finds its answer in a cache, or for
which there is no record, is a step of the registry, in one process and across restarts. -/
namespace GDFileStore
open Sequences Program

/-- A call with its result, or a new process. `EraseObj` is given with the object it erases. -/
inductive HeaderEvent where
  | gotHeader (gh : GHObject) (h : Header)
  | gotObj (h : Header) (gh : GHObject)
  | erasedHeader (gh : GHObject)
  | erasedObj (h : Header) (gh : GHObject)
  | restarted
  deriving DecidableEq

namespace HeaderEvent

/-- The objects that calls are made with are in `objs`. -/
def Uses (objs : Set GHObject) : HeaderEvent → Prop
  | .gotHeader gh _ => gh ∈ objs
  | .erasedHeader gh => gh ∈ objs
  | _ => True

def Erases (gh : GHObject) : HeaderEvent → Prop
  | .erasedHeader gh' => gh' = gh
  | .erasedObj _ gh' => gh' = gh
  | _ => False

def number : HeaderEvent → Registry.Event GHObject Header
  | .gotHeader gh h => .number gh h
  | .gotObj h gh => .name h gh
  | .erasedHeader gh => .forget gh
  | .erasedObj _ gh => .forget gh
  | .restarted => .idle

lemma erases_of_number {e : HeaderEvent} {gh : GHObject} (h : e.number = .forget gh) :
    e.Erases gh := by
  cases e with
  | erasedHeader gh' => exact Registry.Event.forget.inj h
  | erasedObj _ gh' => exact Registry.Event.forget.inj h
  | _ => cases h

lemma number_of_erases {e : HeaderEvent} {gh : GHObject} (h : e.Erases gh) :
    e.number = .forget gh := by
  cases e with
  | erasedHeader gh' => exact congrArg _ h
  | erasedObj _ gh' => exact congrArg _ h
  | _ => exact h.elim

end HeaderEvent

/-- Objects that differ in name or generation and in their unique strings, none of which has the
form of a header's string. -/
structure HeaderObjects (objs : Set GHObject) : Prop where
  differ : ∀ a ∈ objs, ∀ b ∈ objs, a ≠ b →
    a.hobj.oid.name ≠ b.hobj.oid.name ∨ a.generation ≠ b.generation
  apart : ∀ a ∈ objs, ∀ b ∈ objs, a ≠ b → getObjUniqueStrDesc a ≠ getObjUniqueStrDesc b
  noHeader : ∀ a ∈ objs, ∀ h : Header, getObjUniqueStrDesc a ≠ h.toString

lemma HeaderObjects.eq_of_sameKey {objs : Set GHObject} (h : HeaderObjects objs) {a b : GHObject}
    (ha : a ∈ objs) (hb : b ∈ objs) (hsame : SameKey GHObject.lt a b) : a = b := by
  by_contra hne
  exact GHObject.not_sameKey (h.differ a ha b hb hne) hsame

lemma Header.toString_injective : Function.Injective Header.toString := by
  intro a b h
  have hkey := decimal_injective (List.append_cancel_left h)
  exact congrArg Header.mk (UInt32.toNat_inj.1 hkey)

lemma Header.toString_ne_count (h : Header) : h.toString ≠ lit "header_count" := by
  intro heq
  have hsecond : h.toString[1]? = some 95 := rfl
  rw [heq] at hsecond
  exact absurd hsecond (by decide)

lemma desc_ne_count (gh : GHObject) : getObjUniqueStrDesc gh ≠ lit "header_count" := by
  intro heq
  obtain ⟨b,hb,-,hle⟩ := getLast?_append_signedDecimal (gh.owner ++
    signedDecimal gh.hobj.pool.toInt ++ gh.hobj.oid.name ++
    signedDecimal gh.hobj.snap.timeStamp.toInt ++ signedDecimal gh.generation.toInt)
    gh.shardId.id.toInt
  have hlast : (lit "header_count").getLast? = some b := heq ▸ hb
  obtain rfl : (116 : UInt8) = b := Option.some.inj hlast
  exact absurd hle (by decide)

section records
variable (db : Database) {gh : GHObject} (hfree : ∀ h : Header, getObjUniqueStrDesc gh ≠ h.toString)
  (h h' : Header)
include hfree

/-- The two records of a pair, as the strings of headers see them. -/
lemma find_toString_insert :
    ((db.insert (getObjUniqueStrDesc gh) h.toString).insert h.toString
      (getObjUniqueStrDesc gh)).find h'.toString =
        if h' = h then some (getObjUniqueStrDesc gh) else db.find h'.toString := by
  rw [OrderedMap.find_insert,OrderedMap.find_insert,if_neg (hfree h').symm]
  simp only [Header.toString_injective.eq_iff]

lemma find_toString_erase :
    ((db.erase (getObjUniqueStrDesc gh)).erase h.toString).find h'.toString =
      if h' = h then none else db.find h'.toString := by
  rw [OrderedMap.find_erase,OrderedMap.find_erase,if_neg (hfree h').symm]
  simp only [Header.toString_injective.eq_iff]

end records

section records
variable (db : Database) {objs : Set GHObject} (hobjs : HeaderObjects objs) {gh g : GHObject}
  (hgh : gh ∈ objs) (h h' : Header)

/-- The two records of a pair, as the others see them. -/
lemma find_count_insert : ((db.insert (getObjUniqueStrDesc gh) h.toString).insert h.toString
    (getObjUniqueStrDesc gh)).find (lit "header_count") = db.find (lit "header_count") := by
  rw [OrderedMap.find_insert,if_neg h.toString_ne_count.symm,OrderedMap.find_insert,
    if_neg (desc_ne_count gh).symm]

lemma find_count_erase : ((db.erase (getObjUniqueStrDesc gh)).erase h.toString).find
    (lit "header_count") = db.find (lit "header_count") := by
  rw [OrderedMap.find_erase,if_neg h.toString_ne_count.symm,OrderedMap.find_erase,
    if_neg (desc_ne_count gh).symm]

include hobjs hgh

lemma HeaderObjects.desc_eq_iff (hg : g ∈ objs) :
    getObjUniqueStrDesc g = getObjUniqueStrDesc gh ↔ g = gh := by
  constructor
  · intro heq
    by_contra hne
    exact hobjs.apart g hg gh hgh hne heq
  · rintro rfl
    rfl

lemma HeaderObjects.find_desc_insert (hg : g ∈ objs) :
    ((db.insert (getObjUniqueStrDesc gh) h.toString).insert h.toString
      (getObjUniqueStrDesc gh)).find (getObjUniqueStrDesc g) =
        if g = gh then some h.toString else db.find (getObjUniqueStrDesc g) := by
  rw [OrderedMap.find_insert,if_neg (hobjs.noHeader g hg h),OrderedMap.find_insert]
  simp only [hobjs.desc_eq_iff hgh hg]

lemma HeaderObjects.find_desc_erase (hg : g ∈ objs) :
    ((db.erase (getObjUniqueStrDesc gh)).erase h.toString).find (getObjUniqueStrDesc g) =
      if g = gh then none else db.find (getObjUniqueStrDesc g) := by
  rw [OrderedMap.find_erase,if_neg (hobjs.noHeader g hg h),OrderedMap.find_erase]
  simp only [hobjs.desc_eq_iff hgh hg]

end records

lemma stoull_decimal {n : ℕ} (h : n < 2^64) : stoull (decimal n) = some (UInt64.ofNat n) := by
  obtain ⟨d,rest,hd⟩ := List.exists_cons_of_ne_nil (decimal_ne_nil n)
  obtain ⟨hlow,hhigh⟩ := digit_of_mem_decimal (n := n) (b := d) (hd ▸ List.mem_cons_self)
  rw [UInt8.le_iff_toNat_le] at hlow hhigh
  have hdrop : (decimal n).dropWhile (fun b => b = 32 ∨ 9 ≤ b ∧ b ≤ 13) = decimal n := by
    rw [hd,List.dropWhile_cons_of_neg]
    simp only [← UInt8.toNat_inj,UInt8.le_iff_toNat_le,decide_eq_true_iff]
    simp only [UInt8.reduceToNat] at hlow ⊢
    omega
  have hsign : ∀ b : UInt8, b.toNat < 48 → (decimal n).head? ≠ some b := by
    intro b hb heq
    rw [hd] at heq
    obtain rfl := Option.some.inj heq
    exact absurd hlow (by simpa using hb)
  have hdigits : (decimal n).takeWhile (fun b => 48 ≤ b ∧ b ≤ 57) = decimal n := by
    rw [List.takeWhile_eq_self_iff]
    intro b hb
    exact decide_eq_true (digit_of_mem_decimal hb)
  simp only [stoull,hdrop,hsign 43 (by decide),hsign 45 (by decide),or_self,if_false,hdigits,
    decimal_ne_nil,ofDecimal_decimal,false_or,if_neg (Nat.not_le.2 h)]

namespace RocksKV

/-- Where `n` headers have been made, the next is the one after them, up to what an `int` can
count. -/
lemma getNewHeader_eq {kv : RocksKV} {n : ℕ} (hn : n < 2^31-1)
    (hcount : kv.db.find (lit "header_count") = if n = 0 then none else some (decimal (n+1))) :
    kv.getNewHeader = if n+1 < 2^31-1 then some (⟨UInt32.ofNat (n+1)⟩,
      { kv with db := kv.db.insert (lit "header_count") (decimal (n+2)) }) else none := by
  have hlimit : Int32.ofNat (n+1) = Int32.maxValue ↔ ¬n+1 < 2^31-1 := by
    rw [← Int32.toInt_inj,Int32Range.toInt_ofNat_of_lt (by omega)]
    have hmax : Int32.maxValue.toInt = 2^31-1 := rfl
    omega
  have hnext : n+1 < 2^31-1 → (Int32.ofNat (n+1)+1).toInt = ((n+2 : ℕ) : ℤ) := by
    intro hlt
    have hone : (1 : Int32).toInt = 1 := rfl
    rw [Int32Range.toInt_add_of_fits,Int32Range.toInt_ofNat_of_lt (by omega),hone]
    · omega
    · rw [Int32Range.toInt_ofNat_of_lt (by omega),hone]
      exact ⟨by omega,by omega⟩
  have hread : headerCount kv.db = some (Int32.ofNat (n+1)) := by
    rw [headerCount,hcount]
    by_cases hzero : n = 0
    · subst hzero
      rfl
    · rw [if_neg hzero]
      simp only [stoull_decimal (n := n+1) (by omega),Option.map_some,UInt64.toUInt32_ofNat']
      rfl
  rw [getNewHeader,hread]
  simp only [Option.bind_eq_bind,Option.bind_some,hlimit]
  by_cases hlt : n+1 < 2^31-1
  · rw [if_neg (by omega),if_pos hlt,hnext hlt,signedDecimal_natCast]
    rfl
  · rw [if_pos hlt,if_neg hlt]

/-- `GetHeader` of an object without an entry or record, where `n` headers have been made. -/
lemma getHeader_fresh {kv kv' : RocksKV} {n : ℕ} {gh : GHObject} {h : Header} (hn : n < 2^31-1)
    (hcount : kv.db.find (lit "header_count") = if n = 0 then none else some (decimal (n+1)))
    (hcache : kv.objCacheHeader.find gh = none)
    (hrecord : kv.db.find (getObjUniqueStrDesc gh) = none)
    (hget : kv.getHeader gh = some (h,kv')) :
    n+1 < 2^31-1 ∧ h = ⟨UInt32.ofNat (n+1)⟩ ∧ kv' = {
      db := ((kv.db.insert (lit "header_count") (decimal (n+2))).insert
        (getObjUniqueStrDesc gh) h.toString).insert h.toString (getObjUniqueStrDesc gh)
      objCacheHeader := kv.objCacheHeader.insert gh h
      reverseObjCacheHeader := kv.reverseObjCacheHeader.insert h gh } := by
  simp only [getHeader,hcache,hrecord,getNewHeader_eq hn hcount] at hget
  split at hget
  · rename_i hlt
    obtain ⟨rfl,rfl⟩ := Prod.mk.inj (Option.some.inj hget)
    exact ⟨hlt,rfl,rfl⟩
  · cases hget

/-- A call with its result and the state it leaves. -/
def Does (kv : RocksKV) : HeaderEvent → RocksKV → Prop
  | .gotHeader gh h,kv' => kv.getHeader gh = some (h,kv')
  | .gotObj h gh,kv' => ∃ memory, kv.getObj memory h = some (gh,kv')
  | .erasedHeader gh,kv' => kv.eraseHeader gh = some kv'
  | .erasedObj h gh,kv' => kv.reverseObjCacheHeader.find h = some gh ∧ kv.eraseObj h = some kv'
  | .restarted,kv' => kv' = kv.restart

/-- The call finds its answer in a cache, or there is no record to look it up in. -/
def Current (kv : RocksKV) : HeaderEvent → Prop
  | .gotHeader gh _ => (kv.objCacheHeader.find gh).isSome ∨
    kv.db.find (getObjUniqueStrDesc gh) = none
  | .gotObj h _ => (kv.reverseObjCacheHeader.find h).isSome ∨ kv.db.find h.toString = none
  | _ => True

/-- The two caches are each other's inverses. -/
def Inverse (kv : RocksKV) : Prop :=
  ∀ gh h, (gh,h) ∈ kv.objCacheHeader.entries ↔ (h,gh) ∈ kv.reverseObjCacheHeader.entries

namespace Inverse
variable {kv : RocksKV} {gh g : GHObject} {h head : Header}

lemma find_obj_iff (hi : kv.Inverse) :
    kv.reverseObjCacheHeader.find h = some gh ↔ (gh,h) ∈ kv.objCacheHeader.entries := by
  rw [OrderedMap.find_eq_some_iff,hi]
  constructor
  · rintro ⟨h',hm,hsame⟩
    rwa [← SameKey.iff_eq.1 hsame]
  · intro hm
    exact ⟨h,hm,.refl h⟩

/-- An object and its header are each other's keys. -/
lemma sameKey_iff (hi : kv.Inverse) (hcache : kv.objCacheHeader.find gh = some head)
    (hm : (g,h) ∈ kv.objCacheHeader.entries) :
    SameKey GHObject.lt g gh ↔ SameKey Header.lt h head := by
  obtain ⟨gh',hentry,hsame'⟩ := OrderedMap.find_eq_some_iff.1 hcache
  constructor
  · intro hsame
    have heq := hcache.symm.trans (OrderedMap.find_eq_some_iff.2 ⟨g,hm,hsame⟩)
    exact SameKey.iff_eq.2 (Option.some.inj heq).symm
  · intro hsame
    obtain rfl := SameKey.iff_eq.1 hsame
    have heq := (hi.find_obj_iff.2 hm).symm.trans (hi.find_obj_iff.2 hentry)
    rw [Option.some.inj heq]
    exact hsame'

lemma insert (hi : kv.Inverse) (hcache : kv.objCacheHeader.find gh = none)
    (hrev : kv.reverseObjCacheHeader.find h = none) (g : GHObject) (h' : Header) :
    (g,h') ∈ (kv.objCacheHeader.insert gh h).entries ↔
      (h',g) ∈ (kv.reverseObjCacheHeader.insert h gh).entries := by
  rw [OrderedMap.mem_insert_of_find_none hcache,OrderedMap.mem_insert_of_find_none hrev,hi,
    Prod.mk.injEq,Prod.mk.injEq,and_comm]

lemma erase (hi : kv.Inverse) (hcache : kv.objCacheHeader.find gh = some head) (g : GHObject)
    (h : Header) : (g,h) ∈ (kv.objCacheHeader.erase gh).entries ↔
      (h,g) ∈ (kv.reverseObjCacheHeader.erase head).entries := by
  rw [OrderedMap.mem_erase_iff,OrderedMap.mem_erase_iff,← hi]
  exact and_congr_right (fun hm => not_congr (hi.sameKey_iff hcache hm))

/-- With the entry of a header its object is erased. -/
lemma eraseObj_eq (hi : kv.Inverse) (hfind : kv.reverseObjCacheHeader.find h = some gh) :
    kv.eraseObj h = kv.eraseHeader gh := by
  have hfind' := OrderedMap.find_eq_some_iff.2 ⟨gh,hi.find_obj_iff.1 hfind,SameKey.refl gh⟩
  simp [RocksKV.eraseObj,RocksKV.eraseHeader,hfind,hfind']

end Inverse

/-- The records are those of the numbers in use; the caches hold some of them, both ways. -/
structure Numbers (objs : Set GHObject) (kv : RocksKV) (r : Registry GHObject Header) : Prop where
  used : ∀ {gh h}, r.numberOf gh = some h → gh ∈ objs
  well : r.WellNumbered
  made : ∀ h ∈ r.made, h.key.toNat ≤ r.made.length
  bound : r.made.length < 2^31-1
  count : kv.db.find (lit "header_count") =
    if r.made.length = 0 then none else some (decimal (r.made.length+1))
  objRecord : ∀ gh ∈ objs, kv.db.find (getObjUniqueStrDesc gh) =
    (r.numberOf gh).map Header.toString
  headerRecord : ∀ gh h, r.numberOf gh = some h →
    kv.db.find h.toString = some (getObjUniqueStrDesc gh)
  noRecord : ∀ h, (∀ gh, r.numberOf gh ≠ some h) → kv.db.find h.toString = none
  cached : ∀ {gh h}, (gh,h) ∈ kv.objCacheHeader.entries → r.numberOf gh = some h
  inverse : ∀ {gh h}, (gh,h) ∈ kv.objCacheHeader.entries ↔
    (h,gh) ∈ kv.reverseObjCacheHeader.entries

/-- Every number in use is in the caches. -/
def AllCached (kv : RocksKV) (r : Registry GHObject Header) : Prop :=
  ∀ gh h, r.numberOf gh = some h → (gh,h) ∈ kv.objCacheHeader.entries

namespace Numbers
variable {objs : Set GHObject} {kv kv' : RocksKV} {r : Registry GHObject Header} {gh : GHObject}
  {h : Header}

lemma start (objs : Set GHObject) : Numbers objs {} Registry.start where
  used := nofun
  well := Registry.start_wellNumbered
  made := nofun
  bound := by decide
  count := rfl
  objRecord _ _ := rfl
  headerRecord := nofun
  noRecord _ _ := rfl
  cached := nofun
  inverse := ⟨nofun,nofun⟩

lemma find_header_iff (hn : Numbers objs kv r) (hobjs : HeaderObjects objs) (hgh : gh ∈ objs) :
    kv.objCacheHeader.find gh = some h ↔ (gh,h) ∈ kv.objCacheHeader.entries := by
  rw [OrderedMap.find_eq_some_iff]
  constructor
  · rintro ⟨gh',hm,hsame⟩
    obtain rfl := hobjs.eq_of_sameKey (hn.used (hn.cached hm)) hgh hsame
    exact hm
  · intro hm
    exact ⟨gh,hm,.refl gh⟩

lemma caches (hn : Numbers objs kv r) : kv.Inverse := fun _ _ => hn.inverse

/-- The number after all that are made. -/
lemma next_notMem (hn : Numbers objs kv r) : ⟨UInt32.ofNat (r.made.length+1)⟩ ∉ r.made := by
  intro hm
  have hle := hn.made _ hm
  have hbound := hn.bound
  have hkey : (UInt32.ofNat (r.made.length+1)).toNat = r.made.length+1 := by
    rw [UInt32.toNat_ofNat',Nat.mod_eq_of_lt (by omega)]
  simp only [hkey] at hle
  omega

/-- A call that makes a new number. -/
lemma fresh (hn : Numbers objs kv r) (hobjs : HeaderObjects objs) (hgh : gh ∈ objs)
    (hcache : kv.objCacheHeader.find gh = none)
    (hrecord : kv.db.find (getObjUniqueStrDesc gh) = none)
    (hget : kv.getHeader gh = some (h,kv')) :
    ∃ r', Registry.Step r (.number gh h) r' ∧ Numbers objs kv' r' ∧
      (AllCached kv r → AllCached kv' r') := by
  have hnew := hn.next_notMem
  have hnone : r.numberOf gh = none := by
    have hobj := hn.objRecord gh hgh
    rw [hrecord] at hobj
    exact Option.map_eq_none_iff.1 hobj.symm
  obtain ⟨hlt,hnext,rfl⟩ := getHeader_fresh hn.bound hn.count hcache hrecord hget
  rw [← hnext] at hnew
  have hlive : ∀ {g h'}, r.numberOf g = some h' → h' ≠ h := by
    rintro g h' hg rfl
    exact hnew (hn.well.made hg)
  have hrev : kv.reverseObjCacheHeader.find h = none := by
    rw [Option.eq_none_iff_forall_ne_some]
    intro g hg
    exact hlive (hn.cached (hn.caches.find_obj_iff.1 hg)) rfl
  have hstep : Registry.Step r (.number gh h)
      ⟨Function.update r.numberOf gh (some h),h::r.made⟩ := .fresh hnone hnew
  refine ⟨_,hstep,?_,?_⟩
  · constructor
    case used =>
      intro g h' hg
      rcases Registry.of_update_some hg with ⟨rfl,-⟩ | ⟨-,hold⟩
      · exact hgh
      · exact hn.used hold
    case well => exact hstep.wellNumbered hn.well
    case made =>
      intro h' hm
      rcases List.mem_cons.1 hm with rfl | hm
      · rw [hnext]
        exact (UInt32.toNat_ofNat').trans_le (Nat.mod_le _ _)
      · exact (hn.made h' hm).trans (Nat.le_succ _)
    case bound => exact hlt
    case count =>
      rw [find_count_insert,OrderedMap.find_insert,if_pos rfl]
      rfl
    case objRecord =>
      intro g hg
      have hnumber : Function.update r.numberOf gh (some h) g =
          if g = gh then some h else r.numberOf g := Function.update_apply ..
      refine Eq.trans ?_ (congrArg (Option.map Header.toString) hnumber).symm
      rw [hobjs.find_desc_insert _ hgh _ hg,OrderedMap.find_insert,if_neg (desc_ne_count g),
        hn.objRecord g hg]
      split_ifs <;> rfl
    case headerRecord =>
      intro g h' hg
      rw [find_toString_insert _ (hobjs.noHeader gh hgh),OrderedMap.find_insert,if_neg h'.toString_ne_count]
      rcases Registry.of_update_some hg with ⟨rfl,rfl⟩ | ⟨-,hold⟩
      · rw [if_pos rfl]
      · rw [if_neg (hlive hold),hn.headerRecord g h' hold]
    case noRecord =>
      intro h' hfree
      have hne : h' ≠ h := by
        rintro rfl
        exact hfree gh (Function.update_self ..)
      rw [find_toString_insert _ (hobjs.noHeader gh hgh),if_neg hne,OrderedMap.find_insert,
        if_neg h'.toString_ne_count]
      apply hn.noRecord h'
      intro g hg
      by_cases heq : g = gh
      · rw [heq,hnone] at hg
        cases hg
      · exact hfree g ((Function.update_of_ne heq ..).trans hg)
    case cached =>
      intro g h' hm
      rcases (OrderedMap.mem_insert_of_find_none hcache).1 hm with heq | hm
      · obtain ⟨rfl,rfl⟩ := Prod.mk.inj heq
        exact Function.update_self ..
      · exact hstep.keeps (hn.cached hm) nofun
    case inverse => exact hn.caches.insert hcache hrev _ _
  · intro hall g h' hg
    rw [OrderedMap.mem_insert_of_find_none hcache]
    rcases Registry.of_update_some hg with ⟨rfl,rfl⟩ | ⟨-,hold⟩
    · exact .inl rfl
    · exact .inr (hall g h' hold)

lemma eraseHeader (hn : Numbers objs kv r) (hobjs : HeaderObjects objs) (hgh : gh ∈ objs)
    (herase : kv.eraseHeader gh = some kv') :
    ∃ r', Registry.Step r (.forget gh) r' ∧ Numbers objs kv' r' ∧
      (AllCached kv r → AllCached kv' r') := by
  obtain ⟨head,hcache,hkv⟩ := Option.bind_eq_some_iff.1 herase
  obtain rfl := Option.some.inj hkv
  have hnumber := hn.cached ((hn.find_header_iff hobjs hgh).1 hcache)
  have hstep : Registry.Step r (.forget gh) ⟨Function.update r.numberOf gh none,r.made⟩ := .forget
  have hother : ∀ {g h'}, r.numberOf g = some h' → (h' = head ↔ g = gh) := by
    intro g h' hg
    constructor
    · rintro rfl
      exact hn.well.injective hg hnumber
    · rintro rfl
      exact Option.some.inj (hg.symm.trans hnumber)
  refine ⟨_,hstep,?_,?_⟩
  · constructor
    case used => exact fun hg => hn.used (Registry.of_update_none hg).2
    case well => exact hstep.wellNumbered hn.well
    case made => exact hn.made
    case bound => exact hn.bound
    case count => rw [find_count_erase,hn.count]
    case objRecord =>
      intro g hg
      have hnumber : Function.update r.numberOf gh none g =
          if g = gh then none else r.numberOf g := Function.update_apply ..
      refine Eq.trans ?_ (congrArg (Option.map Header.toString) hnumber).symm
      rw [hobjs.find_desc_erase _ hgh _ hg,hn.objRecord g hg]
      split_ifs <;> rfl
    case headerRecord =>
      intro g h' hg
      obtain ⟨hne,hold⟩ := Registry.of_update_none hg
      rw [find_toString_erase _ (hobjs.noHeader gh hgh),if_neg (fun heq => hne ((hother hold).1 heq)),
        hn.headerRecord g h' hold]
    case noRecord =>
      intro h' hfree
      rw [find_toString_erase _ (hobjs.noHeader gh hgh)]
      split_ifs with heq
      · rfl
      · apply hn.noRecord h'
        intro g hg
        exact hfree g ((Function.update_of_ne (fun h => heq ((hother hg).2 h)) ..).trans hg)
    case cached =>
      intro g h' hm
      obtain ⟨hold,hne⟩ := OrderedMap.mem_erase_iff.1 hm
      apply hstep.keeps (hn.cached hold)
      intro heq
      obtain rfl := Registry.Event.forget.inj heq
      exact hne (.refl _)
    case inverse => exact hn.caches.erase hcache _ _
  · intro hall g h' hg
    obtain ⟨hne,hold⟩ := Registry.of_update_none hg
    exact OrderedMap.mem_erase_iff.2 ⟨hall g h' hold,
      fun hsame => hne (hobjs.eq_of_sameKey (hn.used hold) hgh hsame)⟩

/-- Every operation that is current is a step of the registry. -/
theorem step {e : HeaderEvent} (hn : Numbers objs kv r) (hobjs : HeaderObjects objs)
    (huses : e.Uses objs) (hcurrent : kv.Current e) (hdoes : kv.Does e kv') :
    ∃ r', Registry.Step r e.number r' ∧ Numbers objs kv' r' ∧
      (e ≠ .restarted → AllCached kv r → AllCached kv' r') := by
  cases e with
  | gotHeader gh h =>
    cases hcache : kv.objCacheHeader.find gh with
    | some h' =>
      have hget : kv.getHeader gh = some (h',kv) := by rw [getHeader,hcache]
      obtain ⟨rfl,rfl⟩ := Prod.mk.inj (Option.some.inj (hget.symm.trans hdoes))
      have hnumber := hn.cached ((hn.find_header_iff hobjs huses).1 hcache)
      exact ⟨r,.known hnumber,hn,fun _ => id⟩
    | none =>
      have hrecord := hcurrent.resolve_left (by simp [hcache])
      obtain ⟨r',hs,hn',hall⟩ := hn.fresh hobjs huses hcache hrecord hdoes
      exact ⟨r',hs,hn',fun _ => hall⟩
  | gotObj h gh =>
    obtain ⟨memory,hget⟩ := hdoes
    cases hcache : kv.reverseObjCacheHeader.find h with
    | some gh' =>
      have hsame : kv.getObj memory h = some (gh',kv) := by rw [getObj,hcache]
      obtain ⟨rfl,rfl⟩ := Prod.mk.inj (Option.some.inj (hsame.symm.trans hget))
      have hnumber := hn.cached (hn.caches.find_obj_iff.1 hcache)
      exact ⟨r,.name (fun g hg => hn.well.injective hg hnumber),hn,fun _ => id⟩
    | none =>
      have hrecord := hcurrent.resolve_left (by simp [hcache])
      have hsame : kv.getObj memory h = some ({},kv) := by rw [getObj,hcache,hrecord]
      obtain ⟨rfl,rfl⟩ := Prod.mk.inj (Option.some.inj (hsame.symm.trans hget))
      refine ⟨r,.name ?_,hn,fun _ => id⟩
      intro g hg
      cases (hn.headerRecord g h hg).symm.trans hrecord
  | erasedHeader gh =>
    obtain ⟨r',hs,hn',hall⟩ := hn.eraseHeader hobjs huses hdoes
    exact ⟨r',hs,hn',fun _ => hall⟩
  | erasedObj h gh =>
    obtain ⟨hfind,herase⟩ := hdoes
    rw [hn.caches.eraseObj_eq hfind] at herase
    have hgh := hn.used (hn.cached (hn.caches.find_obj_iff.1 hfind))
    obtain ⟨r',hs,hn',hall⟩ := hn.eraseHeader hobjs hgh herase
    exact ⟨r',hs,hn',fun _ => hall⟩
  | restarted =>
    obtain rfl := hdoes
    have hempty : Numbers objs kv.restart r := { hn with
      cached := fun hm => absurd hm List.not_mem_nil
      inverse := ⟨fun hm => absurd hm List.not_mem_nil,fun hm => absurd hm List.not_mem_nil⟩ }
    exact ⟨r,.idle,hempty,fun h => absurd rfl h⟩

end Numbers
end RocksKV
end GDFileStore
