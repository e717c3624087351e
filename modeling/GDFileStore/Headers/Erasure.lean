import GDFileStore.Headers.Restarts

/-! What `EraseHeader` and `EraseObj` leave of an object, in every state that a run can reach whose
calls decode no record. -/
namespace GDFileStore
open Sequences Program

/-- Among the objects, those with the name and generation of `gh` are those with its unique
string. -/
def ToldApart (objs : Set GHObject) (gh : GHObject) : Prop :=
  ∀ g ∈ objs, SameKey GHObject.lt g gh ↔ getObjUniqueStrDesc g = getObjUniqueStrDesc gh

/-- The unique string has not the form of a header's string. -/
def HeaderFree (gh : GHObject) : Prop := ∀ h : Header, getObjUniqueStrDesc gh ≠ h.toString

/-- An object that differs in name or generation and in the unique string. -/
def Other (g gh : GHObject) : Prop :=
  ¬SameKey GHObject.lt g gh ∧ getObjUniqueStrDesc g ≠ getObjUniqueStrDesc gh

namespace RocksKV

/-- A cache or a record puts the object and the header together. -/
def Pairs (kv : RocksKV) (gh : GHObject) (h : Header) : Prop :=
  kv.objCacheHeader.find gh = some h ∨
    (∃ g, kv.reverseObjCacheHeader.find h = some g ∧ SameKey GHObject.lt g gh) ∨
    kv.db.find (getObjUniqueStrDesc gh) = some h.toString ∨
    kv.db.find h.toString = some (getObjUniqueStrDesc gh)

/-- Nothing is left of the object and its headers, and nothing else has changed. -/
structure Erased (kv kv' : RocksKV) (gh : GHObject) : Prop where
  cache : kv'.objCacheHeader.find gh = none
  record : kv'.db.find (getObjUniqueStrDesc gh) = none
  headers : ∀ h, kv.Pairs gh h →
    kv'.reverseObjCacheHeader.find h = none ∧ kv'.db.find h.toString = none
  others : ∀ g, Other g gh → kv'.objCacheHeader.find g = kv.objCacheHeader.find g ∧
    kv'.db.find (getObjUniqueStrDesc g) = kv.db.find (getObjUniqueStrDesc g) ∧
    ∀ h, kv.Pairs g h → kv'.reverseObjCacheHeader.find h = kv.reverseObjCacheHeader.find h ∧
      kv'.db.find h.toString = kv.db.find h.toString

/-- `EraseHeader` of the object has a defined outcome, and erases it. -/
def ErasesHeader (kv : RocksKV) (gh : GHObject) : Prop :=
  ∃ kv', kv.eraseHeader gh = some kv' ∧ Erased kv kv' gh

/-- The object of a header: the one in the cache, or else one that the record names. -/
def ObjectOf (kv : RocksKV) (h : Header) (gh : GHObject) : Prop :=
  kv.reverseObjCacheHeader.find h = some gh ∨
    kv.reverseObjCacheHeader.find h = none ∧
      kv.db.find h.toString = some (getObjUniqueStrDesc gh)

/-- `EraseObj` of the header has a defined outcome, and erases the header and its object. -/
def ErasesObj (kv : RocksKV) (h : Header) : Prop :=
  ∃ kv', kv.eraseObj h = some kv' ∧ kv'.reverseObjCacheHeader.find h = none ∧
    kv'.db.find h.toString = none ∧ ∀ gh, kv.ObjectOf h gh → Erased kv kv' gh

/-- What holds of the caches and the records whatever objects are used, where `n` headers have been
made. -/
structure Made (objs : Set GHObject) (kv : RocksKV) (n : ℕ) : Prop where
  bound : n < 2^31-1
  count : kv.db.find (lit "header_count") = if n = 0 then none else some (decimal (n+1))
  inverse : ∀ {g h}, (g,h) ∈ kv.objCacheHeader.entries ↔ (h,g) ∈ kv.reverseObjCacheHeader.entries
  used : ∀ {g h}, (g,h) ∈ kv.objCacheHeader.entries → g ∈ objs ∧ h.key.toNat ≤ n
  unmade : ∀ h : Header, n < h.key.toNat → kv.db.find h.toString = none
  named : ∀ k (h : Header), kv.db.find k = some h.toString → h.key.toNat ≤ n

/-- The header that an object has, if any: no record or entry of another object has to do with
it. -/
structure Tracks (gh : GHObject) (kv : RocksKV) (number : Option Header) : Prop where
  record : kv.db.find (getObjUniqueStrDesc gh) = number.map Header.toString
  headerRecord : ∀ h : Header,
    kv.db.find h.toString = some (getObjUniqueStrDesc gh) ↔ number = some h
  own : ∀ k h, number = some h → kv.db.find k = some h.toString → k = getObjUniqueStrDesc gh
  cached : ∀ {g h}, (g,h) ∈ kv.objCacheHeader.entries →
    (SameKey GHObject.lt g gh ↔ number = some h)

/-- No decimal numeral is the string of a header. -/
lemma decimal_ne_toString (m : ℕ) (h : Header) : decimal m ≠ h.toString := by
  intro heq
  have hm : (104 : UInt8) ∈ decimal m := heq ▸ List.mem_cons_self
  exact absurd (digit_of_mem_decimal hm).2 (by decide)

section find
variable (db : Database) (gh : GHObject) (h : Header) (count k : Bytes)

/-- The records that `GetHeader` writes for a new header. -/
lemma find_new : (((db.insert (lit "header_count") count).insert (getObjUniqueStrDesc gh)
    h.toString).insert h.toString (getObjUniqueStrDesc gh)).find k =
      if k = h.toString then some (getObjUniqueStrDesc gh)
      else if k = getObjUniqueStrDesc gh then some h.toString
      else if k = lit "header_count" then some count else db.find k := by
  rw [OrderedMap.find_insert,OrderedMap.find_insert,OrderedMap.find_insert]

/-- The records that an erasure removes. -/
lemma find_erased : ((db.erase (getObjUniqueStrDesc gh)).erase h.toString).find k =
    if k = h.toString then none else if k = getObjUniqueStrDesc gh then none else db.find k := by
  rw [OrderedMap.find_erase,OrderedMap.find_erase]

variable {db gh h k} in
lemma find_of_find_erased {s : Bytes}
    (hk : ((db.erase (getObjUniqueStrDesc gh)).erase h.toString).find k = some s) :
    db.find k = some s := by
  rw [find_erased] at hk
  split_ifs at hk
  exact hk

end find

namespace Made
variable {objs : Set GHObject} {gh g : GHObject} {kv kv' : RocksKV} {n : ℕ} {h : Header}

lemma start (objs : Set GHObject) : Made objs {} 0 where
  bound := by decide
  count := rfl
  inverse := ⟨nofun,nofun⟩
  used := nofun
  unmade _ _ := rfl
  named := nofun

lemma caches (hm : Made objs kv n) : kv.Inverse := fun _ _ => hm.inverse

/-- A new header has the next number. -/
lemma new (hm : Made objs kv n) (hcache : kv.objCacheHeader.find g = none)
    (hrecord : kv.db.find (getObjUniqueStrDesc g) = none)
    (hget : kv.getHeader g = some (h,kv')) : n+1 < 2^31-1 ∧ h.key.toNat = n+1 ∧ kv' = {
      db := ((kv.db.insert (lit "header_count") (decimal (n+2))).insert
        (getObjUniqueStrDesc g) h.toString).insert h.toString (getObjUniqueStrDesc g)
      objCacheHeader := kv.objCacheHeader.insert g h
      reverseObjCacheHeader := kv.reverseObjCacheHeader.insert h g } := by
  obtain ⟨hlt,hnext,hkv⟩ := getHeader_fresh hm.bound hm.count hcache hrecord hget
  refine ⟨hlt,?_,hkv⟩
  rw [hnext]
  exact (UInt32.toNat_ofNat').trans (Nat.mod_eq_of_lt (by omega))

lemma fresh (hm : Made objs kv n) (hfree : HeaderFree g)
    (hg : g ∈ objs) (hcache : kv.objCacheHeader.find g = none)
    (hrecord : kv.db.find (getObjUniqueStrDesc g) = none)
    (hget : kv.getHeader g = some (h,kv')) : Made objs kv' (n+1) := by
  obtain ⟨hlt,hkey,rfl⟩ := hm.new hcache hrecord hget
  have hrev : kv.reverseObjCacheHeader.find h = none := by
    rw [Option.eq_none_iff_forall_ne_some]
    intro g' hg'
    have hle := (hm.used (hm.caches.find_obj_iff.1 hg')).2
    omega
  constructor
  case bound => exact hlt
  case count =>
    rw [find_new,if_neg h.toString_ne_count.symm,if_neg (desc_ne_count g).symm,if_pos rfl]
    rfl
  case inverse => exact hm.caches.insert hcache hrev _ _
  case used =>
    intro g' h' hmem
    rcases (OrderedMap.mem_insert_of_find_none hcache).1 hmem with heq | hmem
    · obtain ⟨rfl,rfl⟩ := Prod.mk.inj heq
      exact ⟨hg,hkey.le⟩
    · obtain ⟨hg',hle⟩ := hm.used hmem
      exact ⟨hg',hle.trans (Nat.le_succ n)⟩
  case unmade =>
    intro h' hgt
    have hne : h' ≠ h := by
      rintro rfl
      omega
    rw [find_toString_insert _ hfree,if_neg hne,OrderedMap.find_insert,if_neg h'.toString_ne_count]
    exact hm.unmade h' (by omega)
  case named =>
    intro k h' hk
    rw [find_new] at hk
    split_ifs at hk
    · exact absurd (Option.some.inj hk) (hfree h')
    · rw [← Header.toString_injective (Option.some.inj hk),hkey]
    · exact absurd (Option.some.inj hk) (decimal_ne_toString _ h')
    · exact (hm.named k h' hk).trans (Nat.le_succ n)

lemma eraseHeader (hm : Made objs kv n) (hfree : HeaderFree g)
    (herase : kv.eraseHeader g = some kv') : Made objs kv' n := by
  obtain ⟨head,hcache,hkv⟩ := Option.bind_eq_some_iff.1 herase
  obtain rfl := Option.some.inj hkv
  constructor
  case bound => exact hm.bound
  case count => rw [find_count_erase,hm.count]
  case inverse => exact hm.caches.erase hcache _ _
  case used => exact fun hmem => hm.used (OrderedMap.mem_erase_iff.1 hmem).1
  case unmade =>
    intro h hgt
    rw [find_toString_erase _ hfree,hm.unmade h hgt,ite_self]
  case named => exact fun k h hk => hm.named k h (find_of_find_erased hk)

end Made

namespace Tracks
variable {objs : Set GHObject} {gh g : GHObject} {kv kv' : RocksKV} {number : Option Header}
  {n : ℕ} {h : Header}

lemma start (gh : GHObject) : Tracks gh {} none where
  record := rfl
  headerRecord _ := ⟨nofun,nofun⟩
  own := nofun
  cached := nofun

lemma le_made (ht : Tracks gh kv number) (hm : Made objs kv n) (hnumber : number = some h) :
    h.key.toNat ≤ n := by
  by_contra hgt
  have hnone := hm.unmade h (by omega)
  cases hnone.symm.trans ((ht.headerRecord h).2 hnumber)

/-- The object itself gets a header. -/
lemma fresh_self (ht : Tracks gh kv number) (hm : Made objs kv n)
    (hfree : HeaderFree gh)
    (hsame : SameKey GHObject.lt g gh) (hdesc : getObjUniqueStrDesc g = getObjUniqueStrDesc gh)
    (hcache : kv.objCacheHeader.find g = none)
    (hrecord : kv.db.find (getObjUniqueStrDesc g) = none)
    (hget : kv.getHeader g = some (h,kv')) : Tracks gh kv' (some h) := by
  obtain ⟨-,hkey,rfl⟩ := hm.new hcache hrecord hget
  rw [hdesc] at hrecord ⊢
  have hnone : number = none := Option.map_eq_none_iff.1 (ht.record.symm.trans hrecord)
  constructor
  case record => rw [find_new,if_neg (hfree h),if_pos rfl,Option.map_some]
  case headerRecord =>
    intro h'
    rw [find_toString_insert _ hfree,OrderedMap.find_insert,if_neg h'.toString_ne_count,
      Option.some_inj]
    split_ifs with heq
    · exact iff_of_true rfl heq.symm
    · rw [ht.headerRecord,hnone]
      exact iff_of_false (by simp) (Ne.symm heq)
  case own =>
    intro k h' hnumber hk
    obtain rfl := Option.some.inj hnumber
    rw [find_new] at hk
    split_ifs at hk with _ h2
    · exact absurd (Option.some.inj hk) (hfree h)
    · exact h2
    · exact absurd (Option.some.inj hk) (decimal_ne_toString _ h)
    · exact absurd (hm.named k h hk) (by omega)
  case cached =>
    intro g' h' hmem
    rcases (OrderedMap.mem_insert_of_find_none hcache).1 hmem with heq | hmem
    · obtain ⟨rfl,rfl⟩ := Prod.mk.inj heq
      exact iff_of_true hsame rfl
    · have hle := (hm.used hmem).2
      refine iff_of_false (fun hsame' => ?_) (fun heq => ?_)
      · have hentry := OrderedMap.find_eq_some_iff.2 ⟨g',hmem,hsame'.trans hsame.symm⟩
        cases hcache.symm.trans hentry
      · rw [← Option.some.inj heq] at hle
        omega

/-- Another object gets a header. -/
lemma fresh_other (ht : Tracks gh kv number) (hm : Made objs kv n)
    (hfree : HeaderFree gh)
    (hfree' : HeaderFree g) (hother : Other g gh)
    (hcache : kv.objCacheHeader.find g = none)
    (hrecord : kv.db.find (getObjUniqueStrDesc g) = none)
    (hget : kv.getHeader g = some (h,kv')) : Tracks gh kv' number := by
  obtain ⟨-,hkey,rfl⟩ := hm.new hcache hrecord hget
  have hnew : number ≠ some h := by
    intro hnumber
    have hle := ht.le_made hm hnumber
    omega
  constructor
  case record =>
    rw [find_new,if_neg (hfree h),if_neg hother.2.symm,if_neg (desc_ne_count gh),ht.record]
  case headerRecord =>
    intro h'
    rw [find_toString_insert _ hfree',OrderedMap.find_insert,if_neg h'.toString_ne_count]
    split_ifs with heq
    · rw [heq]
      exact iff_of_false (fun hdesc => hother.2 (Option.some.inj hdesc)) hnew
    · exact ht.headerRecord h'
  case own =>
    intro k h' hnumber hk
    rw [find_new] at hk
    split_ifs at hk
    · exact absurd (Option.some.inj hk) (hfree' h')
    · rw [Header.toString_injective (Option.some.inj hk)] at hnew
      exact absurd hnumber hnew
    · exact absurd (Option.some.inj hk) (decimal_ne_toString _ h')
    · exact ht.own k h' hnumber hk
  case cached =>
    intro g' h' hmem
    rcases (OrderedMap.mem_insert_of_find_none hcache).1 hmem with heq | hmem
    · obtain ⟨rfl,rfl⟩ := Prod.mk.inj heq
      exact iff_of_false hother.1 hnew
    · exact ht.cached hmem

/-- The header in the cache of an object is the tracked one exactly where the object is. -/
lemma find_header (ht : Tracks gh kv number) (hfind : kv.objCacheHeader.find g = some h) :
    SameKey GHObject.lt g gh ↔ number = some h := by
  obtain ⟨g',hmem,hsame⟩ := OrderedMap.find_eq_some_iff.1 hfind
  rw [← ht.cached hmem]
  exact ⟨hsame.trans,hsame.symm.trans⟩

/-- The object itself is erased. -/
lemma eraseHeader_self (ht : Tracks gh kv number)
    (hfree : HeaderFree gh)
    (hsame : SameKey GHObject.lt g gh) (hdesc : getObjUniqueStrDesc g = getObjUniqueStrDesc gh)
    (herase : kv.eraseHeader g = some kv') : Tracks gh kv' none := by
  obtain ⟨head,hcache,hkv⟩ := Option.bind_eq_some_iff.1 herase
  obtain rfl := Option.some.inj hkv
  have hnumber := (ht.find_header hcache).1 hsame
  rw [hdesc]
  constructor
  case record => rw [find_erased,if_neg (hfree head),if_pos rfl,Option.map_none]
  case headerRecord =>
    intro h
    rw [find_toString_erase _ hfree]
    split_ifs with heq
    · exact iff_of_false (by simp) (by simp)
    · rw [ht.headerRecord,hnumber]
      exact iff_of_false (fun h' => heq (Option.some.inj h').symm) (by simp)
  case own => simp
  case cached =>
    intro g' h hmem
    have hne := (OrderedMap.mem_erase_iff.1 hmem).2
    exact iff_of_false (fun hsame' => hne (hsame'.trans hsame.symm)) (by simp)

/-- Another object is erased. -/
lemma eraseHeader_other (ht : Tracks gh kv number)
    (hfree : HeaderFree gh)
    (hfree' : HeaderFree g) (hother : Other g gh)
    (herase : kv.eraseHeader g = some kv') : Tracks gh kv' number := by
  obtain ⟨head,hcache,hkv⟩ := Option.bind_eq_some_iff.1 herase
  obtain rfl := Option.some.inj hkv
  constructor
  case record => rw [find_erased,if_neg (hfree head),if_neg hother.2.symm,ht.record]
  case headerRecord =>
    intro h
    rw [find_toString_erase _ hfree']
    split_ifs with heq
    · rw [heq,← ht.find_header hcache]
      exact iff_of_false (by simp) hother.1
    · exact ht.headerRecord h
  case own => exact fun k h hnumber hk => ht.own k h hnumber (find_of_find_erased hk)
  case cached => exact fun hmem => ht.cached (OrderedMap.mem_erase_iff.1 hmem).1

/-- Whatever pairs the object with a header, it is the tracked one. -/
lemma number_of_pairs (ht : Tracks gh kv number) (hm : Made objs kv n) (hpairs : kv.Pairs gh h) :
    number = some h := by
  rcases hpairs with hcache | ⟨g,hrev,hsame⟩ | hrecord | hheader
  · exact (ht.find_header hcache).1 (.refl gh)
  · exact (ht.cached (hm.caches.find_obj_iff.1 hrev)).1 hsame
  · rw [ht.record] at hrecord
    obtain ⟨h',hnumber,htext⟩ := Option.map_eq_some_iff.1 hrecord
    rw [hnumber,Header.toString_injective htext]
  · exact (ht.headerRecord h).1 hheader

/-- Nothing pairs the tracked header with another object. -/
lemma not_pairs_other (ht : Tracks gh kv number) (hm : Made objs kv n) (hnumber : number = some h)
    (hother : Other g gh) : ¬kv.Pairs g h := by
  rintro (hcache | ⟨g',hrev,hsame⟩ | hrecord | hheader)
  · exact hother.1 ((ht.find_header hcache).2 hnumber)
  · exact hother.1 (hsame.symm.trans ((ht.cached (hm.caches.find_obj_iff.1 hrev)).2 hnumber))
  · exact hother.2 (ht.own _ h hnumber hrecord)
  · exact hother.2 (Option.some.inj (hheader.symm.trans ((ht.headerRecord h).2 hnumber)))

/-- `EraseHeader` erases exactly an object that is in the cache, unless the string of its header is
also the unique string of another object. -/
theorem erasesHeader_iff (ht : Tracks gh kv number) (hm : Made objs kv n) (hfree : HeaderFree gh) :
    kv.ErasesHeader gh ↔ ∃ head, kv.objCacheHeader.find gh = some head ∧
      ∀ g, ¬SameKey GHObject.lt g gh → getObjUniqueStrDesc g ≠ head.toString := by
  constructor
  · rintro ⟨kv',herase,hall⟩
    obtain ⟨head,hcache,hkv⟩ := Option.bind_eq_some_iff.1 herase
    refine ⟨head,hcache,?_⟩
    intro g hne hdesc
    have hnumber := (ht.find_header hcache).1 (.refl gh)
    have hother : Other g gh := ⟨hne,fun heq => hfree head (heq.symm.trans hdesc)⟩
    obtain ⟨-,hkept,-⟩ := hall.others g hother
    have hgone : kv'.db.find head.toString = none := (hall.headers head (.inl hcache)).2
    rw [hdesc,hgone,(ht.headerRecord head).2 hnumber] at hkept
    cases hkept
  · rintro ⟨head,hcache,hfreeHead⟩
    have hnumber := (ht.find_header hcache).1 (.refl gh)
    have herase : kv.eraseHeader gh = some {
        db := (kv.db.erase (getObjUniqueStrDesc gh)).erase head.toString
        objCacheHeader := kv.objCacheHeader.erase gh
        reverseObjCacheHeader := kv.reverseObjCacheHeader.erase head } := by
      rw [RocksKV.eraseHeader,hcache]
      rfl
    refine ⟨_,herase,?_⟩
    constructor
    case cache => exact OrderedMap.find_erase_same (.refl gh)
    case record => rw [find_erased,if_pos rfl,ite_self]
    case headers =>
      intro h hpairs
      obtain rfl := Option.some.inj (hnumber.symm.trans (ht.number_of_pairs hm hpairs))
      exact ⟨OrderedMap.find_erase_same (.refl head),by rw [find_erased,if_pos rfl]⟩
    case others =>
      intro g hother
      refine ⟨OrderedMap.find_erase_ne (fun hsame => hother.1 hsame.symm),?_,?_⟩
      · rw [find_erased,if_neg (hfreeHead g hother.1),if_neg hother.2]
      · intro h hpairs
        have hne : h ≠ head := by
          rintro rfl
          exact ht.not_pairs_other hm hnumber hother hpairs
        refine ⟨OrderedMap.find_erase_ne (fun hsame => hne (SameKey.iff_eq.1 hsame).symm),?_⟩
        rw [find_toString_erase _ hfree,if_neg hne]

/-- `EraseObj` does so of a header that is in the cache. -/
theorem erasesObj_iff (ht : Tracks gh kv number) (hm : Made objs kv n) (hfree : HeaderFree gh)
    (hfind : kv.reverseObjCacheHeader.find h = some gh) :
    kv.ErasesObj h ↔ ∀ g, ¬SameKey GHObject.lt g gh → getObjUniqueStrDesc g ≠ h.toString := by
  have hcache : kv.objCacheHeader.find gh = some h :=
    OrderedMap.find_eq_some_iff.2 ⟨gh,hm.caches.find_obj_iff.1 hfind,.refl gh⟩
  have hobject : ∀ {g}, kv.ObjectOf h g → g = gh := by
    rintro g (hg | ⟨hnone,-⟩)
    · exact Option.some.inj (hg.symm.trans hfind)
    · cases hnone.symm.trans hfind
  have hheader := ht.erasesHeader_iff hm hfree
  constructor
  · rintro ⟨kv',herase,-,-,hall⟩
    rw [hm.caches.eraseObj_eq hfind] at herase
    obtain ⟨head,hcache',hfreeHead⟩ := hheader.1 ⟨kv',herase,hall gh (.inl hfind)⟩
    obtain rfl := Option.some.inj (hcache.symm.trans hcache')
    exact hfreeHead
  · intro hfreeHead
    obtain ⟨kv',herase,hall⟩ := hheader.2 ⟨h,hcache,hfreeHead⟩
    obtain ⟨hrev,hdb⟩ := hall.headers h (.inl hcache)
    refine ⟨kv',(hm.caches.eraseObj_eq hfind).trans herase,hrev,hdb,?_⟩
    intro g hg
    rwa [hobject hg]

end Tracks

section run
variable {objs : Set GHObject} {gh : GHObject} {kv kv' : RocksKV} {n : ℕ}

/-- `GetObj` that decodes no record changes nothing. -/
lemma getObj_current {memory g : GHObject} {h : Header} (hcurrent : kv.Current (.gotObj h g))
    (hget : kv.getObj memory h = some (g,kv')) : kv' = kv := by
  cases hcache : kv.reverseObjCacheHeader.find h with
  | some g' =>
    rw [getObj,hcache] at hget
    exact (Prod.mk.inj (Option.some.inj hget)).2.symm
  | none =>
    have hrecord := hcurrent.resolve_left (by simp [hcache])
    rw [getObj,hcache,hrecord] at hget
    exact (Prod.mk.inj (Option.some.inj hget)).2.symm

/-- A step of a run that decodes no record: nothing changes, an object without a record gets a new
header, a cached object is erased, or the process restarts. -/
lemma currentOnly_cases {e : HeaderEvent} (hm : Made objs kv n)
    (hstep : CurrentOnly objs kv e kv') : kv' = kv ∨ kv' = kv.restart ∨
      (∃ g ∈ objs, ∃ h, kv.objCacheHeader.find g = none ∧
        kv.db.find (getObjUniqueStrDesc g) = none ∧ kv.getHeader g = some (h,kv')) ∨
      ∃ g ∈ objs, kv.eraseHeader g = some kv' := by
  obtain ⟨⟨huses,hdoes⟩,hcurrent⟩ := hstep
  cases e with
  | gotHeader g h =>
    cases hcache : kv.objCacheHeader.find g with
    | some h' =>
      have hget : kv.getHeader g = some (h',kv) := by rw [getHeader,hcache]
      exact .inl (Prod.mk.inj (Option.some.inj (hget.symm.trans hdoes))).2.symm
    | none =>
      have hrecord := hcurrent.resolve_left (by simp [hcache])
      exact .inr (.inr (.inl ⟨g,huses,h,hcache,hrecord,hdoes⟩))
  | gotObj h g =>
    obtain ⟨memory,hget⟩ := hdoes
    exact .inl (getObj_current hcurrent hget)
  | erasedHeader g => exact .inr (.inr (.inr ⟨g,huses,hdoes⟩))
  | erasedObj h g =>
    obtain ⟨hfind,herase⟩ := hdoes
    rw [hm.caches.eraseObj_eq hfind] at herase
    exact .inr (.inr (.inr ⟨g,(hm.used (hm.caches.find_obj_iff.1 hfind)).1,herase⟩))
  | restarted => exact .inr (.inl hdoes)

theorem Made.step {e : HeaderEvent} (hm : Made objs kv n) (hfree : ∀ g ∈ objs, HeaderFree g)
    (hstep : CurrentOnly objs kv e kv') : ∃ n', Made objs kv' n' := by
  rcases currentOnly_cases hm hstep with rfl | rfl | ⟨g,hg,h,hcache,hrecord,hget⟩ | ⟨g,hg,herase⟩
  · exact ⟨n,hm⟩
  · exact ⟨n,{ hm with
      inverse := ⟨fun hmem => absurd hmem List.not_mem_nil,fun hmem => absurd hmem List.not_mem_nil⟩
      used := fun hmem => absurd hmem List.not_mem_nil }⟩
  · exact ⟨n+1,hm.fresh (hfree g hg) hg hcache hrecord hget⟩
  · exact ⟨n,hm.eraseHeader (hfree g hg) herase⟩

theorem Tracks.step {e : HeaderEvent} {number : Option Header} (ht : Tracks gh kv number)
    (hm : Made objs kv n) (hfree : ∀ g ∈ objs, HeaderFree g) (hgh : gh ∈ objs)
    (hrec : ToldApart objs gh) (hstep : CurrentOnly objs kv e kv') :
    ∃ number', Tracks gh kv' number' := by
  rcases currentOnly_cases hm hstep with rfl | rfl | ⟨g,hg,h,hcache,hrecord,hget⟩ | ⟨g,hg,herase⟩
  · exact ⟨number,ht⟩
  · exact ⟨number,{ ht with cached := fun hmem => absurd hmem List.not_mem_nil }⟩
  · by_cases hsame : SameKey GHObject.lt g gh
    · have hdesc := (hrec g hg).1 hsame
      exact ⟨some h,ht.fresh_self hm (hfree gh hgh) hsame hdesc hcache hrecord hget⟩
    · have hother : Other g gh := ⟨hsame,fun hdesc => hsame ((hrec g hg).2 hdesc)⟩
      exact ⟨number,ht.fresh_other hm (hfree gh hgh) (hfree g hg) hother hcache hrecord hget⟩
  · by_cases hsame : SameKey GHObject.lt g gh
    · exact ⟨none,ht.eraseHeader_self (hfree gh hgh) hsame ((hrec g hg).1 hsame) herase⟩
    · have hother : Other g gh := ⟨hsame,fun hdesc => hsame ((hrec g hg).2 hdesc)⟩
      exact ⟨number,ht.eraseHeader_other (hfree gh hgh) (hfree g hg) hother herase⟩

/-- In every state of a run that decodes no record, of objects whose unique strings are no strings
of headers: `EraseHeader` erases an object that is told apart from the others exactly when it is in
the cache, and `EraseObj` the header of one exactly when that is, where the header's string is not
the unique string of another object. -/
theorem erases_iff {trace : List HeaderEvent} (hfree : ∀ g ∈ objs, HeaderFree g)
    (hrun : Traced (CurrentOnly objs) {} trace kv) :
    (∀ gh ∈ objs, ToldApart objs gh →
      (kv.ErasesHeader gh ↔ ∃ head, kv.objCacheHeader.find gh = some head ∧
        ∀ g, ¬SameKey GHObject.lt g gh → getObjUniqueStrDesc g ≠ head.toString)) ∧
    ∀ h, (∀ gh, kv.reverseObjCacheHeader.find h = some gh → ToldApart objs gh) →
      (kv.ErasesObj h ↔ ∃ gh, kv.reverseObjCacheHeader.find h = some gh ∧
        ∀ g, ¬SameKey GHObject.lt g gh → getObjUniqueStrDesc g ≠ h.toString) := by
  obtain ⟨n,hm⟩ : ∃ n, Made objs kv n := hrun.invariant (fun kv => ∃ n, Made objs kv n)
    (fun hstep hinv => hinv.elim fun _ hm => hm.step hfree hstep) ⟨0,.start objs⟩
  have htracks : ∀ gh ∈ objs, ToldApart objs gh → ∃ number, Tracks gh kv number := by
    intro gh hgh hrec
    obtain ⟨n',number,-,ht⟩ := hrun.invariant
      (fun kv => ∃ n number, Made objs kv n ∧ Tracks gh kv number) (by
        rintro s e s' hstep ⟨m,number,hm,ht⟩
        obtain ⟨m',hm'⟩ := hm.step hfree hstep
        obtain ⟨number',ht'⟩ := ht.step hm hfree hgh hrec hstep
        exact ⟨m',number',hm',ht'⟩) ⟨0,none,.start objs,.start gh⟩
    exact ⟨number,ht⟩
  refine ⟨?_,?_⟩
  · intro gh hgh hrec
    obtain ⟨number,ht⟩ := htracks gh hgh hrec
    exact ht.erasesHeader_iff hm (hfree gh hgh)
  · intro h hrec
    cases hfind : kv.reverseObjCacheHeader.find h with
    | none =>
      refine iff_of_false ?_ (by simp)
      rintro ⟨kv',herase,-⟩
      simp [RocksKV.eraseObj,hfind] at herase
    | some gh =>
      have hgh := (hm.used (hm.caches.find_obj_iff.1 hfind)).1
      obtain ⟨number,ht⟩ := htracks gh hgh (hrec gh hfind)
      rw [ht.erasesObj_iff hm (hfree gh hgh) hfind]
      simp

/-- A unique string has four numerals, so that it is longer than "h_1". -/
lemma desc_ne_first (gh : GHObject) : getObjUniqueStrDesc gh ≠ (Header.mk 1).toString := by
  intro heq
  have hlen : (getObjUniqueStrDesc gh).length = 3 := heq ▸ rfl
  have hpos : ∀ i : ℤ, 0 < (signedDecimal i).length :=
    fun i => List.length_pos_of_ne_nil (signedDecimal_ne_nil i)
  have hpool := hpos gh.hobj.pool.toInt
  have hsnap := hpos gh.hobj.snap.timeStamp.toInt
  have hgeneration := hpos gh.generation.toInt
  have hshard := hpos gh.shardId.id.toInt
  simp only [getObjUniqueStrDesc,List.length_append] at hlen
  omega

/-- One object, which is given a header and can be erased by either call. -/
theorem erases_iff_first : ∃ kv,
    Traced (CurrentOnly {gh | gh = {}}) {} [.gotHeader {} ⟨1⟩] kv ∧
      kv.ErasesHeader {} ∧ kv.ErasesObj ⟨1⟩ := by
  have hfree : ∀ g ∈ {gh : GHObject | gh = {}}, HeaderFree g := by
    rintro g rfl h heq
    have hfirst : h.toString[0]? = some 104 := rfl
    rw [← heq] at hfirst
    exact absurd hfirst (by decide)
  have hrec : ToldApart {gh | gh = {}} {} := by
    rintro g rfl
    exact iff_of_true (.refl _) rfl
  have hcall : (({} : RocksKV).getHeader {}).map (fun r =>
      (r.1,r.2.objCacheHeader.find {},r.2.reverseObjCacheHeader.find ⟨1⟩)) =
        some (⟨1⟩,some ⟨1⟩,some {}) := by decide +kernel
  obtain ⟨⟨h,kv⟩,hget,heq⟩ := Option.map_eq_some_iff.1 hcall
  simp only [Prod.mk.injEq] at heq
  obtain ⟨rfl,hfind,hrev⟩ := heq
  have hrun : Traced (CurrentOnly {gh | gh = {}}) {} [.gotHeader {} ⟨1⟩] kv :=
    .step .start ⟨⟨rfl,hget⟩,.inr rfl⟩
  obtain ⟨hheader,hobj⟩ := erases_iff hfree hrun
  refine ⟨kv,hrun,(hheader {} rfl hrec).2 ⟨⟨1⟩,hfind,fun g _ => desc_ne_first g⟩,
    (hobj ⟨1⟩ ?_).2 ⟨{},hrev,fun g _ => desc_ne_first g⟩⟩
  intro gh hgh
  obtain rfl := Option.some.inj (hrev.symm.trans hgh)
  exact hrec

/-- After a restart the caches are empty, and both calls dereference the end of one. -/
theorem erase_after_restart : ¬ ∀ trace kv, Traced (AcrossRestarts Set.univ) {} trace kv →
    (∀ gh, kv.ErasesHeader gh) ∧ ∀ h, kv.ErasesObj h := by
  intro hclaim
  have hcall : (({} : RocksKV).getHeader {}).map (fun r => r.1) = some ⟨1⟩ := by decide +kernel
  obtain ⟨⟨_,kv⟩,hget,rfl⟩ := Option.map_eq_some_iff.1 hcall
  have hrun₁ : Traced (AcrossRestarts Set.univ) {} [.gotHeader {} ⟨1⟩] kv :=
    .step .start ⟨trivial,hget⟩
  have hrun : Traced (AcrossRestarts Set.univ) {} [.gotHeader {} ⟨1⟩,.restarted] kv.restart :=
    .step hrun₁ ⟨trivial,rfl⟩
  obtain ⟨kv',herase,-⟩ := (hclaim _ _ hrun).1 {}
  cases herase

end run
end RocksKV
end GDFileStore
