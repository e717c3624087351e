import GDFileStore.Attributes.Records

/-! What survives of an object's identity: in its encoding, which leaves out the pool, and in the
key of its attribute record, whose strings are cut to their lengths as `int`s. -/
namespace GDFileStore
open Serializable

namespace GHObject

/-- Owner, pool, object name, snapshot time, generation and shard: the members that the unique
string and the hash are made of. -/
def fields (g : GHObject) : Bytes × Int64 × Bytes × Int64 × Int64 × Int8 :=
  (g.owner,g.hobj.pool,g.hobj.oid.name,g.hobj.snap.timeStamp,g.generation,g.shardId.id)

lemma getObjUniqueStrDesc_congr {g h : GHObject} (heq : g.fields = h.fields) :
    getObjUniqueStrDesc g = getObjUniqueStrDesc h := by
  simp only [fields,Prod.mk.injEq] at heq
  obtain ⟨howner,hpool,hname,hsnap,hgeneration,hshard⟩ := heq
  simp only [getObjUniqueStrDesc,howner,hpool,hname,hsnap,hgeneration,hshard]

/-- The encoding of `g`, read into memory that holds `memory` and without running over the range
of the offset, gives an object with the same members and the same unique string. -/
def RoundTrips (memory g : GHObject) : Prop :=
  ∃ bytes x b, asString g = some bytes ∧ read memory { data := bytes } = some (x,b) ∧
    0 ≤ b.offset.toInt ∧ x.fields = g.fields ∧ getObjUniqueStrDesc x = getObjUniqueStrDesc g

lemma length_encode (g : GHObject) :
    (encode g).length = g.hobj.oid.name.length+g.owner.length+30 := by
  change ((((intBytes _ ++ g.hobj.oid.name) ++ []) ++ ((Codec.leBytes 8 _ ++ []) ++
    (Codec.leBytes 4 _ ++ (Codec.leBytes 1 _ ++ [])))) ++ (Codec.leBytes 8 _ ++
    ((Codec.leBytes 1 _ ++ []) ++ ((intBytes _ ++ g.owner) ++ [])))).length = _
  simp only [List.length_append,length_intBytes,Codec.length_leBytes,List.length_nil]
  ring

lemma fits_of_sized {g : GHObject} (h : g.Sized) : Fits g := RocksKV.fits_ghobjKey h

lemma pool_of_read {memory x : GHObject} {b b' : Buffer} (h : read memory b = some (x,b')) :
    x.hobj.pool = memory.hobj.pool := by
  obtain ⟨⟨v,mid⟩,-,hfill⟩ := Option.bind_eq_some_iff.1 h
  obtain ⟨y,hy,hr⟩ := Option.map_eq_some_iff.1 hfill
  obtain ⟨rfl,-⟩ := Prod.mk.inj hr
  obtain ⟨m,hm,rfl⟩ := Option.map_eq_some_iff.1 hy
  obtain ⟨hobj,hhobj,hrest⟩ := Option.bind_eq_some_iff.1 hm
  obtain ⟨n,-,rfl⟩ := Option.map_eq_some_iff.1 hrest
  obtain ⟨k,-,rfl⟩ := Option.map_eq_some_iff.1 hhobj
  rfl

/-- An encoding that an `int` can index is read back, up to the pool of the memory. -/
theorem roundTrips_iff (memory g : GHObject) :
    RoundTrips memory g ↔ memory.hobj.pool = g.hobj.pool ∧
      g.hobj.oid.name.length+g.owner.length+30 < 2^31 := by
  constructor
  · rintro ⟨bytes,x,b,-,hread,hoffset,hfields,-⟩
    have htaken := (read_taken hread hoffset).2.offset
    have hlt := b.offset.toInt_lt
    have hzero : ({ data := bytes } : Buffer).offset.toInt = 0 := rfl
    simp only [fields,Prod.mk.injEq] at hfields
    obtain ⟨howner,hpool,hname,-⟩ := hfields
    rw [length_encode,hname,howner] at htaken
    exact ⟨(pool_of_read hread).symm.trans hpool,by omega⟩
  · rintro ⟨hpool,hshort⟩
    have hsized : g.Sized := ⟨by omega,by omega⟩
    have hfront : Buffer.Front { data := encode g ++ [] } (encode g ++ []) := by
      refine .start ?_
      rw [List.append_nil,length_encode]
      exact hshort
    obtain ⟨x,b,hread,hes,hrest⟩ := hfront.read_append (fits_of_sized hsized) memory
    rw [List.append_nil] at hread
    have hkey := es_eq_iff.1 hes
    simp only [key,GHKey.mk.injEq] at hkey
    obtain ⟨hname,hsnap,-,-,hgeneration,hshard,howner⟩ := hkey
    have hfields : x.fields = g.fields := by
      simp only [fields,hname,hsnap,hgeneration,hshard,howner,pool_of_read hread,hpool]
    refine ⟨encode g,x,b,asString_eq (fits_of_sized hsized),hread,?_,hfields,
      getObjUniqueStrDesc_congr hfields⟩
    have hend := hrest.finish
    omega

/-- A string as `Write` puts it: by its length as an `int`. -/
def writtenString (s : Bytes) : Option Bytes :=
  let len := Int32.ofNat s.length
  if 0 ≤ len.toInt then some (s.take len.toInt.toNat) else none

/-- The object that the bytes of a key belong to. -/
def asWritten (g : GHObject) : Option GHObject := do
  let name ← writtenString g.hobj.oid.name
  let owner ← writtenString g.owner
  return { g with hobj := { g.hobj with oid := ⟨name⟩ }, owner := owner }

lemma of_writtenString {s t : Bytes} (h : writtenString s = some t) :
    (Int32.ofNat s.length).toInt = t.length ∧ t.length < 2^31 ∧ t = s.take t.length := by
  obtain ⟨hnonneg,hsome⟩ := Option.ite_none_right_eq_some.1 h
  obtain rfl := Option.some.inj hsome
  have hlt := (Int32.ofNat s.length).toInt_lt
  have hle : (Int32.ofNat s.length).toInt ≤ s.length := by
    rw [Int32.toInt_ofNat',Int.bmod_def,Int32.size]
    split <;> omega
  have hlength : (s.take (Int32.ofNat s.length).toInt.toNat).length =
      (Int32.ofNat s.length).toInt.toNat := by
    rw [List.length_take]
    omega
  rw [hlength]
  exact ⟨by omega,by omega,rfl⟩

/-- Whatever its length, a string is written as the string that its length as an `int` leaves. -/
lemma write_string (b : Buffer) (s : Bytes) : write b s =
    (writtenString s).map (fun t => { b with data := b.data ++ encode t }) := by
  have hwrite : write b s = (b.append 4 (intBytes (Int32.ofNat s.length))).bind
      (fun b => b.append (Int32.ofNat s.length) s) := rfl
  rw [hwrite,append_intBytes,Option.bind_some,Buffer.append]
  cases h : writtenString s with
  | none =>
    have hneg : ¬0 ≤ (Int32.ofNat s.length).toInt := by
      intro hnonneg
      cases (if_pos hnonneg).symm.trans h
    rw [if_neg (fun hin => hneg hin.1),Option.map_none]
  | some t =>
    obtain ⟨hlen,hlt,htake⟩ := of_writtenString h
    have hsame : Int32.ofNat s.length = Int32.ofNat t.length := by
      rw [← Int32.toInt_inj,hlen,Int32Range.toInt_ofNat_of_lt hlt]
    have hle : t.length ≤ s.length := by
      rw [htake]
      exact List.length_take_le' _ _
    have hencode : encode t = intBytes (Int32.ofNat t.length) ++ t := rfl
    rw [hlen,if_pos ⟨by omega,by omega⟩,Int.toNat_natCast,← htake,Option.map_some,hencode,hsame,
      List.append_assoc]

lemma asWritten_sized {g a : GHObject} (h : g.asWritten = some a) : a.Sized := by
  obtain ⟨name,hname,h⟩ := Option.bind_eq_some_iff.1 h
  obtain ⟨owner,howner,h⟩ := Option.bind_eq_some_iff.1 h
  obtain rfl := Option.some.inj h
  exact ⟨(of_writtenString hname).2.1,(of_writtenString howner).2.1⟩

lemma getKey_eq_asWritten (typeHeader : Bytes) (g : GHObject) :
    RocksKV.getKey typeHeader g = g.asWritten.map (RocksKV.keyBytes typeHeader) := by
  have hkey : Members.multiWrite {} (HasAttr.key g) = (write {} g.hobj).bind (fun b =>
      (write b g.generation).bind (fun b => (write b g.shardId).bind (fun b =>
        (write b g.owner).bind some))) := rfl
  have hhobj : write {} g.hobj = ((write {} g.hobj.oid.name).bind some).bind
      (fun b => Members.multiWrite b (g.hobj.snap,g.hobj.hash,g.hobj.max,())) := rfl
  have hfits : Members.Fits (g.hobj.snap,g.hobj.hash,g.hobj.max,()) :=
    ⟨⟨trivial,trivial⟩,trivial,trivial,trivial⟩
  have hgeneration : Fits g.generation := trivial
  have hshard : Fits g.shardId := ⟨trivial,trivial⟩
  rw [RocksKV.getKey,asStringOfMembers,hkey,hhobj,asWritten]
  simp only [Option.bind_fun_some,write_string,Members.multiWrite_eq hfits,
    Serializable.write_eq hgeneration,Serializable.write_eq hshard]
  cases writtenString g.hobj.oid.name with
  | none => rfl
  | some name =>
    cases writtenString g.owner with
    | none => rfl
    | some owner =>
      have hencode : ∀ g' : GHObject, Members.encode (HasAttr.key g') =
          (encode g'.hobj.oid.name ++ [] ++ Members.encode (g'.hobj.snap,g'.hobj.hash,g'.hobj.max,())) ++
            (encode g'.generation ++ (encode g'.shardId ++ (encode g'.owner ++ []))) := fun _ => rfl
      simp [RocksKV.keyBytes,hencode,Buffer.universalStr]

/-- Both objects have the same key, and so one attribute record. -/
def ShareRecord (typeHeader : Bytes) (g h : GHObject) : Prop :=
  ∃ key, RocksKV.getKey typeHeader g = some key ∧ RocksKV.getKey typeHeader h = some key

/-- The key tells two objects apart by every member but the pool, as far as it is written. -/
theorem not_shareRecord_iff (typeHeader : Bytes) (g h : GHObject) :
    ¬ShareRecord typeHeader g h ↔
      ∀ a b, g.asWritten = some a → h.asWritten = some b → a.key ≠ b.key := by
  constructor
  · intro hapart a b ha hb heq
    refine hapart ⟨RocksKV.keyBytes typeHeader a,?_,?_⟩
    · rw [getKey_eq_asWritten,ha,Option.map_some]
    · rw [getKey_eq_asWritten,hb,Option.map_some,
        (RocksKV.ghobjKey_inj_iff (asWritten_sized ha) (asWritten_sized hb)).2 heq]
  · rintro hne ⟨key,hg,hh⟩
    rw [getKey_eq_asWritten] at hg hh
    obtain ⟨a,ha,rfl⟩ := Option.map_eq_some_iff.1 hg
    obtain ⟨b,hb,heq⟩ := Option.map_eq_some_iff.1 hh
    exact hne a b ha hb
      ((RocksKV.ghobjKey_inj_iff (asWritten_sized ha) (asWritten_sized hb)).1 heq.symm)

/-- The members of an object travel exactly as far as the pool is what the memory holds, and its
record is its own exactly against objects that differ in more than the pool. -/
theorem identity_kept_iff (memory g h : GHObject) (typeHeader : Bytes) :
    (RoundTrips memory g ↔ memory.hobj.pool = g.hobj.pool ∧
      g.hobj.oid.name.length+g.owner.length+30 < 2^31) ∧
    (¬ShareRecord typeHeader g h ↔
      ∀ a b, g.asWritten = some a → h.asWritten = some b → a.key ≠ b.key) :=
  ⟨roundTrips_iff memory g,not_shareRecord_iff typeHeader g h⟩

/-- Pool one comes back as pool zero, and shares the record of pool zero. -/
theorem pool_lost :
    (¬ ∀ memory g, RoundTrips memory g) ∧
      ¬ ∀ typeHeader g h, fields g ≠ fields h → ¬ShareRecord typeHeader g h := by
  constructor
  · intro h
    obtain ⟨bytes,x,b,hbytes,hread,-,hfields,-⟩ := h {} { hobj := { pool := 1 } }
    have hpool := congrArg (fun f => f.2.1) hfields
    rw [fields,fields,pool_of_read hread] at hpool
    cases hpool
  · intro h
    apply h (lit "G") {} { hobj := { pool := 1 } } (by decide)
    exact ⟨_,rfl,rfl⟩

end GHObject
end GDFileStore
