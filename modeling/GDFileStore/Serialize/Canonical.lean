import GDFileStore.Serialize.Refine

/-! A value has one encoding: whatever bytes a read has taken, a write of the value it gives
produces them again, and no encoding is the beginning of another one. -/
namespace GDFileStore
open Codec Int32Range

namespace Buffer

/-- The bytes stand at the offset, which has moved over them. In a block longer than an `int` can
index it may have wrapped after the last of them. -/
structure Took (b b' : Buffer) (bytes : Bytes) : Prop where
  data : b'.data = b.data
  offset : b'.offset = b.offset+Int32.ofNat bytes.length
  place : bytes <+: b.rest
  inside : bytes ≠ [] → 0 ≤ b.offset.toInt ∧ b.offset.toInt+bytes.length < 2^32

variable {b b' b'' : Buffer} {bytes bytes' : Bytes}

lemma Took.refl (b : Buffer) : Took b b [] where
  data := rfl
  offset := by simp
  place := List.nil_prefix
  inside := fun h => absurd rfl h

lemma Took.eq_of_nil (h : Took b b' []) : b' = b := by
  obtain ⟨data,offset⟩ := b
  obtain ⟨data',offset'⟩ := b'
  obtain ⟨rfl,hoffset,-,-⟩ := h
  have heq : offset' = offset := by simpa using hoffset
  rw [heq]

/-- An offset that is not negative has not wrapped. -/
lemma Took.offset_toInt (h : Took b b' bytes) (hend : 0 ≤ b'.offset.toInt) :
    b'.offset.toInt = b.offset.toInt+bytes.length := by
  by_cases hnil : bytes = []
  · subst hnil
    rw [h.eq_of_nil]
    simp
  · obtain ⟨hstart,hshort⟩ := h.inside hnil
    have hlt := b.offset.toInt_lt
    have hoffset : b'.offset.toInt = (b.offset.toInt+bytes.length).bmod (2^32) := by
      rw [h.offset,Int32.toInt_add,Int32.toInt_ofNat']
      exact Int.add_bmod_bmod
    rw [hoffset,Int.bmod_def] at hend ⊢
    split at hend <;> omega

lemma Took.rest (h : Took b b' bytes) (hend : 0 ≤ b'.offset.toInt) :
    b'.rest = b.rest.drop bytes.length := by
  by_cases hnil : bytes = []
  · subst hnil
    rw [h.eq_of_nil]
    rfl
  · have hstart := (h.inside hnil).1
    have hoffset := h.offset_toInt hend
    rw [Buffer.rest,Buffer.rest,h.data,List.drop_drop]
    congr 1
    omega

theorem Took.trans (h : Took b b' bytes) (h' : Took b' b'' bytes') :
    Took b b'' (bytes ++ bytes') := by
  by_cases hnil : bytes' = []
  · subst hnil
    rw [h'.eq_of_nil,List.append_nil]
    exact h
  · obtain ⟨hmid,hshort⟩ := h'.inside hnil
    have hoffset := h.offset_toInt hmid
    have hstart : 0 ≤ b.offset.toInt := by
      by_cases hfirst : bytes = []
      · subst hfirst
        simpa [hoffset] using hmid
      · exact (h.inside hfirst).1
    refine ⟨h'.data.trans h.data,?_,?_,fun _ => ⟨hstart,?_⟩⟩
    · rw [h'.offset,h.offset,List.length_append,Int32.ofNat_add,Int32.add_assoc]
    · have hplace := h'.place
      rw [h.rest hmid] at hplace
      rw [← List.prefix_iff_eq_append.1 h.place]
      exact (List.prefix_append_right_inj bytes).2 hplace
    · rw [List.length_append,Nat.cast_add]
      omega

lemma Took.length_lt (h : Took b b' bytes) : bytes.length < 2^32 := by
  by_cases hnil : bytes = []
  · simp [hnil]
  · obtain ⟨hstart,hshort⟩ := h.inside hnil
    omega

/-- What was taken is determined by the buffers. -/
lemma Took.unique (h : Took b b' bytes) (h' : Took b b' bytes') : bytes = bytes' := by
  have hlength : bytes.length = bytes'.length := by
    have hoffset := (Int32.add_right_inj _).1 (h.offset.symm.trans h'.offset)
    have hmod : bytes.length % 2^32 = bytes'.length % 2^32 := by
      simpa using congrArg (fun n : Int32 => n.toBitVec.toNat) hoffset
    rwa [Nat.mod_eq_of_lt h.length_lt,Nat.mod_eq_of_lt h'.length_lt] at hmod
  exact (List.prefix_of_prefix_length_le h.place h'.place hlength.le).eq_of_length hlength

lemma drawback_took {len : Int32} (h : b.drawback len = some (bytes,b')) :
    0 ≤ len.toInt ∧ bytes.length = len.toInt.toNat ∧ Took b b' bytes := by
  obtain ⟨⟨hlen,hoffset,hle⟩,hsome⟩ := Option.ite_none_right_eq_some.1 h
  obtain ⟨rfl,rfl⟩ := Prod.mk.inj (Option.some.inj hsome)
  have hlt := len.toInt_lt
  have hlt' := b.offset.toInt_lt
  have hlength : ((b.data.drop b.offset.toInt.toNat).take len.toInt.toNat).length =
      len.toInt.toNat := by
    rw [List.length_take,List.length_drop]
    omega
  refine ⟨hlen,hlength,rfl,?_,List.take_prefix _ _,fun _ => ⟨hoffset,?_⟩⟩
  · rw [hlength,ofNat_toNat_toInt hlen]
  · rw [hlength]
    omega

end Buffer

open Buffer

lemma intBytes_intOfBytes {bytes : Bytes} (h : bytes.length = 4) :
    intBytes (intOfBytes bytes) = bytes := leBytes_bitVec h

lemma readInt_took {b b' : Buffer} {n : Int32} (h : readInt b = some (n,b')) :
    Took b b' (intBytes n) := by
  obtain ⟨⟨bytes,b1⟩,hread,hr⟩ := Option.map_eq_some_iff.1 h
  obtain ⟨rfl,rfl⟩ := Prod.mk.inj hr
  obtain ⟨-,hlength,htook⟩ := drawback_took hread
  rwa [intBytes_intOfBytes hlength]

section Arrays
variable {α : Type} {read : Buffer → Option (α × Buffer)} {fits : α → Prop} {encode : α → Bytes}

lemma readArray_took
    (h : ∀ {b a b'}, read b = some (a,b') → fits a ∧ Took b b' (encode a)) {n : ℕ}
    {b b' : Buffer} {as : List α} (hread : readArray read n b = some (as,b')) :
    as.length = n ∧ (∀ a ∈ as, fits a) ∧ Took b b' (as.flatMap encode) := by
  induction n generalizing b as with
  | zero =>
    obtain ⟨rfl,rfl⟩ := Prod.mk.inj (Option.some.inj hread)
    exact ⟨rfl,by simp,.refl b⟩
  | succ n ih =>
    obtain ⟨⟨a,mid⟩,hfirst,hrest⟩ := Option.bind_eq_some_iff.1 hread
    obtain ⟨⟨rest,last⟩,hothers,hr⟩ := Option.map_eq_some_iff.1 hrest
    obtain ⟨rfl,rfl⟩ := Prod.mk.inj hr
    obtain ⟨hlength,hfits,htook⟩ := ih hothers
    obtain ⟨hfit,hfirstTook⟩ := h hfirst
    refine ⟨by rw [List.length_cons,hlength],?_,?_⟩
    · simpa using ⟨hfit,hfits⟩
    · rw [List.flatMap_cons]
      exact hfirstTook.trans htook

/-- A vector or list that has been read has as many elements as the size before it says. -/
lemma elements_took
    (h : ∀ {b a b'}, read b = some (a,b') → fits a ∧ Took b b' (encode a)) {b b' : Buffer}
    {as : List α} (hread : ((readInt b).bind fun r => if r.1.toInt < 0 then none
      else if r.1 = 0 then some ([],r.2) else readArray read r.1.toInt.toNat r.2) = some (as,b')) :
    as.length < 2^31 ∧ (∀ a ∈ as, fits a) ∧
      Took b b' (intBytes (Int32.ofNat as.length) ++ as.flatMap encode) := by
  obtain ⟨⟨n,mid⟩,hsize,hrest⟩ := Option.bind_eq_some_iff.1 hread
  obtain ⟨hneg,hrest⟩ := Option.ite_none_left_eq_some.1 hrest
  have hall : as.length = n.toInt.toNat ∧ (∀ a ∈ as, fits a) ∧
      Took mid b' (as.flatMap encode) := by
    by_cases hn : n = 0
    · rw [if_pos hn] at hrest
      obtain ⟨rfl,rfl⟩ := Prod.mk.inj (Option.some.inj hrest)
      exact ⟨by rw [hn]; rfl,by simp,.refl mid⟩
    · rw [if_neg hn] at hrest
      exact readArray_took h hrest
  obtain ⟨hlength,hfits,htook⟩ := hall
  obtain ⟨hshort,rfl⟩ := (eq_toNat_iff hneg).1 hlength
  exact ⟨hshort,hfits,(readInt_took hsize).trans htook⟩

end Arrays

namespace Ty

/-- A read gives a value whose sizes an `int` can hold, and has taken its encoding. -/
theorem read_took {t : Ty} {p : Pointers} {b b' : Buffer} {v : t.Val}
    (h : t.read p b = some (v,b')) : t.Fits v ∧ Took b b' (t.encode v) := by
  induction t generalizing p b b' with
  | arith w =>
    obtain ⟨⟨bytes,b1⟩,hread,hr⟩ := Option.map_eq_some_iff.1 h
    obtain ⟨rfl,rfl⟩ := Prod.mk.inj hr
    obtain ⟨-,hlength,htook⟩ := drawback_took hread
    rw [toInt_ofNat_of_lt (w.le.trans_lt (by decide)),Int.toNat_natCast] at hlength
    refine ⟨trivial,?_⟩
    rwa [encode,leBytes_bitVec hlength]
  | string =>
    obtain ⟨⟨n,mid⟩,hsize,hrest⟩ := Option.bind_eq_some_iff.1 h
    obtain ⟨hneg,hrest⟩ := Option.ite_none_left_eq_some.1 hrest
    obtain ⟨-,hlength,htook⟩ := drawback_took hrest
    obtain ⟨hshort,rfl⟩ := (eq_toNat_iff hneg).1 hlength
    exact ⟨hshort,(readInt_took hsize).trans htook⟩
  | vector t ih =>
    obtain ⟨hlength,hfits,htook⟩ := elements_took ih h
    exact ⟨⟨hlength,hfits⟩,htook⟩
  | list t ih =>
    obtain ⟨hlength,hfits,htook⟩ := elements_took ih h
    exact ⟨⟨hlength,hfits⟩,htook⟩
  | cls es ih => exact ih h
  | tupleNil =>
    obtain ⟨rfl,rfl⟩ := Prod.mk.inj (Option.some.inj h)
    exact ⟨trivial,.refl b⟩
  | tupleCons t ts iht ihts =>
    simp only [read] at h
    cases hp : p.inner with
    | none => simp [hp] at h
    | some q =>
      simp only [hp] at h
      obtain ⟨⟨a,mid⟩,hfirst,hrest⟩ := Option.bind_eq_some_iff.1 h
      obtain ⟨⟨as,last⟩,hothers,hr⟩ := Option.map_eq_some_iff.1 hrest
      obtain ⟨rfl,rfl⟩ := Prod.mk.inj hr
      obtain ⟨hfit,htake⟩ := iht hfirst
      obtain ⟨hfits,htook⟩ := ihts hothers
      exact ⟨⟨hfit,hfits⟩,htake.trans htook⟩

/-- Sizes that an `int` can hold are told apart by their bytes, whatever stands after them. -/
lemma intBytes_append_inj {m n : ℕ} {rest rest' : Bytes} (hm : m < 2^31) (hn : n < 2^31)
    (h : intBytes (Int32.ofNat m) ++ rest = intBytes (Int32.ofNat n) ++ rest') :
    m = n ∧ rest = rest' := by
  obtain ⟨hsize,hrest⟩ := List.append_inj h (by rw [length_intBytes,length_intBytes])
  have hint := congrArg intOfBytes hsize
  rw [intOfBytes_intBytes,intOfBytes_intBytes] at hint
  have htoInt := congrArg Int32.toInt hint
  rw [toInt_ofNat_of_lt hm,toInt_ofNat_of_lt hn] at htoInt
  exact ⟨by omega,hrest⟩

lemma flatMap_append_inj {α : Type} {encode : α → Bytes} {fits : α → Prop}
    (h : ∀ {a b rest rest'}, fits a → fits b → encode a ++ rest = encode b ++ rest' →
      a = b ∧ rest = rest') {as bs : List α} {rest rest' : Bytes} (has : ∀ a ∈ as, fits a)
    (hbs : ∀ b ∈ bs, fits b) (hlength : as.length = bs.length)
    (heq : as.flatMap encode ++ rest = bs.flatMap encode ++ rest') : as = bs ∧ rest = rest' := by
  induction as generalizing bs with
  | nil =>
    obtain rfl := List.eq_nil_of_length_eq_zero hlength.symm
    exact ⟨rfl,heq⟩
  | cons a as ih =>
    obtain ⟨b,bs,rfl⟩ := List.exists_cons_of_length_eq_add_one hlength.symm
    rw [List.flatMap_cons,List.flatMap_cons,List.append_assoc,List.append_assoc] at heq
    obtain ⟨rfl,hothers⟩ := h (has a List.mem_cons_self) (hbs b List.mem_cons_self) heq
    obtain ⟨rfl,hrest⟩ := ih (fun c hc => has c (List.mem_cons_of_mem _ hc))
      (fun c hc => hbs c (List.mem_cons_of_mem _ hc)) (by simpa using hlength) hothers
    exact ⟨rfl,hrest⟩

/-- The front of a byte string is the encoding of one value at most. -/
theorem encode_append_inj {t : Ty} {v w : t.Val} {rest rest' : Bytes} (hv : t.Fits v)
    (hw : t.Fits w) (h : t.encode v ++ rest = t.encode w ++ rest') : v = w ∧ rest = rest' := by
  induction t generalizing rest rest' with
  | arith width =>
    obtain ⟨hbytes,hrest⟩ := List.append_inj h (by simp only [encode,length_leBytes])
    have hvalue := congrArg (fun bytes => BitVec.ofNat (8*width.bytes) (ofLeBytes bytes)) hbytes
    simp only [encode,ofLeBytes_bitVec] at hvalue
    exact ⟨hvalue,hrest⟩
  | string =>
    simp only [encode,List.append_assoc] at h
    obtain ⟨hlength,hbytes⟩ := intBytes_append_inj hv hw h
    exact List.append_inj hbytes hlength
  | vector t ih =>
    simp only [encode,List.append_assoc] at h
    obtain ⟨hlength,helements⟩ := intBytes_append_inj hv.1 hw.1 h
    exact flatMap_append_inj ih hv.2 hw.2 hlength helements
  | list t ih =>
    simp only [encode,List.append_assoc] at h
    obtain ⟨hlength,helements⟩ := intBytes_append_inj hv.1 hw.1 h
    exact flatMap_append_inj ih hv.2 hw.2 hlength helements
  | cls es ih => exact ih hv hw h
  | tupleNil => exact ⟨rfl,h⟩
  | tupleCons t ts iht ihts =>
    simp only [encode,List.append_assoc] at h
    obtain ⟨hfirst,hothers⟩ := iht hv.1 hw.1 h
    obtain ⟨hmembers,hrest⟩ := ihts hv.2 hw.2 hothers
    exact ⟨Prod.ext hfirst hmembers,hrest⟩

/-- The bytes are an encoding of the value: some read has taken them and given it, or a write of
it, with sizes that an `int` can hold, has made them. -/
def Encodes (t : Ty) (v : t.Val) (bytes : Bytes) : Prop :=
  (∃ p b b', t.read p b = some (v,b') ∧ Took b b' bytes) ∨
    t.Fits v ∧ t.write {} v = some { data := bytes }

lemma Encodes.eq {t : Ty} {v : t.Val} {bytes : Bytes} (h : t.Encodes v bytes) :
    t.Fits v ∧ bytes = t.encode v := by
  rcases h with ⟨p,b,b',hread,htook⟩ | ⟨hfits,hwrite⟩
  · obtain ⟨hfits,htook'⟩ := read_took hread
    exact ⟨hfits,htook.unique htook'⟩
  · rw [write_eq hfits] at hwrite
    exact ⟨hfits,(congrArg Buffer.data (Option.some.inj hwrite)).symm⟩

/-- Whatever a read has taken, a write of the value it gave appends the same bytes; a value has
one encoding, and the encoding of a value begins that of no other. -/
theorem canonical (t : Ty) :
    (∀ p b v b', t.read p b = some (v,b') →
      ∃ bytes, Took b b' bytes ∧ ∀ c, t.write c v = some { c with data := c.data ++ bytes }) ∧
    (∀ v bytes bytes', t.Encodes v bytes → t.Encodes v bytes' → bytes = bytes') ∧
    ∀ v w bytes bytes', t.Encodes v bytes → t.Encodes w bytes' → bytes <+: bytes' →
      v = w ∧ bytes = bytes' := by
  refine ⟨?_,?_,?_⟩
  · intro p b v b' hread
    obtain ⟨hfits,htook⟩ := read_took hread
    exact ⟨t.encode v,htook,write_eq hfits⟩
  · intro v bytes bytes' h h'
    rw [h.eq.2,h'.eq.2]
  · rintro v w bytes bytes' h h' ⟨rest,hrest⟩
    obtain ⟨hv,rfl⟩ := h.eq
    obtain ⟨hw,rfl⟩ := h'.eq
    rw [← List.append_nil (t.encode w)] at hrest
    obtain ⟨rfl,-⟩ := encode_append_inj hv hw hrest
    exact ⟨rfl,rfl⟩

end Ty
end GDFileStore
