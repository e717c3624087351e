import GDFileStore.Serialize.Types
import GDFileStore.Codec.Decoder

/-! What `Write` appends and what `Read` takes: the serializer on its buffer refines an encoder and
a decoder on byte lists, and the decoder reads back what the encoder gives. -/
namespace GDFileStore
open Codec

namespace Ty

/-- The bytes of a value. -/
def encode : (t : Ty) → t.Val → Bytes
  | .arith w,v => leBytes w.bytes v.toNat
  | .string,s => intBytes (Int32.ofNat s.length) ++ s
  | .vector t,vs => intBytes (Int32.ofNat vs.length) ++ vs.flatMap t.encode
  | .list t,vs => intBytes (Int32.ofNat vs.length) ++ vs.flatMap t.encode
  | .cls es,v => es.encode v
  | .tupleNil,_ => []
  | .tupleCons t ts,v => t.encode v.1 ++ ts.encode v.2

/-- Every string and container has fewer than `2^31` elements. -/
def Fits : (t : Ty) → t.Val → Prop
  | .arith _,_ => True
  | .string,s => s.length < 2^31
  | .vector t,vs => vs.length < 2^31 ∧ ∀ v ∈ vs, t.Fits v
  | .list t,vs => vs.length < 2^31 ∧ ∀ v ∈ vs, t.Fits v
  | .cls es,v => es.Fits v
  | .tupleNil,_ => True
  | .tupleCons t ts,v => t.Fits v.1 ∧ ts.Fits v.2

instance decidableFits : (t : Ty) → (v : t.Val) → Decidable (t.Fits v)
  | .arith _,_ => .isTrue trivial
  | .string,s => Nat.decLt s.length (2^31)
  | .vector t,vs =>
    @instDecidableAnd _ _ (Nat.decLt vs.length (2^31))
      (@List.decidableBAll _ (t.Fits ·) (decidableFits t) vs)
  | .list t,vs =>
    @instDecidableAnd _ _ (Nat.decLt vs.length (2^31))
      (@List.decidableBAll _ (t.Fits ·) (decidableFits t) vs)
  | .cls es,v => decidableFits es v
  | .tupleNil,_ => .isTrue trivial
  | .tupleCons t ts,v => @instDecidableAnd _ _ (decidableFits t v.1) (decidableFits ts v.2)

/-- Every pointer that a `Read` follows is set. -/
def Readable : Ty → Pointers → Prop
  | .arith _,_ => True
  | .string,_ => True
  | .vector t,_ => t.Readable .unset
  | .list t,_ => t.Readable .unset
  | .cls es,p => es.Readable p.getES
  | .tupleNil,_ => True
  | .tupleCons t ts,p =>
    match p.inner with
    | none => False
    | some q => t.Readable q ∧ ts.Readable p

def decodeInt : Decoder UInt8 Int32 := (Decoder.take 4).map intOfBytes

/-- A size, then what it governs. -/
def decodeSized {α : Type} (d : ℕ → Decoder UInt8 α) : Decoder UInt8 α :=
  decodeInt.bind fun n => if n.toInt < 0 then .fail else d n.toInt.toNat

/-- The decoder that `Read` carries out. -/
def decode : (t : Ty) → Pointers → Decoder UInt8 t.Val
  | .arith w,_ => (Decoder.take w.bytes).map fun bytes => BitVec.ofNat (8*w.bytes) (ofLeBytes bytes)
  | .string,_ => decodeSized .take
  | .vector t,_ => decodeSized (t.decode .unset).replicate
  | .list t,_ => decodeSized (t.decode .unset).replicate
  | .cls es,p => es.decode p.getES
  | .tupleNil,_ => .give ()
  | .tupleCons t ts,p =>
    match p.inner with
    | none => .fail
    | some q => (t.decode q).bind fun v => (ts.decode p).map fun vs => (v,vs)

end Ty

lemma intOfBytes_intBytes (n : Int32) : intOfBytes (intBytes n) = n :=
  congrArg Int32.ofBitVec (ofLeBytes_bitVec 4 n.toBitVec)

lemma length_intBytes (n : Int32) : (intBytes n).length = 4 := length_leBytes 4 _

lemma append_intBytes (b : Buffer) (n : Int32) :
    b.append 4 (intBytes n) = some { b with data := b.data ++ intBytes n } :=
  Buffer.append_eq (by rw [length_intBytes]; rfl)

lemma writeArray_eq {α : Type} {write : Buffer → α → Option Buffer} {encode : α → Bytes}
    {vs : List α} (h : ∀ v ∈ vs, ∀ b, write b v = some { b with data := b.data ++ encode v })
    (b : Buffer) : writeArray write vs b = some { b with data := b.data ++ vs.flatMap encode } := by
  induction vs generalizing b with
  | nil => simp [writeArray]
  | cons v vs ih =>
    rw [writeArray,h v List.mem_cons_self,Option.bind_some,
      ih (fun u hu => h u (List.mem_cons_of_mem v hu)),List.flatMap_cons,List.append_assoc]

section Sizes
variable {n : ℕ}

lemma ofNat_eq_zero_iff (h : n < 2^31) : Int32.ofNat n = 0 ↔ n = 0 := by
  rw [← Int32.toInt_inj,Int32Range.toInt_ofNat_of_lt h]
  exact Int.natCast_eq_zero

lemma toNat_toInt_ofNat (h : n < 2^31) : (Int32.ofNat n).toInt.toNat = n := by
  rw [Int32Range.toInt_ofNat_of_lt h,Int.toNat_natCast]

end Sizes

namespace Ty

/-- `Write` appends the encoding and touches nothing else. -/
theorem write_eq {t : Ty} {v : t.Val} (hfits : t.Fits v) (b : Buffer) :
    t.write b v = some { b with data := b.data ++ t.encode v } := by
  induction t generalizing b with
  | arith w =>
    apply Buffer.append_eq
    rw [length_leBytes]
    exact Int32Range.toInt_ofNat_of_lt (w.le.trans_lt (by decide))
  | string =>
    simp only [write,append_intBytes,Option.bind_some]
    rw [Buffer.append_eq (Int32Range.toInt_ofNat_of_lt hfits),encode,List.append_assoc]
  | vector t ih =>
    obtain ⟨hsize,hvs⟩ := hfits
    simp only [write,append_intBytes,Option.bind_some,ofNat_eq_zero_iff hsize,
      toNat_toInt_ofNat hsize,List.take_length]
    rw [writeArray_eq (fun u hu b => ih (hvs u hu) b),encode,← List.append_assoc]
    split
    · rename_i hnil
      simp [List.eq_nil_of_length_eq_zero hnil]
    · rfl
  | list t ih =>
    obtain ⟨hsize,hvs⟩ := hfits
    simp only [write,append_intBytes,Option.bind_some,ofNat_eq_zero_iff hsize]
    rw [writeArray_eq (fun u hu b => ih (hvs u hu) b),encode,← List.append_assoc]
    split
    · rename_i hnil
      simp [List.eq_nil_of_length_eq_zero hnil]
    · rfl
  | cls es ih => exact ih hfits b
  | tupleNil => simp [write,encode]
  | tupleCons t ts iht ihts =>
    rw [write,iht hfits.1,Option.bind_some,ihts hfits.2,encode,List.append_assoc]

lemma decodeSized_reads {α : Type} {d : ℕ → Decoder UInt8 α} {n : ℕ} {bytes : Bytes} {a : α}
    (hn : n < 2^31) (h : (d n).Reads bytes a) :
    (decodeSized d).Reads (intBytes (Int32.ofNat n) ++ bytes) a := by
  have hint : decodeInt.Reads (intBytes (Int32.ofNat n)) (Int32.ofNat n) := by
    have htake := (Decoder.Reads.take (intBytes (Int32.ofNat n))).map intOfBytes
    rwa [length_intBytes,intOfBytes_intBytes] at htake
  apply hint.bind
  rw [if_neg (by rw [Int32Range.toInt_ofNat_of_lt hn]; omega),toNat_toInt_ofNat hn]
  exact h

/-- The decoder takes exactly the encoding, whatever comes after it. -/
theorem decode_reads {t : Ty} {p : Pointers} {v : t.Val} (hreadable : t.Readable p)
    (hfits : t.Fits v) : (t.decode p).Reads (t.encode v) v := by
  induction t generalizing p with
  | arith w =>
    have htake := (Decoder.Reads.take (leBytes w.bytes v.toNat)).map
      (fun bytes => BitVec.ofNat (8*w.bytes) (ofLeBytes bytes))
    rwa [length_leBytes,ofLeBytes_bitVec] at htake
  | string => exact decodeSized_reads hfits (.take v)
  | vector t ih =>
    exact decodeSized_reads hfits.1 (.replicate (fun u hu => ih hreadable (hfits.2 u hu)))
  | list t ih =>
    exact decodeSized_reads hfits.1 (.replicate (fun u hu => ih hreadable (hfits.2 u hu)))
  | cls es ih => exact ih hreadable hfits
  | tupleNil => exact .give ()
  | tupleCons t ts iht ihts =>
    cases hp : p.inner with
    | none =>
      simp only [Readable,hp] at hreadable
    | some q =>
      simp only [Readable,hp] at hreadable
      simp only [decode,hp]
      exact (iht hreadable.1 hfits.1).bind ((ihts hreadable.2 hfits.2).map _)

end Ty

namespace Buffer

/-- The offset is inside the block, which an `int` can index. -/
structure InRange (b : Buffer) : Prop where
  nonneg : 0 ≤ b.offset.toInt
  le : b.offset.toInt ≤ b.data.length
  short : b.data.length < 2^31

/-- What is still to be read. -/
def rest (b : Buffer) : Bytes := b.data.drop b.offset.toInt.toNat

/-- The buffer when `rest` is what is still to be read. -/
def skipTo (b : Buffer) (rest : Bytes) : Buffer :=
  { b with offset := Int32.ofNat (b.data.length-rest.length) }

variable {b : Buffer} {rest : Bytes}

lemma suffix_data (h : rest <:+ b.rest) : rest <:+ b.data := h.trans (List.drop_suffix _ _)

lemma InRange.skipTo (hb : b.InRange) (rest : Bytes) : (b.skipTo rest).InRange := by
  have hoffset : (b.skipTo rest).offset.toInt = ↑(b.data.length-rest.length) :=
    Int32Range.toInt_ofNat_of_lt ((Nat.sub_le _ _).trans_lt hb.short)
  have hdata : (b.skipTo rest).data = b.data := rfl
  refine ⟨?_,?_,hb.short⟩
  · omega
  · rw [hoffset,hdata]
    exact_mod_cast Nat.sub_le _ _

lemma rest_skipTo (hb : b.InRange) (h : rest <:+ b.rest) : (b.skipTo rest).rest = rest := by
  have hoffset : (b.skipTo rest).offset.toInt.toNat = b.data.length-rest.length :=
    toNat_toInt_ofNat ((Nat.sub_le _ _).trans_lt hb.short)
  rw [Buffer.rest,hoffset]
  exact (List.suffix_iff_eq_drop.1 (suffix_data h)).symm

end Buffer

/-- Reading from a buffer does what the decoder does on the bytes still to be read. -/
def Refines {α : Type} (read : Buffer → Option (α × Buffer)) (d : Decoder UInt8 α) : Prop :=
  ∀ b : Buffer, b.InRange → read b = (d.run b.rest).map (fun r => (r.1,b.skipTo r.2))

namespace Refines
variable {α γ : Type} {read : Buffer → Option (α × Buffer)} {d : Decoder UInt8 α}

lemma give (a : α) : Refines (fun b => some (a,b)) (.give a) := by
  intro b hb
  have hsame : b.skipTo b.rest = b := by
    have hlength : b.data.length-b.rest.length = b.offset.toInt.toNat := by
      have hle := hb.le
      rw [Buffer.rest,List.length_drop]
      omega
    rw [Buffer.skipTo,hlength,Int32Range.ofNat_toNat_toInt hb.nonneg]
  simp [hsame]

lemma fail : Refines (fun _ => none) (.fail : Decoder UInt8 α) := fun _ _ => rfl

lemma bind {read' : α → Buffer → Option (γ × Buffer)} {f : α → Decoder UInt8 γ}
    (h : Refines read d) (hf : ∀ a, Refines (read' a) (f a)) :
    Refines (fun b => (read b).bind (fun r => read' r.1 r.2)) (d.bind f) := by
  intro b hb
  simp only [h b hb,Decoder.run_bind]
  cases hd : d.run b.rest with
  | none => rfl
  | some r =>
    obtain ⟨a,mid⟩ := r
    simp only [Option.map_some,Option.bind_some]
    rw [hf a _ (hb.skipTo mid),Buffer.rest_skipTo hb (d.suffix hd)]
    rfl

lemma map (f : α → γ) (h : Refines read d) :
    Refines (fun b => (read b).map (fun r => (f r.1,r.2))) (d.map f) := by
  intro b hb
  simp only [h b hb,Decoder.run_map,Option.map_map]
  rfl

lemma drawback (len : Int32) (hlen : 0 ≤ len.toInt) :
    Refines (fun b => b.drawback len) (.take len.toInt.toNat) := by
  intro b hb
  have hnonneg := hb.nonneg
  have hle := hb.le
  have hshort := hb.short
  have hrest : b.rest.length = b.data.length-b.offset.toInt.toNat := List.length_drop
  simp only [Buffer.drawback,Decoder.take]
  by_cases henough : len.toInt.toNat ≤ b.rest.length
  · rw [if_pos ⟨hlen,hnonneg,by omega⟩,if_pos henough,Option.map_some]
    have hoffset : b.offset+len =
        Int32.ofNat (b.data.length-(b.rest.drop len.toInt.toNat).length) := by
      apply Int32.toInt_inj.1
      rw [List.length_drop,Int32Range.toInt_add_of_fits ⟨by omega,by omega⟩,
        Int32Range.toInt_ofNat_of_lt (by omega)]
      omega
    rw [Buffer.skipTo,← hoffset]
    rfl
  · rw [if_neg (by omega),if_neg henough]
    rfl

lemma readArray (h : Refines read d) (n : ℕ) : Refines (readArray read n) (d.replicate n) := by
  induction n with
  | zero => exact give []
  | succ n ih => exact h.bind (fun a => ih.map (fun as => a::as))

lemma readInt : Refines readInt Ty.decodeInt :=
  (drawback 4 (by decide)).map intOfBytes

/-- A size read first, and what it governs. -/
lemma sized {body : Int32 → Buffer → Option (α × Buffer)} {d : ℕ → Decoder UInt8 α}
    (h : ∀ n : Int32, 0 ≤ n.toInt → Refines (body n) (d n.toInt.toNat)) :
    Refines (fun b => (GDFileStore.readInt b).bind fun r =>
      if r.1.toInt < 0 then none else body r.1 r.2) (Ty.decodeSized d) := by
  have hbody : ∀ n : Int32, Refines (fun b => if n.toInt < 0 then none else body n b)
      (if n.toInt < 0 then .fail else d n.toInt.toNat) := by
    intro n
    by_cases hn : n.toInt < 0
    · simp only [if_pos hn]
      exact fail
    · simp only [if_neg hn]
      exact h n (Int.not_lt.1 hn)
  exact readInt.bind hbody

/-- The loop over the elements; an empty vector or list returns before it. -/
lemma elements {read : Buffer → Option (α × Buffer)} {d : Decoder UInt8 α} (h : Refines read d)
    (n : Int32) : Refines (fun b =>
      if n = 0 then some ([],b) else GDFileStore.readArray read n.toInt.toNat b)
      (d.replicate n.toInt.toNat) := by
  by_cases hn : n = 0
  · subst hn
    simp only [if_true]
    exact give []
  · simp only [if_neg hn]
    exact h.readArray _

end Refines

namespace Ty

/-- `Read` carries out the decoder of its type, on every block and at every offset. -/
theorem read_refines (t : Ty) (p : Pointers) : Refines (t.read p) (t.decode p) := by
  induction t generalizing p with
  | arith w =>
    have hbytes : (Int32.ofNat w.bytes).toInt = w.bytes :=
      Int32Range.toInt_ofNat_of_lt (w.le.trans_lt (by decide))
    have htake := Refines.drawback (Int32.ofNat w.bytes) (by omega)
    rw [hbytes,Int.toNat_natCast] at htake
    exact htake.map (fun bytes => BitVec.ofNat (8*w.bytes) (ofLeBytes bytes))
  | string => exact Refines.sized (fun n hn => Refines.drawback n hn)
  | vector t ih => exact Refines.sized (fun n _ => (ih .unset).elements n)
  | list t ih => exact Refines.sized (fun n _ => (ih .unset).elements n)
  | cls es ih => exact ih p.getES
  | tupleNil => exact Refines.give ()
  | tupleCons t ts iht ihts =>
    cases hp : p.inner with
    | none =>
      intro b hb
      simp only [read,decode,hp]
      rfl
    | some q =>
      have hboth := (iht q).bind (fun v => (ihts p).map (fun vs => (v,vs)))
      intro b hb
      simp only [read,decode,hp]
      exact hboth b hb

/-- A value written anywhere in a block shorter than `2^31` is read back from its place, and the
offset moves to its end. -/
theorem read_encode {t : Ty} {p : Pointers} {v : t.Val} {before after : Bytes}
    (hreadable : t.Readable p) (hfits : t.Fits v)
    (hshort : (before ++ t.encode v ++ after).length < 2^31) :
    t.read p ⟨before ++ t.encode v ++ after,Int32.ofNat before.length⟩ =
      some (v,⟨before ++ t.encode v ++ after,Int32.ofNat (before ++ t.encode v).length⟩) := by
  let b : Buffer := ⟨before ++ t.encode v ++ after,Int32.ofNat before.length⟩
  simp only [List.length_append] at hshort
  have hoffset : b.offset.toInt = before.length := Int32Range.toInt_ofNat_of_lt (by omega)
  have hdata : b.data = before ++ t.encode v ++ after := rfl
  have hb : b.InRange := by
    refine ⟨by omega,?_,?_⟩
    · simp only [hoffset,hdata,List.length_append]
      omega
    · simp only [hdata,List.length_append]
      omega
  have hrest : b.rest = t.encode v ++ after := by
    rw [Buffer.rest,hoffset,Int.toNat_natCast,hdata,List.append_assoc,List.drop_left]
  have hread := t.read_refines p b hb
  rw [hrest,decode_reads hreadable hfits after,Option.map_some] at hread
  rw [hread]
  have hlength : b.data.length-after.length = (before ++ t.encode v).length := by
    simp only [hdata,List.length_append]
    omega
  simp only [Buffer.skipTo,hlength]
  rfl

end Ty
end GDFileStore
