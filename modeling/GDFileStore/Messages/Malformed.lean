import GDFileStore.Messages.WriteRequest
import GDFileStore.Serialize.TryRead
import GDFileStore.Attributes.Key

/-! Bodies and attribute values that need not be what a sender has packed: each sequence of reads
gives values, throws or copies from outside the block, and which one the bytes say. -/
namespace GDFileStore
open Codec

/-- `Read<T>`. The value is the object representation, so that an enum may hold any `int`. -/
def Serializable.tryRead (α : Type) [Serializable α] : Reader Buffer (ty α).Val :=
  (ty α).tryRead .unset

/-- The reads of several values, one after another. -/
def Members.tryReads (M : Type) [Members M] : Reader Buffer (ty M).Val := (ty M).tryRead .toMembers

/-- `ReadArray` that makes a vector, whose constructor throws at a negative length. -/
def tryReadArray (α : Type) [Serializable α] (len : Int32) :
    Reader Buffer (List (Serializable.ty α).Val) :=
  if len.toInt < 0 then throw .refused else (Serializable.tryRead α).replicate len.toInt.toNat

open Serializable Members

/-- `from_string`. -/
def tryFromString (α : Type) [Serializable α] (str : Bytes) : Except Fault (ty α).Val := do
  let (v,_) ← (tryRead α).run { data := str }
  return v

/-- What every message has on its outside. -/
abbrev EnvelopeMembers := InfoForNetNode × InfoForNetNode × Buffer × Unit

/-- The buffer in it, with whatever offset it came with. -/
def innerBuffer (envelope : (Members.ty EnvelopeMembers).Val) : Buffer :=
  ⟨envelope.2.2.1.1,.ofBitVec envelope.2.2.1.2.1⟩

/-- The reads of a handler: the envelope from the body, and the members from the buffer in it. -/
def tryUnpack (M : Type) [Members M] (body : Bytes) :
    Except Fault ((Members.ty EnvelopeMembers).Val × (Members.ty M).Val) := do
  let (envelope,_) ← (tryReads EnvelopeMembers).run { data := body }
  let (members,_) ← (tryReads M).run (innerBuffer envelope)
  return (envelope,members)

namespace AsynServer

abbrev ReqWriteMembers := InfoForNetNode × List InfoForNetNode × WOPE × ReqType × Bytes × Unit

abbrev ReqReadMembers := InfoForNetNode × List InfoForNetNode × ROPE × ReqType × Bytes × Unit

/-- The handler of `/reqWrite`. -/
def tryReqWrite (body : Bytes) := tryUnpack ReqWriteMembers body

/-- The handler of `/reqRead`. -/
def tryReqRead (body : Bytes) := tryUnpack ReqReadMembers body

end AsynServer

namespace AsynClient

abbrev RepWriteMembers := InfoForNetNode × RepType × Bytes × Unit

abbrev RepReadMembers := ROPEResult × Unit

/-- The handler of `/repWrite`. -/
def tryRepWrite (body : Bytes) := tryUnpack RepWriteMembers body

/-- The handler of `/repRead`. -/
def tryRepRead (body : Bytes) := tryUnpack RepReadMembers body

end AsynClient

/-- The members that `GetES` lists, then `Slice::Read`. -/
def Slice.tryRead : Reader Buffer (BitVec 32 × BitVec 32 × Bytes) := do
  let start ← Serializable.tryRead Int32
  let stop ← Serializable.tryRead Int32
  let data ← Serializable.tryRead Bytes
  return (start,stop,data)

namespace FSConnnectionServer

/-- The members of the operation and its slice, the vector of OSDs and the flag. -/
abbrev WriteMembers := OperationType × Int32 × Int32 × Bytes × GHObject × FilePos ×
  List InfoForNetNode × Bool × Unit

/-- The handler of `/write`. -/
def tryWrite (content : Bytes) : Except Fault (Members.ty WriteMembers).Val := do
  let reads : Reader Buffer (Members.ty WriteMembers).Val := do
    let operationType ← tryRead OperationType
    let (start,stop,data) ← Slice.tryRead
    let obj ← tryRead GHObject
    let filePos ← tryRead FilePos
    let osdLen ← tryReadInt
    let osds ← tryReadArray InfoForNetNode osdLen
    let reloadConnection ← tryRead Bool
    return (operationType,start,stop,data,obj,filePos,osds,reloadConnection,())
  let (members,_) ← reads.run { data := content }
  return members

end FSConnnectionServer

/-- What comes of a sequence of reads: values where `accepts` says so, an exception exactly where
`refuses` does, and otherwise a copy from outside a block. -/
structure Outcome {α : Type} (r : Except Fault α) (accepts : α → Prop) (refuses : Prop) : Prop where
  ok_iff : ∀ a, r = .ok a ↔ accepts a
  refused_iff : r = .error .refused ↔ refuses
  overrun_iff : r = .error .overrun ↔ ¬refuses ∧ ∀ a, ¬accepts a

/-- The bytes begin with the encoding of the value. -/
def Begins (t : Ty) (b : Buffer) (v : t.Val) : Prop := t.Fits v ∧ b.Holds (t.encode v)

/-- The bytes begin with an encoding that has come to a negative size. -/
def BeginsRefused (t : Ty) (b : Buffer) : Prop := ∃ bytes, t.Refused bytes ∧ b.Holds bytes

/-- The same of the buffer in an envelope. -/
structure BeginsInside (t : Ty) (body : Bytes)
    (m : (Members.ty EnvelopeMembers).Val × t.Val) : Prop where
  envelope : Begins (Members.ty EnvelopeMembers) { data := body } m.1
  members : Begins t (innerBuffer m.1) m.2

def RefusedInside (t : Ty) (body : Bytes) : Prop :=
  BeginsRefused (Members.ty EnvelopeMembers) { data := body } ∨
    ∃ envelope, Begins (Members.ty EnvelopeMembers) { data := body } envelope ∧
      BeginsRefused t (innerBuffer envelope)

lemma Outcome.of {α : Type} {r : Except Fault α} {accepts : α → Prop} {refuses : Prop}
    (hok : ∀ a, r = .ok a ↔ accepts a) (hrefused : r = .error .refused ↔ refuses) :
    Outcome r accepts refuses where
  ok_iff := hok
  refused_iff := hrefused
  overrun_iff := by
    rw [← hrefused]
    simp only [← hok]
    cases r with
    | ok a => simp
    | error e => cases e <;> simp

section values
variable {α σ : Type} {r : Except Fault (α × σ)}

lemma value_eq_ok {a : α} : (do let (v,_) ← r; return v) = Except.ok a ↔ ∃ s, r = .ok (a,s) := by
  rw [except_bind_ok,Prod.exists]
  constructor
  · rintro ⟨v,s,hr,hv⟩
    cases hv
    exact ⟨s,hr⟩
  · rintro ⟨s,hr⟩
    exact ⟨a,s,hr,rfl⟩

lemma value_eq_error {e : Fault} :
    (do let (v,_) ← r; return v : Except Fault α) = Except.error e ↔ r = .error e := by
  rw [except_bind_error]
  exact or_iff_left (by rintro ⟨_,-,hv⟩; cases hv)

end values

section type
variable {t : Ty} {p : Pointers} (hreadable : t.Readable p)
include hreadable

lemma tryRead_ok_iff {b : Buffer} (h : 0 ≤ b.offset.toInt ∨ ∀ v, t.encode v ≠ []) (v : t.Val) :
    (∃ b', (t.tryRead p).run b = .ok (v,b')) ↔ Begins t b v := by
  have hahead := Buffer.ahead_iff (h.imp_right (fun hne => hne v))
  constructor
  · rintro ⟨b',hrun⟩
    obtain ⟨_,⟨hfits,rfl⟩,hv,-⟩ := ((Ty.tryRead_implements hreadable).ok_iff b v b').1 hrun
    exact ⟨hfits,hahead.1 hv⟩
  · rintro ⟨hfits,hv⟩
    exact ⟨_,((Ty.tryRead_implements hreadable).ok_iff b v _).2 ⟨_,⟨hfits,rfl⟩,hahead.2 hv,rfl⟩⟩

lemma tryRead_refused_iff (b : Buffer) :
    (t.tryRead p).run b = .error .refused ↔ BeginsRefused t b := by
  refine ((Ty.tryRead_implements hreadable).refused_iff b).trans (exists_congr fun bytes => ?_)
  exact and_congr_right (fun h => Buffer.ahead_iff (.inr (Ty.refused_ne_nil h)))

/-- The outcome of the reads of one type. -/
theorem tryRead_outcome (bytes : Bytes) :
    Outcome (do let (v,_) ← (t.tryRead p).run { data := bytes }; return v)
      (Begins t { data := bytes }) (BeginsRefused t { data := bytes }) :=
  .of (fun v => value_eq_ok.trans (tryRead_ok_iff hreadable (.inl le_rfl) v))
    (value_eq_error.trans (tryRead_refused_iff hreadable _))

end type

/-- Of a string that an `int` can index, `from_string` has a value where the reads give one, and is
undefined or throws where they do not. -/
theorem fromString_eq {α : Type} [Serializable α] (memory : α) {str : Bytes}
    (hshort : str.length < 2^31) :
    fromString memory str = (tryFromString α str).toOption.bind (fill memory) := by
  have hin : Buffer.InRange { data := str } := ⟨le_rfl,by simp,hshort⟩
  rw [fromString,Serializable.read]
  cases hread : (ty α).read .unset { data := str } with
  | some result =>
    obtain ⟨v,b'⟩ := result
    have hend : 0 ≤ b'.offset.toInt := by
      rw [(ty α).read_refines .unset _ hin,Option.map_eq_some_iff] at hread
      obtain ⟨r,-,hr⟩ := hread
      obtain ⟨rfl,rfl⟩ := Prod.mk.inj hr
      exact (hin.skipTo r.2).nonneg
    have hrun := Ty.tryRead_of_read Serializable.readable hread hend
    have htry : tryFromString α str = .ok v := value_eq_ok.2 ⟨b',hrun⟩
    rw [htry,Option.bind_some,Option.map_map]
    exact congrFun Option.map_id (fill memory v)
  | none =>
    cases htry : tryFromString α str with
    | error e => rfl
    | ok v =>
      obtain ⟨b',hrun⟩ := value_eq_ok.1 htry
      have hsome := (AgreesWith.tryRead (ty α) .unset _ v b' le_rfl (by simp) hrun).1
      cases hread.symm.trans hsome

/-- An encoding that begins with a string has at least its size. -/
lemma encode_ne_nil {ts ts' : Ty} (v : (Ty.tupleCons (.cls (.tupleCons .string ts)) ts').Val) :
    (Ty.tupleCons (.cls (.tupleCons .string ts)) ts').encode v ≠ [] := by
  intro hnil
  have hlength := congrArg List.length hnil
  simp only [Ty.encode,List.length_append,length_intBytes,List.length_nil] at hlength
  omega

/-- The outcome of a handler that opens an envelope. -/
theorem tryUnpack_outcome (M : Type) [Members M] (hne : ∀ m, (Members.ty M).encode m ≠ [])
    (body : Bytes) :
    Outcome (tryUnpack M body) (BeginsInside (Members.ty M) body)
      (RefusedInside (Members.ty M) body) := by
  have henvelope : (Members.ty EnvelopeMembers).Readable .toMembers := Members.readable
  have hmembers : (Members.ty M).Readable .toMembers := Members.readable
  refine .of (fun m => ?_) ?_
  · rw [tryUnpack,except_bind_ok,Prod.exists]
    constructor
    · rintro ⟨envelope,rest,henv,hrest⟩
      obtain ⟨⟨members,last⟩,hmem,hm⟩ := except_bind_ok.1 hrest
      cases hm
      exact ⟨(tryRead_ok_iff henvelope (.inl le_rfl) _).1 ⟨rest,henv⟩,
        (tryRead_ok_iff hmembers (.inr hne) _).1 ⟨last,hmem⟩⟩
    · rintro ⟨henv,hmem⟩
      obtain ⟨rest,henv⟩ := (tryRead_ok_iff henvelope (.inl le_rfl) _).2 henv
      obtain ⟨last,hmem⟩ := (tryRead_ok_iff hmembers (.inr hne) _).2 hmem
      exact ⟨m.1,rest,henv,except_bind_ok.2 ⟨(m.2,last),hmem,rfl⟩⟩
  · rw [tryUnpack,except_bind_error,Prod.exists]
    refine or_congr (tryRead_refused_iff henvelope _) ?_
    constructor
    · rintro ⟨envelope,rest,henv,hrest⟩
      have hrefused := (except_bind_error.1 hrest).resolve_right (by rintro ⟨_,-,hm⟩; cases hm)
      exact ⟨envelope,(tryRead_ok_iff henvelope (.inl le_rfl) _).1 ⟨rest,henv⟩,
        (tryRead_refused_iff hmembers _).1 hrefused⟩
    · rintro ⟨envelope,henv,hrefused⟩
      obtain ⟨rest,henv⟩ := (tryRead_ok_iff henvelope (.inl le_rfl) _).2 henv
      exact ⟨envelope,rest,henv,
        except_bind_error.2 (.inl ((tryRead_refused_iff hmembers _).2 hrefused))⟩

lemma tryReads_unit : tryReads Unit = pure () := rfl

lemma tryReads_cons (α M : Type) [Serializable α] [Members M] : tryReads (α × M) = (do
    let v ← tryRead α
    let vs ← tryReads M
    return (v,vs)) := rfl

/-- The number of the OSDs and the array are read as a vector is. -/
lemma tryReadArray_eq (α : Type) [Serializable α] [Inhabited α] :
    (do let osdLen ← tryReadInt; tryReadArray α osdLen) = tryRead (List α) := by
  refine bind_congr (fun n => ?_)
  by_cases hzero : n = 0
  · subst hzero
    rfl
  · rw [if_neg hzero]
    rfl

/-- The reads of `/write` are those of its members in a row. -/
lemma tryWrite_eq (content : Bytes) : FSConnnectionServer.tryWrite content =
    (do let (v,_) ← (tryReads FSConnnectionServer.WriteMembers).run { data := content }
        return v) := by
  have hreads : tryReads FSConnnectionServer.WriteMembers = (do
      let operationType ← tryRead OperationType
      let start ← tryRead Int32
      let stop ← tryRead Int32
      let data ← tryRead Bytes
      let obj ← tryRead GHObject
      let filePos ← tryRead FilePos
      let osds ← tryRead (List InfoForNetNode)
      let reloadConnection ← tryRead Bool
      return (operationType,start,stop,data,obj,filePos,osds,reloadConnection,())) := by
    simp only [tryReads_cons,tryReads_unit,bind_assoc,pure_bind]
  rw [hreads,FSConnnectionServer.tryWrite]
  simp only [Slice.tryRead,bind_assoc,pure_bind,← tryReadArray_eq]
  rfl

/-- On every body and every attribute value the reads end. They give values exactly where the bytes,
and the buffer in an envelope at its offset, begin with an encoding; they throw exactly where these
come to a negative size of a string or vector first; and they copy from outside on all others. -/
theorem decode_outcome (bytes : Bytes) :
    Outcome (FSConnnectionServer.tryWrite bytes)
      (Begins (Members.ty FSConnnectionServer.WriteMembers) { data := bytes })
      (BeginsRefused (Members.ty FSConnnectionServer.WriteMembers) { data := bytes }) ∧
    Outcome (AsynServer.tryReqWrite bytes) (BeginsInside (Members.ty AsynServer.ReqWriteMembers) bytes)
      (RefusedInside (Members.ty AsynServer.ReqWriteMembers) bytes) ∧
    Outcome (AsynServer.tryReqRead bytes) (BeginsInside (Members.ty AsynServer.ReqReadMembers) bytes)
      (RefusedInside (Members.ty AsynServer.ReqReadMembers) bytes) ∧
    Outcome (AsynClient.tryRepWrite bytes) (BeginsInside (Members.ty AsynClient.RepWriteMembers) bytes)
      (RefusedInside (Members.ty AsynClient.RepWriteMembers) bytes) ∧
    Outcome (AsynClient.tryRepRead bytes) (BeginsInside (Members.ty AsynClient.RepReadMembers) bytes)
      (RefusedInside (Members.ty AsynClient.RepReadMembers) bytes) ∧
    Outcome (tryFromString ObjectWithRB bytes)
      (Begins (Serializable.ty ObjectWithRB) { data := bytes })
      (BeginsRefused (Serializable.ty ObjectWithRB) { data := bytes }) ∧
    Outcome (tryFromString ReferedBlock bytes)
      (Begins (Serializable.ty ReferedBlock) { data := bytes })
      (BeginsRefused (Serializable.ty ReferedBlock) { data := bytes }) := by
  refine ⟨?_,tryUnpack_outcome _ (fun m => encode_ne_nil m) bytes,
    tryUnpack_outcome _ (fun m => encode_ne_nil m) bytes,
    tryUnpack_outcome _ (fun m => encode_ne_nil m) bytes,
    tryUnpack_outcome _ (fun m => encode_ne_nil m) bytes,
    tryRead_outcome Serializable.readable _,tryRead_outcome Serializable.readable _⟩
  rw [tryWrite_eq]
  exact tryRead_outcome Members.readable _

/-- A body that is cut off within its first size, and an attribute of one byte. -/
theorem decode_overruns : ¬ ∀ bytes : Bytes,
    FSConnnectionServer.tryWrite bytes ≠ .error .overrun ∧
    AsynServer.tryReqWrite bytes ≠ .error .overrun ∧ AsynServer.tryReqRead bytes ≠ .error .overrun ∧
    AsynClient.tryRepWrite bytes ≠ .error .overrun ∧ AsynClient.tryRepRead bytes ≠ .error .overrun ∧
    tryFromString ObjectWithRB bytes ≠ .error .overrun ∧
    tryFromString ReferedBlock bytes ≠ .error .overrun := by
  intro hclaim
  have hcut : AsynServer.tryReqWrite [0] = .error .overrun := by rfl
  exact (hclaim [0]).2.1 hcut

end GDFileStore
