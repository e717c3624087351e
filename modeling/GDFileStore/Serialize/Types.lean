import GDFileStore.Serialize.Buffer
import GDFileStore.Codec.LittleEndian

/-! The types the serializer handles and its `Write` and `Read`, branch by branch. -/
namespace GDFileStore
open Codec

/-- The size of an arithmetic type or an enum. -/
structure Width where
  bytes : ℕ
  le : bytes ≤ 16

namespace Width

abbrev one : Width := ⟨1,by decide⟩

abbrev four : Width := ⟨4,by decide⟩

abbrev eight : Width := ⟨8,by decide⟩

end Width

/-- A serializable type. A tuple is one of pointers to values; a class is given by the tuple its
`GetES` makes. -/
inductive Ty where
  | arith (w : Width)
  | string
  | vector (t : Ty)
  | list (t : Ty)
  | cls (es : Ty)
  | tupleNil
  | tupleCons (t ts : Ty)

/-- The values of a type: the object representation of arithmetic types, what the pointers of a
tuple point at, the members of a class. -/
@[reducible] def Ty.Val : Ty → Type
  | .arith w => BitVec (8*w.bytes)
  | .string => Bytes
  | .vector t => List t.Val
  | .list t => List t.Val
  | .cls es => es.Val
  | .tupleNil => Unit
  | .tupleCons t ts => t.Val × ts.Val

/-- Where the pointers of tuples lead in the memory that is read into. Nothing has set them in an
element of a vector or list, or in the cache of a `Read` that returns its value; those of the
tuple `GetES` makes lead to the members; in an object of the caller they are as the caller has
set them. -/
inductive Pointers where
  | unset | toMembers | ofCaller
  deriving DecidableEq, Repr

namespace Pointers

/-- The pointers in what these lead to, if they lead anywhere. -/
def inner : Pointers → Option Pointers
  | .unset => none
  | .toMembers => some .unset
  | .ofCaller => some .ofCaller

/-- The pointers of the tuple that `GetES` makes of an object in such memory. -/
def getES : Pointers → Pointers
  | .unset => .toMembers
  | .toMembers => .toMembers
  | .ofCaller => .ofCaller

end Pointers

/-- The object representation of an `int`. -/
def intBytes (n : Int32) : Bytes := leBytes 4 n.toBitVec.toNat

def intOfBytes (bytes : Bytes) : Int32 := .ofBitVec (BitVec.ofNat 32 (ofLeBytes bytes))

section Arrays
variable {α : Type}

/-- `WriteArray`, and the loop that writes a list. -/
def writeArray (write : Buffer → α → Option Buffer) : List α → Buffer → Option Buffer
  | [],b => some b
  | v::vs,b => (write b v).bind (writeArray write vs)

/-- `ReadArray`, and the loop that reads a list. -/
def readArray (read : Buffer → Option (α × Buffer)) : ℕ → Buffer → Option (List α × Buffer)
  | 0,b => some ([],b)
  | n+1,b => (read b).bind fun r =>
    (readArray read n r.2).map fun rs => (r.1::rs.1,rs.2)

end Arrays

def readInt (b : Buffer) : Option (Int32 × Buffer) :=
  (b.drawback 4).map fun r => (intOfBytes r.1,r.2)

namespace Ty

/-- `Write`. A vector is written by index up to its size as an `int`. -/
def write : (t : Ty) → Buffer → t.Val → Option Buffer
  | .arith w,b,v => b.append (Int32.ofNat w.bytes) (leBytes w.bytes v.toNat)
  | .string,b,s =>
    let len := Int32.ofNat s.length
    (b.append 4 (intBytes len)).bind fun b => b.append len s
  | .vector t,b,vs =>
    let sz := Int32.ofNat vs.length
    (b.append 4 (intBytes sz)).bind fun b =>
      if sz = 0 then some b else writeArray t.write (vs.take sz.toInt.toNat) b
  | .list t,b,vs =>
    let sz := Int32.ofNat vs.length
    (b.append 4 (intBytes sz)).bind fun b => if sz = 0 then some b else writeArray t.write vs b
  | .cls es,b,v => es.write b v
  | .tupleNil,b,_ => some b
  | .tupleCons t ts,b,v => (t.write b v.1).bind fun b => ts.write b v.2

/-- `Read`. A negative size makes the string or vector constructor throw, and a list loop run off
the block; following a pointer that is not set is undefined. -/
def read : (t : Ty) → Pointers → Buffer → Option (t.Val × Buffer)
  | .arith w,_,b => (b.drawback (Int32.ofNat w.bytes)).map fun r =>
    (BitVec.ofNat (8*w.bytes) (ofLeBytes r.1),r.2)
  | .string,_,b => (readInt b).bind fun r =>
    if r.1.toInt < 0 then none else r.2.drawback r.1
  | .vector t,_,b => (readInt b).bind fun r =>
    if r.1.toInt < 0 then none
    else if r.1 = 0 then some ([],r.2)
    else readArray (t.read .unset) r.1.toInt.toNat r.2
  | .list t,_,b => (readInt b).bind fun r =>
    if r.1.toInt < 0 then none
    else if r.1 = 0 then some ([],r.2)
    else readArray (t.read .unset) r.1.toInt.toNat r.2
  | .cls es,p,b => es.read p.getES b
  | .tupleNil,_,b => some ((),b)
  | .tupleCons t ts,p,b =>
    match p.inner with
    | none => none
    | some q => (t.read q b).bind fun r =>
      (ts.read p r.2).map fun rs => ((r.1,rs.1),rs.2)

end Ty
end GDFileStore
