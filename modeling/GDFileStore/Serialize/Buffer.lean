import GDFileStore.Arithmetic.Int32Range
import Mathlib.Data.List.Basic

/-! The serializer's data block and its read offset, with the two primitive transfers. -/
namespace GDFileStore

/-- A C++ string: bytes, zero bytes included. -/
abbrev Bytes := List UInt8

/-- `buffer`: a data block and the offset of the next read. -/
structure Buffer where
  data : Bytes := []
  offset : Int32 := 0
  deriving DecidableEq, Repr

namespace Buffer

/-- `data.append(len, 0)` followed by a copy of `len` bytes from `src`. A negative `len`
makes `std::string` throw, and a copy past the source is undefined; both are `none`. -/
def append (b : Buffer) (len : Int32) (src : Bytes) : Option Buffer :=
  if 0 ≤ len.toInt ∧ len.toInt ≤ src.length then
    some { b with data := b.data ++ src.take len.toInt.toNat }
  else none

/-- Copy `len` bytes at the offset out of the block and advance. A copy that leaves the
block is undefined and is `none`. -/
def drawback (b : Buffer) (len : Int32) : Option (Bytes × Buffer) :=
  if 0 ≤ len.toInt ∧ 0 ≤ b.offset.toInt ∧ b.offset.toInt+len.toInt ≤ b.data.length then
    some ((b.data.drop b.offset.toInt.toNat).take len.toInt.toNat,
      { b with offset := b.offset+len })
  else none

def universalStr (b : Buffer) : Bytes := b.data

/-- `WriteSequence` for characters. -/
def writeSequence (b : Buffer) (src : Bytes) (len : Int32) : Option Buffer := b.append len src

theorem append_eq {b : Buffer} {len : Int32} {src : Bytes} (h : len.toInt = src.length) :
    b.append len src = some { b with data := b.data ++ src } := by
  have hl : len.toInt.toNat = src.length := by omega
  rw [append,if_pos ⟨by omega,by omega⟩,hl,List.take_length]

end Buffer
end GDFileStore
