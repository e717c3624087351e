import GDFileStore.Objects.Identity

/-! Slices of shared buffers and the two kinds of edits of one object. -/
namespace GDFileStore

/-- `Slice`: the bytes `[start, stop)` of a shared buffer, or a bare range when `data` is null. -/
structure Slice where
  data : Option Buffer := none
  start : Int32 := 0
  stop : Int32 := 0
  deriving DecidableEq, Repr

namespace Slice

def getSize (s : Slice) : Int32 := s.stop-s.start

def subSlice (s : Slice) (start size : Int32) : Slice :=
  if start+size < s.getSize then ⟨s.data,s.start+start,s.start+start+size⟩
  else ⟨s.data,s.start+start,s.stop⟩

/-- `Slice(const string&)`: the whole of a fresh buffer. -/
def ofString (str : Bytes) : Slice := ⟨some { data := str },0,Int32.ofNat str.length⟩

end Slice

inductive OperationType
  | insert
  | delete
  deriving DecidableEq, Repr

inductive FileAnchor
  | begin
  | finish
  deriving DecidableEq, Repr

structure FilePos where
  fileAnchor : FileAnchor := .begin
  offset : Int32 := 0
  deriving DecidableEq, Repr

/-- `Operation`. A delete uses only the two ends of `data`. -/
structure Operation where
  operationType : OperationType
  data : Slice
  obj : GHObject := {}
  filePos : FilePos
  deriving DecidableEq, Repr

namespace Operation

def getFilePos (ope : Operation) (endPos : Int32) : Int32 :=
  match ope.filePos.fileAnchor with
  | .begin => ope.filePos.offset
  | .finish => ope.filePos.offset+endPos

end Operation

namespace OperationWrapper

def writeWrapper (ghobj : GHObject) (data : Bytes) : Operation :=
  ⟨.insert,.ofString data,ghobj,⟨.begin,0⟩⟩

def insertWrapper (ghobj : GHObject) (data : Bytes) (pos : Int32) : Operation :=
  ⟨.insert,.ofString data,ghobj,⟨.begin,pos⟩⟩

def deleteWrapper (ghobj : GHObject) (spanBegin spanEnd : Int32) : Operation :=
  ⟨.delete,⟨none,spanBegin,spanEnd⟩,ghobj,⟨.begin,0⟩⟩

def appendWrapper (ghobj : GHObject) (data : Bytes) : Operation :=
  ⟨.insert,.ofString data,ghobj,⟨.finish,0⟩⟩

end OperationWrapper
end GDFileStore
