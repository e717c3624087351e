import GDFileStore.Objects.Operation
import Mathlib.Algebra.BigOperators.Group.List.Basic

/-! `Operation::CombineOperationsForOneSameObject`: the slice list is split, shifted and
erased in place while the operations run over it. -/
namespace GDFileStore.Operation

/-- The search that every branch of the combiner runs: walk over the slices that end at or
before the running offset. The index is the list's length when no slice contains it. -/
def seek (pos : Int32) : List Slice → ℕ × Int32
  | [] => (0,pos)
  | s::rest =>
    if pos ≥ s.getSize then
      let r := seek (pos-s.getSize) rest
      (r.1+1,r.2)
    else (0,pos)

/-- The Insert branch. `none` is a use of `list[i]` with `i` out of range. -/
def combineInsert (list : List Slice) (totalLength filePos : Int32) (data : Slice) :
    Option (List Slice) :=
  if filePos = totalLength then some (list ++ [data])
  else
    let (i,filePos) := seek filePos list
    if filePos = 0 then some (list.insertIdx i data)
    else do
      let si ← list[i]?
      let firstPart := si.subSlice 0 filePos
      let newSlices := [data,si.subSlice filePos (si.getSize-filePos)]
      let list := list.set i firstPart
      some (list.take (i+1) ++ newSlices ++ list.drop (i+1))

/-- The Delete branch. `none` is a use of `list[i]` or `list[j]` out of range. -/
def combineDelete (list : List Slice) (filePos : Int32) (data : Slice) : Option (List Slice) := do
  let deleteSpan := data.getSize
  let (i,deleteBegin) := seek (filePos+data.start) list
  let si ← list[i]?
  let foreRest := si.subSlice 0 deleteBegin
  if deleteBegin+deleteSpan ≤ si.getSize then
    let backRest := si.subSlice (deleteBegin+deleteSpan) (si.getSize-deleteBegin-deleteSpan)
    some ((list.set i foreRest).insertIdx (i+1) backRest)
  else
    let (d,deleteEnd) := seek (deleteBegin+deleteSpan) (list.drop i)
    let j := i+d
    let list := list.set i foreRest
    let sj ← list[j]?
    let list := list.set j (sj.subSlice deleteEnd (sj.getSize-deleteEnd))
    -- list.erase(begin+i+1, begin+j)
    some (list.take (i+1) ++ list.drop j)

/-- One turn of the loop over the operations. -/
def combineStep (acc : List Slice × Int32) (operation : Operation) :
    Option (List Slice × Int32) := do
  let (list,totalLength) := acc
  let filePos := operation.getFilePos totalLength
  match operation.operationType with
  | .insert =>
    let list ← combineInsert list totalLength filePos operation.data
    some (list,totalLength+operation.data.getSize)
  | .delete =>
    let list ← combineDelete list filePos operation.data
    some (list,totalLength-operation.data.getSize)

/-- The returned slices and `out_totalLength`, or `none` once an index is out of range. -/
def combineOperationsForOneSameObject (operations : List Operation) :
    Option (List Slice × Int32) :=
  operations.foldlM combineStep ([],0)

/-- The bytes that `WriteSequence` copies out of a slice; `none` is a copy that leaves the
backing buffer. -/
def sliceBytes (slice : Slice) (buffer : Buffer) : Option Bytes :=
  if 0 ≤ slice.start.toInt ∧ 0 ≤ slice.getSize.toInt ∧
      slice.start.toInt+slice.getSize.toInt ≤ buffer.data.length then
    some ((buffer.data.drop slice.start.toInt.toNat).take slice.getSize.toInt.toNat)
  else none

/-- One turn of the loop of `GetBufferFromSlices`; a slice without a buffer is skipped. -/
def writeSlice (buf : Buffer) (slice : Slice) : Option Buffer :=
  match slice.data with
  | none => some buf
  | some buffer => do
    let bytes ← sliceBytes slice buffer
    buf.writeSequence bytes slice.getSize

def getBufferFromSlices (slices : List Slice) : Option Buffer :=
  slices.foldlM writeSlice {}

example : (combineOperationsForOneSameObject
    [OperationWrapper.writeWrapper {} (lit "12345"),OperationWrapper.appendWrapper {} (lit "67890"),
      OperationWrapper.deleteWrapper {} 3 7,OperationWrapper.insertWrapper {} (lit "abcd") 3]).bind
      (fun r => getBufferFromSlices r.1) = some { data := lit "123abcd890" } := by decide

end GDFileStore.Operation
