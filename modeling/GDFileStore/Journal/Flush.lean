import GDFileStore.Combine.Content
import GDFileStore.Objects.Order
import GDFileStore.Program.Prog
import Mathlib.Logic.Function.Basic

/-! `Journal`: write operations collect in memory, and a flush edits the file of each object by
its operations. Every critical section and every step on a file is a request of its own. -/
namespace GDFileStore
open Sequences Program Prog

/-- One step of a thread on what the journal's threads share. -/
inductive JournalRequest where
  /-- `push_back` or `insert` into `wOpes`, under the mutex of that name. -/
  | add (opes : List Operation)
  /-- Take and give back `access_to_wOpes`. -/
  | lock
  | unlock
  /-- The loop over `wOpes` that groups them by object. -/
  | group
  /-- `wOpes.clear()`. -/
  | clear
  /-- `ofstream out(path)`, which empties the file or makes an empty one. -/
  | openFile (path : Bytes)
  /-- `out << content << flush`, with the operations that the content was made by. -/
  | writeContent (path content : Bytes) (opes : List Operation)
  /-- An access outside the slice list, which has no defined outcome. -/
  | outOfRange

abbrev JournalRequest.Resp : JournalRequest → Type
  | .add _ => Unit
  | .lock => Unit
  | .unlock => Unit
  | .group => OrderedMap GHObject.lt (List Operation)
  | .clear => Unit
  | .openFile _ => Unit
  | .writeContent _ _ _ => Unit
  | .outOfRange => Empty

/-- What a thread of the journal still has to do. -/
abbrev JournalTask (α : Type) := Prog JournalRequest.Resp α

/-- A content that a flush has written, with the operations that it was made by. -/
structure FlushedContent where
  path : Bytes
  content : Bytes
  opes : List Operation

/-- What the threads share, and all that they have written, of which the code keeps no record. -/
@[ext] structure JournalState where
  wOpes : List Operation := []
  locked : Bool := false
  files : Bytes → Option Bytes := fun _ => none
  flushed : List FlushedContent := []

/-- `ReadFile`: a file that is not there reads as empty. -/
def readFile (files : Bytes → Option Bytes) (path : Bytes) : Bytes := (files path).getD []

structure Journal where
  storagePath : Bytes
  logJournalHead : Bytes := lit "journal::"

namespace Journal
variable (journal : Journal)

/-- The path of an object's journal file. Files are kept by their paths as written, which is as the
operating system has them where owner and name are plain. -/
def path (gh : GHObject) : Bytes := journal.storagePath ++ lit "/" ++ getObjUniqueStrDesc gh

/-- One turn of the grouping loop. The first operation on an object is preceded by a write of what
its file holds. -/
def groupStep (files : Bytes → Option Bytes) (g2os : OrderedMap GHObject.lt (List Operation))
    (ope : Operation) : OrderedMap GHObject.lt (List Operation) :=
  let os := (g2os.find ope.obj).getD []
  let os := if os.length = 0 then
      [OperationWrapper.writeWrapper ope.obj (readFile files (journal.path ope.obj))]
    else os
  g2os.insert ope.obj (os ++ [ope])

def groupOperations (files : Bytes → Option Bytes) (wOpes : List Operation) :
    OrderedMap GHObject.lt (List Operation) := wOpes.foldl (journal.groupStep files) ∅

/-- The outcome of a step when every file operation succeeds; a lock that is held has to be waited
for. -/
def handle : Handler JournalRequest.Resp JournalState
  | .add opes,s => some ((),{ s with wOpes := s.wOpes ++ opes })
  | .lock,s => if s.locked then none else some ((),{ s with locked := true })
  | .unlock,s => some ((),{ s with locked := false })
  | .group,s => some (journal.groupOperations s.files s.wOpes,s)
  | .clear,s => some ((),{ s with wOpes := [] })
  | .openFile path,s => some ((),{ s with files := Function.update s.files path (some []) })
  | .writeContent path content opes,s => some ((),{ s with
      files := Function.update s.files path (some content)
      flushed := s.flushed ++ [⟨path,content,opes⟩] })
  | .outOfRange,_ => none

/-- `WriteFile`. -/
def writeFile (path content : Bytes) (opes : List Operation) : JournalTask Unit := do
  ask (JournalRequest.openFile path)
  ask (JournalRequest.writeContent path content opes)

/-- The bytes of an object after its operations: the combined slices, copied out. -/
def combined (v : List Operation) : Option Bytes := do
  let (ret,_) ← Operation.combineOperationsForOneSameObject v
  let buf ← Operation.getBufferFromSlices ret
  return buf.universalStr

/-- One turn of the loop over the groups. -/
def flushObject (obj : GHObject) (v : List Operation) : JournalTask Unit :=
  match combined v with
  | none => .call .outOfRange Empty.elim
  | some content => writeFile (journal.path obj) content v.tail

def flushObjects : List (GHObject × List Operation) → JournalTask Unit
  | [] => pure ()
  | e::g2os => do
    journal.flushObject e.1 e.2
    flushObjects g2os

/-- `_flushProcessor`. -/
def flushProcessor : JournalTask Unit := do
  ask JournalRequest.lock
  let g2os ← ask JournalRequest.group
  ask JournalRequest.clear
  journal.flushObjects g2os.entries
  ask JournalRequest.unlock

/-- `_AddWriteOperation`, of one operation or of several. -/
def addWriteOperation (opes : List Operation) : JournalTask Unit :=
  ask (JournalRequest.add opes)

end Journal

/-- A call of one of the two `HandleWriteOperation`. -/
inductive JournalCall where
  | one (wOpe : Operation) (emengency : Bool)
  | many (wOpe : List Operation) (emengency : Bool)
  deriving DecidableEq, Repr

namespace JournalCall

def opes : JournalCall → List Operation
  | .one wOpe _ => [wOpe]
  | .many wOpe _ => wOpe

def emengency : JournalCall → Bool
  | .one _ emengency => emengency
  | .many _ emengency => emengency

/-- All the operations of the calls, in their order. -/
def operations (calls : List JournalCall) : List Operation := calls.flatMap opes

/-- The last call flushes. -/
def EndFlushed (calls : List JournalCall) : Prop := calls.getLast?.map emengency = some true

instance (calls : List JournalCall) : Decidable (EndFlushed calls) :=
  inferInstanceAs (Decidable (_ = _))

end JournalCall

namespace Journal
variable (journal : Journal)

/-- `HandleWriteOperation`. -/
def handleWriteOperation (call : JournalCall) : JournalTask Unit := do
  addWriteOperation call.opes
  if call.emengency then journal.flushProcessor

/-- Calls of one thread, one after another. -/
def handleAll : List JournalCall → JournalTask Unit
  | [] => pure ()
  | c::calls => do
    journal.handleWriteOperation c
    handleAll calls

end Journal
end GDFileStore
