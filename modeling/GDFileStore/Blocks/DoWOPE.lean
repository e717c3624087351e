import GDFileStore.Blocks.World
import GDFileStore.Sequences.ListEdit

/-! The journaled write, the phases of a write operation and the block read, as the program
runs them. -/
namespace GDFileStore
open Sequences Program Prog

/-- A program over the database, the files and the clock. -/
abbrev Task (α : Type) := Prog Request.Resp α

namespace Task

abbrev getObjAttr (key : GHKey) : Task (ObjectWithRB × Bool) := ask (Request.getObjAttr key)

abbrev setObjAttr (key : GHKey) (attr : ObjectWithRB) : Task Unit :=
  ask (Request.setObjAttr key attr)

abbrev getBlockAttr (serial : Int64) : Task (ReferedBlock × Bool) :=
  ask (Request.getBlockAttr serial)

abbrev setBlockAttr (serial : Int64) (attr : ReferedBlock) : Task Unit :=
  ask (Request.setBlockAttr serial attr)

abbrev now : Task Int64 := ask Request.now

abbrev writeFile (path content : Bytes) : Task Bool := ask (Request.writeFile path content)

end Task

def outOfRange {α : Type} : Task α := .call Request.outOfRange (fun e => e.elim)

/-- What the two servers are told at the end of a phase or a read: `repWrite` answers the
client of `log` with its `opeId`, `repRead` carries the result. -/
inductive Reply where
  | repWrite (log : WOpeLog) (rt : RepType)
  | repRead (log : ROpeLog) (result : ROPEResult)
  deriving DecidableEq, Repr

/-- A call made by `do_wope` or `do_rope`: to the journal, to the database and the files, to
`http_send`, or to `add_wope`. -/
inductive Call where
  | journal (wopelog : WOpeLog)
  | request (r : Request)
  | httpSend (reply : Reply)
  | addWope (wopelog : WOpeLog)

abbrev Call.Resp : Call → Type
  | .journal _ => Unit
  | .request r => r.Resp
  | .httpSend _ => Bool
  | .addWope _ => Unit

/-- A program over these calls. -/
abbrev Job (α : Type) := Prog Call.Resp α

namespace Job

abbrev journal (wopelog : WOpeLog) : Job Unit := ask (Call.journal wopelog)

abbrev getObjAttr (key : GHKey) : Job (ObjectWithRB × Bool) :=
  ask (Call.request (.getObjAttr key))

abbrev getBlockAttr (serial : Int64) : Job (ReferedBlock × Bool) :=
  ask (Call.request (.getBlockAttr serial))

abbrev copy (source directory : Bytes) : Job Bool := ask (Call.request (.copy source directory))

abbrev readFile (path : Bytes) : Job Bytes := ask (Call.request (.readFile path))

abbrev httpSend (reply : Reply) : Job Bool := ask (Call.httpSend reply)

abbrev addWope (wopelog : WOpeLog) : Job Unit := ask (Call.addWope wopelog)

end Job

namespace FileStore
variable (fs : FileStore)

def addNewReferedBlock (data rootPath : Bytes) : Task ReferedBlock := do
  let serial ← Task.now
  let rb : ReferedBlock := { serial := serial, referCount := 0 }
  let _ ← Task.writeFile (getReferedBlockStoragePath fs.hash rb rootPath) data
  return rb

/-- The loop over the edits. The iterator is moved `block_num` times from the beginning, which
is no move for a negative number, and may stop at the end but not beyond. -/
def editLoop : List OpeType → List Int32 → List Bytes → List Int64 → Task (List Int64)
  | _,[],_,serialsList => pure serialsList
  | opetype::types,blockNum::blockNums,blockData::blockDatas,serialsList =>
    let p := blockNum.toInt.toNat
    if serialsList.length < p then outOfRange
    else match opetype with
      | .delete =>
        if p < serialsList.length then
          editLoop types blockNums blockDatas (serialsList.eraseIdx p)
        else outOfRange
      | .insert => do
        let newRb ← fs.addNewReferedBlock blockData fs.getJournalRBRoot
        Task.setBlockAttr newRb.serial newRb
        editLoop types blockNums blockDatas (serialsList.insertIdx p newRb.serial)
      | .overWrite => do
        let newRb ← fs.addNewReferedBlock blockData fs.getJournalRBRoot
        if p < serialsList.length then do
          Task.setBlockAttr newRb.serial newRb
          editLoop types blockNums blockDatas (serialsList.set p newRb.serial)
        else outOfRange
  | _,_::_,_,_ => outOfRange

/-- The pass that counts every block of the new list once more. -/
def countLoop : List Int64 → Task Unit
  | [] => pure ()
  | rb::serialsList => do
    let rbAttr ← Task.getBlockAttr rb
    Task.setBlockAttr rb { rbAttr.1 with referCount := rbAttr.1.referCount+1 }
    countLoop serialsList

/-- `Journal::do_WOPE`. -/
def doWOPE (wopelog : WOpeLog) : Task Unit := do
  let wope := wopelog.wope
  let prb ← Task.getObjAttr wope.ghobj.key
  let orb := if prb.2 then prb.1 else { serialsList := [] }
  let serialsList ← fs.editLoop wope.types wope.blockNums wope.blockDatas orb.serialsList
  countLoop serialsList
  Task.setObjAttr wope.newGhobj.key { serialsList := serialsList }

/-- The loop of the `onJournal` phase: a block counted once is new, and is copied. -/
def copyLoop : List Int64 → Job Unit
  | [] => pure ()
  | rbs::serialsList => do
    let rbAttr ← Job.getBlockAttr rbs
    if rbAttr.1.referCount = 1 then do
      let fromPath := getReferedBlockStoragePath fs.hash rbAttr.1 fs.getJournalRBRoot
      let toParent := getParentStr (getReferedBlockStoragePath fs.hash rbAttr.1 fs.getRBRoot)
      let _ ← Job.copy fromPath toParent
      copyLoop serialsList
    else copyLoop serialsList

/-- `GDFileStore::do_wope`. -/
def doWope (wopelog : WOpeLog) : Job Unit :=
  match wopelog.wopeState with
  | .init => do
    Job.journal wopelog
    let _ ← Job.httpSend (.repWrite wopelog .primaryJournalWrite)
    Job.addWope { wopelog with wopeState := .onJournal }
  | .onJournal => do
    let porb ← Job.getObjAttr wopelog.wope.newGhobj.key
    fs.copyLoop porb.1.serialsList
    Job.addWope { wopelog with wopeState := .onDisk }
  | .onDisk => do
    let _ ← Job.httpSend (.repWrite wopelog .primaryDiskWrite)
    return ()
  | .other => pure ()

/-- The loop of a read: each requested index must be one of the list. -/
def readBlocks (serials : List Int64) : List Int32 → Job (List Bytes)
  | [] => pure []
  | block::blocks =>
    match serials[block.toInt.toNat]? with
    | none => .call (Call.request .outOfRange) (fun e => e.elim)
    | some serial =>
      if 0 ≤ block.toInt then do
        let path := getReferedBlockStoragePath fs.hash { serial := serial } fs.getRBRoot
        let data ← Job.readFile path
        let blockDatas ← readBlocks serials blocks
        return data::blockDatas
      else .call (Call.request .outOfRange) (fun e => e.elim)

/-- `GDFileStore::do_rope`. -/
def doRope (ropelog : ROpeLog) : Job Unit := do
  let rope := ropelog.rope
  let ghAttr ← Job.getObjAttr rope.ghobj.key
  let blockDatas ← fs.readBlocks ghAttr.1.serialsList rope.blocks
  let result : ROPEResult := ⟨ropelog.opeId,rope.ghobj,rope.blocks,blockDatas⟩
  let _ ← Job.httpSend (.repRead ropelog result)
  return ()

end FileStore

/-- A store with its queue of writes and the replies it has sent. -/
structure Node where
  world : World
  wopeLogs : List WOpeLog := []
  sent : List Reply := []

/-- The outcome of a call when every file operation and every send succeeds. -/
def Call.handle (fs : FileStore) : Handler Call.Resp Node
  | .journal wopelog,n =>
    (run Request.handle (fs.doWOPE wopelog) n.world).map (fun r => ((),{ n with world := r.2 }))
  | .request r,n => (r.handle n.world).map (fun a => (a.1,{ n with world := a.2 }))
  | .httpSend reply,n => some (true,{ n with sent := n.sent ++ [reply] })
  | .addWope wopelog,n => some ((),{ n with wopeLogs := n.wopeLogs ++ [wopelog] })

end GDFileStore
