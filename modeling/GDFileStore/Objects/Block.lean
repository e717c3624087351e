import GDFileStore.Objects.Identity

/-! The records of the block store and the operations a client asks of it. -/
namespace GDFileStore

/-- `ReferedBlock`: a stored block and the number of version lists that name it. -/
structure ReferedBlock where
  serial : Int64 := 0
  referCount : Int32 := 0
  deriving DecidableEq, Repr

/-- `ObjectWithRB`: the blocks of one version, in order. -/
structure ObjectWithRB where
  serialsList : List Int64 := []
  deriving DecidableEq, Repr

/-- `WOPE::opetype`. -/
inductive OpeType where
  | insert | delete | overWrite
  deriving DecidableEq, Repr

/-- `WOPE`: block edits that lead from the version `ghobj` to the version `newGhobj`. -/
structure WOPE where
  ghobj : GHObject
  newGhobj : GHObject
  types : List OpeType
  blockNums : List Int32
  blockDatas : List Bytes
  deriving DecidableEq, Repr

/-- `ROPE`. -/
structure ROPE where
  ghobj : GHObject
  blocks : List Int32
  deriving DecidableEq, Repr

/-- `ROPE_Result`. -/
structure ROPEResult where
  opeId : Bytes := []
  ghobj : GHObject := {}
  blocks : List Int32 := []
  datas : List Bytes := []
  deriving DecidableEq, Repr

/-- `WOpeLog::wope_state_Type`. -/
inductive WopeStateType where
  | other | init | onJournal | onDisk
  deriving DecidableEq, Repr

/-- `WOpeLog`: an accepted write, who asked for it and its next phase. -/
structure WOpeLog where
  opeId : Bytes
  wope : WOPE
  fromNode : InfoForNetNode
  wopeState : WopeStateType
  deriving DecidableEq, Repr

/-- `ROpeLog`. -/
structure ROpeLog where
  opeId : Bytes
  rope : ROPE
  fromNode : InfoForNetNode
  deriving DecidableEq, Repr

/-- `reqType`. -/
inductive ReqType where
  | write | read | writeDrawBack | primaryRecover
  deriving DecidableEq, Repr

/-- `repType`. -/
inductive RepType where
  | replicaJounralWrite | replicaDiskWrite | primaryJournalWrite | primaryDiskWrite
  | replicaJournalRecover | replicaDiskRecover | primaryJournalRecover | primaryDiskRecover
  | primaryRead
  deriving DecidableEq, Repr

end GDFileStore
