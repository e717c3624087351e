import GDFileStore.Serialize.Buffer

/-! The nested classes that name a stored object, and the identity they key records by. -/
namespace GDFileStore

/-- The bytes of an ASCII literal. -/
def lit (s : String) : Bytes := s.toList.map (fun c => UInt8.ofNat c.toNat)

/-- `'/'`. -/
def slash : UInt8 := 47

/-- `Snapid_t`. -/
structure Snapid where
  timeStamp : Int64 := 0
  deriving DecidableEq, Repr

/-- `Object_t`. -/
structure ObjectName where
  name : Bytes := []
  deriving DecidableEq, Repr

/-- `HObject_t`. Its member list for serialization leaves out `pool`. -/
structure HObject where
  oid : ObjectName := {}
  snap : Snapid := {}
  hash : UInt32 := 0
  max : Bool := false
  pool : Int64 := 0
  deriving DecidableEq, Repr

/-- `shard_id_t`. -/
structure ShardId where
  id : Int8 := 0
  deriving DecidableEq, Repr

/-- `GHObject_t`: one version of an object, with its owner. -/
structure GHObject where
  hobj : HObject := {}
  generation : Int64 := 0
  shardId : ShardId := {}
  owner : Bytes := lit "default-user"
  deriving DecidableEq, Repr

/-- The members of a `GHObject_t` that enter its attribute key. -/
structure GHKey where
  name : Bytes
  timeStamp : Int64
  hash : UInt32
  max : Bool
  generation : Int64
  shard : Int8
  owner : Bytes
  deriving DecidableEq, Repr

/-- `Get_Key` on a `GHObject_t` encodes exactly these members. -/
def GHObject.key (g : GHObject) : GHKey :=
  ⟨g.hobj.oid.name,g.hobj.snap.timeStamp,g.hobj.hash,g.hobj.max,g.generation,g.shardId.id,g.owner⟩

/-- The version of one object with generation `n`. -/
def generation (n : ℕ) : GHObject := { generation := Int64.ofNat n }

lemma generation_key_ne {m n : ℕ} (hm : m < 2^63) (hn : n < 2^63) (h : m ≠ n) :
    (generation m).key ≠ (generation n).key := by
  intro heq
  have hgen : Int64.ofNat m = Int64.ofNat n := congrArg GHKey.generation heq
  have hint := congrArg Int64.toInt hgen
  rw [Int64.toInt_ofNat_of_lt hm,Int64.toInt_ofNat_of_lt hn] at hint
  exact h (by exact_mod_cast hint)

/-- `InfoForOSD`, also used as `InfoForNetNode`. -/
structure InfoForNetNode where
  name : Bytes := []
  host : Bytes := []
  port : Int32 := 0
  deriving DecidableEq, Repr

end GDFileStore
