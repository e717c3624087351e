import GDFileStore.Attributes.Key

/-! Short headers that stand for objects in keys: two caches, two records for each pair and a
persistent counter, with the four operations on them. -/
namespace GDFileStore
open Sequences

/-- `Header`, with the order of its key. -/
structure Header where
  key : UInt32 := 0
  deriving DecidableEq, Repr

namespace Header

def lt (a b : Header) : Prop := a.key < b.key

instance : DecidableRel lt := fun _ _ => inferInstanceAs (Decidable (_ < _))

instance : IsStrictTotalOrder Header lt where
  irrefl _ := UInt32.lt_irrefl _
  trans _ _ _ := UInt32.lt_trans
  trichotomous := by
    rintro ⟨a⟩ ⟨b⟩ hab hba
    exact congrArg mk (UInt32.le_antisymm (UInt32.not_lt.1 hba) (UInt32.not_lt.1 hab))

/-- `to_string`. -/
def toString (h : Header) : Bytes := lit "h_" ++ decimal h.key.toNat

end Header

instance : Inhabited Header := ⟨{}⟩

instance : Serializable Header :=
  .ofGetES (fun h => (h.key,())) (fun _ m => ⟨m.1⟩) (fun _ _ => rfl)

/-- `std::stoull`: white space, one sign, and the digits up to the first other byte. It throws
where there is no digit or the number does not fit. -/
def stoull (str : Bytes) : Option UInt64 :=
  let str := str.dropWhile (fun b => b = 32 ∨ 9 ≤ b ∧ b ≤ 13)
  let unsigned := if str.head? = some 43 ∨ str.head? = some 45 then str.tail else str
  let digits := unsigned.takeWhile (fun b => 48 ≤ b ∧ b ≤ 57)
  if digits = [] ∨ 2^64 ≤ ofDecimal digits then none
  else
    let n := UInt64.ofNat (ofDecimal digits)
    some (if str.head? = some 45 then -n else n)

/-- What `RocksKV` holds: the database and the two maps of headers. -/
structure RocksKV where
  db : Database := ∅
  objCacheHeader : OrderedMap GHObject.lt Header := ∅
  reverseObjCacheHeader : OrderedMap Header.lt GHObject := ∅

namespace RocksKV

/-- `buffer b = s` and `Read` of it, where the terminator of the string can be read as well. -/
def readText {α : Type} [Serializable α] (memory : α) (s : Bytes) : Option α :=
  fromString memory (s ++ [0])

/-- The count in the database, or the one that the default configuration starts from. -/
def headerCount (db : Database) : Option Int32 :=
  match db.find (lit "header_count") with
  | none => some 1
  | some headCount => (stoull headCount).map (fun n => n.toUInt32.toInt32)

/-- `Header::GetNewHeader`. The count is an `int`, whose overflow is undefined. -/
def getNewHeader (kv : RocksKV) : Option (Header × RocksKV) := do
  let hc ← headerCount kv.db
  if hc = Int32.maxValue then none
  else
    let headCount := signedDecimal (hc+1).toInt
    return (⟨hc.toUInt32⟩,{ kv with db := kv.db.insert (lit "header_count") headCount })

/-- `GetHeader`. -/
def getHeader (kv : RocksKV) (gh : GHObject) : Option (Header × RocksKV) :=
  match kv.objCacheHeader.find gh with
  | some h => some (h,kv)
  | none =>
    let objuni := getObjUniqueStrDesc gh
    match kv.db.find objuni with
    | some s => do
      let h ← readText default s
      return (h,{ kv with objCacheHeader := kv.objCacheHeader.insert gh h })
    | none => do
      let (h,kv) ← kv.getNewHeader
      return (h,{
        db := (kv.db.insert objuni h.toString).insert h.toString objuni
        objCacheHeader := kv.objCacheHeader.insert gh h
        reverseObjCacheHeader := kv.reverseObjCacheHeader.insert h gh })

/-- `EraseHeader`. It dereferences the iterator before it looks whether there is an entry. -/
def eraseHeader (kv : RocksKV) (gh : GHObject) : Option RocksKV := do
  let head ← kv.objCacheHeader.find gh
  return {
    db := (kv.db.erase (getObjUniqueStrDesc gh)).erase head.toString
    objCacheHeader := kv.objCacheHeader.erase gh
    reverseObjCacheHeader := kv.reverseObjCacheHeader.erase head }

/-- `GetObj`, with what the memory of the object that is read holds. -/
def getObj (kv : RocksKV) (memory : GHObject) (h : Header) : Option (GHObject × RocksKV) :=
  match kv.reverseObjCacheHeader.find h with
  | some gh => some (gh,kv)
  | none =>
    match kv.db.find h.toString with
    | some s => do
      let gh ← readText memory s
      return (gh,{ kv with
        objCacheHeader := kv.objCacheHeader.insert gh h
        reverseObjCacheHeader := kv.reverseObjCacheHeader.insert h gh })
    | none => some ({},kv)

/-- `EraseObj`, which dereferences its iterator as `EraseHeader` does. -/
def eraseObj (kv : RocksKV) (h : Header) : Option RocksKV := do
  let gh ← kv.reverseObjCacheHeader.find h
  return {
    db := (kv.db.erase (getObjUniqueStrDesc gh)).erase h.toString
    objCacheHeader := kv.objCacheHeader.erase gh
    reverseObjCacheHeader := kv.reverseObjCacheHeader.erase h }

/-- A new process on the same database. -/
def restart (kv : RocksKV) : RocksKV := { db := kv.db }

end RocksKV
end GDFileStore
