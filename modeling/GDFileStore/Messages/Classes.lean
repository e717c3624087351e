import GDFileStore.Serialize.Taken
import GDFileStore.Objects.Block

/-! The classes that travel between client and server, each by the members its `GetES` lists. -/
namespace GDFileStore
open Serializable

instance : Inhabited InfoForNetNode := ⟨{}⟩

instance : Inhabited OpeType := ⟨.insert⟩

instance : Serializable OpeType :=
  ofEnumerators [.insert,.delete,.overWrite] (by intro a; cases a <;> decide) (by decide)

instance : Serializable ReqType :=
  ofEnumerators [.write,.read,.writeDrawBack,.primaryRecover] (by intro a; cases a <;> decide)
    (by decide)

instance : Serializable RepType :=
  ofEnumerators [.replicaJounralWrite,.replicaDiskWrite,.primaryJournalWrite,.primaryDiskWrite,
    .replicaJournalRecover,.replicaDiskRecover,.primaryJournalRecover,.primaryDiskRecover,
    .primaryRead] (by intro a; cases a <;> decide) (by decide)

instance : Serializable Buffer :=
  ofGetES (fun b => (b.data,b.offset,())) (fun _ m => ⟨m.1,m.2.1⟩) (fun _ _ => rfl)

instance : Serializable InfoForNetNode :=
  ofGetES (fun info => (info.name,info.host,info.port,()))
    (fun _ m => ⟨m.1,m.2.1,m.2.2.1⟩) (fun _ _ => rfl)

instance : Complete ReqType := ⟨fun _ rt => by cases rt <;> rfl⟩

instance : Complete RepType := ⟨fun _ rt => by cases rt <;> rfl⟩

instance : Complete Buffer := ⟨fun _ _ => rfl⟩

instance : Complete InfoForNetNode := ⟨fun _ _ => rfl⟩

instance : Serializable Snapid :=
  ofGetES (fun snap => (snap.timeStamp,())) (fun _ m => ⟨m.1⟩) (fun _ _ => rfl)

instance : Serializable ObjectName :=
  ofGetES (fun oid => (oid.name,())) (fun _ m => ⟨m.1⟩) (fun _ _ => rfl)

/-- `GetES` leaves out `pool`: a read keeps whatever the memory held there. -/
instance : Serializable HObject :=
  ofGetES (fun hobj => (hobj.oid,hobj.snap,hobj.hash,hobj.max,()))
    (fun memory m => ⟨m.1,m.2.1,m.2.2.1,m.2.2.2.1,memory.pool⟩) (fun _ _ => rfl)

instance : Serializable ShardId :=
  ofGetES (fun shard => (shard.id,())) (fun _ m => ⟨m.1⟩) (fun _ _ => rfl)

instance : Serializable GHObject :=
  ofGetES (fun ghobj => (ghobj.hobj,ghobj.generation,ghobj.shardId,ghobj.owner,()))
    (fun _ m => ⟨m.1,m.2.1,m.2.2.1,m.2.2.2.1⟩) (fun _ _ => rfl)

instance : Serializable WOPE :=
  ofGetES (fun wope => (wope.types,wope.ghobj,wope.newGhobj,wope.blockNums,wope.blockDatas,()))
    (fun _ m => ⟨m.2.1,m.2.2.1,m.1,m.2.2.2.1,m.2.2.2.2.1⟩) (fun _ _ => rfl)

instance : Serializable ROPE :=
  ofGetES (fun rope => (rope.ghobj,rope.blocks,())) (fun _ m => ⟨m.1,m.2.1⟩) (fun _ _ => rfl)

instance : Serializable ROPEResult :=
  ofGetES (fun result => (result.opeId,result.ghobj,result.blocks,result.datas,()))
    (fun _ m => ⟨m.1,m.2.1,m.2.2.1,m.2.2.2.1⟩) (fun _ _ => rfl)

/-- `std::list`, which is read element by element. -/
def StdList (α : Type) : Type := List α

instance {α : Type} [Inhabited α] [Serializable α] : Serializable (StdList α) where
  ty := .list (Serializable.ty α)
  es l := List.map Serializable.es l
  fill _ vs := vs.mapM (Serializable.fill default)
  fill_es := Serializable.fill_es (α := List α)
  readable := Serializable.readable (α := α)

instance {α : Type} [Inhabited α] [Serializable α] [Complete α] : Complete (StdList α) :=
  ⟨Complete.fill_es_self (α := List α)⟩

instance : Serializable ObjectWithRB :=
  ofGetES (M := StdList Int64 × Unit) (fun orb => (orb.serialsList,())) (fun _ m => ⟨m.1⟩)
    (fun _ _ => rfl)

instance : Serializable ReferedBlock :=
  ofGetES (fun rb => (rb.serial,rb.referCount,())) (fun _ m => ⟨m.1,m.2.1⟩) (fun _ _ => rfl)

namespace KeepsSize

instance : KeepsSize InfoForNetNode := ofGetES (fun _ _ => rfl)

instance : KeepsSize Snapid := ofGetES (fun _ _ => rfl)

instance : KeepsSize ObjectName := ofGetES (fun _ _ => rfl)

instance : KeepsSize HObject := ofGetES (fun _ _ => rfl)

instance : KeepsSize ShardId := ofGetES (fun _ _ => rfl)

instance : KeepsSize GHObject := ofGetES (fun _ _ => rfl)

end KeepsSize

instance : Complete ObjectWithRB := .ofGetES (fun _ _ => rfl) (fun _ _ => rfl)

instance : Complete ReferedBlock := ⟨fun _ _ => rfl⟩

end GDFileStore
