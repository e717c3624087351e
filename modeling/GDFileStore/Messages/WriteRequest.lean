import GDFileStore.Messages.Classes
import GDFileStore.Objects.Operation

/-! The request to `/write`: the operation, with the hand-written `Write` and `Read` of its slice,
the OSDs and a flag, from the body that the client packs to what the handler makes of it. -/
namespace GDFileStore
open Serializable Codec

instance : Serializable OperationType :=
  ofEnumerators [.insert,.delete] (by intro a; cases a <;> decide) (by decide)

/-- `FileAnchor` counts from one. -/
instance : Serializable FileAnchor where
  ty := .arith .four
  es a := match a with
    | .begin => 1
    | .finish => 2
  fill _ v := if v = 1 then some .begin else if v = 2 then some .finish else none
  fill_es _ a := ⟨a,by cases a <;> rfl,rfl⟩
  readable := trivial

instance : Serializable FilePos :=
  ofGetES (fun filePos => (filePos.fileAnchor,filePos.offset,())) (fun _ m => ⟨m.1,m.2.1⟩)
    (fun _ _ => rfl)

instance : Complete OperationType := ⟨fun _ a => by cases a <;> rfl⟩

instance : Complete FilePos := ⟨fun _ a => by rcases a with ⟨_ | _,_⟩ <;> rfl⟩

namespace KeepsSize

instance : KeepsSize OperationType := ⟨fun _ => Ty.sameSize_arith _ _⟩

instance : KeepsSize FileAnchor := ⟨fun _ => Ty.sameSize_arith _ _⟩

instance : KeepsSize FilePos := ofGetES (fun _ _ => rfl)

end KeepsSize

namespace Slice

/-- The bytes of the backing buffer, none without one. -/
def payload (s : Slice) : Bytes :=
  match s.data with
  | none => []
  | some buffer => buffer.data

/-- The members that `GetES` lists, then `Slice::Write`. -/
def write (buf : Buffer) (s : Slice) : Option Buffer := do
  let buf ← Members.multiWrite buf (s.start,s.stop,())
  match s.data with
  | some buffer => Serializable.write buf buffer.data
  -- an empty buffer, so the length of its block and its offset
  | none => Serializable.write buf ({} : Buffer)

/-- The members that `GetES` lists, then `Slice::Read` into a fresh buffer. -/
def read (memory : Slice) (buf : Buffer) : Option (Slice × Buffer) := do
  let (start,buf) ← Serializable.read memory.start buf
  let (stop,buf) ← Serializable.read memory.stop buf
  let (data,buf) ← Serializable.read [] buf
  return (⟨some { data := data },start,stop⟩,buf)

end Slice

namespace Operation

def write (buf : Buffer) (ope : Operation) : Option Buffer := do
  let buf ← Serializable.write buf ope.operationType
  let buf ← ope.data.write buf
  let buf ← Serializable.write buf ope.obj
  Serializable.write buf ope.filePos

def read (memory : Operation) (buf : Buffer) : Option (Operation × Buffer) := do
  let (operationType,buf) ← Serializable.read memory.operationType buf
  let (data,buf) ← memory.data.read buf
  let (obj,buf) ← Serializable.read memory.obj buf
  let (filePos,buf) ← Serializable.read memory.filePos buf
  return (⟨operationType,data,obj,filePos⟩,buf)

end Operation

/-- `FSConnnectionClient::WriteAndWaitReturn`: the body it posts to `/write` of the first OSD. -/
def FSConnnectionClient.writeAndWaitReturn (ope : Operation) (osds : List InfoForNetNode)
    (reloadConnection : Bool) : Option Bytes :=
  if osds.length = 0 then none
  else do
    let osdCnt := Int32.ofNat osds.length
    let buf ← ope.write {}
    let buf ← Serializable.write buf osdCnt
    let buf ← writeArray Serializable.write (osds.take osdCnt.toInt.toNat) buf
    let buf ← Serializable.write buf reloadConnection
    return buf.universalStr

/-- What the handler of `/write` reads; `buf` is the body after that. -/
structure WriteRequest where
  ope : Operation
  osds : List InfoForNetNode
  reloadConnection : Bool
  buf : Buffer

/-- The handler of `/write`, up to `HandleWriteOperation`. The operation is read into memory that
holds `memory`; a negative number of OSDs makes the vector's constructor throw. -/
def FSConnnectionServer.write (memory : Operation) (content : Bytes) : Option WriteRequest := do
  let (ope,buf) ← memory.read { data := content }
  let (osdLen,buf) ← Serializable.read (0 : Int32) buf
  if osdLen.toInt < 0 then none
  else do
    let (osds,buf) ← readArray (Serializable.read ({} : InfoForNetNode)) osdLen.toInt.toNat buf
    let (reloadConnection,buf) ← Serializable.read false buf
    return ⟨ope,osds,reloadConnection,buf⟩

/-- What a client can build. -/
inductive OperationWrapper.Built : Operation → Prop
  | write (ghobj : GHObject) (data : Bytes) : Built (writeWrapper ghobj data)
  | insert (ghobj : GHObject) (data : Bytes) (pos : Int32) : Built (insertWrapper ghobj data pos)
  | delete (ghobj : GHObject) (spanBegin spanEnd : Int32) :
    Built (deleteWrapper ghobj spanBegin spanEnd)
  | append (ghobj : GHObject) (data : Bytes) : Built (appendWrapper ghobj data)

/-- The handler obtains what the client has packed, and the body ends where the reading does. -/
def WriteRequestDelivered (memory ope : Operation) (osds : List InfoForNetNode)
    (reloadConnection : Bool) : Prop :=
  ∃ body, FSConnnectionClient.writeAndWaitReturn ope osds reloadConnection = some body ∧
    ∃ m, FSConnnectionServer.write memory body = some m ∧
      m.ope.operationType = ope.operationType ∧ m.ope.data.start = ope.data.start ∧
      m.ope.data.stop = ope.data.stop ∧ m.ope.data.payload = ope.data.payload ∧
      es m.ope.obj = es ope.obj ∧ m.ope.filePos = ope.filePos ∧ m.osds = osds ∧
      m.reloadConnection = reloadConnection ∧ m.buf.offset.toInt = m.buf.data.length

/-- The two strings of each OSD with their lengths, and its port. -/
def osdsLength : List InfoForNetNode → ℕ
  | [] => 0
  | osd::osds => 12+osd.name.length+osd.host.length+osdsLength osds

/-- The length of the body for an operation that carries data. -/
def bodyLength (ope : Operation) (osds : List InfoForNetNode) : ℕ :=
  59+ope.data.payload.length+ope.obj.hobj.oid.name.length+ope.obj.owner.length+osdsLength osds

namespace Slice

/-- What `Slice::Write` appends. -/
def written (s : Slice) : Bytes :=
  match s.data with
  | some buffer => encode buffer.data
  | none => encode ({} : Buffer)

lemma written_of_isSome {s : Slice} (h : s.data.isSome) : s.written = encode s.payload := by
  obtain ⟨buffer,hbuffer⟩ := Option.isSome_iff_exists.1 h
  simp only [written,payload,hbuffer]

/-- An absent buffer takes four bytes more than the empty string that is read in its place. -/
lemma length_written_of_none {s : Slice} (h : s.data = none) :
    s.written.length = (encode s.payload).length+4 := by
  simp only [written,payload,h]
  decide

lemma write_eq {s : Slice} (h : Fits s.payload) (buf : Buffer) :
    s.write buf = some { buf with data := buf.data ++
      (encode s.start ++ (encode s.stop ++ s.written)) } := by
  have hmembers : Members.multiWrite buf (s.start,s.stop,()) =
      some { buf with data := buf.data ++ (encode s.start ++ (encode s.stop ++ [])) } :=
    Members.multiWrite_eq (show Members.Fits (s.start,s.stop,()) from ⟨trivial,trivial,trivial⟩) buf
  cases hdata : s.data with
  | none =>
    simp only [payload,hdata] at h
    have hempty := Serializable.write_eq (a := ({} : Buffer)) (by decide)
    simp [write,hmembers,hdata,written,hempty]
  | some buffer =>
    simp only [payload,hdata] at h
    simp [write,hmembers,hdata,written,Serializable.write_eq h]

end Slice

/-- The sizes of a request that its lengths and counts as `int`s can hold. -/
structure RequestFits (ope : Operation) (osds : List InfoForNetNode) : Prop where
  payload : Fits ope.data.payload
  obj : Fits ope.obj
  count : osds.length < 2^31
  osds : ∀ osd ∈ osds, Fits osd

/-- The body of a request whose slice appends `slice`. -/
def requestBytes (slice : Bytes) (ope : Operation) (osds : List InfoForNetNode)
    (reloadConnection : Bool) : Bytes :=
  encode ope.operationType ++ (encode ope.data.start ++ (encode ope.data.stop ++ (slice ++
    (encode ope.obj ++ (encode ope.filePos ++ (encode (Int32.ofNat osds.length) ++
    (osds.flatMap encode ++ encode reloadConnection)))))))

section Lengths

lemma length_osds (osds : List InfoForNetNode) : (osds.flatMap encode).length = osdsLength osds := by
  induction osds with
  | nil => rfl
  | cons osd osds ih =>
    have hosd : (encode osd).length = 12+osd.name.length+osd.host.length := by
      change ((intBytes _ ++ osd.name) ++ ((intBytes _ ++ osd.host) ++ (intBytes osd.port ++ []))).length = _
      simp only [List.length_append,length_intBytes,List.length_nil]
      omega
    rw [List.flatMap_cons,List.length_append,hosd,ih,osdsLength]

lemma length_requestBytes (slice : Bytes) (ope : Operation) (osds : List InfoForNetNode)
    (reloadConnection : Bool) : (requestBytes slice ope osds reloadConnection).length+4+
      ope.data.payload.length = bodyLength ope osds+slice.length := by
  have hobj : (encode ope.obj).length = 30+ope.obj.hobj.oid.name.length+ope.obj.owner.length := by
    change ((((intBytes _ ++ ope.obj.hobj.oid.name) ++ []) ++ ((leBytes 8 _ ++ []) ++
      (leBytes 4 _ ++ (leBytes 1 _ ++ [])))) ++ (leBytes 8 _ ++ ((leBytes 1 _ ++ []) ++
      ((intBytes _ ++ ope.obj.owner) ++ [])))).length = _
    simp only [List.length_append,length_intBytes,length_leBytes,List.length_nil]
    omega
  have hfilePos : (encode ope.filePos).length = 8 := by
    change (leBytes 4 _ ++ (leBytes 4 _ ++ [])).length = 8
    simp only [List.length_append,length_leBytes,List.length_nil]
  have htype : (encode ope.operationType).length = 4 := length_leBytes 4 _
  have hint : ∀ n : Int32, (encode n).length = 4 := fun _ => length_leBytes 4 _
  have hflag : (encode reloadConnection).length = 1 := length_leBytes 1 _
  simp only [requestBytes,List.length_append,htype,hint,hobj,hfilePos,length_osds,hflag,bodyLength]
  omega

lemma length_requestBytes_payload (ope : Operation) (osds : List InfoForNetNode)
    (reloadConnection : Bool) :
    (requestBytes (encode ope.data.payload) ope osds reloadConnection).length =
      bodyLength ope osds := by
  have h := length_requestBytes (encode ope.data.payload) ope osds reloadConnection
  have hpayload : (encode ope.data.payload).length = 4+ope.data.payload.length := by
    change (intBytes _ ++ ope.data.payload).length = _
    rw [List.length_append,length_intBytes]
  omega

end Lengths

section Delivery
variable {memory ope : Operation} {osds : List InfoForNetNode} {reloadConnection : Bool}

lemma writeAndWaitReturn_eq (hosds : osds ≠ []) (h : RequestFits ope osds) :
    FSConnnectionClient.writeAndWaitReturn ope osds reloadConnection =
      some (requestBytes ope.data.written ope osds reloadConnection) := by
  have hope : ∀ buf, ope.write buf = some { buf with data := buf.data ++
      (encode ope.operationType ++ (encode ope.data.start ++ (encode ope.data.stop ++
        (ope.data.written ++ (encode ope.obj ++ encode ope.filePos))))) } := by
    intro buf
    have htype := Serializable.write_eq (a := ope.operationType) trivial buf
    have hfilePos := fun b => Serializable.write_eq (a := ope.filePos) ⟨trivial,trivial,trivial⟩ b
    simp [Operation.write,htype,Slice.write_eq h.payload,Serializable.write_eq h.obj,hfilePos]
  have hcount := fun b => Serializable.write_eq (a := Int32.ofNat osds.length) trivial b
  have hflag := fun b => Serializable.write_eq (a := reloadConnection) trivial b
  have harray := fun b => writeArray_eq (fun osd hosd b => Serializable.write_eq (h.osds osd hosd) b) b
  have hne : osds.length ≠ 0 := by simpa using hosds
  have htake : osds.take (Int32.ofNat osds.length).toInt.toNat = osds := by
    rw [toNat_toInt_ofNat h.count,List.take_length]
  simp only [FSConnnectionClient.writeAndWaitReturn,if_neg hne,hope,hcount,htake,harray,hflag,
    Option.bind_eq_bind,Option.bind_some,Option.pure_def,Buffer.universalStr,requestBytes,
    List.nil_append,List.append_assoc]

open Buffer

lemma Slice.read_taken {memory s : Slice} {b b' : Buffer} (h : memory.read b = some (s,b'))
    (hend : 0 ≤ b'.offset.toInt) : Fits s.payload ∧
      Taken b b' (encode s.start ++ (encode s.stop ++ encode s.payload)).length := by
  obtain ⟨⟨start,b1⟩,hstart,h⟩ := Option.bind_eq_some_iff.1 h
  obtain ⟨⟨stop,b2⟩,hstop,h⟩ := Option.bind_eq_some_iff.1 h
  obtain ⟨⟨data,b3⟩,hdata,h⟩ := Option.bind_eq_some_iff.1 h
  obtain ⟨rfl,rfl⟩ := Prod.mk.inj (Option.some.inj h)
  obtain ⟨hfits,htaken3⟩ := Serializable.read_taken hdata hend
  obtain ⟨-,htaken2⟩ := Serializable.read_taken hstop htaken3.nonneg
  obtain ⟨-,htaken1⟩ := Serializable.read_taken hstart htaken2.nonneg
  simp only [List.length_append]
  exact ⟨hfits,htaken1.trans (htaken2.trans htaken3)⟩

lemma Operation.read_taken {b b' : Buffer} (h : memory.read b = some (ope,b'))
    (hend : 0 ≤ b'.offset.toInt) : Fits ope.data.payload ∧ Fits ope.obj ∧
      Taken b b' (encode ope.operationType ++ ((encode ope.data.start ++ (encode ope.data.stop ++
        encode ope.data.payload)) ++ (encode ope.obj ++ encode ope.filePos))).length := by
  obtain ⟨⟨operationType,b1⟩,htype,h⟩ := Option.bind_eq_some_iff.1 h
  obtain ⟨⟨data,b2⟩,hdata,h⟩ := Option.bind_eq_some_iff.1 h
  obtain ⟨⟨obj,b3⟩,hobj,h⟩ := Option.bind_eq_some_iff.1 h
  obtain ⟨⟨filePos,b4⟩,hfilePos,h⟩ := Option.bind_eq_some_iff.1 h
  obtain ⟨rfl,rfl⟩ := Prod.mk.inj (Option.some.inj h)
  obtain ⟨-,htaken4⟩ := Serializable.read_taken hfilePos hend
  obtain ⟨hobjFits,htaken3⟩ := Serializable.read_taken hobj htaken4.nonneg
  obtain ⟨hpayload,htaken2⟩ := Slice.read_taken hdata htaken3.nonneg
  obtain ⟨-,htaken1⟩ := Serializable.read_taken htype htaken2.nonneg
  have htaken := htaken1.trans (htaken2.trans (htaken3.trans htaken4))
  simp only [List.length_append,Nat.add_assoc] at htaken ⊢
  exact ⟨hpayload,hobjFits,htaken⟩

/-- Whatever the handler has read without running over the offset's range has sizes in range, and
has taken as many bytes as it takes with a buffer in the slice. -/
theorem write_taken {body : Bytes} {m : WriteRequest}
    (h : FSConnnectionServer.write memory body = some m) (hend : 0 ≤ m.buf.offset.toInt) :
    RequestFits m.ope m.osds ∧ Taken { data := body } m.buf
      (requestBytes (encode m.ope.data.payload) m.ope m.osds m.reloadConnection).length := by
  obtain ⟨⟨ope,b1⟩,hope,h⟩ := Option.bind_eq_some_iff.1 h
  obtain ⟨⟨osdLen,b2⟩,hcount,h⟩ := Option.bind_eq_some_iff.1 h
  obtain ⟨hnonneg,h⟩ := Option.ite_none_left_eq_some.1 h
  obtain ⟨⟨osds,b3⟩,hosds,h⟩ := Option.bind_eq_some_iff.1 h
  obtain ⟨⟨reloadConnection,b4⟩,hflag,h⟩ := Option.bind_eq_some_iff.1 h
  obtain rfl := Option.some.inj h
  obtain ⟨-,htaken4⟩ := Serializable.read_taken hflag hend
  obtain ⟨hlength,hosdsFit,htaken3⟩ := readArray_taken Serializable.read_taken hosds htaken4.nonneg
  obtain ⟨-,htaken2⟩ := Serializable.read_taken hcount htaken3.nonneg
  obtain ⟨hpayload,hobj,htaken1⟩ := Operation.read_taken hope htaken2.nonneg
  have hlt := osdLen.toInt_lt
  refine ⟨⟨hpayload,hobj,by simp only; omega,hosdsFit⟩,?_⟩
  have htaken := htaken1.trans (htaken2.trans (htaken3.trans htaken4))
  have hint : ∀ n : Int32, (encode n).length = 4 := fun _ => length_leBytes 4 _
  simp only [requestBytes,List.length_append,hint,Nat.add_assoc] at htaken ⊢
  exact htaken

lemma Slice.read_front (memory : Slice) {s : Slice} {b : Buffer} {rest : Bytes} (hfits : Fits s.payload)
    (h : b.Front (encode s.start ++ (encode s.stop ++ (encode s.payload ++ rest)))) :
    ∃ b', memory.read b = some (⟨some { data := s.payload },s.start,s.stop⟩,b') ∧ b'.Front rest := by
  obtain ⟨b1,hread1,hfront1⟩ := h.read_append_complete trivial memory.start
  obtain ⟨b2,hread2,hfront2⟩ := hfront1.read_append_complete trivial memory.stop
  obtain ⟨b3,hread3,hfront3⟩ := hfront2.read_append_complete hfits []
  exact ⟨b3,by simp [Slice.read,hread1,hread2,hread3],hfront3⟩

lemma readArray_front {b : Buffer} {rest : Bytes} (hfits : ∀ osd ∈ osds, Fits osd)
    (h : b.Front (osds.flatMap encode ++ rest)) : ∃ b', readArray
      (Serializable.read ({} : InfoForNetNode)) osds.length b = some (osds,b') ∧ b'.Front rest := by
  induction osds generalizing b with
  | nil => exact ⟨b,rfl,h⟩
  | cons osd osds ih =>
    rw [List.flatMap_cons,List.append_assoc] at h
    obtain ⟨b1,hread1,hfront1⟩ := h.read_append_complete (hfits osd List.mem_cons_self) {}
    obtain ⟨b2,hread2,hfront2⟩ := ih (fun o ho => hfits o (List.mem_cons_of_mem _ ho)) hfront1
    exact ⟨b2,by simp [readArray,hread1,hread2],hfront2⟩

/-- The handler takes a body apart again that carries its payload as a string. -/
lemma write_front (h : RequestFits ope osds) (hshort :
      (requestBytes (encode ope.data.payload) ope osds reloadConnection).length < 2^31) :
    ∃ m, FSConnnectionServer.write memory
        (requestBytes (encode ope.data.payload) ope osds reloadConnection) = some m ∧
      m.ope.operationType = ope.operationType ∧ m.ope.data.start = ope.data.start ∧
      m.ope.data.stop = ope.data.stop ∧ m.ope.data.payload = ope.data.payload ∧
      es m.ope.obj = es ope.obj ∧ m.ope.filePos = ope.filePos ∧ m.osds = osds ∧
      m.reloadConnection = reloadConnection ∧ m.buf.offset.toInt = m.buf.data.length := by
  obtain ⟨b1,hread1,hfront1⟩ := (Buffer.Front.start hshort).read_append_complete trivial
    memory.operationType
  obtain ⟨b2,hread2,hfront2⟩ := Slice.read_front memory.data h.payload hfront1
  obtain ⟨obj,b3,hread3,hes,hfront3⟩ := hfront2.read_append h.obj memory.obj
  obtain ⟨b4,hread4,hfront4⟩ := hfront3.read_append_complete ⟨trivial,trivial,trivial⟩ memory.filePos
  obtain ⟨b5,hread5,hfront5⟩ := hfront4.read_append_complete trivial (0 : Int32)
  obtain ⟨b6,hread6,hfront6⟩ := readArray_front h.osds hfront5
  rw [← List.append_nil (encode reloadConnection)] at hfront6
  obtain ⟨b7,hread7,hfront7⟩ := hfront6.read_append_complete trivial false
  have hcount := Int32Range.toInt_ofNat_of_lt h.count
  have hope : memory.read ⟨requestBytes (encode ope.data.payload) ope osds reloadConnection,0⟩ =
      some (⟨ope.operationType,⟨some { data := ope.data.payload },ope.data.start,ope.data.stop⟩,obj,
        ope.filePos⟩,b4) := by
    simp [Operation.read,hread1,hread2,hread3,hread4]
  refine ⟨⟨⟨ope.operationType,⟨some { data := ope.data.payload },ope.data.start,ope.data.stop⟩,obj,
    ope.filePos⟩,osds,reloadConnection,b7⟩,?_,rfl,rfl,rfl,rfl,hes,rfl,rfl,rfl,hfront7.finish⟩
  simp only [FSConnnectionServer.write,hope,hread5,hread6,hread7,Option.bind_eq_bind,
    Option.bind_some,Option.pure_def,toNat_toInt_ofNat h.count]
  rw [if_neg (by omega)]

/-- A short body has short strings and few OSDs. -/
lemma requestFits_of_short (h : bodyLength ope osds < 2^31) : RequestFits ope osds := by
  have hosds : ∀ l : List InfoForNetNode, osdsLength l < 2^31 →
      l.length < 2^31 ∧ ∀ osd ∈ l, Fits osd := by
    intro l
    induction l with
    | nil => simp
    | cons osd l ih =>
      intro hl
      rw [osdsLength] at hl
      obtain ⟨hcount,hall⟩ := ih (by omega)
      have hlength : l.length ≤ osdsLength l := by
        clear ih hcount hall hl
        induction l with
        | nil => exact le_rfl
        | cons osd l ih =>
          rw [osdsLength,List.length_cons]
          omega
      refine ⟨by rw [List.length_cons]; omega,?_⟩
      simp only [List.mem_cons,forall_eq_or_imp]
      exact ⟨⟨show osd.name.length < 2^31 by omega,show osd.host.length < 2^31 by omega,trivial,
        trivial⟩,hall⟩
  rw [bodyLength] at h
  obtain ⟨hcount,hall⟩ := hosds osds (by omega)
  exact ⟨show ope.data.payload.length < 2^31 by omega,
    ⟨⟨⟨show ope.obj.hobj.oid.name.length < 2^31 by omega,trivial⟩,⟨trivial,trivial⟩,trivial,trivial,
      trivial⟩,trivial,⟨trivial,trivial⟩,show ope.obj.owner.length < 2^31 by omega,trivial⟩,
    hcount,hall⟩

end Delivery

namespace OperationWrapper

/-- An operation that a client can build has a buffer in its slice unless it is a delete. -/
lemma Built.isSome_iff {ope : Operation} (h : Built ope) :
    ope.data.data.isSome ↔ ope.operationType = .insert := by
  cases h <;> simp [writeWrapper,insertWrapper,deleteWrapper,appendWrapper,Slice.ofString]

end OperationWrapper

/-- A write request arrives as it was packed exactly when its operation is an insert or append, the
delete having four bytes more than are read back, and the offset can run over the body. -/
theorem writeRequest_delivered_iff (memory ope : Operation) (osds : List InfoForNetNode)
    (reloadConnection : Bool) (hbuilt : OperationWrapper.Built ope) (hosds : osds ≠ []) :
    WriteRequestDelivered memory ope osds reloadConnection ↔
      ope.operationType = .insert ∧ bodyLength ope osds < 2^31 := by
  constructor
  · rintro ⟨body,hbody,m,hread,-,hstart,hstop,hpayload,hobj,hfilePos,rfl,rfl,hend⟩
    obtain ⟨hfitsRead,htaken⟩ := write_taken hread (by omega)
    have hobjEncode : encode m.ope.obj = encode ope.obj := congrArg (Ty.encode _) hobj
    have hobjFits : Fits ope.obj := cast (congrArg (Ty.Fits _) hobj) hfitsRead.obj
    have hfits : RequestFits ope m.osds := ⟨hpayload ▸ hfitsRead.payload,hobjFits,hfitsRead.count,
      hfitsRead.osds⟩
    rw [writeAndWaitReturn_eq hosds hfits] at hbody
    obtain rfl := Option.some.inj hbody
    -- The handler has taken the body with a string in the place of the slice.
    have hdata : m.buf.data.length =
        (requestBytes ope.data.written ope m.osds m.reloadConnection).length :=
      congrArg List.length htaken.data
    have hlength : m.buf.data.length =
        (requestBytes (encode ope.data.payload) ope m.osds m.reloadConnection).length := by
      have hoffset := htaken.offset
      have hzero : (0 : Int32).toInt = 0 := rfl
      have htype : (encode m.ope.operationType).length = (encode ope.operationType).length := rfl
      simp only [requestBytes,List.length_append,hpayload,hobjEncode,htype,hstart,hstop,
        hfilePos] at hoffset ⊢
      omega
    refine ⟨hbuilt.isSome_iff.1 ?_,?_⟩
    · rw [Option.isSome_iff_ne_none]
      intro hnone
      have hmore := Slice.length_written_of_none hnone
      have hwritten := length_requestBytes ope.data.written ope m.osds m.reloadConnection
      have hread' := length_requestBytes (encode ope.data.payload) ope m.osds m.reloadConnection
      omega
    · rw [← length_requestBytes_payload ope m.osds m.reloadConnection]
      have hlt := m.buf.offset.toInt_lt
      omega
  · rintro ⟨hinsert,hshort⟩
    have hfits := requestFits_of_short hshort
    have hwritten := Slice.written_of_isSome (hbuilt.isSome_iff.2 hinsert)
    refine ⟨_,writeAndWaitReturn_eq hosds hfits,?_⟩
    rw [hwritten]
    exact write_front hfits (by rwa [length_requestBytes_payload])

/-- A delete of three bytes, sent to one OSD: the length of the owner is read as the anchor. -/
theorem delete_not_delivered :
    ¬ ∀ (memory ope : Operation) (osds : List InfoForNetNode) (reloadConnection : Bool),
      OperationWrapper.Built ope → osds ≠ [] →
      WriteRequestDelivered memory ope osds reloadConnection := by
  intro h
  let ope := OperationWrapper.deleteWrapper {} 0 3
  obtain ⟨body,hbody,m,hread,-⟩ := h ope ope [{}] true (.delete {} 0 3) (by simp)
  have hnone : (FSConnnectionClient.writeAndWaitReturn ope [{}] true).bind
      (FSConnnectionServer.write ope) = none := Option.isNone_iff_eq_none.1 (by decide +kernel)
  rw [hbody,Option.bind_some,hread] at hnone
  cases hnone

theorem writeRequest_delivered_iff_append :
    WriteRequestDelivered (OperationWrapper.writeWrapper {} [])
      (OperationWrapper.appendWrapper {} (lit "x")) [{}] true ↔
      (OperationWrapper.appendWrapper {} (lit "x")).operationType = .insert ∧
        bodyLength (OperationWrapper.appendWrapper {} (lit "x")) [{}] < 2^31 :=
  writeRequest_delivered_iff _ _ _ _ (.append {} (lit "x")) (by simp)

end GDFileStore
