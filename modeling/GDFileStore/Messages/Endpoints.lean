import GDFileStore.Messages.Classes
import GDFileStore.Blocks.DoWOPE

/-! The four endpoints: what the senders pack into a body and what the handlers unpack from it. -/
namespace GDFileStore
open Serializable Members

/-- The body that `http_send` posts. -/
def httpBody (fromNode toNode : InfoForNetNode) (data : Buffer) : Option Bytes :=
  (multiWrite {} (fromNode,toNode,data,())).map Buffer.universalStr

namespace AsynClient

/-- `asynWrite`: what is posted to `/reqWrite` of the first receiver. -/
def asynWrite (info : InfoForNetNode) (tos : List InfoForNetNode) (wope : WOPE) (opeid : Bytes) :
    Option Bytes :=
  (multiWrite {} (info,tos,wope,ReqType.write,opeid,())).bind fun buf =>
    tos.head?.bind fun toNode => httpBody info toNode buf

/-- `asynRead`: what is posted to `/reqRead` of the first receiver. -/
def asynRead (info : InfoForNetNode) (tos : List InfoForNetNode) (rope : ROPE) (opeId : Bytes) :
    Option Bytes :=
  (multiWrite {} (info,tos,rope,ReqType.read,opeId,())).bind fun buf =>
    tos.head?.bind fun toNode => httpBody info toNode buf

end AsynClient

/-- What the store posts to `/repWrite` or `/repRead` of the client that asked. -/
def Reply.body (info : InfoForNetNode) : Reply → Option Bytes
  | .repWrite wopelog rt =>
    (multiWrite {} (info,rt,wopelog.opeId,())).bind (httpBody info wopelog.fromNode)
  | .repRead ropelog result =>
    (multiWrite {} (result,())).bind (httpBody info ropelog.fromNode)

/-- What every handler reads first; `package` is the body after that. -/
structure Envelope where
  fromNode : InfoForNetNode
  toNode : InfoForNetNode
  data : Buffer
  package : Buffer

def openEnvelope (body : Bytes) : Option Envelope := do
  let (fromNode,buf) ← read {} { data := body }
  let (toNode,buf) ← read {} buf
  let (data,buf) ← read {} buf
  return ⟨fromNode,toNode,data,buf⟩

/-- What the handler of `/reqWrite` reads; `buf` is the inner buffer after that. -/
structure ReqWrite where
  envelope : Envelope
  fromNode : InfoForNetNode
  tos : List InfoForNetNode
  wope : WOPE
  rt : ReqType
  opeId : Bytes
  buf : Buffer

/-- The log it gives to `add_wope`. -/
def ReqWrite.opelog (m : ReqWrite) : WOpeLog := ⟨m.opeId,m.wope,m.fromNode,.init⟩

structure ReqRead where
  envelope : Envelope
  fromNode : InfoForNetNode
  tos : List InfoForNetNode
  rope : ROPE
  rt : ReqType
  opeId : Bytes
  buf : Buffer

/-- The log it gives to `add_rope`. -/
def ReqRead.ropelog (m : ReqRead) : ROpeLog := ⟨m.opeId,m.rope,m.fromNode⟩

structure RepWrite where
  envelope : Envelope
  fromNode : InfoForNetNode
  rt : RepType
  opeId : Bytes
  buf : Buffer

structure RepRead where
  envelope : Envelope
  result : ROPEResult
  buf : Buffer

namespace AsynServer

/-- The handler of `/reqWrite`. The operation is read into memory that holds `memory`. -/
def reqWrite (memory : WOPE) (body : Bytes) : Option ReqWrite := do
  let envelope ← openEnvelope body
  let (fromNode,buf) ← read {} envelope.data
  let (tos,buf) ← read [] buf
  let (wope,buf) ← read memory buf
  let (rt,buf) ← read .write buf
  let (opeId,buf) ← read [] buf
  return ⟨envelope,fromNode,tos,wope,rt,opeId,buf⟩

/-- The handler of `/reqRead`. -/
def reqRead (memory : ROPE) (body : Bytes) : Option ReqRead := do
  let envelope ← openEnvelope body
  let (fromNode,buf) ← read {} envelope.data
  let (tos,buf) ← read [] buf
  let (rope,buf) ← read memory buf
  let (rt,buf) ← read .write buf
  let (opeId,buf) ← read [] buf
  return ⟨envelope,fromNode,tos,rope,rt,opeId,buf⟩

end AsynServer

namespace AsynClient

/-- The handler of `/repWrite`. -/
def repWrite (body : Bytes) : Option RepWrite := do
  let envelope ← openEnvelope body
  let (fromNode,buf) ← read {} envelope.data
  let (rt,buf) ← read .primaryRead buf
  let (opeId,buf) ← read [] buf
  return ⟨envelope,fromNode,rt,opeId,buf⟩

/-- The handler of `/repRead`. -/
def repRead (memory : ROPEResult) (body : Bytes) : Option RepRead := do
  let envelope ← openEnvelope body
  let (result,buf) ← read memory envelope.data
  return ⟨envelope,result,buf⟩

end AsynClient

/-- The buffer has been read to its last byte. -/
def Buffer.AtEnd (b : Buffer) : Prop := b.offset.toInt = b.data.length

/-- All sizes of a message and the length of its body are below `2^31`. -/
structure Sendable {M : Type} [Members M] (fromNode toNode : InfoForNetNode) (args : M) : Prop where
  fits : Members.Fits args
  fitsFrom : Serializable.Fits fromNode
  fitsTo : Serializable.Fits toNode
  short : (Members.encode
    (fromNode,toNode,({ data := Members.encode args } : Buffer),())).length < 2^31

section Delivery
variable {M : Type} [Members M] {fromNode toNode : InfoForNetNode} {args : M}

lemma length_le_encode (b : Buffer) : b.data.length ≤ (Serializable.encode b).length := by
  change _ ≤ (intBytes _ ++ b.data ++ _).length
  simp only [List.length_append]
  omega

/-- The envelope comes off the body that carries it, down to the inner buffer as it was packed. -/
theorem openEnvelope_httpBody (h : Sendable fromNode toNode args) :
    ∃ body e, (multiWrite {} args).bind (httpBody fromNode toNode) = some body ∧
      openEnvelope body = some e ∧ e.fromNode = fromNode ∧ e.toNode = toNode ∧
      e.data.Front (Members.encode args) ∧ e.package.AtEnd := by
  let inner : Buffer := { data := Members.encode args }
  have hshort : (Members.encode (fromNode,toNode,inner,())).length < 2^31 := h.short
  have hinner : (Members.encode args).length < 2^31 := by
    have hsum := hshort
    simp only [Members.encode_cons,List.length_append] at hsum
    have hle := length_le_encode inner
    change (Members.encode args).length ≤ _ at hle
    omega
  have hfits : Serializable.Fits inner := ⟨hinner,trivial,trivial⟩
  have hpack : multiWrite {} args = some inner := multiWrite_eq h.fits {}
  have hfitsAll : Members.Fits (fromNode,toNode,inner,()) := ⟨h.fitsFrom,h.fitsTo,hfits,trivial⟩
  have hbody : httpBody fromNode toNode inner =
      some (Members.encode (fromNode,toNode,inner,())) := by
    rw [httpBody,multiWrite_eq hfitsAll]
    rfl
  obtain ⟨b1,hread1,hfront1⟩ := (Buffer.Front.start hshort).read_complete h.fitsFrom {}
  obtain ⟨b2,hread2,hfront2⟩ := hfront1.read_complete h.fitsTo {}
  obtain ⟨b3,hread3,hfront3⟩ := hfront2.read_complete hfits {}
  refine ⟨Members.encode (fromNode,toNode,inner,()),⟨fromNode,toNode,inner,b3⟩,?_,?_,rfl,rfl,
    .start hinner,hfront3.finish⟩
  · rw [hpack,Option.bind_some]
    exact hbody
  · simp [openEnvelope,hread1,hread2,hread3]

end Delivery

variable (info toNode : InfoForNetNode) (tos : List InfoForNetNode) (opeId : Bytes)

/-- A write request arrives: the handler reads what the client has packed, to the last byte. -/
def WriteDelivered (wope : WOPE) : Prop :=
  ∃ body, AsynClient.asynWrite info (toNode::tos) wope opeId = some body ∧
    ∀ memory, ∃ m, AsynServer.reqWrite memory body = some m ∧
      m.envelope.fromNode = info ∧ m.envelope.toNode = toNode ∧
      m.fromNode = info ∧ m.tos = toNode::tos ∧ es m.wope = es wope ∧ m.rt = .write ∧
      m.opeId = opeId ∧ m.opelog = ⟨opeId,m.wope,info,.init⟩ ∧
      m.envelope.package.AtEnd ∧ m.buf.AtEnd

/-- A read request arrives. -/
def ReadDelivered (rope : ROPE) : Prop :=
  ∃ body, AsynClient.asynRead info (toNode::tos) rope opeId = some body ∧
    ∀ memory, ∃ m, AsynServer.reqRead memory body = some m ∧
      m.envelope.fromNode = info ∧ m.envelope.toNode = toNode ∧
      m.fromNode = info ∧ m.tos = toNode::tos ∧ es m.rope = es rope ∧ m.rt = .read ∧
      m.opeId = opeId ∧ m.ropelog = ⟨opeId,m.rope,info⟩ ∧
      m.envelope.package.AtEnd ∧ m.buf.AtEnd

/-- A reply to a write arrives at the client that asked. -/
def WriteReplyDelivered (wopelog : WOpeLog) (rt : RepType) : Prop :=
  ∃ body, (Reply.repWrite wopelog rt).body info = some body ∧
    ∃ m, AsynClient.repWrite body = some m ∧
      m.envelope.fromNode = info ∧ m.envelope.toNode = wopelog.fromNode ∧
      m.fromNode = info ∧ m.rt = rt ∧ m.opeId = wopelog.opeId ∧
      m.envelope.package.AtEnd ∧ m.buf.AtEnd

/-- The result of a read arrives at the client that asked. -/
def ReadReplyDelivered (ropelog : ROpeLog) (result : ROPEResult) : Prop :=
  ∃ body, (Reply.repRead ropelog result).body info = some body ∧
    ∀ memory, ∃ m, AsynClient.repRead memory body = some m ∧
      m.envelope.fromNode = info ∧ m.envelope.toNode = ropelog.fromNode ∧
      es m.result = es result ∧ m.envelope.package.AtEnd ∧ m.buf.AtEnd

section Delivery
variable {info toNode tos opeId}

/-- The five reads that unpack a request, whatever operation it carries. -/
lemma request_reads {Ope : Type} [Serializable Ope] {b : Buffer} {ope : Ope} {rt : ReqType}
    (hfront : b.Front (Members.encode (info,tos,ope,rt,opeId,())))
    (hfits : Members.Fits (info,tos,ope,rt,opeId,())) (memory : Ope) :
    ∃ b1 b2 x b3 b4 b5, read {} b = some (info,b1) ∧ read [] b1 = some (tos,b2) ∧
      read memory b2 = some (x,b3) ∧ es x = es ope ∧ read .write b3 = some (rt,b4) ∧
      read [] b4 = some (opeId,b5) ∧ b5.AtEnd := by
  obtain ⟨hfrom,htos,hope,hrt,hopeId,_⟩ := hfits
  obtain ⟨b1,hread1,hfront1⟩ := hfront.read_complete hfrom {}
  obtain ⟨b2,hread2,hfront2⟩ := hfront1.read_complete htos []
  obtain ⟨x,b3,hread3,hes,hfront3⟩ := hfront2.read hope memory
  obtain ⟨b4,hread4,hfront4⟩ := hfront3.read_complete hrt .write
  obtain ⟨b5,hread5,hfront5⟩ := hfront4.read_complete hopeId []
  exact ⟨b1,b2,x,b3,b4,b5,hread1,hread2,hread3,hes,hread4,hread5,hfront5.finish⟩

lemma writeDelivered {wope : WOPE}
    (h : Sendable info toNode (info,toNode::tos,wope,ReqType.write,opeId,())) :
    WriteDelivered info toNode tos opeId wope := by
  obtain ⟨body,e,hbody,hopen,rfl,rfl,hfront,hpackage⟩ := openEnvelope_httpBody h
  refine ⟨body,hbody,fun memory => ?_⟩
  obtain ⟨b1,b2,x,b3,b4,b5,hread1,hread2,hread3,hes,hread4,hread5,hend⟩ :=
    request_reads hfront h.fits memory
  refine ⟨⟨e,e.fromNode,e.toNode::tos,x,.write,opeId,b5⟩,?_,rfl,rfl,rfl,rfl,hes,rfl,rfl,rfl,
    hpackage,hend⟩
  simp [AsynServer.reqWrite,hopen,hread1,hread2,hread3,hread4,hread5]

lemma readDelivered {rope : ROPE}
    (h : Sendable info toNode (info,toNode::tos,rope,ReqType.read,opeId,())) :
    ReadDelivered info toNode tos opeId rope := by
  obtain ⟨body,e,hbody,hopen,rfl,rfl,hfront,hpackage⟩ := openEnvelope_httpBody h
  refine ⟨body,hbody,fun memory => ?_⟩
  obtain ⟨b1,b2,x,b3,b4,b5,hread1,hread2,hread3,hes,hread4,hread5,hend⟩ :=
    request_reads hfront h.fits memory
  refine ⟨⟨e,e.fromNode,e.toNode::tos,x,.read,opeId,b5⟩,?_,rfl,rfl,rfl,rfl,hes,rfl,rfl,rfl,
    hpackage,hend⟩
  simp [AsynServer.reqRead,hopen,hread1,hread2,hread3,hread4,hread5]

lemma writeReplyDelivered {wopelog : WOpeLog} {rt : RepType}
    (h : Sendable info wopelog.fromNode (info,rt,wopelog.opeId,())) :
    WriteReplyDelivered info wopelog rt := by
  obtain ⟨body,e,hbody,hopen,rfl,hto,hfront,hpackage⟩ := openEnvelope_httpBody h
  obtain ⟨hfrom,hrt,hopeId,_⟩ := h.fits
  obtain ⟨b1,hread1,hfront1⟩ := hfront.read_complete hfrom {}
  obtain ⟨b2,hread2,hfront2⟩ := hfront1.read_complete hrt .primaryRead
  obtain ⟨b3,hread3,hfront3⟩ := hfront2.read_complete hopeId []
  refine ⟨body,hbody,⟨e,e.fromNode,rt,wopelog.opeId,b3⟩,?_,rfl,hto,rfl,rfl,rfl,hpackage,
    hfront3.finish⟩
  simp [AsynClient.repWrite,hopen,hread1,hread2,hread3]

lemma readReplyDelivered {ropelog : ROpeLog} {result : ROPEResult}
    (h : Sendable info ropelog.fromNode (result,())) : ReadReplyDelivered info ropelog result := by
  obtain ⟨body,e,hbody,hopen,rfl,hto,hfront,hpackage⟩ := openEnvelope_httpBody h
  refine ⟨body,hbody,fun memory => ?_⟩
  obtain ⟨r,b1,hread1,hes,hfront1⟩ := hfront.read h.fits.1 memory
  refine ⟨⟨e,r,b1⟩,?_,rfl,hto,hes,hpackage,hfront1.finish⟩
  simp [AsynClient.repRead,hopen,hread1]

end Delivery

/-- At each of the four endpoints the handler reads exactly what the sender has packed. -/
theorem endpoints_agree (wope : WOPE) (rope : ROPE) (wopelog : WOpeLog) (rt : RepType)
    (ropelog : ROpeLog) (result : ROPEResult) :
    (Sendable info toNode (info,toNode::tos,wope,ReqType.write,opeId,()) →
      WriteDelivered info toNode tos opeId wope) ∧
    (Sendable info toNode (info,toNode::tos,rope,ReqType.read,opeId,()) →
      ReadDelivered info toNode tos opeId rope) ∧
    (Sendable info wopelog.fromNode (info,rt,wopelog.opeId,()) →
      WriteReplyDelivered info wopelog rt) ∧
    (Sendable info ropelog.fromNode (result,()) → ReadReplyDelivered info ropelog result) :=
  ⟨writeDelivered,readDelivered,writeReplyDelivered,readReplyDelivered⟩

/-- One message of each kind, the operation with a block and the result with two. -/
theorem endpoints_agree_small :
    let client : InfoForNetNode := ⟨lit "client",lit "localhost",8080⟩
    let server : InfoForNetNode := ⟨lit "osd",lit "localhost",8081⟩
    let wope : WOPE := ⟨generation 0,generation 1,[.insert,.delete],[0,1],[lit "x",[]]⟩
    let rope : ROPE := ⟨generation 1,[0]⟩
    let result : ROPEResult := ⟨lit "id",generation 1,[0,1],[lit "x",[0]]⟩
    WriteDelivered client server [] (lit "id") wope ∧ ReadDelivered client server [] (lit "id") rope ∧
      WriteReplyDelivered server ⟨lit "id",wope,client,.init⟩ .primaryJournalWrite ∧
      ReadReplyDelivered server ⟨lit "id",rope,client⟩ result := by
  intro client server wope rope result
  have hall := fun info toNode => endpoints_agree info toNode [] (lit "id") wope rope
    ⟨lit "id",wope,client,.init⟩ .primaryJournalWrite ⟨lit "id",rope,client⟩ result
  exact ⟨(hall client server).1 ⟨by decide,by decide,by decide,by decide +kernel⟩,
    (hall client server).2.1 ⟨by decide,by decide,by decide,by decide +kernel⟩,
    (hall server client).2.2.1 ⟨by decide,by decide,by decide,by decide +kernel⟩,
    (hall server client).2.2.2 ⟨by decide,by decide,by decide,by decide +kernel⟩⟩

end GDFileStore
