import GDFileStore.Client.Replies
import GDFileStore.Messages.Endpoints
import GDFileStore.Queues.Refinement

/-! A server and its clients. What is posted comes to the other side as the bytes that were packed,
or is lost; a server that crashes starts again on its database and its files. -/
namespace GDFileStore
open Sequences Program Serializable

/-- Where a node listens. -/
def InfoForNetNode.address (info : InfoForNetNode) : Bytes × Int32 := (info.host,info.port)

/-- The client that asked. -/
def Reply.toNode : Reply → InfoForNetNode
  | .repWrite wopelog _ => wopelog.fromNode
  | .repRead ropelog _ => ropelog.fromNode

/-- What the endpoint of the client unpacks and gives to its pool, from a body with all sizes below
`2^31`. -/
inductive Reply.Arrives (info : InfoForNetNode) : Reply → ClientJob → Prop
  | repWrite {wopelog : WOpeLog} {rt : RepType} {body : Bytes} {m : RepWrite}
      (hsize : Sendable info wopelog.fromNode (info,rt,wopelog.opeId,()))
      (hbody : (Reply.repWrite wopelog rt).body info = some body)
      (hread : AsynClient.repWrite body = some m) :
      Arrives info (.repWrite wopelog rt) (.repWrite m.rt m.opeId)
  | repRead {ropelog : ROpeLog} {result memory : ROPEResult} {body : Bytes} {m : RepRead}
      (hsize : Sendable info ropelog.fromNode (result,()))
      (hbody : (Reply.repRead ropelog result).body info = some body)
      (hread : AsynClient.repRead memory body = some m) :
      Arrives info (.repRead ropelog result) (.repRead m.result)

/-- A server, the clients by their addresses, the replies that the server sent before its last
start, and the requests that the clients have posted. -/
structure Network where
  server : DataServer World
  clients : Bytes × Int32 → ReplyPool := fun _ => { client := {} }
  past : List Reply := []
  written : List (InfoForNetNode × Bytes × WOPE) := []
  asked : List (InfoForNetNode × Bytes × ROPE) := []

namespace Network

/-- All the replies that the server has sent. -/
def sent (n : Network) : List Reply := n.past ++ n.server.sent

/-- The request with `opeId` has been unpacked by the handler of `/reqWrite`. -/
def reqWrite (n : Network) (client : InfoForNetNode) (opeId : Bytes) (wope : WOPE) (m : ReqWrite) :
    Network :=
  { n with
    server := { n.server with writes := n.server.writes.reqWrite m.opeId m.wope m.fromNode }
    written := n.written ++ [(client,opeId,wope)] }

def reqRead (n : Network) (client : InfoForNetNode) (opeId : Bytes) (rope : ROPE) (m : ReqRead) :
    Network :=
  { n with server := n.server.reqRead m.ropelog, asked := n.asked ++ [(client,opeId,rope)] }

/-- A job comes to the pool of the client at an address. -/
def deliver (n : Network) (address : Bytes × Int32) (job : ClientJob) : Network :=
  let s := n.clients address
  { n with clients := Function.update n.clients address { s with jobs := s.jobs ++ [job] } }

/-- One step of a client, the network or the server. A client's pool has `workers` threads, each of
the server's pools `threads`. -/
inductive Step (fs : FileStore) (threads workers : ℕ) (info : InfoForNetNode) :
    Network → Network → Prop
  | asynWrite (n : Network) {client toNode : InfoForNetNode} {tos : List InfoForNetNode}
      {opeId body : Bytes} {wope memory : WOPE} {m : ReqWrite}
      (hsize : Sendable client toNode (client,toNode::tos,wope,ReqType.write,opeId,()))
      (hbody : AsynClient.asynWrite client (toNode::tos) wope opeId = some body)
      (hread : AsynServer.reqWrite memory body = some m) :
      Step fs threads workers info n (n.reqWrite client opeId wope m)
  | asynRead (n : Network) {client toNode : InfoForNetNode} {tos : List InfoForNetNode}
      {opeId body : Bytes} {rope memory : ROPE} {m : ReqRead}
      (hsize : Sendable client toNode (client,toNode::tos,rope,ReqType.read,opeId,()))
      (hbody : AsynClient.asynRead client (toNode::tos) rope opeId = some body)
      (hread : AsynServer.reqRead memory body = some m) :
      Step fs threads workers info n (n.reqRead client opeId rope m)
  /-- A thread of the server does something, and what it sends, if anything, is lost. -/
  | serve {n : Network} {d : DataServer World}
      (hstep : DataServer.Step fs threads Request.Gives n.server d)
      (haccepted : d.writes.accepted = n.server.writes.accepted) (hasked : d.asked = n.server.asked) :
      Step fs threads workers info n { n with server := d }
  /-- A worker of the server sends a reply, which arrives. -/
  | httpSend {n : Network} {d : DataServer World} {reply : Reply} {job : ClientJob}
      (hstep : DataServer.Step fs threads Request.Gives n.server d)
      (haccepted : d.writes.accepted = n.server.writes.accepted) (hasked : d.asked = n.server.asked)
      (hsent : d.sent = n.server.sent ++ [reply]) (harrives : reply.Arrives info job) :
      Step fs threads workers info n (deliver { n with server := d } reply.toNode.address job)
  /-- A worker of a client takes or handles a job. -/
  | client {n : Network} (address : Bytes × Int32) (m : ReplyPool.Move) {s : ReplyPool}
      (hstep : (n.clients address).step workers m = some s) :
      Step fs threads workers info n { n with clients := Function.update n.clients address s }
  | crash (n : Network) : Step fs threads workers info n
      { n with server := { writes := { world := n.server.writes.world } }, past := n.sent }

/-- The states of a network that has started on `world₀`, with no requests yet. -/
inductive Reachable (fs : FileStore) (threads workers : ℕ) (info : InfoForNetNode) (world₀ : World) :
    Network → Prop
  | start : Reachable fs threads workers info world₀ { server := { writes := { world := world₀ } } }
  | step {n n' : Network} : Reachable fs threads workers info world₀ n →
      Step fs threads workers info n n' → Reachable fs threads workers info world₀ n'

lemma Reachable.later {fs : FileStore} {threads workers : ℕ} {info : InfoForNetNode} {world₀ : World}
    {n n' : Network} (h : Reachable fs threads workers info world₀ n)
    (hlater : Relation.ReflTransGen (Step fs threads workers info) n n') :
    Reachable fs threads workers info world₀ n' := by
  induction hlater with
  | refl => exact h
  | tail _ hstep ih => exact ih.step hstep

end Network
end GDFileStore
