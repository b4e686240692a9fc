import BeagleCache.Flow
import BeagleCache.Delivery
import BeagleCache.WriteQueue

/-! One direction of a user connection, from the proxy that reads its data to the proxy that writes it. The data travels in
the messages of `ProcessUserData`, is queued for the user on the other side, and comes back as acknowledgements. Both ways the
messages keep their order. -/

namespace BeagleCache

open Transition

/-- A `WANameAck` on its way. `written` is not sent: it is the number of bytes it stands for. -/
structure NameAck where
  ack : BitVec 32
  written : Nat

/-- One direction of a user connection. `out` are all the messages the source sent, of which the destination got the first
`delivered`; `acks` are the acknowledgements that are on their way. `acked` is not in the source: it is the number of bytes
that the last acknowledgement stood for. -/
structure Direction where
  src : UserFlow
  out : List Outgoing
  delivered : Nat
  dst : UserFlow
  queue : WriteQueue
  acks : List NameAck
  acked : Nat

/-- The bytes that messages stand for. -/
def blockBytes (out : List Outgoing) : Nat := (out.map fun o => o.block.length).sum

/-- The number of bytes the source sent, of which `bytesTX` has the last 32 bits. -/
def Direction.bytes (d : Direction) : Nat := blockBytes d.out

/-- What can happen. A step that looks at tables that connections share gets them as the rest of the proxy left them. -/
inductive FlowEvent
  | read (data : Bytes)
  | serve (forceProcess : Bool) (hint : Sha1Name → Bool) (sh : Shared)
  | deliver (pickPeer : Sha1Name → Int) (tmp : TempCache) (outcomes : List WriteOutcome)
  | schedule
  | reconstruct (tmp : TempCache) (outcomes : List WriteOutcome)
  | writable (outcomes : List WriteOutcome)
  | ack (tmp : TempCache) (hints : HintTable)

/-- What `write` returns in the step. -/
def FlowEvent.outcomes : FlowEvent → List WriteOutcome
  | .deliver _ _ outcomes => outcomes
  | .reconstruct _ outcomes => outcomes
  | .writable outcomes => outcomes
  | _ => []

/-- The destination after a `Write` that left `queue`: `SetDead` where it failed, and `PostWrite` where messages are gone. -/
def Direction.afterWrite (d : Direction) (eventTriggered : Bool) (queue : WriteQueue) : Direction :=
  let dst := if queue.failed ∧ d.queue.failed = false then setDead d.dst true else d.dst
  if d.queue.told < queue.told then
    let dst := postWrite (BitVec.ofNat 32 (queue.told - d.queue.told)) eventTriggered dst
    { d with dst := dst, queue := queue, acks := d.acks ++ [⟨dst.bytesRX, queue.told⟩] }
  else { d with dst := dst, queue := queue }

section Next

variable (cfg : Config) (sha1 : Bytes → Sha1Name) (host : Bytes → Option (BitVec 32 × BitVec 16))

/-- The next message gets to the destination: the state, and what is handed to `SendData`. -/
def Direction.deliver (pickPeer : Sha1Name → Int) (tmp : TempCache) (d : Direction) : Run (Direction × Option Bytes) :=
  match d.out[d.delivered]? with
  | none => .ok (d, none)
  | some o => do
      let r ← deliverMessage cfg sha1 pickPeer o.message [d.dst.ci] tmp
      let ci := r.1.headD d.dst.ci
      let data := ci.sent.drop d.dst.ci.sent.length
      return ({ d with delivered := d.delivered + 1, dst := { d.dst with ci := ci } }, if data = [] then none else some data)

/-- A round of the loop of `ReconstructOriginalData`: the state, and what is handed to `SendData`. -/
def Direction.reconstruct (tmp : TempCache) (d : Direction) : Run (Direction × Option Bytes) :=
  if d.dst.ci.status = .closed then .ok (d, none)
  else match d.dst.ci.reassembleList with
    | [] => .ok (d, none)
    | ri :: rest => do
        let r ← reconstructOneChunkTree cfg sha1 ri tmp
        match r.1 with
        | none => return (d, none)
        | some block => return ({ d with dst := { d.dst with
            ci := { d.dst.ci with reassembleList := rest, sent := d.dst.ci.sent ++ block } } }, some block)

/-- A step up to its call of `SendData`: the state, and what is handed to it. -/
def Direction.handOver (d : Direction) : FlowEvent → Run (Direction × Option Bytes)
  | .read data => return ({ d with src := { d.src with
      ci := { d.src.ci with bufRead := d.src.ci.bufRead ++ data.take (recvBufsize - d.src.ci.bufRead.length) } } }, none)
  | .serve forceProcess hint sh => do
      let r ← serveUser cfg sha1 hint host forceProcess d.src.ci sh
      return ({ d with src := { d.src with ci := r.ci }, out := d.out ++ r.out }, none)
  | .deliver pickPeer tmp _ => d.deliver cfg sha1 pickPeer tmp
  | .schedule => do
      let ci ← populateILSQueue d.dst.ci
      return ({ d with dst := { d.dst with ci := ci } }, none)
  | .reconstruct tmp _ => d.reconstruct cfg sha1 tmp
  | .writable outcomes => do
      let queue ← writeNext d.queue (.writable outcomes)
      return (d.afterWrite true queue, none)
  | .ack tmp hints =>
      match d.acks with
      | [] => .ok (d, none)
      | a :: acks => do
          let r ← applyNameAck a.ack d.src tmp hints
          return ({ d with src := r.1, acks := acks, acked := a.written }, none)

def flowNext (d : Direction) (e : FlowEvent) : Run Direction := do
  let r ← d.handOver cfg sha1 host e
  match r.2 with
  | none => return r.1
  | some msg => do
      let queue ← sendDataPrivate r.1.queue msg e.outcomes
      return r.1.afterWrite false queue

/-- Both ends of a connection as `CreateUserConnectionInfo` makes them, with the addresses and the kind of connection that
its callers set. -/
def newDirection (src dst : UserConnection) : Direction where
  src := newUserFlow src
  out := []
  delivered := 0
  dst := newUserFlow dst
  queue := newWriteQueue (some maxWindow)
  acks := []
  acked := 0

/-- The start of a direction. -/
def StartsDirection (d : Direction) : Prop := ∃ forward forward' src dst srcKey dstKey isHttpProxy,
  createUserConnectionInfo cfg forward = .ok src ∧ createUserConnectionInfo cfg forward' = .ok dst ∧
    d = newDirection { src with key := srcKey, isHttpProxy := isHttpProxy } { dst with key := dstKey }

def flowSystem : System Direction FlowEvent := .ofNext (StartsDirection cfg) (flowNext cfg sha1 host)

end Next

end BeagleCache
