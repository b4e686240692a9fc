import BeagleCache.UserRun
import BeagleCache.Transition

/-! The flow control of user connections: `ProcessNameAck`, `PostWrite` and the ways a connection ends, `SetDead`,
`CloseConnection` and `ProcessCloseConnection`, with the counter `g_NumBlocked` that all of them are to keep. -/

namespace BeagleCache

open Transition

/-- A user connection with the fields of its flow control. `isDead` says that `g_DeadConnList` holds it. -/
structure UserFlow where
  ci : UserConnection
  lastAcked : BitVec 32
  bytesRX : BitVec 32
  closeBytes : BitVec 32
  isAbnormal : Bool
  isDead : Bool

def newUserFlow (ci : UserConnection) : UserFlow where
  ci := ci
  lastAcked := 0
  bytesRX := 0
  closeBytes := 0
  isAbnormal := false
  isDead := false

/-- `SetDead`. -/
def setDead (uf : UserFlow) (abnormal : Bool) : UserFlow :=
  if uf.ci.status = .closed then uf
  else { uf with ci := { uf.ci with status := .closed }, isAbnormal := abnormal, isDead := true }

/-- The state of a connection after `ProcessNameAck` took the bytes of an acknowledgement off the window. -/
def takeAck (uf : UserFlow) (ack : BitVec 32) : UserFlow :=
  { uf with ci := { uf.ci with numSent := uf.ci.numSent - (ack - uf.lastAcked) }, lastAcked := ack }

/-- The window is open again: `maxWindowSize - numSent >= threshold`, with the threshold `maxWindowSize * 0.2`. -/
def windowOpen (ci : UserConnection) : Bool := decide (ci.maxWindowSize.toNat / 5 ≤ (ci.maxWindowSize - ci.numSent).toNat)

/-- What `ProcessNameAck` does to the connection it found: the connection, whether it was unblocked, and the tables. -/
def applyNameAck (ack : BitVec 32) (uf : UserFlow) (tmp : TempCache) (hints : HintTable) :
    Run (UserFlow × Bool × TempCache × HintTable) := do
  check (uf.lastAcked ≤ ack)
  check (ack ≤ uf.ci.bytesTX)
  let uf := takeAck uf ack
  let unblocked := decide (uf.ci.status = .block) && windowOpen uf.ci
  let status := if unblocked then .active else uf.ci.status
  let r ← destroyChunkBufferList ack true uf.ci.chunkBufferList tmp hints
  let uf := { uf with ci := { uf.ci with status := status, chunkBufferList := r.1 } }
  return (if status = .finsent ∧ uf.ci.numSent = 0 then setDead uf false else uf, unblocked, r.2.1, r.2.2)

/-- What `ProcessCloseConnection` does to the connection it found. -/
def applyCloseConnection (bytesTX : BitVec 32) (uf : UserFlow) : UserFlow :=
  if bytesTX = 0 then setDead uf true
  else if uf.bytesRX = bytesTX then setDead uf false
  else { uf with closeBytes := bytesTX }

/-- There is no outstanding data: all the bytes the other side announced were written. -/
def UserFlow.AllWritten (uf : UserFlow) : Prop := uf.closeBytes ≠ 0 ∧ uf.bytesRX = uf.closeBytes

instance (uf : UserFlow) : Decidable uf.AllWritten := inferInstanceAs (Decidable (_ ∧ _))

/-- `PostWrite` of a user connection. -/
def postWrite (bytesSent : BitVec 32) (eventTriggered : Bool) (uf : UserFlow) : UserFlow :=
  let uf := { uf with bytesRX := uf.bytesRX + bytesSent }
  if eventTriggered ∧ uf.AllWritten then setDead uf false else uf

/-- The end of `ReconstructOriginalData`. -/
def postReconstruct (uf : UserFlow) : UserFlow := if uf.AllWritten then setDead uf false else uf

/-- `MAX_NUM_CI`. -/
def maxNumCI : Nat := 1024 * 5

/-- The user connections of a proxy, with `g_NumBlocked` and `g_NumUserConns`. -/
structure UserTable where
  users : List UserFlow
  numBlocked : BitVec 32
  numUserConns : Int

/-- What happens to user connections. Where a step looks at the tables that connections share, it gets them as the rest of
the proxy left them. -/
inductive UserEvent
  | accept (isForward isHttpProxy : Bool) (key : ConnectionID)
  | read (i : Nat) (data : Bytes)
  | serve (i : Nat) (forceProcess : Bool) (hint : Sha1Name → Bool) (sh : Shared)
  | ack (i : Nat) (ack : BitVec 32) (tmp : TempCache) (hints : HintTable)
  | eof (i : Nat) (hint : Sha1Name → Bool) (sh : Shared)
  | error (i : Nat)
  | peerClose (i : Nat) (bytesTX : BitVec 32)
  | wrote (i : Nat) (bytesSent : BitVec 32) (eventTriggered : Bool)
  | reconstructed (i : Nat)
  | destroy (i : Nat)

section Table

variable (cfg : Config) (sha1 : Bytes → Sha1Name) (host : Bytes → Option (BitVec 32 × BitVec 16))

/-- What is done with the connection at `i`, if there is one. -/
def withUser (t : UserTable) (i : Nat) (f : UserFlow → Run UserTable) : Run UserTable :=
  match t.users[i]? with
  | some uf => f uf
  | none => .ok t

/-- The table with another state of the connection at `i`. -/
def UserTable.put (t : UserTable) (i : Nat) (uf : UserFlow) : UserTable := { t with users := t.users.set i uf }

/-- `ProcessUserData` of the connection at `i`, which counts a connection that it blocks. -/
def serveCounted (t : UserTable) (i : Nat) (uf : UserFlow) (forceProcess : Bool) (hint : Sha1Name → Bool) (sh : Shared) :
    Run UserTable := do
  let r ← serveUser cfg sha1 hint host forceProcess uf.ci sh
  let t := t.put i { uf with ci := r.ci }
  if r.blocked then do
    check (((t.numBlocked + 1).toNat : Int) ≤ t.numUserConns)
    return { t with numBlocked := t.numBlocked + 1 }
  else return t

/-- `CloseConnection` of a user connection. -/
def closeConnection (t : UserTable) (i : Nat) (uf : UserFlow) (hint : Sha1Name → Bool) (sh : Shared) : Run UserTable :=
  if uf.ci.status = .closed then .ok t
  else if 0 < uf.ci.bufRead.length then
    serveCounted cfg sha1 host t i { uf with ci := { uf.ci with status := .done } } true hint sh
  else
    let uf := { uf with ci := { uf.ci with status := .finsent } }
    return t.put i (if 0 < uf.ci.numSent then uf else setDead uf false)

/-- `DestroyUserConnectionInfo`, which `CleanUpClosedConnections` calls for the dead connections. -/
def destroyUser (t : UserTable) (i : Nat) (uf : UserFlow) : Run UserTable :=
  if uf.isDead then do
    check (uf.ci.status = .closed)
    check (0 ≤ t.numUserConns - 1)
    return { t with
      users := t.users.eraseIdx i
      numUserConns := t.numUserConns - 1
      numBlocked := if uf.ci.status = .block then t.numBlocked - 1 else t.numBlocked }
  else .ok t

def userNext (t : UserTable) : UserEvent → Run UserTable
  | .accept isForward isHttpProxy key => do
      inBounds (t.users.length < maxNumCI)
      let ci ← createUserConnectionInfo cfg isForward
      return { t with
        users := t.users ++ [newUserFlow { ci with key := key, isHttpProxy := isHttpProxy }]
        numUserConns := t.numUserConns + 1 }
  | .read i data => withUser t i fun uf => return t.put i { uf with
      ci := { uf.ci with bufRead := uf.ci.bufRead ++ data.take (recvBufsize - uf.ci.bufRead.length) } }
  | .serve i forceProcess hint sh => withUser t i fun uf => serveCounted cfg sha1 host t i uf forceProcess hint sh
  | .ack i ack tmp hints => withUser t i fun uf => do
      let r ← applyNameAck ack uf tmp hints
      return { t.put i r.1 with numBlocked := if r.2.1 then t.numBlocked - 1 else t.numBlocked }
  | .eof i hint sh => withUser t i fun uf => closeConnection cfg sha1 host t i uf hint sh
  | .error i => withUser t i fun uf => return t.put i (setDead uf true)
  | .peerClose i bytesTX => withUser t i fun uf => return t.put i (applyCloseConnection bytesTX uf)
  | .wrote i bytesSent eventTriggered => withUser t i fun uf => return t.put i (postWrite bytesSent eventTriggered uf)
  | .reconstructed i => withUser t i fun uf => return t.put i (postReconstruct uf)
  | .destroy i => withUser t i fun uf => destroyUser t i uf

/-- The user connections of a proxy from its start on. -/
def userSystem : System UserTable UserEvent := .ofNext (· = ⟨[], 0, 0⟩) (userNext cfg sha1 host)

end Table

end BeagleCache
