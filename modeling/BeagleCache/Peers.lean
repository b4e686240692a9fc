import BeagleCache.Outcome
import BeagleCache.Transition

/-! The table of peers, `peer.c`, and the counter `g_NumLivePeers`. A peer becomes alive when something is heard from it or sent to
it and dies when it was silent for too long; each of these steps counts. A peer that is not in the configuration gets its entry
when it connects, alive from the start, and this is not counted. -/

namespace BeagleCache

open Transition

/-- `MAX_PEER_SIZE`. -/
def maxPeerSize : Nat := 1024

/-- `PeerInfo`, with the fields that decide about its liveness. -/
structure PeerInfo where
  netAddr : BitVec 32
  isAlive : Bool
  isLocalHost : Bool
  lastPingTime : Int

/-- `g_PeerInfo` with `g_NumPeers` entries, `g_NumLivePeers`, `g_LocalInfo` and `g_FirstPeerIdx`. -/
structure PeerTable where
  peers : List PeerInfo
  numLivePeers : Int
  localInfo : Option Nat
  firstPeerIdx : Option Nat

/-- `UpdatePeerLiveness` of the peer with index `idx` at the time `now`. -/
def updatePeerLiveness (now : Int) (s : PeerTable) (idx : Nat) : Run PeerTable :=
  match s.peers[idx]? with
  | none => .error .overrun
  | some pi =>
      if pi.isAlive = false then do
        let numLivePeers := s.numLivePeers + 1
        check (numLivePeers ≤ s.peers.length)
        return { s with peers := s.peers.set idx { pi with isAlive := true, lastPingTime := now }, numLivePeers := numLivePeers }
      else return { s with peers := s.peers.set idx { pi with lastPingTime := now } }

/-- The result of `hashtable_search(peerAddrMap, &addr)`. Where several peers have the address the order in the bucket decides. -/
def FoundByAddr (s : PeerTable) (addr : BitVec 32) : Option Nat → Prop
  | none => ∀ pi ∈ s.peers, pi.netAddr ≠ addr
  | some idx => ∃ pi, s.peers[idx]? = some pi ∧ pi.netAddr = addr

/-- `ProcessPing` after the look-up of the address. The answer and the load figures do not concern the liveness. -/
def processPing (now : Int) (s : PeerTable) : Option Nat → Run PeerTable
  | none => .ok s
  | some idx => updatePeerLiveness now s idx

/-- The loop of `CheckNodeStatus` from the peer with index `i` on; the clock reads `now i` there. -/
def expirePeers (timerInterval : Int) (now : Nat → Int) (localInfo firstPeerIdx : Option Nat) :
    Nat → List PeerInfo → Int → Run (List PeerInfo × Int)
  | _, [], numLivePeers => .ok ([], numLivePeers)
  | i, pi :: rest, numLivePeers => do
      -- `SendPing`
      check (pi.isLocalHost = false ∧ some i ≠ firstPeerIdx → localInfo ≠ none)
      if pi.lastPingTime + timerInterval * 3 ≤ now i ∧ pi.isAlive = true then
        check (0 ≤ numLivePeers - 1)
        let r ← expirePeers timerInterval now localInfo firstPeerIdx (i + 1) rest (numLivePeers - 1)
        return ({ pi with isAlive := false } :: r.1, r.2)
      else
        let r ← expirePeers timerInterval now localInfo firstPeerIdx (i + 1) rest numLivePeers
        return (pi :: r.1, r.2)

def checkNodeStatus (timerInterval : Int) (now : Nat → Int) (s : PeerTable) : Run PeerTable := do
  let r ← expirePeers timerInterval now s.localInfo s.firstPeerIdx 0 s.peers s.numLivePeers
  let s := { s with peers := r.1, numLivePeers := r.2 }
  match s.localInfo, s.firstPeerIdx with
  | some localIdx, some firstIdx => do
      let s ← updatePeerLiveness (now s.peers.length) s localIdx
      updatePeerLiveness (now (s.peers.length + 1)) s firstIdx
  | _, _ => .error .overrun

/-- `AddUnknownPeerInfo`: the entry is written before the assertion on the number of peers. Its `lastPingTime` is the one the array
was allocated with. -/
def addUnknownPeerInfo (s : PeerTable) (netAddr : BitVec 32) : Run PeerTable := do
  inBounds (s.peers.length < maxPeerSize)
  return { s with peers := s.peers ++ [⟨netAddr, true, false, 0⟩] }

/-- A ping or a pong, a message to a peer, the timer, and a connection from an address that is in no entry. -/
inductive PeerEvent
  | ping (now : Int) (addr : BitVec 32)
  | written (now : Int) (idx : Nat)
  | timer (now : Nat → Int)
  | unknown (netAddr : BitVec 32)

/-- The peers of the configuration, none of them alive yet. -/
def peersInit (s : PeerTable) : Prop := (∀ pi ∈ s.peers, pi.isAlive = false) ∧ s.numLivePeers = 0

def peerSystem (timerInterval : Int) : System PeerTable PeerEvent where
  init := peersInit
  step := fun s event s' => match event with
    | .ping now addr => ∃ found, FoundByAddr s addr found ∧ processPing now s found = .ok s'
    | .written now idx => updatePeerLiveness now s idx = .ok s'
    | .timer now => checkNodeStatus timerInterval now s = .ok s'
    | .unknown netAddr => addUnknownPeerInfo s netAddr = .ok s'

/-- The number of peers whose `isAlive` is true. -/
def livePeers (peers : List PeerInfo) : Nat := peers.countP PeerInfo.isAlive

/-- The number of entries made for unknown peers. -/
def unknownPeers (events : List PeerEvent) : Nat := events.countP fun event => event matches .unknown _

/-- The live peers that are not counted. -/
def uncounted (s : PeerTable) : Int := livePeers s.peers - s.numLivePeers

/-- A message from or to a peer counts it when it makes it alive. -/
theorem updatePeerLiveness_uncounted {now : Int} {s s' : PeerTable} {idx : Nat} (h : updatePeerLiveness now s idx = .ok s') :
    uncounted s' = uncounted s := by
  unfold updatePeerLiveness at h
  cases hpi : s.peers[idx]? with
  | none =>
      rw [hpi] at h
      cases h
  | some pi =>
      rw [hpi] at h
      obtain ⟨hlt, rfl⟩ := List.getElem?_eq_some_iff.mp hpi
      by_cases halive : s.peers[idx].isAlive = false
      · obtain ⟨_, _, hret⟩ := Run.bind_eq_ok.mp ((if_pos halive).symm.trans h)
        cases hret
        have hcount : livePeers (s.peers.set idx { s.peers[idx] with isAlive := true, lastPingTime := now }) = livePeers s.peers + 1 := by
          simp [livePeers, List.countP_set hlt, halive]
        simp only [uncounted, hcount]
        push_cast
        ring
      · have hret := (if_neg halive).symm.trans h
        cases hret
        have halive' : s.peers[idx].isAlive = true := by simpa using halive
        have hpos : 0 < livePeers s.peers := List.countP_pos_iff.mpr ⟨_, List.getElem_mem hlt, halive'⟩
        have hcount : livePeers (s.peers.set idx { s.peers[idx] with lastPingTime := now }) = livePeers s.peers := by
          rw [livePeers] at hpos
          simp only [livePeers, List.countP_set hlt, halive', if_true]
          exact Nat.sub_add_cancel hpos
        simp only [uncounted, hcount]

theorem expirePeers_uncounted {timerInterval : Int} {now : Nat → Int} {localInfo firstPeerIdx : Option Nat} {i : Nat}
    {peers : List PeerInfo} {numLivePeers : Int} {r : List PeerInfo × Int}
    (h : expirePeers timerInterval now localInfo firstPeerIdx i peers numLivePeers = .ok r) :
    (livePeers r.1 : Int) - r.2 = livePeers peers - numLivePeers := by
  induction peers generalizing i numLivePeers r with
  | nil =>
      cases h
      rfl
  | cons pi rest ih =>
      rw [expirePeers] at h
      obtain ⟨_, _, h⟩ := Run.bind_eq_ok.mp h
      by_cases hexpired : pi.lastPingTime + timerInterval * 3 ≤ now i ∧ pi.isAlive = true
      · rw [if_pos hexpired] at h
        obtain ⟨_, _, h⟩ := Run.bind_eq_ok.mp h
        obtain ⟨r', hrest, hret⟩ := Run.bind_eq_ok.mp h
        cases hret
        have hsame := ih hrest
        have hbefore : livePeers (pi :: rest) = livePeers rest + 1 := List.countP_cons_of_pos hexpired.2
        have hafter : livePeers ({ pi with isAlive := false } :: r'.1) = livePeers r'.1 := List.countP_cons_of_neg (by simp)
        rw [hbefore]
        simp only [hafter]
        push_cast
        linarith
      · rw [if_neg hexpired] at h
        obtain ⟨r', hrest, hret⟩ := Run.bind_eq_ok.mp h
        cases hret
        have hsame := ih hrest
        simp only [livePeers, List.countP_cons] at hsame ⊢
        push_cast
        linarith

theorem checkNodeStatus_uncounted {timerInterval : Int} {now : Nat → Int} {s s' : PeerTable}
    (h : checkNodeStatus timerInterval now s = .ok s') : uncounted s' = uncounted s := by
  obtain ⟨r, hexpire, h⟩ := Run.bind_eq_ok.mp h
  have hloop : uncounted { s with peers := r.1, numLivePeers := r.2 } = uncounted s := expirePeers_uncounted hexpire
  cases hlocal : s.localInfo with
  | none =>
      simp only [hlocal] at h
      cases h
  | some localIdx =>
      cases hfirst : s.firstPeerIdx with
      | none =>
          simp only [hlocal, hfirst] at h
          cases h
      | some firstIdx =>
          simp only [hlocal, hfirst] at h
          obtain ⟨s₁, hupdate, hupdate'⟩ := Run.bind_eq_ok.mp h
          rw [updatePeerLiveness_uncounted hupdate', updatePeerLiveness_uncounted hupdate, ← hloop, hlocal, hfirst]

theorem addUnknownPeerInfo_uncounted {s s' : PeerTable} {netAddr : BitVec 32} (h : addUnknownPeerInfo s netAddr = .ok s') :
    uncounted s' = uncounted s + 1 := by
  obtain ⟨_, _, hret⟩ := Run.bind_eq_ok.mp h
  cases hret
  simp only [uncounted, livePeers, List.countP_append, List.countP_singleton, if_true]
  push_cast
  ring

/-- The live peers that are not counted are as many as entries were made for unknown peers. -/
theorem uncounted_eq {timerInterval : Int} {events : List PeerEvent} {s : PeerTable} (hrun : (peerSystem timerInterval).Runs events s) :
    uncounted s = unknownPeers events := by
  induction hrun with
  | @start s hinit =>
      have hnone : livePeers s.peers = 0 := List.countP_eq_zero.mpr fun pi hpi => by simp [hinit.1 pi hpi]
      rw [uncounted, hnone, hinit.2]
      rfl
  | @step events s s' event _ hstep ih =>
      have hcount : unknownPeers (events ++ [event]) = unknownPeers events + unknownPeers [event] := List.countP_append
      rw [hcount]
      cases event with
      | ping now addr =>
          obtain ⟨found, _, hping⟩ := hstep
          cases found with
          | none =>
              cases hping
              exact ih
          | some idx => exact (updatePeerLiveness_uncounted hping).trans ih
      | written now idx => exact (updatePeerLiveness_uncounted hstep).trans ih
      | timer now => exact (checkNodeStatus_uncounted hstep).trans ih
      | unknown netAddr =>
          rw [addUnknownPeerInfo_uncounted hstep, ih]
          rfl

/-- `g_NumLivePeers` is the number of live peers, and not negative, in exactly the runs without an unknown peer. -/
theorem live_peers_counted_iff {timerInterval : Int} {events : List PeerEvent} {s : PeerTable}
    (hrun : (peerSystem timerInterval).Runs events s) :
    (s.numLivePeers = livePeers s.peers ∧ 0 ≤ s.numLivePeers) ↔ ∀ netAddr, .unknown netAddr ∉ events := by
  have hcount := uncounted_eq hrun
  have hnone : unknownPeers events = 0 ↔ ∀ netAddr, .unknown netAddr ∉ events := by
    rw [unknownPeers, List.countP_eq_zero]
    constructor
    · intro h netAddr hmem
      exact h _ hmem rfl
    · intro h event hmem
      cases event with
      | unknown netAddr => exact absurd hmem (h netAddr)
      | ping now addr => simp
      | written now idx => simp
      | timer now => simp
  rw [← hnone]
  unfold uncounted at hcount
  omega

/-- The proxy itself, which comes first, and another one. -/
def twoPeers : PeerTable := ⟨[⟨1, false, true, 0⟩, ⟨2, false, false, 0⟩], 0, some 0, some 0⟩

/-- The other peer pings after the first `CheckNodeStatus`, and is silent until the second one. -/
theorem live_peers_counted_silent :
    ∃ s, (peerSystem 5).Runs [.timer fun _ => 100, .ping 101 2, .timer fun _ => 200] s ∧ s.peers.map PeerInfo.isAlive = [true, false] ∧
      s.numLivePeers = livePeers s.peers ∧ 0 ≤ s.numLivePeers := by
  have hinit : (peerSystem 5).init twoPeers := by simp [peerSystem, peersInit, twoPeers]
  have hfirst : (peerSystem 5).step twoPeers (.timer fun _ => 100)
      ⟨[⟨1, true, true, 100⟩, ⟨2, false, false, 0⟩], 1, some 0, some 0⟩ := by
    show checkNodeStatus 5 (fun _ => 100) twoPeers = _
    rfl
  have hping : (peerSystem 5).step ⟨[⟨1, true, true, 100⟩, ⟨2, false, false, 0⟩], 1, some 0, some 0⟩ (.ping 101 2)
      ⟨[⟨1, true, true, 100⟩, ⟨2, true, false, 101⟩], 2, some 0, some 0⟩ := by
    refine ⟨some 1, ⟨_, rfl, rfl⟩, ?_⟩
    rfl
  have hsecond : (peerSystem 5).step ⟨[⟨1, true, true, 100⟩, ⟨2, true, false, 101⟩], 2, some 0, some 0⟩ (.timer fun _ => 200)
      ⟨[⟨1, true, true, 200⟩, ⟨2, false, false, 101⟩], 1, some 0, some 0⟩ := by
    show checkNodeStatus 5 (fun _ => 200) _ = _
    rfl
  have hrun := (((System.Runs.start hinit).step hfirst).step hping).step hsecond
  exact ⟨_, hrun, rfl, (live_peers_counted_iff hrun).mpr fun netAddr => by simp⟩

/-- A proxy that is its own only peer, before the first `CheckNodeStatus`. -/
def onePeer : PeerTable := ⟨[⟨1, false, true, 0⟩], 0, some 0, some 0⟩

/-- The first `CheckNodeStatus` of `onePeer`. -/
theorem onePeer_timer : (peerSystem 5).Runs [.timer fun _ => 100] ⟨[⟨1, true, true, 100⟩], 1, some 0, some 0⟩ := by
  have hinit : (peerSystem 5).init onePeer := by simp [peerSystem, peersInit, onePeer]
  have htimer : (peerSystem 5).step onePeer (.timer fun _ => 100) ⟨[⟨1, true, true, 100⟩], 1, some 0, some 0⟩ := by
    show checkNodeStatus 5 (fun _ => 100) onePeer = _
    rfl
  exact (System.Runs.start hinit).step htimer

/-- Once the timer ran, a connection from an unknown address makes two live peers of which one is counted. -/
theorem live_peers_drift :
    ∃ s, (peerSystem 5).Runs [.timer fun _ => 100, .unknown 2] s ∧ s.numLivePeers = 1 ∧ livePeers s.peers = 2 := by
  have hunknown : (peerSystem 5).step ⟨[⟨1, true, true, 100⟩], 1, some 0, some 0⟩ (.unknown 2)
      ⟨[⟨1, true, true, 100⟩, ⟨2, true, false, 0⟩], 1, some 0, some 0⟩ := by
    show addUnknownPeerInfo _ _ = _
    rfl
  exact ⟨_, onePeer_timer.step hunknown, rfl, rfl⟩

/-- The next time the timer runs late enough, the assertion in `CheckNodeStatus` fails. -/
example : checkNodeStatus 5 (fun _ => 200) ⟨[⟨1, true, true, 100⟩, ⟨2, true, false, 0⟩], 1, some 0, some 0⟩ = .error .assertion := rfl

end BeagleCache
