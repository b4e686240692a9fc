import BeagleCache.RoundRobin
import BeagleCache.Protocol

/-! `ScheduleNameDelivery`: the control messages that wait in the queues of the user connections are handed to
`WriteToNamePeer`, for one peer after another and for each peer in rounds over its users. A round that finds as many
empty queues as the peer counts users is the last one, so the loop rests on the count in `numUsers`. -/

namespace BeagleCache

open Function

namespace NameSchedule

open RoundRobin

/-- `MessageInfo`. -/
structure MessageInfo where
  msg : Bytes
  len : Nat
  streamID : Int
  deriving DecidableEq

/-- A user's `ConnectionInfo` and its `UserConnectionInfo`, as far as the schedule goes. -/
structure User where
  fd : Int
  dstPxyIdx : Int
  nameFlowId : Int
  controlMsgList : List MessageInfo
  deriving DecidableEq

/-- `PeerInfo`; the connections are the pointers to them. -/
structure PeerInfo (κ : Type) where
  userList : List κ
  numUsers : Nat

/-- The arguments of a call of `WriteToNamePeer`, with the connection `ci` it is made for. -/
structure NameWrite (κ : Type) where
  ci : κ
  peerIdx : Int
  flowId : Int
  msg : Bytes
  len : Nat
  streamID : Int
  deriving DecidableEq

variable {κ : Type} [DecidableEq κ]

/-- The call for a message of `ci`. -/
def nameWrite (users : κ → User) (x : κ × MessageInfo) : NameWrite κ where
  ci := x.1
  peerIdx := (users x.1).dstPxyIdx
  flowId := (users x.1).nameFlowId
  msg := x.2.msg
  len := x.2.len
  streamID := (users x.1).fd

/-- The state a pass over a user list leaves: the users, what it wrote, `numMessages` and `stop`. -/
structure Pass (κ : Type) where
  users : κ → User
  written : List (NameWrite κ)
  numMessages : Nat
  stop : Bool

/-- The `TAILQ_FOREACH` over the user list of a peer. -/
def schedulePass (numUsers : Nat) : List κ → Nat → (κ → User) → Nat → Pass κ
  | [], _, users, numMessages => ⟨users, [], numMessages, false⟩
  | ci :: rest, numFinished, users, numMessages =>
      match (users ci).controlMsgList with
      | [] =>
          if numUsers = numFinished + 1 then ⟨users, [], numMessages, true⟩
          else schedulePass numUsers rest (numFinished + 1) users numMessages
      | mi :: messages =>
          let pass := schedulePass numUsers rest numFinished
            (update users ci { users ci with controlMsgList := messages }) (numMessages + 1)
          { pass with written := nameWrite users (ci, mi) :: pass.written }

/-- What the schedule leaves: the users, what was written, and `numMessages`. -/
structure Schedule (κ : Type) where
  users : κ → User
  written : List (NameWrite κ)
  numMessages : Nat

/-- The `while` loop for one peer; no result means that the loop is still running after so many passes. -/
def scheduleLoop (numUsers : Nat) (userList : List κ) : Nat → (κ → User) → Nat → Option (Schedule κ)
  | 0, _, _ => none
  | fuel + 1, users, numMessages =>
      let pass := schedulePass numUsers userList 0 users numMessages
      if pass.stop then some ⟨pass.users, pass.written, pass.numMessages⟩
      else do
        let rest ← scheduleLoop numUsers userList fuel pass.users pass.numMessages
        return { rest with written := pass.written ++ rest.written }

/-- The `for` loop over the peers. -/
def schedulePeers (fuel : Nat) : List (PeerInfo κ) → (κ → User) → Nat → Option (Schedule κ)
  | [], users, numMessages => some ⟨users, [], numMessages⟩
  | peer :: peers, users, numMessages =>
      if peer.numUsers = 0 then schedulePeers fuel peers users numMessages
      else do
        let here ← scheduleLoop peer.numUsers peer.userList fuel users numMessages
        let rest ← schedulePeers fuel peers here.users here.numMessages
        return { rest with written := here.written ++ rest.written }

/-- `g_UserList`, `g_PeerInfo`, `g_NumPeers` and the user connections. -/
structure Proxy (κ : Type) where
  users : κ → User
  userList : List κ
  peerInfo : Nat → PeerInfo κ
  numPeers : Nat

/-- The peers that `ScheduleNameDelivery` goes through. -/
def Proxy.peers (s : Proxy κ) : List (PeerInfo κ) := (List.range s.numPeers).map s.peerInfo

/-- `ScheduleNameDelivery`. -/
def scheduleNameDelivery (fuel : Nat) (s : Proxy κ) : Option (Schedule κ) := schedulePeers fuel s.peers s.users 0

/-! ## A pass -/

/-- The queues. -/
def queues (users : κ → User) (ci : κ) : List MessageInfo := (users ci).controlMsgList

/-- The users with other queues for those in a list. -/
def requeue (users : κ → User) (l : List κ) (f : List MessageInfo → List MessageInfo) : κ → User := fun ci =>
  if ci ∈ l then { users ci with controlMsgList := f (users ci).controlMsgList } else users ci

theorem requeue_of_mem {users : κ → User} {l : List κ} {ci : κ} (f : List MessageInfo → List MessageInfo) (h : ci ∈ l) :
    requeue users l f ci = { users ci with controlMsgList := f (users ci).controlMsgList } := if_pos h

theorem requeue_of_not_mem {users : κ → User} {l : List κ} {ci : κ} (f : List MessageInfo → List MessageInfo) (h : ci ∉ l) :
    requeue users l f ci = users ci := if_neg h

theorem nameWrite_requeue (users : κ → User) (l : List κ) (f : List MessageInfo → List MessageInfo) :
    nameWrite (requeue users l f) = nameWrite users := by
  funext x
  unfold nameWrite requeue
  split <;> rfl

theorem queues_requeue (users : κ → User) (l : List κ) (f : List MessageInfo → List MessageInfo) {ci : κ} (h : ci ∈ l) :
    queues (requeue users l f) ci = f (queues users ci) := by
  rw [queues, requeue_of_mem f h, queues]

/-- What is written in the rounds of a list. -/
def writtenIn (users : κ → User) (l : List κ) (n : Nat) : List (NameWrite κ) :=
  (rounds l (queues users) n).map (nameWrite users)

omit [DecidableEq κ] in
theorem writtenIn_one (users : κ → User) (l : List κ) :
    writtenIn users l 1 = (turn l (queues users) 0).map (nameWrite users) := by
  rw [writtenIn, rounds_succ, rounds_zero, List.nil_append]

/-- The first round, and then the rounds of the users it leaves. -/
theorem writtenIn_succ (users : κ → User) (l : List κ) (n : Nat) :
    writtenIn users l (n + 1) = writtenIn users l 1 ++ writtenIn (requeue users l List.tail) l n := by
  have hqueues : rounds l (fun ci => (queues users ci).tail) n = rounds l (queues (requeue users l List.tail)) n :=
    rounds_congr (fun ci hci => (queues_requeue users l List.tail hci).symm) n
  rw [writtenIn, rounds_succ_tail, hqueues, List.map_append, writtenIn_one, writtenIn, nameWrite_requeue]

omit [DecidableEq κ] in
theorem writtenIn_cons {users : κ → User} (ci : κ) (rest : List κ) : writtenIn users (ci :: rest) 1 =
    ((queues users ci)[0]?.map fun mi => nameWrite users (ci, mi)).toList ++ writtenIn users rest 1 := by
  rw [writtenIn_one, writtenIn_one, turn_cons, List.map_append]
  cases (queues users ci)[0]? with
  | none => rfl
  | some mi => rfl

theorem requeue_tail_nil {users : κ → User} {ci : κ} {rest : List κ} (h : (users ci).controlMsgList = []) :
    requeue users (ci :: rest) List.tail = requeue users rest List.tail := by
  funext other
  by_cases hrest : other ∈ rest
  · rw [requeue_of_mem _ hrest, requeue_of_mem _ (List.mem_cons_of_mem ci hrest)]
  · rw [requeue_of_not_mem _ hrest]
    by_cases hci : other = ci
    · subst hci
      rw [requeue_of_mem _ List.mem_cons_self, h, List.tail_nil, ← h]
    · rw [requeue_of_not_mem _ (by simp [hci, hrest])]

/-- The users after the turn of `ci`, whose first message is gone. -/
theorem requeue_tail_cons {users : κ → User} {ci : κ} {rest : List κ} {mi : MessageInfo} {messages : List MessageInfo}
    (hnew : ci ∉ rest) (h : (users ci).controlMsgList = mi :: messages) :
    requeue (update users ci { users ci with controlMsgList := messages }) rest List.tail =
      requeue users (ci :: rest) List.tail := by
  funext other
  by_cases hci : other = ci
  · subst hci
    rw [requeue_of_not_mem _ hnew, update_self, requeue_of_mem _ List.mem_cons_self, h, List.tail_cons]
  · by_cases hrest : other ∈ rest
    · rw [requeue_of_mem _ hrest, update_of_ne hci, requeue_of_mem _ (List.mem_cons_of_mem ci hrest)]
    · rw [requeue_of_not_mem _ hrest, update_of_ne hci, requeue_of_not_mem _ (by simp [hci, hrest])]

theorem nameWrite_update (users : κ → User) (ci : κ) (messages : List MessageInfo) :
    nameWrite (update users ci { users ci with controlMsgList := messages }) = nameWrite users := by
  funext x
  by_cases hx : x.1 = ci
  · unfold nameWrite
    rw [hx, update_self]
  · unfold nameWrite
    rw [update_of_ne hx]

theorem writtenIn_update {users : κ → User} {ci : κ} {rest : List κ} (hnew : ci ∉ rest) (messages : List MessageInfo) (n : Nat) :
    writtenIn (update users ci { users ci with controlMsgList := messages }) rest n = writtenIn users rest n := by
  rw [writtenIn, writtenIn, nameWrite_update]
  congr 1
  apply rounds_congr
  rintro other hother
  have hne : other ≠ ci := fun h => hnew (h ▸ hother)
  rw [queues, queues, update_of_ne hne]

/-- A pass writes the first message of everyone who has one, and stops where nobody has one and the users are
as many as are counted. -/
theorem schedulePass_eq {numUsers numFinished : Nat} {l : List κ} (hnodup : l.Nodup)
    (hcount : numFinished + l.length ≤ numUsers) (users : κ → User) (numMessages : Nat) :
    schedulePass numUsers l numFinished users numMessages =
      ⟨requeue users l List.tail, writtenIn users l 1, numMessages + (writtenIn users l 1).length,
        decide (l ≠ [] ∧ (∀ ci ∈ l, queues users ci = []) ∧ numFinished + l.length = numUsers)⟩ := by
  induction l generalizing numFinished users numMessages with
  | nil =>
      have hsame : requeue users [] List.tail = users := by
        funext ci
        exact requeue_of_not_mem _ List.not_mem_nil
      rw [schedulePass, hsame]
      rfl
  | cons ci rest ih =>
      rw [List.nodup_cons] at hnodup
      rw [List.length_cons] at hcount
      rw [schedulePass]
      cases hq : (users ci).controlMsgList with
      | nil =>
          have hqueue : queues users ci = [] := hq
          have hwritten : writtenIn users (ci :: rest) 1 = writtenIn users rest 1 := by
            rw [writtenIn_cons, hqueue]
            rfl
          rw [requeue_tail_nil hq, hwritten]
          simp only
          by_cases hlast : numUsers = numFinished + 1
          · -- the count is reached, so this is the last user
            obtain rfl : rest = [] := List.eq_nil_of_length_eq_zero (by omega)
            have hstop : (ci :: []) ≠ [] ∧ (∀ other ∈ [ci], queues users other = []) ∧ numFinished + [ci].length = numUsers :=
              ⟨List.cons_ne_nil ci [], by simpa using hqueue, hlast.symm⟩
            have hsame : requeue users [] List.tail = users := by
              funext other
              exact requeue_of_not_mem _ List.not_mem_nil
            rw [if_pos hlast, hsame, decide_eq_true hstop]
            rfl
          · have hcond : (rest ≠ [] ∧ (∀ other ∈ rest, queues users other = []) ∧ numFinished + 1 + rest.length = numUsers) ↔
                (ci :: rest ≠ [] ∧ (∀ other ∈ ci :: rest, queues users other = []) ∧
                  numFinished + (rest.length + 1) = numUsers) := by
              constructor
              · rintro ⟨-, hempty, hall⟩
                refine ⟨List.cons_ne_nil _ _, ?_, by omega⟩
                rintro other (_ | ⟨_, hother⟩)
                · exact hqueue
                · exact hempty other hother
              · rintro ⟨-, hempty, hall⟩
                refine ⟨?_, fun other hother => hempty other (List.mem_cons_of_mem ci hother), by omega⟩
                rintro rfl
                exact hlast (by rw [← hall]; rfl)
            rw [if_neg hlast, ih hnodup.2 (by omega), List.length_cons, decide_eq_decide.mpr hcond]
      | cons mi messages =>
          have hwritten : writtenIn users (ci :: rest) 1 = nameWrite users (ci, mi) :: writtenIn users rest 1 := by
            rw [writtenIn_cons, queues, hq]
            rfl
          have hmore : ¬ (ci :: rest ≠ [] ∧ (∀ other ∈ ci :: rest, queues users other = []) ∧
              numFinished + (ci :: rest).length = numUsers) := by
            rintro ⟨-, hempty, -⟩
            have := hempty ci List.mem_cons_self
            rw [queues, hq] at this
            cases this
          have hopen : ¬ numFinished + rest.length = numUsers := by omega
          simp only
          rw [ih hnodup.2 (by omega), requeue_tail_cons hnodup.1 hq, writtenIn_update hnodup.1, hwritten,
            decide_eq_false hmore, decide_eq_false fun h => hopen h.2.2, List.length_cons]
          congr 1
          simp only
          omega

/-! ## The loop over a user list -/

theorem requeue_requeue (users : κ → User) (l : List κ) (f g : List MessageInfo → List MessageInfo) :
    requeue (requeue users l f) l g = requeue users l (g ∘ f) := by
  funext ci
  by_cases hci : ci ∈ l
  · rw [requeue_of_mem g hci, requeue_of_mem f hci, requeue_of_mem (g ∘ f) hci]
    rfl
  · rw [requeue_of_not_mem g hci, requeue_of_not_mem f hci, requeue_of_not_mem (g ∘ f) hci]

/-- The users of a list without messages. -/
def drained (users : κ → User) (l : List κ) : κ → User := requeue users l fun _ => []

theorem requeue_of_empty {users : κ → User} {l : List κ} (h : ∀ ci ∈ l, queues users ci = [])
    (f : List MessageInfo → List MessageInfo) (hf : f [] = []) : requeue users l f = drained users l := by
  funext ci
  by_cases hci : ci ∈ l
  · have hqueue : (users ci).controlMsgList = [] := h ci hci
    rw [drained, requeue_of_mem _ hci, requeue_of_mem _ hci, hqueue, hf]
  · rw [drained, requeue_of_not_mem _ hci, requeue_of_not_mem _ hci]

omit [DecidableEq κ] in
theorem writtenIn_of_empty {users : κ → User} {l : List κ} (h : ∀ ci ∈ l, queues users ci = []) (n : Nat) :
    writtenIn users l n = [] := by
  rw [writtenIn, rounds_eq_nil h, List.map_nil]

/-- The last pass. -/
theorem scheduleLoop_empty {l : List κ} (hnodup : l.Nodup) (hne : l ≠ []) {users : κ → User}
    (hempty : ∀ ci ∈ l, queues users ci = []) (fuel numMessages : Nat) :
    scheduleLoop l.length l (fuel + 1) users numMessages = some ⟨drained users l, [], numMessages⟩ := by
  have hstop : l ≠ [] ∧ (∀ ci ∈ l, queues users ci = []) ∧ 0 + l.length = l.length := ⟨hne, hempty, Nat.zero_add _⟩
  rw [scheduleLoop, schedulePass_eq hnodup (by omega), decide_eq_true hstop, writtenIn_of_empty hempty,
    requeue_of_empty hempty List.tail rfl]
  rfl

/-- A pass that is not the last. -/
theorem scheduleLoop_busy {l : List κ} (hnodup : l.Nodup) {users : κ → User} (hbusy : ¬ ∀ ci ∈ l, queues users ci = [])
    (fuel numMessages : Nat) :
    scheduleLoop l.length l (fuel + 1) users numMessages =
      (scheduleLoop l.length l fuel (requeue users l List.tail) (numMessages + (writtenIn users l 1).length)).map
        fun rest => { rest with written := writtenIn users l 1 ++ rest.written } := by
  have hgo : ¬ (l ≠ [] ∧ (∀ ci ∈ l, queues users ci = []) ∧ 0 + l.length = l.length) := fun h => hbusy h.2.1
  rw [scheduleLoop, schedulePass_eq hnodup (by omega), decide_eq_false hgo]
  simp only [Bool.false_eq_true, if_false]
  cases scheduleLoop l.length l fuel (requeue users l List.tail) (numMessages + (writtenIn users l 1).length) with
  | none => rfl
  | some rest => rfl

/-- The loop over a user list that is counted right ends after one pass more than the longest queue has
messages; it has then written the rounds of the list. -/
theorem scheduleLoop_eq {l : List κ} (hnodup : l.Nodup) (hne : l ≠ []) {n fuel : Nat} {users : κ → User}
    (hlong : ∀ ci ∈ l, (queues users ci).length ≤ n) (hfuel : n < fuel) (numMessages : Nat) :
    scheduleLoop l.length l fuel users numMessages =
      some ⟨drained users l, writtenIn users l n, numMessages + (writtenIn users l n).length⟩ := by
  induction n generalizing fuel users numMessages with
  | zero =>
      obtain ⟨fuel, rfl⟩ : ∃ f, fuel = f + 1 := ⟨fuel - 1, by omega⟩
      have hempty : ∀ ci ∈ l, queues users ci = [] := fun ci hci =>
        List.eq_nil_of_length_eq_zero (Nat.le_zero.mp (hlong ci hci))
      rw [scheduleLoop_empty hnodup hne hempty, writtenIn_of_empty hempty]
      rfl
  | succ n ih =>
      obtain ⟨fuel, rfl⟩ : ∃ f, fuel = f + 1 := ⟨fuel - 1, by omega⟩
      by_cases hempty : ∀ ci ∈ l, queues users ci = []
      · rw [scheduleLoop_empty hnodup hne hempty, writtenIn_of_empty hempty]
        rfl
      · have hlong' : ∀ ci ∈ l, (queues (requeue users l List.tail) ci).length ≤ n := by
          intro ci hci
          have := hlong ci hci
          rw [queues_requeue _ _ _ hci, List.length_tail]
          omega
        have hdrained : drained (requeue users l List.tail) l = drained users l := requeue_requeue users l _ _
        rw [scheduleLoop_busy hnodup hempty, ih hlong' (by omega), hdrained, writtenIn_succ users l n,
          List.length_append, Nat.add_assoc, Option.map_some]

/-! ## The loop over the peers -/

/-- The count of a peer is right, and no connection is in its list twice. -/
def PeerInfo.Counted (peer : PeerInfo κ) : Prop := peer.numUsers = peer.userList.length ∧ peer.userList.Nodup

/-- The users of some peers. -/
def usersOf (peers : List (PeerInfo κ)) : List κ := peers.flatMap PeerInfo.userList

omit [DecidableEq κ] in
theorem writtenIn_congr {users users' : κ → User} {l : List κ} (h : ∀ ci ∈ l, users' ci = users ci) (n : Nat) :
    writtenIn users' l n = writtenIn users l n := by
  have hqueues : rounds l (queues users') n = rounds l (queues users) n :=
    rounds_congr (fun ci hci => by rw [queues, queues, h ci hci]) n
  rw [writtenIn, writtenIn, hqueues]
  apply List.map_congr_left
  intro x hx
  unfold nameWrite
  rw [h x.1 (mem_rounds hx)]

theorem drained_drained (users : κ → User) (l l' : List κ) : drained (drained users l) l' = drained users (l ++ l') := by
  funext ci
  unfold drained requeue
  by_cases hl : ci ∈ l <;> by_cases hl' : ci ∈ l' <;> simp [hl, hl']

theorem drained_nil (users : κ → User) : drained users [] = users := by
  funext ci
  exact requeue_of_not_mem _ List.not_mem_nil

/-- `ScheduleNameDelivery` ends and writes, for one peer after another, the rounds of its list. -/
theorem schedulePeers_eq {peers : List (PeerInfo κ)} (hcounted : ∀ peer ∈ peers, peer.Counted)
    (hapart : peers.Pairwise fun peer peer' => peer.userList.Disjoint peer'.userList) {n fuel : Nat} {users : κ → User}
    (hlong : ∀ ci ∈ usersOf peers, (queues users ci).length ≤ n) (hfuel : n < fuel) (numMessages : Nat) :
    schedulePeers fuel peers users numMessages =
      some ⟨drained users (usersOf peers), peers.flatMap fun peer => writtenIn users peer.userList n,
        numMessages + (peers.flatMap fun peer => writtenIn users peer.userList n).length⟩ := by
  induction peers generalizing users numMessages with
  | nil =>
      rw [schedulePeers, usersOf, List.flatMap_nil, drained_nil]
      rfl
  | cons peer peers ih =>
      obtain ⟨hhere, hrest⟩ := List.forall_mem_cons.mp hcounted
      rw [List.pairwise_cons] at hapart
      have hsplit : usersOf (peer :: peers) = peer.userList ++ usersOf peers := List.flatMap_cons
      have hlong' : ∀ ci ∈ usersOf peers, (queues users ci).length ≤ n := fun ci hci =>
        hlong ci (hsplit ▸ List.mem_append_right _ hci)
      have hother : ∀ other ∈ peers, ∀ ci ∈ other.userList, drained users peer.userList ci = users ci := by
        intro other hmem ci hci
        exact requeue_of_not_mem _ fun hci' => hapart.1 other hmem hci' hci
      rw [schedulePeers, List.flatMap_cons, hsplit]
      by_cases hzero : peer.numUsers = 0
      · have hnone : peer.userList = [] := List.eq_nil_of_length_eq_zero (hhere.1 ▸ hzero)
        rw [if_pos hzero, ih hrest hapart.2 hlong', hnone, writtenIn_of_empty (by simp)]
        rfl
      · have hne : peer.userList ≠ [] := by
          rintro hnone
          exact hzero (by rw [hhere.1, hnone, List.length_nil])
        have hloop := scheduleLoop_eq hhere.2 hne (fun ci hci => hlong ci (hsplit ▸ List.mem_append_left _ hci)) hfuel numMessages
        have hafter : ∀ ci ∈ usersOf peers, drained users peer.userList ci = users ci := by
          intro ci hci
          obtain ⟨other, hmem, hci⟩ := List.mem_flatMap.mp hci
          exact hother other hmem ci hci
        have hlong'' : ∀ ci ∈ usersOf peers, (queues (drained users peer.userList) ci).length ≤ n := by
          intro ci hci
          rw [queues, hafter ci hci]
          exact hlong' ci hci
        have hwritten : (peers.flatMap fun other => writtenIn (drained users peer.userList) other.userList n) =
            peers.flatMap fun other => writtenIn users other.userList n := by
          apply List.flatMap_congr
          intro other hmem
          exact writtenIn_congr (hother other hmem) n
        rw [if_neg hzero, hhere.1, hloop, Option.bind_eq_bind, Option.bind_some, ih hrest hapart.2 hlong'', hwritten,
          drained_drained, List.length_append, Nat.add_assoc]
        rfl

/-! ## The user lists -/

section Lists

variable (s : Proxy κ)

/-- `TAILQ_INSERT_TAIL` into the user list of a peer, with its `numUsers++`. -/
def Proxy.enlist (ci : κ) (i : Nat) : Proxy κ :=
  { s with peerInfo := update s.peerInfo i ⟨(s.peerInfo i).userList ++ [ci], (s.peerInfo i).numUsers + 1⟩ }

/-- `TAILQ_REMOVE` from the user list of a peer, with its `numUsers--`. -/
def Proxy.delist (ci : κ) (i : Nat) : Proxy κ :=
  { s with peerInfo := update s.peerInfo i ⟨(s.peerInfo i).userList.erase ci, (s.peerInfo i).numUsers - 1⟩ }

def Proxy.setUser (ci : κ) (u : User) : Proxy κ := { s with users := update s.users ci u }

/-- `CreateUserConnectionInfo` for the connection `ci` that was allocated. -/
def createUserConnectionInfo (ci : κ) (fd : Int) : Proxy κ :=
  { s.setUser ci ⟨fd, -1, -1, []⟩ with userList := s.userList ++ [ci] }

/-- `QueueControlData`. -/
def queueControlData (ci : κ) (mi : MessageInfo) : Proxy κ :=
  s.setUser ci { s.users ci with controlMsgList := (s.users ci).controlMsgList ++ [mi] }

/-- `OpenUserConnection` up to its message for the other proxy. `dst` is the answer of `PickDestinationProxy`, `flow` that
of `GetNextControlFlowID`. -/
def openUserConnection (ci : κ) (dst flow : Int) (msg : Bytes) : Run (Proxy κ) :=
  if dst = -1 then .error .exit
  else
    let s := (s.setUser ci { s.users ci with dstPxyIdx := dst, nameFlowId := flow }).enlist ci dst.toNat
    return queueControlData s ci ⟨msg, msg.length, (s.users ci).fd⟩

/-- `ProcessOpenConnection` for a message of the peer `peerfd`, where the connection to the server is made. -/
def processOpenConnection (newci : κ) (newfd peerfd flow : Int) : Proxy κ :=
  let s := createUserConnectionInfo s newci newfd
  (s.setUser newci { s.users newci with dstPxyIdx := peerfd, nameFlowId := flow }).enlist newci peerfd.toNat

/-- `DestroyUserConnectionInfo`. -/
def destroyUserConnectionInfo (ci : κ) : Run (Proxy κ) := do
  let u := s.users ci
  let s := { s with userList := s.userList.erase ci }
  let s := if u.dstPxyIdx ≠ -1 then s.delist ci u.dstPxyIdx.toNat else s
  check (u.controlMsgList = [])
  return s

/-- `AddUnknownPeerInfo`. -/
def addUnknownPeerInfo : Proxy κ :=
  { s with
    peerInfo := update s.peerInfo s.numPeers { s.peerInfo s.numPeers with userList := [] }
    numPeers := s.numPeers + 1 }

end Lists

/-- The schedule ends, with the result `r`. -/
def Schedules (s : Proxy κ) (r : Schedule κ) : Prop := ∃ least, ∀ fuel, least ≤ fuel → scheduleNameDelivery fuel s = some r

/-- What happens to the user lists and the queues. A connection is opened once, as it was a pseudo connection
before, and messages are queued for the ones that are open. -/
inductive Step : Proxy κ → Proxy κ → Prop
  | create (s : Proxy κ) (ci : κ) (fd : Int) (hnew : ci ∉ s.userList) : Step s (createUserConnectionInfo s ci fd)
  | openConnection (s s' : Proxy κ) (ci : κ) (dst flow : Int) (msg : Bytes) (hci : ci ∈ s.userList)
      (hpseudo : (s.users ci).dstPxyIdx = -1) (hdst : dst = -1 ∨ ∃ i, i < s.numPeers ∧ dst = (i : Int))
      (h : openUserConnection s ci dst flow msg = .ok s') : Step s s'
  | processOpen (s : Proxy κ) (ci : κ) (fd flow : Int) (i : Nat) (hi : i < s.numPeers) (hnew : ci ∉ s.userList) :
      Step s (processOpenConnection s ci fd i flow)
  | queue (s : Proxy κ) (ci : κ) (mi : MessageInfo) (hci : ci ∈ s.userList) (hopen : (s.users ci).dstPxyIdx ≠ -1) :
      Step s (queueControlData s ci mi)
  | setDead (s : Proxy κ) (ci : κ) (hci : ci ∈ s.userList) : Step s (s.setUser ci { s.users ci with controlMsgList := [] })
  | addPeer (s : Proxy κ) : Step s (addUnknownPeerInfo s)
  | destroy (s s' : Proxy κ) (ci : κ) (hci : ci ∈ s.userList) (h : destroyUserConnectionInfo s ci = .ok s') : Step s s'
  | schedule (s : Proxy κ) (r : Schedule κ) (h : Schedules s r) : Step s { s with users := r.users }

/-- Every peer counts its users: its list has the open connections whose destination it is, each once. -/
structure Listed (s : Proxy κ) : Prop where
  counted : ∀ i, (s.peerInfo i).Counted
  placed : ∀ i ci, ci ∈ (s.peerInfo i).userList ↔ ci ∈ s.userList ∧ (s.users ci).dstPxyIdx = (i : Int)
  alive : s.userList.Nodup
  known : ∀ ci ∈ s.userList, (s.users ci).dstPxyIdx = -1 ∨ ∃ i, i < s.numPeers ∧ (s.users ci).dstPxyIdx = (i : Int)
  pseudo : ∀ ci ∈ s.userList, (s.users ci).dstPxyIdx = -1 → (s.users ci).controlMsgList = []

/-- The proxy when it starts, with peers and without users. -/
def started (users : κ → User) (numPeers : Nat) : Proxy κ := ⟨users, [], fun _ => ⟨[], 0⟩, numPeers⟩

omit [DecidableEq κ] in
theorem listed_started (users : κ → User) (numPeers : Nat) : Listed (started users numPeers) where
  counted _ := ⟨rfl, List.nodup_nil⟩
  placed _ _ := by simp [started]
  alive := List.nodup_nil
  known _ h := by cases h
  pseudo _ h := by cases h

theorem requeue_dstPxyIdx (users : κ → User) (l : List κ) (f : List MessageInfo → List MessageInfo) (ci : κ) :
    (requeue users l f ci).dstPxyIdx = (users ci).dstPxyIdx := by
  unfold requeue
  split <;> rfl

omit [DecidableEq κ] in
/-- Only the destinations and the queues of the users matter. -/
theorem Listed.setUsers {s : Proxy κ} (h : Listed s) {users : κ → User} (hdst : ∀ ci, (users ci).dstPxyIdx = (s.users ci).dstPxyIdx)
    (hqueue : ∀ ci ∈ s.userList, (s.users ci).dstPxyIdx = -1 → (users ci).controlMsgList = []) :
    Listed { s with users := users } where
  counted := h.counted
  placed i ci := by
    rw [hdst ci]
    exact h.placed i ci
  alive := h.alive
  known ci hci := by
    rw [hdst ci]
    exact h.known ci hci
  pseudo ci hci hpseudo := hqueue ci hci (by rw [← hdst ci]; exact hpseudo)

theorem Listed.setQueue {s : Proxy κ} (h : Listed s) {ci : κ} {messages : List MessageInfo}
    (hopen : (s.users ci).dstPxyIdx ≠ -1 ∨ messages = []) :
    Listed (s.setUser ci { s.users ci with controlMsgList := messages }) := by
  apply h.setUsers
  · intro other
    by_cases hci : other = ci
    · rw [hci, update_self]
    · rw [update_of_ne hci]
  · intro other hmem hpseudo
    by_cases hci : other = ci
    · subst hci
      rw [update_self]
      exact hopen.resolve_left fun hne => hne hpseudo
    · rw [update_of_ne hci]
      exact h.pseudo other hmem hpseudo

theorem Listed.create {s : Proxy κ} (h : Listed s) {ci : κ} (hnew : ci ∉ s.userList) (fd : Int) :
    Listed (createUserConnectionInfo s ci fd) := by
  have hother : ∀ other, other ∈ s.userList → (createUserConnectionInfo s ci fd).users other = s.users other := by
    intro other hmem
    have hne : other ≠ ci := by
      rintro rfl
      exact hnew hmem
    exact update_of_ne hne ..
  have hself : (createUserConnectionInfo s ci fd).users ci = ⟨fd, -1, -1, []⟩ := update_self ..
  have hlist : (createUserConnectionInfo s ci fd).userList = s.userList ++ [ci] := rfl
  refine ⟨h.counted, ?_, ?_, ?_, ?_⟩
  · intro i other
    refine (h.placed i other).trans ?_
    rw [hlist, List.mem_append, List.mem_singleton]
    constructor
    · rintro ⟨hmem, hdst⟩
      exact ⟨.inl hmem, by rw [hother other hmem]; exact hdst⟩
    · rintro ⟨hmem | rfl, hdst⟩
      · rw [hother other hmem] at hdst
        exact ⟨hmem, hdst⟩
      · rw [hself] at hdst
        simp only at hdst
        omega
  · rw [hlist, List.nodup_append]
    refine ⟨h.alive, List.nodup_singleton ci, ?_⟩
    rintro other hmem _ hci rfl
    rw [List.mem_singleton] at hci
    exact hnew (hci ▸ hmem)
  · intro other hmem
    rw [hlist, List.mem_append, List.mem_singleton] at hmem
    obtain hmem | rfl := hmem
    · rw [hother other hmem]
      exact h.known other hmem
    · exact .inl (by rw [hself])
  · intro other hmem hdst
    rw [hlist, List.mem_append, List.mem_singleton] at hmem
    obtain hmem | rfl := hmem
    · rw [hother other hmem] at hdst ⊢
      exact h.pseudo other hmem hdst
    · rw [hself]

/-- A connection that has no destination is put into the list of one. -/
theorem Listed.enlist {s : Proxy κ} (h : Listed s) {ci : κ} (hci : ci ∈ s.userList) (hpseudo : (s.users ci).dstPxyIdx = -1)
    {i : Nat} (hi : i < s.numPeers) (flow : Int) :
    Listed ((s.setUser ci { s.users ci with dstPxyIdx := (i : Int), nameFlowId := flow }).enlist ci i) := by
  have habsent : ∀ k, ci ∉ (s.peerInfo k).userList := by
    intro k hmem
    have hdst := ((h.placed k ci).mp hmem).2
    omega
  have hself : ((s.setUser ci { s.users ci with dstPxyIdx := (i : Int), nameFlowId := flow }).enlist ci i).users ci =
      { s.users ci with dstPxyIdx := (i : Int), nameFlowId := flow } := update_self ..
  have hother : ∀ other, other ≠ ci →
      ((s.setUser ci { s.users ci with dstPxyIdx := (i : Int), nameFlowId := flow }).enlist ci i).users other = s.users other :=
    fun other hne => update_of_ne hne ..
  have hlist : ∀ k, ((s.setUser ci { s.users ci with dstPxyIdx := (i : Int), nameFlowId := flow }).enlist ci i).peerInfo k =
      if k = i then ⟨(s.peerInfo i).userList ++ [ci], (s.peerInfo i).numUsers + 1⟩ else s.peerInfo k :=
    fun k => update_apply ..
  refine ⟨?_, ?_, h.alive, ?_, ?_⟩
  · intro k
    rw [hlist k]
    by_cases hk : k = i
    · rw [if_pos hk]
      obtain ⟨hcount, hnodup⟩ := h.counted i
      refine ⟨by simp [hcount], ?_⟩
      simp only
      rw [List.nodup_append]
      refine ⟨hnodup, List.nodup_singleton ci, ?_⟩
      rintro other hmem _ hother' rfl
      rw [List.mem_singleton] at hother'
      exact habsent i (hother' ▸ hmem)
    · rw [if_neg hk]
      exact h.counted k
  · intro k other
    rw [hlist k]
    by_cases hne : other = ci
    · subst hne
      rw [hself]
      by_cases hk : k = i
      · rw [if_pos hk, hk]
        simp only [List.mem_append, List.mem_singleton, or_true, true_iff]
        exact ⟨hci, trivial⟩
      · rw [if_neg hk]
        simp only [habsent k, false_iff, not_and]
        intro _ hik
        exact hk (by omega)
    · rw [hother other hne]
      by_cases hk : k = i
      · rw [if_pos hk, hk]
        simp only [List.mem_append, List.mem_singleton, hne, or_false]
        exact h.placed i other
      · rw [if_neg hk]
        exact h.placed k other
  · intro other hmem
    by_cases hne : other = ci
    · subst hne
      rw [hself]
      exact .inr ⟨i, hi, rfl⟩
    · rw [hother other hne]
      exact h.known other hmem
  · intro other hmem hdst
    by_cases hne : other = ci
    · subst hne
      rw [hself] at hdst
      simp only at hdst
      omega
    · rw [hother other hne] at hdst ⊢
      exact h.pseudo other hmem hdst

theorem Listed.destroy {s s' : Proxy κ} (h : Listed s) {ci : κ} (hci : ci ∈ s.userList)
    (hrun : destroyUserConnectionInfo s ci = .ok s') : Listed s' := by
  unfold destroyUserConnectionInfo at hrun
  obtain ⟨_, -, hret⟩ := Run.bind_eq_ok.mp hrun
  cases hret
  have hmem : ∀ other, other ∈ s.userList.erase ci ↔ other ≠ ci ∧ other ∈ s.userList := fun other => h.alive.mem_erase_iff
  obtain hpseudo | ⟨i, hi, hdst⟩ := h.known ci hci
  · rw [if_neg (not_not_intro hpseudo)]
    refine ⟨h.counted, ?_, h.alive.erase ci, ?_, ?_⟩
    · intro k other
      refine (h.placed k other).trans ?_
      rw [hmem other]
      constructor
      · rintro ⟨hother, hk⟩
        refine ⟨⟨?_, hother⟩, hk⟩
        rintro rfl
        omega
      · rintro ⟨⟨-, hother⟩, hk⟩
        exact ⟨hother, hk⟩
    · intro other hother
      exact h.known other ((hmem other).mp hother).2
    · intro other hother
      exact h.pseudo other ((hmem other).mp hother).2
  · have hopen : (s.users ci).dstPxyIdx ≠ -1 := by omega
    have hin : ci ∈ (s.peerInfo i).userList := (h.placed i ci).mpr ⟨hci, hdst⟩
    rw [if_pos hopen, hdst, Int.toNat_natCast]
    have hlist : ∀ k, (({ s with userList := s.userList.erase ci } : Proxy κ).delist ci i).peerInfo k =
        if k = i then ⟨(s.peerInfo i).userList.erase ci, (s.peerInfo i).numUsers - 1⟩ else s.peerInfo k :=
      fun k => update_apply ..
    obtain ⟨hcount, hnodup⟩ := h.counted i
    refine ⟨?_, ?_, h.alive.erase ci, ?_, ?_⟩
    · intro k
      rw [hlist k]
      by_cases hk : k = i
      · rw [if_pos hk]
        exact ⟨by rw [List.length_erase_of_mem hin, hcount], hnodup.erase ci⟩
      · rw [if_neg hk]
        exact h.counted k
    · intro k other
      rw [hlist k]
      refine Iff.trans ?_ (and_congr_left' (hmem other)).symm
      by_cases hk : k = i
      · rw [if_pos hk, hk, hnodup.mem_erase_iff, h.placed i other, and_assoc]
        rfl
      · rw [if_neg hk, h.placed k other]
        constructor
        · rintro ⟨hother, hother'⟩
          refine ⟨⟨?_, hother⟩, hother'⟩
          rintro rfl
          exact hk (by omega)
        · rintro ⟨⟨-, hother⟩, hother'⟩
          exact ⟨hother, hother'⟩
    · intro other hother
      exact h.known other ((hmem other).mp hother).2
    · intro other hother
      exact h.pseudo other ((hmem other).mp hother).2

omit [DecidableEq κ] in
theorem Listed.addPeer {s : Proxy κ} (h : Listed s) : Listed (addUnknownPeerInfo s) := by
  have hnone : (s.peerInfo s.numPeers).userList = [] := by
    rw [List.eq_nil_iff_forall_not_mem]
    intro ci hci
    obtain ⟨hmem, hdst⟩ := (h.placed s.numPeers ci).mp hci
    obtain hpseudo | ⟨i, hi, hdst'⟩ := h.known ci hmem <;> omega
  have hsame : (addUnknownPeerInfo s).peerInfo = s.peerInfo := by
    funext k
    by_cases hk : k = s.numPeers
    · subst hk
      refine (update_self ..).trans ?_
      rw [← hnone]
    · exact update_of_ne hk ..
  refine ⟨?_, ?_, h.alive, ?_, h.pseudo⟩
  · rw [hsame]
    exact h.counted
  · rw [hsame]
    exact h.placed
  · intro ci hci
    obtain hpseudo | ⟨i, hi, hdst⟩ := h.known ci hci
    · exact .inl hpseudo
    · exact .inr ⟨i, Nat.lt_succ_of_lt hi, hdst⟩

/-! ## What the schedule delivers -/

omit [DecidableEq κ] in
theorem Listed.peers_counted {s : Proxy κ} (h : Listed s) : ∀ peer ∈ s.peers, peer.Counted := by
  intro peer hpeer
  obtain ⟨i, -, rfl⟩ := List.mem_map.mp hpeer
  exact h.counted i

omit [DecidableEq κ] in
theorem Listed.peers_apart {s : Proxy κ} (h : Listed s) :
    s.peers.Pairwise fun peer peer' => peer.userList.Disjoint peer'.userList := by
  rw [Proxy.peers, List.pairwise_map]
  refine List.nodup_range.pairwise_of_forall_ne ?_
  intro i _ k _ hne ci hci hci'
  have hi := ((h.placed i ci).mp hci).2
  have hk := ((h.placed k ci).mp hci').2
  omega

omit [DecidableEq κ] in
theorem exists_bound (users : κ → User) (l : List κ) : ∃ n, ∀ ci ∈ l, (queues users ci).length ≤ n := by
  induction l with
  | nil => exact ⟨0, by simp⟩
  | cons ci l ih =>
      obtain ⟨n, hn⟩ := ih
      refine ⟨max n (queues users ci).length, ?_⟩
      rintro other (_ | ⟨_, hother⟩)
      · exact le_max_right _ _
      · exact (hn other hother).trans (le_max_left _ _)

/-- The schedule ends; the bound is on the queues of the users of all peers. -/
theorem Listed.schedules {s : Proxy κ} (h : Listed s) : ∃ n, (∀ ci ∈ usersOf s.peers, (queues s.users ci).length ≤ n) ∧
    Schedules s ⟨drained s.users (usersOf s.peers), s.peers.flatMap fun peer => writtenIn s.users peer.userList n,
      (s.peers.flatMap fun peer => writtenIn s.users peer.userList n).length⟩ := by
  obtain ⟨n, hlong⟩ := exists_bound s.users (usersOf s.peers)
  refine ⟨n, hlong, n + 1, ?_⟩
  intro fuel hfuel
  rw [scheduleNameDelivery, schedulePeers_eq h.peers_counted h.peers_apart hlong (by omega), Nat.zero_add]

theorem Schedules.unique {s : Proxy κ} {r r' : Schedule κ} (h : Schedules s r) (h' : Schedules s r') : r = r' := by
  obtain ⟨least, hrun⟩ := h
  obtain ⟨least', hrun'⟩ := h'
  have hone := hrun (max least least') (le_max_left _ _)
  rw [hrun' (max least least') (le_max_right _ _)] at hone
  exact (Option.some.inj hone).symm

/-- Every step keeps the lists and their counts. -/
theorem Step.listed {s s' : Proxy κ} (hstep : Step s s') (h : Listed s) : Listed s' := by
  cases hstep with
  | create ci fd hnew => exact h.create hnew fd
  | openConnection _ ci dst flow msg hci hpseudo hdst hrun =>
      unfold openUserConnection at hrun
      split at hrun
      · cases hrun
      case isFalse hne =>
        cases hrun
        obtain rfl | ⟨i, hi, rfl⟩ := hdst
        · exact (hne rfl).elim
        · apply (h.enlist hci hpseudo hi flow).setQueue
          refine .inl ?_
          have hself : (((s.setUser ci { s.users ci with dstPxyIdx := (i : Int), nameFlowId := flow }).enlist ci i).users ci) =
              { s.users ci with dstPxyIdx := (i : Int), nameFlowId := flow } := update_self ..
          rw [hself]
          simp only
          omega
  | processOpen ci fd flow i hi hnew =>
      have hself : (createUserConnectionInfo s ci fd).users ci = ⟨fd, -1, -1, []⟩ := update_self ..
      exact (h.create hnew fd).enlist (List.mem_append_right _ List.mem_cons_self) (by rw [hself]) hi flow
  | queue ci mi hci hopen => exact h.setQueue (.inl hopen)
  | setDead ci hci => exact h.setQueue (.inr rfl)
  | addPeer => exact h.addPeer
  | destroy _ ci hci hrun => exact h.destroy hci hrun
  | schedule r hrun =>
      obtain ⟨n, -, hends⟩ := h.schedules
      rw [hrun.unique hends]
      apply h.setUsers
      · exact requeue_dstPxyIdx s.users _ _
      · intro ci hci hpseudo
        by_cases hlisted : ci ∈ usersOf s.peers
        · exact congrArg User.controlMsgList (requeue_of_mem _ hlisted)
        · exact (congrArg User.controlMsgList (requeue_of_not_mem _ hlisted)).trans (h.pseudo ci hci hpseudo)

omit [DecidableEq κ] in
theorem nameWrite_ci (users : κ → User) (x : κ × MessageInfo) : (nameWrite users x).ci = x.1 := rfl

omit [DecidableEq κ] in
/-- What is written of the users of one peer is what the rounds of its list have. -/
theorem filter_written {peers : List (PeerInfo κ)} (users : κ → User) (n : Nat)
    (hapart : peers.Pairwise fun peer peer' => peer.userList.Disjoint peer'.userList) {peer : PeerInfo κ} (hpeer : peer ∈ peers)
    {p : NameWrite κ → Bool} (hp : ∀ w, p w = true → w.ci ∈ peer.userList) :
    (peers.flatMap fun other => writtenIn users other.userList n).filter p = (writtenIn users peer.userList n).filter p := by
  have hnone : ∀ other : PeerInfo κ, peer.userList.Disjoint other.userList → (writtenIn users other.userList n).filter p = [] := by
    intro other hdisjoint
    rw [List.filter_eq_nil_iff]
    intro w hw hpw
    obtain ⟨x, hx, rfl⟩ := List.mem_map.mp hw
    exact hdisjoint (hp _ hpw) (mem_rounds hx)
  induction peers with
  | nil => cases hpeer
  | cons first rest ih =>
      rw [List.pairwise_cons] at hapart
      rw [List.flatMap_cons, List.filter_append]
      obtain rfl | hpeer := List.mem_cons.mp hpeer
      · have hrest : (rest.flatMap fun other => writtenIn users other.userList n).filter p = [] := by
          rw [List.filter_flatMap, List.flatMap_eq_nil_iff]
          intro other hother
          exact hnone other (hapart.1 other hother)
        rw [hrest, List.append_nil]
      · have hfirst := hnone first fun ci hci hci' => hapart.1 peer hpeer hci' hci
        rw [hfirst, List.nil_append]
        exact ih hapart.2 hpeer

/-- What is written of a user is its queue. -/
theorem filter_writtenIn {l : List κ} (hnodup : l.Nodup) {users : κ → User} {n : Nat} {ci : κ} (hci : ci ∈ l)
    (hlong : (queues users ci).length ≤ n) :
    (writtenIn users l n).filter (fun w => w.ci = ci) = (queues users ci).map fun mi => nameWrite users (ci, mi) := by
  have hsent := sentBy_rounds hnodup hci (queues users) n
  rw [List.take_of_length_le hlong] at hsent
  rw [← hsent, writtenIn, List.filter_map, sentBy, List.map_map]
  apply List.map_congr_left
  intro x hx
  obtain ⟨-, hfrom⟩ := List.mem_filter.mp hx
  have hfrom : x.1 = ci := of_decide_eq_true hfrom
  rw [← hfrom]
  rfl

/-- What a schedule of the queues of `s` is to do. -/
structure Delivers (s : Proxy κ) (r : Schedule κ) : Prop where
  /-- Each message of a user is handed over once and in the order of the queue, with its user's destination. -/
  each : ∀ ci ∈ usersOf s.peers,
    r.written.filter (fun w => w.ci = ci) = (s.users ci).controlMsgList.map fun mi => nameWrite s.users (ci, mi)
  only : ∀ w ∈ r.written, w.ci ∈ usersOf s.peers
  emptied : ∀ ci ∈ s.userList, r.users ci = { s.users ci with controlMsgList := [] }
  number : r.numMessages = r.written.length ∧
    r.numMessages = ((usersOf s.peers).map fun ci => (s.users ci).controlMsgList.length).sum
  /-- Between two messages of a user there is at most one of each other user of the peer. -/
  fair : ∀ peer ∈ s.peers, ∀ pre a mid b post, r.written = pre ++ a :: mid ++ b :: post → a.ci ∈ peer.userList →
    a.ci = b.ci → (∀ w ∈ mid, w.ci ≠ a.ci) → ∀ ci ∈ peer.userList, ci ≠ a.ci → (mid.filter fun w => w.ci = ci).length ≤ 1

theorem length_sentBy (users : κ → User) (ci : κ) (xs : List (κ × MessageInfo)) :
    ((xs.map (nameWrite users)).filter fun w => w.ci = ci).length = (sentBy ci xs).length := by
  rw [sentBy, List.filter_map, List.length_map, List.length_map]
  rfl

theorem writtenIn_fair {l : List κ} (hnodup : l.Nodup) {users : κ → User} {n : Nat} {pre mid post : List (NameWrite κ)}
    {a b : NameWrite κ} (hsplit : writtenIn users l n = pre ++ a :: mid ++ b :: post) (hab : a.ci = b.ci)
    (hmid : ∀ w ∈ mid, w.ci ≠ a.ci) {ci : κ} (hci : ci ≠ a.ci) : (mid.filter fun w => w.ci = ci).length ≤ 1 := by
  obtain ⟨front, rest, hrounds, hfront, hrest⟩ := List.map_eq_append_iff.mp hsplit
  obtain ⟨pre', middle, rfl, -, hmiddle⟩ := List.map_eq_append_iff.mp hfront
  obtain ⟨x, mid', rfl, hx, rfl⟩ := List.map_eq_cons_iff.mp hmiddle
  obtain ⟨y, post', rfl, hy, -⟩ := List.map_eq_cons_iff.mp hrest
  rw [← hx, nameWrite_ci] at hab hci hmid
  rw [← hy, nameWrite_ci] at hab
  rw [length_sentBy]
  apply rounds_fair hnodup (queues users) n pre' mid' post' x y hrounds hab
  · apply sentBy_eq_nil
    intro z hz
    exact hmid (nameWrite users z) (List.mem_map_of_mem hz)
  · exact hci

/-- Where the peers count their users, the schedule delivers. -/
theorem Listed.delivers {s : Proxy κ} (h : Listed s) {n : Nat} (hlong : ∀ ci ∈ usersOf s.peers, (queues s.users ci).length ≤ n) :
    Delivers s ⟨drained s.users (usersOf s.peers), s.peers.flatMap fun peer => writtenIn s.users peer.userList n,
      (s.peers.flatMap fun peer => writtenIn s.users peer.userList n).length⟩ where
  each ci hci := by
    obtain ⟨peer, hpeer, hin⟩ := List.mem_flatMap.mp hci
    refine (filter_written s.users n h.peers_apart hpeer fun w hw => ?_).trans
      (filter_writtenIn (h.peers_counted peer hpeer).2 hin (hlong ci hci))
    have hw : w.ci = ci := by simpa using hw
    rw [hw]
    exact hin
  only w hw := by
    obtain ⟨peer, hpeer, hw⟩ := List.mem_flatMap.mp hw
    obtain ⟨x, hx, rfl⟩ := List.mem_map.mp hw
    exact List.mem_flatMap.mpr ⟨peer, hpeer, mem_rounds hx⟩
  emptied ci hci := by
    by_cases hin : ci ∈ usersOf s.peers
    · exact if_pos hin
    · -- a connection without a peer has no messages
      have hpseudo : (s.users ci).dstPxyIdx = -1 := by
        obtain hpseudo | ⟨i, hi, hdst⟩ := h.known ci hci
        · exact hpseudo
        · refine (hin (List.mem_flatMap.mpr ⟨s.peerInfo i, ?_, (h.placed i ci).mpr ⟨hci, hdst⟩⟩)).elim
          exact List.mem_map_of_mem (List.mem_range.mpr hi)
      refine (if_neg hin).trans ?_
      rw [← h.pseudo ci hci hpseudo]
  number := by
    refine ⟨rfl, ?_⟩
    have hpeer : ∀ peer ∈ s.peers, (writtenIn s.users peer.userList n).length =
        (peer.userList.map fun ci => (s.users ci).controlMsgList.length).sum := by
      intro peer hpeer
      rw [writtenIn, List.length_map, length_rounds]
      congr 1
      apply List.map_congr_left
      intro ci hci
      exact min_eq_right (hlong ci (List.mem_flatMap.mpr ⟨peer, hpeer, hci⟩))
    simp only
    rw [List.length_flatMap, usersOf, List.map_flatMap, List.flatMap_def, List.sum_flatten, List.map_map]
    exact congrArg List.sum (List.map_congr_left hpeer)
  fair peer hpeer pre a mid b post hsplit ha hab hmid ci hci hne := by
    have hlocal := filter_written s.users n h.peers_apart hpeer (p := fun w => decide (w.ci ∈ peer.userList)) fun w hw =>
      of_decide_eq_true hw
    have hall : (writtenIn s.users peer.userList n).filter (fun w => decide (w.ci ∈ peer.userList)) =
        writtenIn s.users peer.userList n := by
      rw [List.filter_eq_self]
      intro w hw
      obtain ⟨x, hx, rfl⟩ := List.mem_map.mp hw
      exact decide_eq_true (mem_rounds hx)
    simp only at hsplit
    have hb : b.ci ∈ peer.userList := hab ▸ ha
    rw [hsplit, hall, List.filter_append, List.filter_append] at hlocal
    simp only [List.filter_cons, ha, hb, decide_true, if_true] at hlocal
    have hmore := writtenIn_fair (h.peers_counted peer hpeer).2 hlocal.symm hab
      (fun w hw => hmid w (List.mem_of_mem_filter hw)) hne
    have hsame : (mid.filter fun w => decide (w.ci ∈ peer.userList)).filter (fun w => decide (w.ci = ci)) =
        mid.filter fun w => decide (w.ci = ci) := by
      rw [List.filter_filter]
      apply List.filter_congr
      intro w _
      by_cases hw : w.ci = ci
      · simp [hw, hci]
      · simp [hw]
    rw [hsame] at hmore
    exact hmore

/-- `OpenUserConnection`, `ProcessOpenConnection`, `DestroyUserConnectionInfo` and all else that happens keep the counts
of the peers right, and where they are, `ScheduleNameDelivery` ends and delivers what is queued. -/
theorem scheduleNameDelivery_delivers (s : Proxy κ) (h : Listed s) :
    (∀ s', Step s s' → Listed s') ∧ ∃ r, Schedules s r ∧ Delivers s r := by
  refine ⟨fun s' hstep => hstep.listed h, ?_⟩
  obtain ⟨n, hlong, hends⟩ := h.schedules
  exact ⟨_, hends, h.delivers hlong⟩

/-- Two users of one peer, of whom the first has two messages and the second has one. -/
def twoUsers : Proxy Nat :=
  let s := started (fun _ => ⟨0, -1, -1, []⟩) 1
  let s := processOpenConnection (processOpenConnection s 0 5 0 0) 1 6 0 0
  queueControlData (queueControlData (queueControlData s 0 ⟨[1], 1, 5⟩) 0 ⟨[2], 1, 5⟩) 1 ⟨[3], 1, 6⟩

theorem twoUsers_listed : Listed twoUsers := by
  refine Step.listed (.queue _ 1 _ ?_ ?_) (Step.listed (.queue _ 0 _ ?_ ?_) (Step.listed (.queue _ 0 _ ?_ ?_)
    (Step.listed (.processOpen _ 1 6 0 0 ?_ ?_) (Step.listed (.processOpen _ 0 5 0 0 ?_ ?_) (listed_started _ 1)))))
  all_goals decide

theorem scheduleNameDelivery_delivers_two :
    (∀ s', Step twoUsers s' → Listed s') ∧ ∃ r, Schedules twoUsers r ∧ Delivers twoUsers r :=
  scheduleNameDelivery_delivers twoUsers twoUsers_listed

/-- The users take turns. -/
example : (scheduleNameDelivery 3 twoUsers).map (fun r => (r.written.map NameWrite.msg, r.numMessages)) =
    some ([[1], [3], [2]], 3) := by decide

end NameSchedule

end BeagleCache
