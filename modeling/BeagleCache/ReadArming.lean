import Mathlib.Tactic
import BeagleCache.UserData
import BeagleCache.Transition

/-! The read buffer of a connection of waprox: `AddCIEvents` asks for a read while the buffer has room, `EventReadCB` reads as much as
fits, and what is processed leaves the buffer. `RECV_BUFSIZE` is a `double` that is no integer; the comparison with it is exact, but
the sizes that are made of it are cut off. -/

namespace BeagleCache.Arming

open Transition

/-! ## `RECV_BUFSIZE` -/

/-- The value of a `double`, exponents apart. -/
def IsDouble (x : ℚ) : Prop := ∃ (m : ℤ) (e : ℕ), |m| < 2 ^ 53 ∧ x = m / 2 ^ e

/-- The `double` that the literal `1.1` stands for. -/
def onePointOne : ℚ := 4953959590107546 / 2 ^ 52

/-- `RECV_BUFSIZE` -/
def recvBufsize : ℚ := minRabinBufsize * onePointOne

/-- The conversion of a number to `size_t`. -/
def toSizeT (x : ℚ) : Nat := ⌊x⌋.toNat

/-- What `malloc( RECV_BUFSIZE )` allocates. -/
def allocated : Nat := toSizeT recvBufsize

theorem recvBufsize_eq : recvBufsize = 7430939385161319 / 2 ^ 35 := by
  norm_num [recvBufsize, minRabinBufsize, onePointOne]

/-- No other `double` is nearer to 1.1: it is off by at most half a unit in the last place. -/
theorem onePointOne_nearest : |onePointOne - 11 / 10| ≤ 1 / 2 ^ 53 := by
  rw [onePointOne, abs_le]
  norm_num

/-- The product is not rounded. -/
theorem isDouble_recvBufsize : IsDouble recvBufsize := ⟨7430939385161319, 35, by norm_num, by rw [recvBufsize_eq]; norm_num⟩

/-- Neither is what is left of it. -/
theorem isDouble_sub {n : Int} (hlo : 0 ≤ n) (hhi : n ≤ 216268) : IsDouble (recvBufsize - n) := by
  refine ⟨7430939385161319 - n * 2 ^ 35, 35, ?_, ?_⟩
  · rw [abs_lt]
    omega
  · rw [recvBufsize_eq]
    push_cast
    ring

theorem floor_sub (n : Int) : ⌊recvBufsize - n⌋ = 216268 - n := by
  rw [recvBufsize_eq]
  refine Int.floor_eq_iff.mpr ⟨?_, ?_⟩
  · push_cast
    linarith only [show (216268 : ℚ) ≤ 7430939385161319 / 2 ^ 35 by norm_num]
  · push_cast
    linarith only [show (7430939385161319 : ℚ) / 2 ^ 35 < 216269 by norm_num]

theorem allocated_eq : allocated = 216268 := by
  have hfloor := floor_sub 0
  rw [Int.cast_zero, sub_zero] at hfloor
  rw [allocated, toSizeT, hfloor]
  rfl

theorem lt_recvBufsize_iff (n : Int) : (n : ℚ) < recvBufsize ↔ n ≤ 216268 := by
  rw [recvBufsize_eq]
  constructor
  · intro h
    by_contra hmore
    have hcast : (216269 : ℚ) ≤ n := by exact_mod_cast (by omega : (216269 : Int) ≤ n)
    linarith only [h, hcast, show (7430939385161319 : ℚ) / 2 ^ 35 < 216269 by norm_num]
  · intro h
    have hcast : (n : ℚ) ≤ 216268 := by exact_mod_cast h
    linarith only [hcast, show (216268 : ℚ) < 7430939385161319 / 2 ^ 35 by norm_num]

/-! ## A connection -/

inductive ConnectionType where
  | user
  | control
  | chunk
  | cache
  | dns
  | disk
  | pptpd
  deriving DecidableEq

inductive EventState where
  | none
  | added
  | triggered
  deriving DecidableEq

/-- The fields of a `ConnectionInfo` that reading goes by, with `esRead` of its events. `connected` says that `dip` and `dport` are
known. -/
structure ReadState where
  type : ConnectionType
  status : ConnectionStatus
  lenRead : Int
  esRead : EventState
  isHttpProxy : Bool
  connected : Bool
  deriving DecidableEq

/-- What the code that goes through the buffer gives: how many bytes it took, whether the window is full then, and whether all is
acknowledged. -/
structure Processed where
  bytes : Int
  full : Bool
  acked : Bool

/-- What the kernel has for a connection. -/
inductive ReadOutcome where
  | data (n : Nat)
  | eof
  | error

/-- `read` with room for `size` bytes. -/
def read (size : Nat) : ReadOutcome → Int
  | .data n => (min n size : Nat)
  | .eof => 0
  | .error => -1

/-- The size that `EventReadCB` gives to `read`. -/
def readSize (c : ReadState) : Nat := toSizeT (recvBufsize - c.lenRead)

def setDead (c : ReadState) : ReadState := { c with status := .closed }

def adjustReadBuffer (c : ReadState) (numProcessed : Int) : ReadState := { c with lenRead := c.lenRead - numProcessed }

/-- The status after messages were sent. -/
def afterSending (c : ReadState) (p : Processed) : ReadState :=
  if p.full then { c with status := .block } else if c.status = .done then { c with status := .finsent } else c

/-- A proxy request has to have its host, and any other connection its destination. What is taken with the host is taken out of the
buffer at once, and the result is 0 then. -/
def processUserData (c : ReadState) (p : Processed) : Run (ReadState × Int) :=
  if c.isHttpProxy then
    if p.bytes = 0 then .ok (c, 0)
    else do
      check (0 < p.bytes ∧ p.bytes ≤ c.lenRead)
      return (adjustReadBuffer (afterSending { c with isHttpProxy := false, connected := true } p) p.bytes, 0)
  else if ¬c.connected then .ok (c, 0)
  else if c.status = .block then .ok (c, 0)
  else do
    check (0 ≤ p.bytes ∧ p.bytes ≤ c.lenRead)
    return (afterSending c p, p.bytes)

/-- `ProcessUserData`, and `AdjustReadBuffer` behind it. -/
def takeUserData (c : ReadState) (p : Processed) : Run ReadState := do
  let r ← processUserData c p
  return adjustReadBuffer r.1 r.2

def processReadBuffer (c : ReadState) (p : Processed) : Run ReadState :=
  match c.type with
  | .user => takeUserData c p
  | .disk => .error .assertion
  | .control | .chunk | .cache | .dns | .pptpd =>
      if p.bytes = -1 then .ok (setDead c)
      else do
        check (0 ≤ p.bytes ∧ p.bytes ≤ c.lenRead)
        return adjustReadBuffer c p.bytes

def closeConnection (c : ReadState) (p : Processed) : Run ReadState :=
  if c.status = .closed then .ok c
  else
    let c := { c with status := .done }
    match c.type with
    | .user =>
        if 0 < c.lenRead then takeUserData c p
        else .ok (if p.acked then setDead c else { c with status := .finsent })
    | .dns | .disk => .error .exit
    | .control | .chunk | .cache | .pptpd => .ok (setDead c)

def eventReadCB (c : ReadState) (outcome : ReadOutcome) (p : Processed) : Run ReadState := do
  check (0 < recvBufsize - c.lenRead)
  let numRead := read (readSize c) outcome
  let c := { c with lenRead := c.lenRead + numRead }
  if numRead = 0 then closeConnection c p
  else if numRead = -1 then return setDead c
  else return c

/-- `AddCIEvents` asks for a read. -/
def Arms (c : ReadState) : Prop := c.esRead = .none ∧ c.status = .active ∧ (c.lenRead : ℚ) < recvBufsize

instance (c : ReadState) : Decidable (Arms c) := inferInstanceAs (Decidable (_ ∧ _ ∧ _))

/-- What happens to a connection: `AddCIEvents`, the event that was asked for, its turn in the loop of `ProcessReadWrite`, the
timer of the buffers, the destination of a user, an acknowledgement that opens the window, and `SetDead`. -/
inductive ReadEvent where
  | addCIEvents
  | trigger
  | readWrite (outcome : ReadOutcome) (closing processing : Processed)
  | bufferTimeout (p : Processed)
  | openUserConnection (p : Processed)
  | nameAck
  | dead

def readNext (c : ReadState) : ReadEvent → Run ReadState
  | .addCIEvents => .ok (if Arms c then { c with esRead := .added } else c)
  | .trigger => do
      check (c.esRead = .added)
      return { c with esRead := .triggered }
  | .readWrite outcome closing processing => do
      let c ← (if c.esRead = .triggered then eventReadCB { c with esRead := .none } outcome closing else .ok c : Run ReadState)
      if c.status ≠ .block ∧ 0 < c.lenRead then processReadBuffer c processing else return c
  | .bufferTimeout p => do
      check (c.type = .user ∧ 0 < c.lenRead ∧ c.status = .active ∧ c.connected)
      takeUserData c p
  | .openUserConnection p => do
      check (c.type = .user)
      takeUserData { c with connected := true } p
  | .nameAck => .ok (if c.status = .block then { c with status := .active } else c)
  | .dead => .ok (setDead c)

/-- A connection is made with an empty buffer. -/
def readSystem : System ReadState ReadEvent :=
  .ofNext (fun c => c.status = .active ∧ c.lenRead = 0 ∧ c.esRead = .none) readNext

/-! ## The buffer over a run -/

/-- The buffer is never more than full. Only a connection whose `read` failed can have a negative length, and it asks for no
reads. -/
structure Bounded (c : ReadState) : Prop where
  full : c.lenRead ≤ 216268
  length : 0 ≤ c.lenRead ∨ c.status = .closed ∧ c.esRead = .none

/-- Sending leaves the buffer alone. -/
theorem afterSending_frame (c : ReadState) (p : Processed) :
    (afterSending c p).lenRead = c.lenRead ∧ (afterSending c p).esRead = c.esRead := by
  unfold afterSending
  split
  · exact ⟨rfl, rfl⟩
  · split
    · exact ⟨rfl, rfl⟩
    · exact ⟨rfl, rfl⟩

/-- What is processed leaves the buffer, or it does not change. -/
theorem takeUserData_cases {c c' : ReadState} {p : Processed} (h : takeUserData c p = .ok c') :
    c'.esRead = c.esRead ∧ (c' = c ∨ 0 ≤ c'.lenRead ∧ c'.lenRead ≤ c.lenRead) := by
  have hsame : adjustReadBuffer c 0 = c := by
    unfold adjustReadBuffer
    rw [Int.sub_zero]
  obtain ⟨r, hr, hc'⟩ := Run.bind_eq_ok.mp h
  cases hc'
  unfold processUserData at hr
  split at hr
  · split at hr
    · cases hr
      exact ⟨rfl, .inl hsame⟩
    · obtain ⟨_, hcheck, hr⟩ := Run.bind_eq_ok.mp hr
      cases hr
      have hbytes := check_eq_ok.mp hcheck
      obtain ⟨hlen, hes⟩ := afterSending_frame { c with isHttpProxy := false, connected := true } p
      refine ⟨hes, .inr ?_⟩
      simp only [adjustReadBuffer, hlen]
      omega
  · split at hr
    · cases hr
      exact ⟨rfl, .inl hsame⟩
    · split at hr
      · cases hr
        exact ⟨rfl, .inl hsame⟩
      · obtain ⟨_, hcheck, hr⟩ := Run.bind_eq_ok.mp hr
        cases hr
        have hbytes := check_eq_ok.mp hcheck
        obtain ⟨hlen, hes⟩ := afterSending_frame c p
        refine ⟨hes, .inr ?_⟩
        simp only [adjustReadBuffer, hlen]
        omega

theorem Bounded.takeUserData {c c' : ReadState} {p : Processed} (hb : Bounded c) (h : takeUserData c p = .ok c') : Bounded c' := by
  obtain ⟨-, rfl | ⟨hlo, hhi⟩⟩ := takeUserData_cases h
  · exact hb
  · exact ⟨hhi.trans hb.full, .inl hlo⟩

theorem Bounded.setDead {c : ReadState} (h : Bounded c) : Bounded (setDead c) := ⟨h.full, h.length.imp_right fun hc => ⟨rfl, hc.2⟩⟩

theorem Bounded.processReadBuffer {c c' : ReadState} {p : Processed} (hb : Bounded c)
    (h : processReadBuffer c p = .ok c') : Bounded c' := by
  have hother : (if p.bytes = -1 then (.ok (Arming.setDead c) : Run ReadState)
      else do
        check (0 ≤ p.bytes ∧ p.bytes ≤ c.lenRead)
        return adjustReadBuffer c p.bytes) = .ok c' → Bounded c' := by
    intro h
    split at h
    · cases h
      exact hb.setDead
    · obtain ⟨_, hcheck, hr⟩ := Run.bind_eq_ok.mp h
      cases hr
      have hbytes := check_eq_ok.mp hcheck
      have hfull := hb.full
      exact ⟨by simp only [adjustReadBuffer]; omega, .inl (by simp only [adjustReadBuffer]; omega)⟩
  unfold Arming.processReadBuffer at h
  cases htype : c.type with
  | user => rw [htype] at h; exact hb.takeUserData h
  | disk => rw [htype] at h; cases h
  | control => rw [htype] at h; exact hother h
  | chunk => rw [htype] at h; exact hother h
  | cache => rw [htype] at h; exact hother h
  | dns => rw [htype] at h; exact hother h
  | pptpd => rw [htype] at h; exact hother h

theorem Bounded.closeConnection {c c' : ReadState} {p : Processed} (hb : Bounded c) (hlen : 0 ≤ c.lenRead)
    (h : closeConnection c p = .ok c') : Bounded c' := by
  have hdone : Bounded { c with status := .done } := ⟨hb.full, .inl hlen⟩
  unfold Arming.closeConnection at h
  split at h
  · cases h
    exact hb
  · cases htype : c.type with
    | user =>
        simp only [htype] at h
        split at h
        · exact hdone.takeUserData (htype ▸ h)
        · cases h
          split
          · exact ⟨hb.full, .inl hlen⟩
          · exact ⟨hb.full, .inl hlen⟩
    | dns => simp only [htype] at h; cases h
    | disk => simp only [htype] at h; cases h
    | control => simp only [htype] at h; cases h; exact ⟨hb.full, .inl hlen⟩
    | chunk => simp only [htype] at h; cases h; exact ⟨hb.full, .inl hlen⟩
    | cache => simp only [htype] at h; cases h; exact ⟨hb.full, .inl hlen⟩
    | pptpd => simp only [htype] at h; cases h; exact ⟨hb.full, .inl hlen⟩

theorem readSize_eq {c : ReadState} (hlo : 0 ≤ c.lenRead) (hhi : c.lenRead ≤ 216268) : (readSize c : Int) = 216268 - c.lenRead := by
  rw [readSize, toSizeT, floor_sub]
  omega

theorem Bounded.eventReadCB {c c' : ReadState} {outcome : ReadOutcome} {p : Processed} (hb : Bounded c) (hlen : 0 ≤ c.lenRead)
    (hes : c.esRead = .none) (h : eventReadCB c outcome p = .ok c') : Bounded c' := by
  have hsize := readSize_eq hlen hb.full
  have hfull := hb.full
  obtain ⟨_, -, hrest⟩ := Run.bind_eq_ok.mp h
  cases outcome with
  | data n =>
      have hgrown : Bounded { c with lenRead := c.lenRead + read (readSize c) (.data n) } := by
        refine ⟨?_, .inl ?_⟩
        · show c.lenRead + ((min n (readSize c) : Nat) : Int) ≤ 216268
          omega
        · show 0 ≤ c.lenRead + ((min n (readSize c) : Nat) : Int)
          omega
      have hpos : 0 ≤ read (readSize c) (.data n) := Int.natCast_nonneg _
      simp only at hrest
      split at hrest
      · exact hgrown.closeConnection (by show 0 ≤ c.lenRead + read (readSize c) (.data n); omega) hrest
      · rw [if_neg (by omega)] at hrest
        cases hrest
        exact hgrown
  | eof =>
      have hsame : Bounded { c with lenRead := c.lenRead + 0 } :=
          ⟨by show c.lenRead + 0 ≤ _; omega, .inl (by show 0 ≤ c.lenRead + 0; omega)⟩
      exact hsame.closeConnection (by show 0 ≤ c.lenRead + 0; omega) hrest
  | error =>
      cases hrest
      exact ⟨by show c.lenRead + -1 ≤ _; omega, .inr ⟨rfl, hes⟩⟩

theorem Bounded.next {c c' : ReadState} {e : ReadEvent} (hb : Bounded c) (h : readNext c e = .ok c') : Bounded c' := by
  cases e with
  | addCIEvents =>
      cases h
      split
      · next harms => exact ⟨hb.full, .inl (hb.length.resolve_right fun hc => by rw [harms.2.1] at hc; cases hc.1)⟩
      · exact hb
  | trigger =>
      obtain ⟨_, hcheck, hr⟩ := Run.bind_eq_ok.mp h
      cases hr
      have hadded := check_eq_ok.mp hcheck
      exact ⟨hb.full, .inl (hb.length.resolve_right fun hc => by rw [hadded] at hc; cases hc.2)⟩
  | readWrite outcome closing processing =>
      obtain ⟨c₁, hread, hrest⟩ := Run.bind_eq_ok.mp h
      have hb₁ : Bounded c₁ := by
        split at hread
        · next htriggered =>
            have hlen : 0 ≤ c.lenRead := hb.length.resolve_right fun hc => by rw [htriggered] at hc; cases hc.2
            have hidle : Bounded { c with esRead := .none } := ⟨hb.full, .inl hlen⟩
            exact hidle.eventReadCB hlen rfl hread
        · cases hread
          exact hb
      split at hrest
      · exact hb₁.processReadBuffer hrest
      · cases hrest
        exact hb₁
  | bufferTimeout p =>
      obtain ⟨_, -, hr⟩ := Run.bind_eq_ok.mp h
      exact hb.takeUserData hr
  | openUserConnection p =>
      obtain ⟨_, -, hr⟩ := Run.bind_eq_ok.mp h
      have hopen : Bounded { c with connected := true } := ⟨hb.full, hb.length⟩
      exact hopen.takeUserData hr
  | nameAck =>
      cases h
      split
      · next hblock => exact ⟨hb.full, .inl (hb.length.resolve_right fun hc => by rw [hblock] at hc; cases hc.1)⟩
      · exact hb
  | dead =>
      cases h
      exact hb.setDead

theorem bounded_invariant : readSystem.Invariant Bounded where
  init := fun c hc => ⟨by rw [hc.2.1]; decide, .inl hc.2.1.ge⟩
  step := fun _ _ _ hb h => hb.next h

/-- The read that is asked for has room, inside what is allocated, and does not take data for the end of the file. -/
structure ReadsRight (c : ReadState) : Prop where
  room : 1 ≤ readSize c
  inside : c.lenRead + readSize c ≤ allocated
  data : ∀ n, 0 < n → read (readSize c) (.data n) ≠ 0

/-- Whenever a read is asked for it stays inside the buffer, and it is right exactly if the buffer is not full. -/
theorem readsRight_iff (events : List ReadEvent) (c : ReadState) (hrun : readSystem.Runs events c) (hread : Arms c ∨ c.esRead ≠ .none) :
    c.lenRead + readSize c ≤ allocated ∧ (ReadsRight c ↔ c.lenRead ≠ 216268) := by
  have hb := bounded_invariant.holds hrun
  have hlen : 0 ≤ c.lenRead := by
    refine hb.length.resolve_right fun hc => ?_
    rcases hread with harms | hes
    · rw [harms.2.1] at hc
      cases hc.1
    · exact hes hc.2
  have hsize := readSize_eq hlen hb.full
  have hinside : c.lenRead + readSize c ≤ allocated := by
    rw [hsize, allocated_eq]
    omega
  refine ⟨hinside, fun h hfull => ?_, fun hfull => ⟨?_, hinside, fun n hn => ?_⟩⟩
  · have hroom := h.room
    omega
  · have hhi := hb.full
    omega
  · have hhi := hb.full
    show ((min n (readSize c) : Nat) : Int) ≠ 0
    omega

/-- A user whose destination was asked for and did not come yet. -/
def waitingUser (lenRead : Int) (status : ConnectionStatus) (esRead : EventState) : ReadState :=
  ⟨.user, status, lenRead, esRead, false, false⟩

def nothing : Processed := ⟨0, false, true⟩

/-- The user sends more than the buffer holds; then there is more to read. -/
def fillEvents : List ReadEvent := [.addCIEvents, .trigger, .readWrite (.data 300000) nothing nothing, .addCIEvents]

/-- The user sends a part of what fits. -/
def partEvents : List ReadEvent := [.addCIEvents, .trigger, .readWrite (.data 1000) nothing nothing, .addCIEvents]

theorem readsRight_part : readSystem.Runs partEvents (waitingUser 1000 .active .added) ∧ ReadsRight (waitingUser 1000 .active .added) := by
  have hstart : readSystem.Runs [] (waitingUser 0 .active .none) := .start ⟨rfl, rfl, rfl⟩
  have hfold : partEvents.foldlM readNext (waitingUser 0 .active .none) = .ok (waitingUser 1000 .active .added) := by
    decide +kernel
  have hrun := System.runs_foldlM hstart hfold
  exact ⟨hrun, (readsRight_iff _ _ hrun (.inr (by decide))).2.mpr (by decide)⟩

/-- The buffer of a waiting user is full, a read of no bytes is asked for, and the connection is closed although there is more. -/
theorem read_of_nothing : readSystem.Runs fillEvents (waitingUser 216268 .active .added) ∧
    ¬ReadsRight (waitingUser 216268 .active .added) ∧
    readSystem.Runs (fillEvents ++ [.trigger, .readWrite (.data 1000) nothing nothing]) (waitingUser 216268 .done .none) := by
  have hstart : readSystem.Runs [] (waitingUser 0 .active .none) := .start ⟨rfl, rfl, rfl⟩
  have hfill : fillEvents.foldlM readNext (waitingUser 0 .active .none) = .ok (waitingUser 216268 .active .added) := by
    decide +kernel
  have hclose : [.trigger, .readWrite (.data 1000) nothing nothing].foldlM readNext (waitingUser 216268 .active .added) =
      .ok (waitingUser 216268 .done .none) := by
    decide +kernel
  have hrun := System.runs_foldlM hstart hfill
  refine ⟨hrun, fun h => ?_, System.runs_foldlM hrun hclose⟩
  have hnone : readSize (waitingUser 216268 .active .added) = 0 := by decide +kernel
  have hroom := h.room
  omega

end BeagleCache.Arming
