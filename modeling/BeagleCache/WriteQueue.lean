import BeagleCache.Transition
import BeagleCache.Bytes

/-! The write side of a TCP connection, `SendDataPrivate`, `Write` and `ActualWrite` of `waprox.c`. Messages wait in a list;
the kernel takes as much of the first one as it likes, and `PostWrite` is told of messages that are gone. -/

namespace BeagleCache

open Transition

/-- What `write` returns: a count, which is never more than it was asked for; `-1` with `EAGAIN`, `EINTR` or `EPIPE`; or
`-1` with another error. -/
inductive WriteOutcome
  | wrote (n : Nat)
  | busy
  | failed
  deriving DecidableEq

/-- The part of a `ConnectionInfo` that writes. `window` is `maxWindowSize` of a user connection. Three fields are not in
the source: what the kernel accepted, what `PostWrite` was told in all, and whether a write failed, which sets the
connection dead. -/
structure WriteQueue where
  window : Option Nat
  isAbnormal : Bool
  isWritable : Bool
  lenWrite : Nat
  msgListWrite : List Bytes
  firstMsgOffset : Nat
  accepted : Bytes
  told : Nat
  failed : Bool

/-- The state `CreateNewConnectionInfo` sets up. -/
def newWriteQueue (window : Option Nat) : WriteQueue where
  window := window
  isAbnormal := false
  isWritable := true
  lenWrite := 0
  msgListWrite := []
  firstMsgOffset := 0
  accepted := []
  told := 0
  failed := false

/-- `ActualWrite` of the first message. -/
def actualWrite (q : WriteQueue) (bufSend : Bytes) (outcome : WriteOutcome) : Run (WriteQueue × Int) := do
  check (q.firstMsgOffset < bufSend.length)
  let actualLenSend := bufSend.length - q.firstMsgOffset
  check (0 < actualLenSend)
  match outcome with
  | .busy => return ({ q with isWritable := false }, 0)
  | .failed => return (q, -1)
  | .wrote n => do
      let numWrite := min n actualLenSend
      let taken := { q with accepted := q.accepted ++ (bufSend.drop q.firstMsgOffset).take numWrite }
      if numWrite = 0 then return (q, -1)
      else if numWrite ≠ actualLenSend then do
        check (numWrite < bufSend.length)
        return ({ taken with firstMsgOffset := q.firstMsgOffset + numWrite }, 0)
      else return ({ taken with firstMsgOffset := 0, lenWrite := q.lenWrite - bufSend.length }, 1)

/-- The loop of `Write`, each round with its outcome of `write`: the state and `bytesSent`, or the state in which
`SetDead` is called. A kernel that says no more is busy. -/
def writeLoop : List WriteOutcome → List Bytes → WriteQueue → Nat → Run (WriteQueue × Option Nat)
  | _, [], q, bytesSent => .ok ({ q with msgListWrite := [] }, some bytesSent)
  | outcomes, walk :: rest, q, bytesSent => do
      let r ← actualWrite { q with msgListWrite := walk :: rest } walk (outcomes.headD .busy)
      if r.2 = -1 then return (r.1, none)
      else if r.2 = 0 then return (r.1, some bytesSent)
      else writeLoop outcomes.tail rest { r.1 with msgListWrite := rest } (bytesSent + walk.length)

/-- `Write`. A user connection that was closed with an error writes nothing more. -/
def write (q : WriteQueue) (outcomes : List WriteOutcome) : Run WriteQueue :=
  if q.window.isSome ∧ q.isAbnormal then .ok q
  else do
    let r ← writeLoop outcomes q.msgListWrite q 0
    match r.2 with
    | none => return { r.1 with isAbnormal := true, failed := true }
    | some bytesSent => return { r.1 with told := r.1.told + bytesSent }

/-- `SendDataPrivate`. The sum of the lengths is an `int`, and C says nothing about one that is too large. -/
def sendDataPrivate (q : WriteQueue) (msg : Bytes) (outcomes : List WriteOutcome) : Run WriteQueue := do
  check (0 < msg.length)
  let q := { q with msgListWrite := q.msgListWrite ++ [msg] }
  if (q.window.map fun maxWindowSize => decide (maxWindowSize * 2 ≤ q.lenWrite + msg.length)) = some true then .error .exit
  else do
    inBounds (q.lenWrite + msg.length < 2 ^ 31)
    let q := { q with lenWrite := q.lenWrite + msg.length }
    if q.isWritable then write q outcomes else return q

/-- What happens to a connection: a message is sent, or the socket is writable again. -/
inductive WriteEvent
  | send (msg : Bytes) (outcomes : List WriteOutcome)
  | writable (outcomes : List WriteOutcome)

/-- The event loop writes when there is something to write. -/
def writeNext (q : WriteQueue) : WriteEvent → Run WriteQueue
  | .send msg outcomes => sendDataPrivate q msg outcomes
  | .writable outcomes =>
      let q := { q with isWritable := true }
      if 0 < q.lenWrite then write q outcomes else .ok q

def writeSystem (window : Option Nat) : System WriteQueue WriteEvent := .ofNext (· = newWriteQueue window) writeNext

/-- The messages a run handed to `SendData`. -/
def sentMessages (events : List WriteEvent) : List Bytes := events.filterMap fun
  | .send msg _ => some msg
  | .writable _ => none

/-- How a queue stands when the messages `done` are gone: the kernel has them and a part of the first message that waits. -/
structure WriteQueue.Accounted (done : List Bytes) (q : WriteQueue) : Prop where
  accepted : q.accepted = done.flatten ++ (q.msgListWrite.headD []).take q.firstMsgOffset
  length : q.lenWrite = (q.msgListWrite.map List.length).sum
  positive : ∀ msg ∈ q.msgListWrite, 0 < msg.length
  offset : ∀ msg rest, q.msgListWrite = msg :: rest → q.firstMsgOffset < msg.length
  start : q.msgListWrite = [] → q.firstMsgOffset = 0

namespace WriteQueue

variable {q q' : WriteQueue} {done : List Bytes} {walk msg : Bytes} {rest : List Bytes} {outcomes : List WriteOutcome}

theorem Accounted.next (h : Accounted done { q with msgListWrite := walk :: rest }) :
    Accounted (done ++ [walk]) { q with
      msgListWrite := rest
      firstMsgOffset := 0
      accepted := q.accepted ++ walk.drop q.firstMsgOffset
      lenWrite := q.lenWrite - walk.length } := by
  have haccepted : q.accepted = done.flatten ++ walk.take q.firstMsgOffset := h.accepted
  have hlength : q.lenWrite = walk.length + (rest.map List.length).sum := by simpa using h.length
  refine ⟨?_, ?_, ?_, ?_, ?_⟩
  · show q.accepted ++ walk.drop q.firstMsgOffset = (done ++ [walk]).flatten ++ (rest.headD []).take 0
    rw [haccepted, List.append_assoc, List.take_append_drop, List.take_zero, List.append_nil, List.flatten_append,
      List.flatten_singleton]
  · show q.lenWrite - walk.length = (rest.map List.length).sum
    omega
  · intro msg hmem
    apply h.positive
    exact List.mem_cons_of_mem walk hmem
  · intro msg rest' hrest
    apply h.positive
    apply List.mem_cons_of_mem
    rw [show rest = msg :: rest' from hrest]
    exact List.mem_cons_self
  · intro _
    rfl

theorem Accounted.part {n : Nat} (h : Accounted done { q with msgListWrite := walk :: rest })
    (hn : q.firstMsgOffset + n < walk.length) :
    Accounted done { q with
      msgListWrite := walk :: rest
      firstMsgOffset := q.firstMsgOffset + n
      accepted := q.accepted ++ (walk.drop q.firstMsgOffset).take n } := by
  have haccepted : q.accepted = done.flatten ++ walk.take q.firstMsgOffset := h.accepted
  refine ⟨?_, h.length, h.positive, ?_, ?_⟩
  · show q.accepted ++ (walk.drop q.firstMsgOffset).take n = done.flatten ++ walk.take (q.firstMsgOffset + n)
    rw [haccepted, List.append_assoc, List.take_add]
  · intro msg rest' hcons
    cases hcons
    exact hn
  · intro hnil
    cases hnil

theorem actualWrite_cases (outcome : WriteOutcome) (h : Accounted done { q with msgListWrite := walk :: rest }) :
    ∃ r, actualWrite { q with msgListWrite := walk :: rest } walk outcome = .ok r ∧ r.1.told = q.told ∧
      r.1.failed = q.failed ∧ r.1.window = q.window ∧
      (((r.2 = -1 ∨ r.2 = 0) ∧ Accounted done r.1 ∧ r.1.msgListWrite = walk :: rest) ∨
        (r.2 = 1 ∧ Accounted (done ++ [walk]) { r.1 with msgListWrite := rest })) := by
  have hoffset : q.firstMsgOffset < walk.length := h.offset walk rest rfl
  simp only [actualWrite, check_of hoffset, check_of (Nat.sub_pos_of_lt hoffset), Run.ok_bind]
  cases outcome with
  | busy => exact ⟨_, rfl, rfl, rfl, rfl, .inl ⟨.inr rfl, ⟨h.accepted, h.length, h.positive, h.offset, h.start⟩, rfl⟩⟩
  | failed => exact ⟨_, rfl, rfl, rfl, rfl, .inl ⟨.inl rfl, h, rfl⟩⟩
  | wrote n =>
      simp only
      by_cases hzero : min n (walk.length - q.firstMsgOffset) = 0
      · rw [if_pos hzero]
        exact ⟨_, rfl, rfl, rfl, rfl, .inl ⟨.inl rfl, h, rfl⟩⟩
      · rw [if_neg hzero]
        by_cases hpart : min n (walk.length - q.firstMsgOffset) ≠ walk.length - q.firstMsgOffset
        · have hlt : min n (walk.length - q.firstMsgOffset) < walk.length := by omega
          rw [if_pos hpart, check_of hlt]
          exact ⟨_, rfl, rfl, rfl, rfl, .inl ⟨.inr rfl, h.part (by omega), rfl⟩⟩
        · rw [if_neg hpart]
          rw [not_not] at hpart
          refine ⟨_, rfl, rfl, rfl, rfl, .inr ⟨rfl, ?_⟩⟩
          rw [hpart, ← List.length_drop, List.take_length]
          exact h.next

/-- The loop of `Write` takes messages off the head of the list and counts them. -/
theorem writeLoop_accounted {msgs : List Bytes} (outcomes : List WriteOutcome) (bytesSent : Nat)
    (h : Accounted done { q with msgListWrite := msgs }) :
    ∃ r gone, writeLoop outcomes msgs q bytesSent = .ok r ∧ msgs = gone ++ r.1.msgListWrite ∧
      Accounted (done ++ gone) r.1 ∧ r.1.told = q.told ∧ r.1.failed = q.failed ∧ r.1.window = q.window ∧
      ∀ n, r.2 = some n → n = bytesSent + (gone.map List.length).sum := by
  -- each round takes the message at the head off, or is the last one
  induction msgs generalizing outcomes q done bytesSent with
  | nil =>
      refine ⟨_, [], rfl, rfl, ?_, rfl, rfl, rfl, ?_⟩
      · rw [List.append_nil]
        exact h
      · intro n hn
        cases hn
        rfl
  | cons walk rest ih =>
      obtain ⟨r, hr, hrtold, hrfailed, hrwindow, hcases⟩ := actualWrite_cases (outcomes.headD .busy) h
      simp only [writeLoop, hr, Run.ok_bind]
      rcases hcases with ⟨hret, hacc, hlist⟩ | ⟨hret, hacc⟩
      · refine ⟨(r.1, if r.2 = -1 then none else some bytesSent), [], ?_, hlist.symm, ?_, hrtold, hrfailed, hrwindow, ?_⟩
        · rcases hret with hret | hret <;> simp [hret]
        · rw [List.append_nil]
          exact hacc
        · intro n hn
          rcases hret with hret | hret
          · simp [hret] at hn
          · obtain rfl : bytesSent = n := by simpa [hret] using hn
            rfl
      · have hneg : ¬ r.2 = -1 := by omega
        have hzero : ¬ r.2 = 0 := by omega
        rw [if_neg hneg, if_neg hzero]
        obtain ⟨r', gone, hr', hgone, hacc', htold', hfailed', hwindow', hsent⟩ := @ih { r.1 with msgListWrite := rest }
          (done ++ [walk]) outcomes.tail (bytesSent + walk.length) hacc
        refine ⟨r', walk :: gone, hr', by rw [List.cons_append, ← hgone], ?_, htold'.trans hrtold, hfailed'.trans hrfailed,
          hwindow'.trans hrwindow, ?_⟩
        · simpa using hacc'
        · intro n hn
          rw [hsent n hn, List.map_cons, List.sum_cons, Nat.add_assoc]

/-- What `PostWrite` was told: the lengths of the messages that are gone. -/
def Told (done : List Bytes) (q : WriteQueue) : Prop := q.failed = false → q.told = (done.map List.length).sum

/-- How far a call gets when it takes the messages `gone` off: `PostWrite` is told of them, or of none. -/
structure Moved (gone : List Bytes) (q q' : WriteQueue) : Prop where
  window_eq : q'.window = q.window
  told_ge : q.told ≤ q'.told
  told_le : q'.told ≤ q.told + (gone.map List.length).sum

theorem Moved.refl (q : WriteQueue) : Moved [] q q := ⟨rfl, le_refl _, le_refl _⟩

theorem write_accounted (outcomes : List WriteOutcome) (h : Accounted done q) (htold : Told done q) :
    ∃ q' gone, write q outcomes = .ok q' ∧ q.msgListWrite = gone ++ q'.msgListWrite ∧ Accounted (done ++ gone) q' ∧
      Told (done ++ gone) q' ∧ Moved gone q q' := by
  by_cases habnormal : q.window.isSome ∧ q.isAbnormal
  · refine ⟨q, [], if_pos habnormal, rfl, ?_, ?_, Moved.refl q⟩
    · rwa [List.append_nil]
    · rwa [List.append_nil]
  · obtain ⟨r, gone, hr, hgone, hacc, hsame, hfailed, hwindow, hsent⟩ := writeLoop_accounted outcomes 0 h
    simp only [write, if_neg habnormal, hr, Run.ok_bind]
    cases hret : r.2 with
    | none =>
        refine ⟨_, gone, rfl, hgone, ⟨hacc.accepted, hacc.length, hacc.positive, hacc.offset, hacc.start⟩, ?_, hwindow,
          hsame.ge, ?_⟩
        · intro hfalse
          cases hfalse
        · exact hsame.le.trans (Nat.le_add_right _ _)
    | some n =>
        have hn := hsent n hret
        rw [Nat.zero_add] at hn
        refine ⟨_, gone, rfl, hgone, ⟨hacc.accepted, hacc.length, hacc.positive, hacc.offset, hacc.start⟩, ?_, hwindow, ?_, ?_⟩
        · intro hfalse
          have := htold (hfailed ▸ hfalse)
          show r.1.told + n = _
          rw [hsame, hn, this, List.map_append, List.sum_append]
        · show q.told ≤ r.1.told + n
          omega
        · show r.1.told + n ≤ _
          omega

theorem Accounted.send (h : Accounted done q) (hmsg : 0 < msg.length) :
    Accounted done { q with msgListWrite := q.msgListWrite ++ [msg], lenWrite := q.lenWrite + msg.length } := by
  have haccepted := h.accepted
  refine ⟨?_, ?_, ?_, ?_, ?_⟩
  · show q.accepted = done.flatten ++ ((q.msgListWrite ++ [msg]).headD []).take q.firstMsgOffset
    cases hlist : q.msgListWrite with
    | nil =>
        rw [hlist] at haccepted
        rw [haccepted, h.start hlist]
        rfl
    | cons walk rest =>
        rw [hlist] at haccepted
        exact haccepted
  · show q.lenWrite + msg.length = ((q.msgListWrite ++ [msg]).map List.length).sum
    rw [h.length, List.map_append, List.sum_append, List.map_singleton, List.sum_singleton]
  · intro m hm
    rcases List.mem_append.mp hm with hm | hm
    · exact h.positive m hm
    · rw [List.mem_singleton] at hm
      rwa [hm]
  · intro m rest' hcons
    replace hcons : q.msgListWrite ++ [msg] = m :: rest' := hcons
    show q.firstMsgOffset < m.length
    cases hlist : q.msgListWrite with
    | nil =>
        rw [hlist] at hcons
        cases hcons
        rwa [h.start hlist]
    | cons walk rest =>
        rw [hlist, List.cons_append] at hcons
        cases hcons
        exact h.offset m rest hlist
  · intro hnil
    cases List.append_ne_nil_of_right_ne_nil q.msgListWrite (List.cons_ne_nil msg []) hnil

theorem sendDataPrivate_accounted (h : Accounted done q) (htold : Told done q)
    (hsend : sendDataPrivate q msg outcomes = .ok q') :
    ∃ gone, q.msgListWrite ++ [msg] = gone ++ q'.msgListWrite ∧ Accounted (done ++ gone) q' ∧ Told (done ++ gone) q' ∧
      Moved gone q q' := by
  obtain ⟨_, hmsg, hsend⟩ := Run.bind_eq_ok.mp hsend
  have hnext := h.send (check_eq_ok.mp hmsg)
  simp only at hsend
  split at hsend
  case isTrue => cases hsend
  case isFalse =>
      obtain ⟨_, _, hsend⟩ := Run.bind_eq_ok.mp hsend
      split at hsend
      case isTrue =>
          obtain ⟨q₁, gone, hwrite, hgone, hacc, htold', hmoved⟩ := write_accounted outcomes hnext htold
          cases hwrite.symm.trans hsend
          exact ⟨gone, hgone, hacc, htold', hmoved.window_eq, hmoved.told_ge, hmoved.told_le⟩
      case isFalse =>
          cases hsend
          refine ⟨[], rfl, ?_, ?_, rfl, le_refl _, le_refl _⟩
          · rwa [List.append_nil]
          · rwa [List.append_nil]

theorem writeNext_accounted {e : WriteEvent} (h : Accounted done q) (htold : Told done q) (hnext : writeNext q e = .ok q') :
    ∃ gone, q.msgListWrite ++ sentMessages [e] = gone ++ q'.msgListWrite ∧ Accounted (done ++ gone) q' ∧
      Told (done ++ gone) q' ∧ Moved gone q q' := by
  cases e with
  | send msg outcomes => exact sendDataPrivate_accounted h htold hnext
  | writable outcomes =>
      have hready : Accounted done { q with isWritable := true } := ⟨h.accepted, h.length, h.positive, h.offset, h.start⟩
      rw [show sentMessages [.writable outcomes] = [] from rfl, List.append_nil]
      simp only [writeNext] at hnext
      split at hnext
      case isTrue =>
          obtain ⟨q₁, gone, hwrite, hgone, hacc, htold', hmoved⟩ := write_accounted outcomes hready htold
          cases hwrite.symm.trans hnext
          exact ⟨gone, hgone, hacc, htold', hmoved.window_eq, hmoved.told_ge, hmoved.told_le⟩
      case isFalse =>
          cases hnext
          refine ⟨[], rfl, ?_, ?_, rfl, le_refl _, le_refl _⟩
          · rwa [List.append_nil]
          · rwa [List.append_nil]

theorem newWriteQueue_accounted (window : Option Nat) : Accounted [] (newWriteQueue window) where
  accepted := rfl
  length := rfl
  positive := fun _ hmem => nomatch hmem
  offset := fun _ _ hcons => nomatch hcons
  start := fun _ => rfl

/-- Every run: the messages that were sent are the ones that are gone and the ones that wait. -/
theorem runs_accounted {window : Option Nat} {events : List WriteEvent} (hrun : (writeSystem window).Runs events q) :
    ∃ done, sentMessages events = done ++ q.msgListWrite ∧ Accounted done q ∧ Told done q := by
  induction hrun with
  | start hinit =>
      cases hinit
      exact ⟨[], rfl, newWriteQueue_accounted window, fun _ => rfl⟩
  | @step events q q' e _ hstep ih =>
      obtain ⟨done, hsent, hacc, htold⟩ := ih
      obtain ⟨gone, hlist, hacc', htold', -⟩ := writeNext_accounted hacc htold hstep
      refine ⟨done ++ gone, ?_, hacc', htold'⟩
      calc
        sentMessages (events ++ [e]) = done ++ (q.msgListWrite ++ sentMessages [e]) := by
          rw [sentMessages, List.filterMap_append, ← sentMessages, hsent, List.append_assoc]
          rfl
        _ = done ++ gone ++ q'.msgListWrite := by rw [hlist, List.append_assoc]

end WriteQueue

/-- In every state of a connection: the kernel took a prefix of the messages in their order, `lenWrite` and
`firstMsgOffset` say what is left, as long as no write failed `PostWrite` was told the lengths of the messages that are
gone, and the next `Write` fails no assertion. -/
theorem write_queue {window : Option Nat} {events : List WriteEvent} {q : WriteQueue}
    (hrun : (writeSystem window).Runs events q) :
    q.accepted <+: (sentMessages events).flatten ∧
      q.lenWrite = (q.msgListWrite.map List.length).sum ∧
      (∀ msg rest, q.msgListWrite = msg :: rest → q.firstMsgOffset < msg.length) ∧
      (∃ done, sentMessages events = done ++ q.msgListWrite ∧
        q.accepted = done.flatten ++ (q.msgListWrite.headD []).take q.firstMsgOffset ∧
        (q.failed = false → q.told = (done.map List.length).sum)) ∧
      ∀ outcomes, ∃ q', write q outcomes = .ok q' := by
  obtain ⟨done, hsent, hacc, htold⟩ := WriteQueue.runs_accounted hrun
  refine ⟨?_, hacc.length, hacc.offset, ⟨done, hsent, hacc.accepted, htold⟩, ?_⟩
  · rw [hacc.accepted, hsent, List.flatten_append, List.prefix_append_right_inj]
    cases q.msgListWrite with
    | nil =>
        rw [List.headD_nil, List.take_nil]
        exact List.nil_prefix
    | cons walk rest =>
        rw [List.headD_cons, List.flatten_cons]
        exact (List.take_prefix _ _).trans (List.prefix_append _ _)
  · intro outcomes
    obtain ⟨q', _, hwrite, _⟩ := WriteQueue.write_accounted outcomes hacc htold
    exact ⟨q', hwrite⟩

/-- A user connection that writes a message in part, is busy, and writes the rest and a second message. -/
def writeSample : List WriteEvent :=
  [.send [1, 2, 3] [.wrote 2], .send [4, 5] [.busy], .writable [.wrote 1, .wrote 1]]

theorem write_queue_sample : ∃ q, (writeSystem (some 100)).Runs writeSample q ∧ q.accepted = [1, 2, 3, 4] ∧ q.told = 3 ∧
    q.accepted <+: (sentMessages writeSample).flatten := by
  obtain ⟨q, hfold, hq⟩ := @Run.exists_of_map _ _ (writeSample.foldlM writeNext (newWriteQueue (some 100)))
    (fun q => (q.accepted, q.told)) ([1, 2, 3, 4], 3) (by decide)
  have hstart : (writeSystem (some 100)).Runs [] (newWriteQueue (some 100)) := .start rfl
  have hrun : (writeSystem (some 100)).Runs writeSample q := System.runs_foldlM hstart hfold
  exact ⟨q, hrun, congrArg Prod.fst hq, congrArg Prod.snd hq, (write_queue hrun).1⟩

end BeagleCache
