import BeagleCache.Flow
import BeagleCache.MessageSize

/-! The counter of blocked connections. It is counted up where a connection is blocked and down where an acknowledgement
unblocks it; a connection that is closed or set dead while it is blocked stays counted. -/

namespace BeagleCache

open Transition Run

section Serve

variable {cfg : Config} {sha1 : Bytes → Sha1Name} {hint : Sha1Name → Bool} {host : Bytes → Option (BitVec 32 × BitVec 16)}
  {ci : UserConnection} {sh : Shared} {forceProcess : Bool}

theorem processOneBlock_status {buffer : Bytes} {r : Nat × Outgoing × UserConnection × Shared}
    (h : processOneBlock cfg sha1 hint forceProcess ci buffer sh = .ok (some r)) : r.2.2.1.status = ci.status := by
  unfold processOneBlock at h
  split at h
  case isTrue =>
      obtain ⟨_, _, h⟩ := bind_eq_ok.mp h
      cases h
      rfl
  case isFalse =>
      split at h
      case isTrue => cases h
      case isFalse =>
          obtain ⟨one, hone, h⟩ := bind_eq_ok.mp h
          cases h
          unfold processOneRabinChunking2 at hone
          obtain ⟨pre, _, hone⟩ := bind_eq_ok.mp hone
          obtain ⟨_, _, hone⟩ := bind_eq_ok.mp hone
          obtain ⟨_, _, hone⟩ := bind_eq_ok.mp hone
          simp only at hone
          split at hone
          case isTrue =>
              obtain ⟨_, _, hone⟩ := bind_eq_ok.mp hone
              cases hone
              rfl
          case isFalse =>
              obtain ⟨_, _, hone⟩ := bind_eq_ok.mp hone
              obtain ⟨_, _, hone⟩ := bind_eq_ok.mp hone
              obtain ⟨_, _, hone⟩ := bind_eq_ok.mp hone
              obtain ⟨_, _, hone⟩ := bind_eq_ok.mp hone
              obtain ⟨_, _, hone⟩ := bind_eq_ok.mp hone
              cases hone
              rfl

theorem userLoop_status {fuel srcOff : Nat} {r : UserDataResult}
    (h : userLoop cfg sha1 hint forceProcess fuel srcOff ci sh = .ok r) :
    (r.blocked = true ∧ r.ci.status = .block) ∨ (r.blocked = false ∧ r.ci.status = ci.status) := by
  induction fuel generalizing srcOff ci sh r with
  | zero => cases h
  | succ fuel ih =>
      rw [userLoop] at h
      split at h
      case isFalse =>
          cases h
          exact .inr ⟨rfl, rfl⟩
      case isTrue =>
          obtain ⟨one, hone, h⟩ := bind_eq_ok.mp h
          cases one with
          | none =>
              cases h
              exact .inr ⟨rfl, rfl⟩
          | some one =>
              simp only at h
              split at h
              case isTrue =>
                  cases h
                  exact .inl ⟨rfl, rfl⟩
              case isFalse =>
                  obtain ⟨rest, hrest, h⟩ := bind_eq_ok.mp h
                  cases h
                  have hstatus : (countSent one.2.2.1 one.1).status = ci.status := processOneBlock_status hone
                  have hnext := ih hrest
                  rwa [hstatus] at hnext

theorem processPlainData_status {r : UserDataResult} (h : processPlainData cfg sha1 hint forceProcess ci sh = .ok r) :
    (r.blocked = true ∧ ci.status ≠ .block ∧ r.ci.status = .block) ∨
      (r.blocked = false ∧ (r.ci.status = .block ↔ ci.status = .block)) := by
  unfold processPlainData at h
  split at h
  case isTrue =>
      cases h
      exact .inr ⟨rfl, Iff.rfl⟩
  case isFalse =>
      split at h
      case isTrue =>
          cases h
          exact .inr ⟨rfl, Iff.rfl⟩
      case isFalse hblock =>
          obtain ⟨r₀, hloop, h⟩ := bind_eq_ok.mp h
          cases h
          rcases userLoop_status hloop with ⟨hblocked, hstatus⟩ | ⟨hblocked, hstatus⟩
          · left
            rw [finish, if_neg (by rw [hstatus]; decide)]
            exact ⟨hblocked, hblock, hstatus⟩
          · right
            refine ⟨(finish_frame r₀).2.2.1.trans hblocked, ?_⟩
            unfold finish
            split
            case isTrue => simp [hblock]
            case isFalse => rw [hstatus]

theorem serveUser_status {r : UserDataResult} (h : serveUser cfg sha1 hint host forceProcess ci sh = .ok r) :
    (r.blocked = true ∧ ci.status ≠ .block ∧ r.ci.status = .block) ∨
      (r.blocked = false ∧ (r.ci.status = .block ↔ ci.status = .block)) := by
  obtain ⟨r₁, hprocess, h⟩ := bind_eq_ok.mp h
  obtain ⟨ci₁, hadjust, h⟩ := bind_eq_ok.mp h
  cases h
  obtain ⟨_, rfl⟩ := adjustReadBuffer_ok hadjust
  unfold processUserData at hprocess
  split at hprocess
  case isFalse =>
      have hplain := processPlainData_status hprocess
      exact hplain
  case isTrue =>
      split at hprocess
      case h_1 =>
          cases hprocess
          exact .inr ⟨rfl, Iff.rfl⟩
      case h_2 target hhost =>
          obtain ⟨_, _, hprocess⟩ := bind_eq_ok.mp hprocess
          obtain ⟨_, _, hprocess⟩ := bind_eq_ok.mp hprocess
          split at hprocess
          case h_1 => cases hprocess
          case h_2 line hline =>
              obtain ⟨ci₀, hstrip, hprocess⟩ := bind_eq_ok.mp hprocess
              obtain ⟨_, rfl⟩ := adjustReadBuffer_ok hstrip
              obtain ⟨_, _, hprocess⟩ := bind_eq_ok.mp hprocess
              obtain ⟨_, _, hprocess⟩ := bind_eq_ok.mp hprocess
              obtain ⟨r₂, hplain, hprocess⟩ := bind_eq_ok.mp hprocess
              obtain ⟨ci₂, hadjust₂, hprocess⟩ := bind_eq_ok.mp hprocess
              cases hprocess
              obtain ⟨_, rfl⟩ := adjustReadBuffer_ok hadjust₂
              have hstatus := processPlainData_status hplain
              exact hstatus

end Serve

/-- The users that are blocked. -/
def UserTable.blocked (t : UserTable) : Nat := t.users.countP fun uf => uf.ci.status = .block

/-- An event that closes a blocked connection or sets it dead. -/
def UserTable.EndsBlocked (t : UserTable) : UserEvent → Prop
  | .eof i _ _ => ∃ uf, t.users[i]? = some uf ∧ uf.ci.status = .block
  | .error i => ∃ uf, t.users[i]? = some uf ∧ uf.ci.status = .block
  | .peerClose i bytesTX => ∃ uf, t.users[i]? = some uf ∧ uf.ci.status = .block ∧ (bytesTX = 0 ∨ uf.bytesRX = bytesTX)
  | .wrote i bytesSent eventTriggered => ∃ uf, t.users[i]? = some uf ∧ uf.ci.status = .block ∧ eventTriggered = true ∧
      { uf with bytesRX := uf.bytesRX + bytesSent }.AllWritten
  | .reconstructed i => ∃ uf, t.users[i]? = some uf ∧ uf.ci.status = .block ∧ uf.AllWritten
  | _ => False

/-- The counters are right, and every connection has a descriptor. -/
structure UserTable.Counted (t : UserTable) : Prop where
  blocked : t.numBlocked.toNat = t.blocked
  conns : t.numUserConns = t.users.length
  bound : t.users.length ≤ maxNumCI

namespace UserTable

variable {t t' : UserTable} {i : Nat} {uf uf' : UserFlow}

/-- The blocked users without the one at `i`. -/
def othersBlocked (t : UserTable) (i : Nat) : Nat := (t.users.eraseIdx i).countP fun uf => uf.ci.status = .block

theorem blocked_eq (huf : t.users[i]? = some uf) :
    t.blocked = t.othersBlocked i + if uf.ci.status = .block then 1 else 0 := by
  obtain ⟨hi, rfl⟩ := List.getElem?_eq_some_iff.mp huf
  have hperm := List.getElem_cons_eraseIdx_perm hi
  rw [blocked, ← hperm.countP_eq, List.countP_cons, othersBlocked]
  simp only [decide_eq_true_eq]

theorem blocked_put (huf : t.users[i]? = some uf) (uf' : UserFlow) :
    (t.put i uf').blocked = t.othersBlocked i + if uf'.ci.status = .block then 1 else 0 := by
  obtain ⟨hi, _⟩ := List.getElem?_eq_some_iff.mp huf
  have hperm := List.set_perm_cons_eraseIdx hi uf'
  rw [blocked, put, hperm.countP_eq, List.countP_cons, othersBlocked]
  simp only [decide_eq_true_eq]

theorem blocked_le (t : UserTable) : t.blocked ≤ t.users.length := List.countP_le_length

theorem Counted.put (h : t.Counted) (huf : t.users[i]? = some uf) (hsame : uf'.ci.status = .block ↔ uf.ci.status = .block) :
    (t.put i uf').Counted := by
  have hlength : (t.put i uf').users.length = t.users.length := List.length_set
  refine ⟨?_, ?_, ?_⟩
  · show t.numBlocked.toNat = (t.put i uf').blocked
    rw [h.blocked, blocked_eq huf, blocked_put huf uf']
    simp only [hsame]
  · rw [hlength]
    exact h.conns
  · rw [hlength]
    exact h.bound

theorem Counted.block (h : t.Counted) (huf : t.users[i]? = some uf) (hbefore : uf.ci.status ≠ .block)
    (hafter : uf'.ci.status = .block) : { t.put i uf' with numBlocked := t.numBlocked + 1 }.Counted := by
  have hlength : (t.put i uf').users.length = t.users.length := List.length_set
  have hblocked := blocked_eq huf
  have hput := blocked_put huf uf'
  have hle := blocked_le (t.put i uf')
  have hbound := h.bound
  rw [if_neg hbefore, Nat.add_zero] at hblocked
  rw [if_pos hafter] at hput
  unfold maxNumCI at hbound
  refine ⟨?_, ?_, ?_⟩
  · show (t.numBlocked + 1).toNat = (t.put i uf').blocked
    rw [BitVec.toNat_add, h.blocked, hput, hblocked]
    show (t.othersBlocked i + 1) % 2 ^ 32 = _
    omega
  · show t.numUserConns = ((t.put i uf').users.length : Int)
    rw [hlength]
    exact h.conns
  · show (t.put i uf').users.length ≤ maxNumCI
    rw [hlength]
    exact h.bound

theorem Counted.unblock (h : t.Counted) (huf : t.users[i]? = some uf) (hbefore : uf.ci.status = .block)
    (hafter : uf'.ci.status ≠ .block) : { t.put i uf' with numBlocked := t.numBlocked - 1 }.Counted := by
  have hlength : (t.put i uf').users.length = t.users.length := List.length_set
  have hblocked := blocked_eq huf
  have hput := blocked_put huf uf'
  rw [if_pos hbefore] at hblocked
  rw [if_neg hafter, Nat.add_zero] at hput
  have hsub : (t.numBlocked - 1).toNat = t.numBlocked.toNat - 1 := by
    have hcount := h.blocked
    rw [BitVec.toNat_sub_of_le]
    · rfl
    · rw [BitVec.le_def, hcount, hblocked]
      show 1 ≤ _
      omega
  refine ⟨?_, ?_, ?_⟩
  · show (t.numBlocked - 1).toNat = (t.put i uf').blocked
    rw [hsub, h.blocked, hput, hblocked]
    rfl
  · show t.numUserConns = ((t.put i uf').users.length : Int)
    rw [hlength]
    exact h.conns
  · show (t.put i uf').users.length ≤ maxNumCI
    rw [hlength]
    exact h.bound

theorem setDead_status (abnormal : Bool) (huf : uf.ci.status ≠ .block) : (setDead uf abnormal).ci.status ≠ .block := by
  unfold setDead
  split
  · exact huf
  · show ConnectionStatus.closed ≠ .block
    decide

theorem applyNameAck_status {ack : BitVec 32} {tmp : TempCache} {hints : HintTable}
    {r : UserFlow × Bool × TempCache × HintTable} (h : applyNameAck ack uf tmp hints = .ok r) :
    (r.2.1 = true ∧ uf.ci.status = .block ∧ r.1.ci.status ≠ .block) ∨
      (r.2.1 = false ∧ (r.1.ci.status = .block ↔ uf.ci.status = .block)) := by
  obtain ⟨_, _, h⟩ := bind_eq_ok.mp h
  obtain ⟨_, _, h⟩ := bind_eq_ok.mp h
  obtain ⟨destroyed, _, h⟩ := bind_eq_ok.mp h
  cases h
  by_cases hunblock : (decide ((takeAck uf ack).ci.status = .block) && windowOpen (takeAck uf ack).ci) = true
  · left
    have hstatus := (Bool.and_eq_true_iff.mp hunblock).1
    simp only [hunblock, if_true]
    refine ⟨trivial, of_decide_eq_true hstatus, ?_⟩
    rw [if_neg (by simp)]
    show ConnectionStatus.active ≠ .block
    decide
  · right
    simp only [Bool.eq_false_iff.mpr hunblock, Bool.false_eq_true, if_false]
    refine ⟨trivial, ?_⟩
    split
    case isTrue hfin =>
        have hstatus : uf.ci.status = .finsent := hfin.1
        constructor
        · intro hblock
          exact absurd hblock (setDead_status false (by show uf.ci.status ≠ _; rw [hstatus]; decide))
        · intro hblock
          rw [hstatus] at hblock
          cases hblock
    case isFalse => exact Iff.rfl

theorem setDead_iff (abnormal : Bool) (huf : uf.ci.status ≠ .block) :
    (setDead uf abnormal).ci.status = .block ↔ uf.ci.status = .block :=
  ⟨fun h => absurd h (setDead_status abnormal huf), fun h => absurd h huf⟩

section Steps

variable {cfg : Config} {sha1 : Bytes → Sha1Name} {host : Bytes → Option (BitVec 32 × BitVec 16)} {hint : Sha1Name → Bool}
  {sh : Shared} {forceProcess : Bool}

theorem withUser_counted {f : UserFlow → Run UserTable} (h : t.Counted)
    (hf : ∀ uf, t.users[i]? = some uf → f uf = .ok t' → t'.Counted) (hrun : withUser t i f = .ok t') : t'.Counted := by
  rw [withUser] at hrun
  split at hrun
  case h_1 uf huf => exact hf uf huf hrun
  case h_2 =>
      cases hrun
      exact h

theorem serveCounted_eq {r : UserDataResult} (hserve : serveUser cfg sha1 hint host forceProcess uf.ci sh = .ok r)
    (hcheck : r.blocked = true → ((t.numBlocked + 1).toNat : Int) ≤ t.numUserConns) :
    serveCounted cfg sha1 host t i uf forceProcess hint sh = .ok { t.put i { uf with ci := r.ci } with
      numBlocked := if r.blocked then t.numBlocked + 1 else t.numBlocked } := by
  rw [serveCounted, hserve, ok_bind]
  cases hblocked : r.blocked with
  | true =>
      have hle : (((t.put i { uf with ci := r.ci }).numBlocked + 1).toNat : Int) ≤
        (t.put i { uf with ci := r.ci }).numUserConns := hcheck hblocked
      simp only [if_true, check_of hle]
      rfl
  | false => rfl

/-- A call of `ProcessUserData`, also on a connection that `CloseConnection` changed from an unblocked one. -/
theorem serveCounted_counted (h : t.Counted) (huf : t.users[i]? = some uf)
    (hsame : uf'.ci.status = .block ↔ uf.ci.status = .block)
    (hserve : serveCounted cfg sha1 host t i uf' forceProcess hint sh = .ok t') : t'.Counted := by
  obtain ⟨r, hr, hserve⟩ := bind_eq_ok.mp hserve
  rcases serveUser_status hr with ⟨hblocked, hbefore, hafter⟩ | ⟨hblocked, hiff⟩
  · simp only [hblocked, if_true] at hserve
    obtain ⟨_, _, hserve⟩ := bind_eq_ok.mp hserve
    cases hserve
    exact h.block huf (fun hblock => hbefore (hsame.mpr hblock)) hafter
  · simp only [hblocked, Bool.false_eq_true, if_false] at hserve
    cases hserve
    exact h.put huf (hiff.trans hsame)

theorem closeConnection_counted (h : t.Counted) (huf : t.users[i]? = some uf) (hblock : uf.ci.status ≠ .block)
    (hclose : closeConnection cfg sha1 host t i uf hint sh = .ok t') : t'.Counted := by
  unfold closeConnection at hclose
  split at hclose
  case isTrue =>
      cases hclose
      exact h
  case isFalse =>
      split at hclose
      case isTrue =>
          refine serveCounted_counted h huf ?_ hclose
          constructor
          · intro hdone
            cases hdone
          · intro hb
            exact absurd hb hblock
      case isFalse =>
          cases hclose
          refine h.put huf ⟨?_, fun hb => absurd hb hblock⟩
          intro hb
          split at hb
          · cases hb
          · refine absurd hb (setDead_status false ?_)
            show ConnectionStatus.finsent ≠ .block
            decide

theorem destroyUser_counted (h : t.Counted) (huf : t.users[i]? = some uf) (hdestroy : destroyUser t i uf = .ok t') :
    t'.Counted := by
  unfold destroyUser at hdestroy
  split at hdestroy
  case isFalse =>
      cases hdestroy
      exact h
  case isTrue =>
      obtain ⟨_, hclosed, hdestroy⟩ := bind_eq_ok.mp hdestroy
      obtain ⟨_, _, hdestroy⟩ := bind_eq_ok.mp hdestroy
      cases hdestroy
      have hstatus : ¬ uf.ci.status = .block := by
        rw [check_eq_ok.mp hclosed]
        decide
      obtain ⟨hi, _⟩ := List.getElem?_eq_some_iff.mp huf
      have hlength : (t.users.eraseIdx i).length = t.users.length - 1 := List.length_eraseIdx_of_lt hi
      have hconns := h.conns
      have hbound := h.bound
      refine ⟨?_, ?_, ?_⟩
      · show (if uf.ci.status = .block then t.numBlocked - 1 else t.numBlocked).toNat = t.othersBlocked i
        rw [if_neg hstatus, h.blocked, blocked_eq huf, if_neg hstatus, Nat.add_zero]
      · show t.numUserConns - 1 = ((t.users.eraseIdx i).length : Int)
        rw [hlength]
        omega
      · show (t.users.eraseIdx i).length ≤ maxNumCI
        rw [hlength]
        omega

/-- Every step that does not end a blocked connection keeps the count. -/
theorem userNext_counted {e : UserEvent} (h : t.Counted) (hends : ¬ t.EndsBlocked e)
    (hnext : userNext cfg sha1 host t e = .ok t') : t'.Counted := by
  cases e with
  | accept isForward isHttpProxy key =>
      obtain ⟨_, hroom, hnext⟩ := bind_eq_ok.mp hnext
      obtain ⟨ci, hci, hnext⟩ := bind_eq_ok.mp hnext
      cases hnext
      have hroom' := inBounds_eq_ok.mp hroom
      have hactive : ci.status = .active := by
        rw [(createUserConnectionInfo_ok hci).2]
      refine ⟨?_, ?_, ?_⟩
      · show t.numBlocked.toNat = (t.users ++ [_]).countP _
        rw [List.countP_append, h.blocked, blocked]
        simp [newUserFlow, hactive]
      · show t.numUserConns + 1 = ((t.users ++ [_]).length : Int)
        rw [h.conns, List.length_append, List.length_singleton]
        push_cast
        rfl
      · show (t.users ++ [_]).length ≤ maxNumCI
        rw [List.length_append, List.length_singleton]
        omega
  | read i data =>
      refine withUser_counted h ?_ hnext
      intro uf huf hok
      cases hok
      exact h.put huf Iff.rfl
  | serve i forceProcess hint sh =>
      refine withUser_counted h ?_ hnext
      intro uf huf hok
      exact serveCounted_counted h huf Iff.rfl hok
  | ack i ack tmp hints =>
      refine withUser_counted h ?_ hnext
      intro uf huf hok
      obtain ⟨r, hr, hok⟩ := bind_eq_ok.mp hok
      cases hok
      rcases applyNameAck_status hr with ⟨hunblocked, hbefore, hafter⟩ | ⟨hunblocked, hiff⟩
      · simp only [hunblocked, if_true]
        exact h.unblock huf hbefore hafter
      · simp only [hunblocked, Bool.false_eq_true, if_false]
        exact h.put huf hiff
  | eof i hint sh =>
      refine withUser_counted h ?_ hnext
      intro uf huf hok
      exact closeConnection_counted h huf (fun hb => hends ⟨uf, huf, hb⟩) hok
  | error i =>
      refine withUser_counted h ?_ hnext
      intro uf huf hok
      cases hok
      exact h.put huf (setDead_iff true fun hb => hends ⟨uf, huf, hb⟩)
  | peerClose i bytesTX =>
      refine withUser_counted h ?_ hnext
      intro uf huf hok
      cases hok
      refine h.put huf ?_
      unfold applyCloseConnection
      split
      case isTrue hzero => exact setDead_iff true fun hb => hends ⟨uf, huf, hb, .inl hzero⟩
      case isFalse =>
          split
          case isTrue heq => exact setDead_iff false fun hb => hends ⟨uf, huf, hb, .inr heq⟩
          case isFalse => exact Iff.rfl
  | wrote i bytesSent eventTriggered =>
      refine withUser_counted h ?_ hnext
      intro uf huf hok
      cases hok
      refine h.put huf ?_
      unfold postWrite
      simp only
      split
      case isTrue hall => exact setDead_iff false fun hb => hends ⟨uf, huf, hb, hall⟩
      case isFalse => exact Iff.rfl
  | reconstructed i =>
      refine withUser_counted h ?_ hnext
      intro uf huf hok
      cases hok
      refine h.put huf ?_
      unfold postReconstruct
      split
      case isTrue hall => exact setDead_iff false fun hb => hends ⟨uf, huf, hb, hall⟩
      case isFalse => exact Iff.rfl
  | destroy i =>
      refine withUser_counted h ?_ hnext
      intro uf huf hok
      exact destroyUser_counted h huf hok

/-- The runs in which no blocked connection is closed or set dead. -/
def keepsBlocked (cfg : Config) (sha1 : Bytes → Sha1Name) (host : Bytes → Option (BitVec 32 × BitVec 16)) :
    System UserTable UserEvent := (userSystem cfg sha1 host).restrict fun t e => ¬ t.EndsBlocked e

theorem keepsBlocked_counted : (keepsBlocked cfg sha1 host).Invariant Counted where
  init := by
    rintro t rfl
    exact ⟨rfl, rfl, Nat.zero_le _⟩
  step := fun _ _ _ h hstep => userNext_counted h hstep.1 hstep.2

end Steps

end UserTable

/-- In every run in which no blocked connection is closed or set dead, `g_NumBlocked` is the number of blocked connections,
it is at most `g_NumUserConns`, and it still is when a connection that was not blocked is counted. -/
theorem blocked_count {cfg : Config} {sha1 : Bytes → Sha1Name} {host : Bytes → Option (BitVec 32 × BitVec 16)}
    {events : List UserEvent} {t : UserTable} (hrun : (UserTable.keepsBlocked cfg sha1 host).Runs events t) :
    t.numBlocked.toNat = t.blocked ∧ (t.numBlocked.toNat : Int) ≤ t.numUserConns ∧
      ∀ (i : Nat) (uf : UserFlow), t.users[i]? = some uf → uf.ci.status ≠ .block →
        ((t.numBlocked + 1).toNat : Int) ≤ t.numUserConns := by
  have h := UserTable.keepsBlocked_counted.holds hrun
  refine ⟨h.blocked, ?_, ?_⟩
  · rw [h.blocked, h.conns]
    exact Int.ofNat_le.mpr t.blocked_le
  · intro i uf huf hblock
    have hcounted : UserTable.Counted { t.put i { uf with ci := { uf.ci with status := .block } } with
        numBlocked := t.numBlocked + 1 } := h.block huf hblock rfl
    have hle := UserTable.blocked_le { t.put i { uf with ci := { uf.ci with status := .block } } with
      numBlocked := t.numBlocked + 1 }
    have hconns : t.numUserConns = _ := hcounted.conns
    rw [hconns, hcounted.blocked]
    exact Int.ofNat_le.mpr hle

/-- A client that sent `k` reads of 200000 bytes each and got no acknowledgement. -/
def sendingUser (ci : UserConnection) (k : Nat) : UserFlow :=
  newUserFlow { ci with
    key := sampleConn
    bytesTX := BitVec.ofNat 32 (k * 200000)
    numSent := BitVec.ofNat 32 (k * 200000) }

theorem sendingUser_step {ci : UserConnection} (hci : createUserConnectionInfo rawConfig true = .ok ci) {k : Nat} (hk : k < 400)
    {events : List UserEvent}
    (hrun : (UserTable.keepsBlocked rawConfig calcSHA1Sig fun _ => none).Runs events ⟨[sendingUser ci k], 0, 1⟩) :
    ∃ events, (UserTable.keepsBlocked rawConfig calcSHA1Sig fun _ => none).Runs events (if 4 * maxWindow < 5 * ((k + 1) * 200000)
      then ⟨[{ sendingUser ci (k + 1) with ci := { (sendingUser ci (k + 1)).ci with status := .block } }], 1, 1⟩
      else ⟨[sendingUser ci (k + 1)], 0, 1⟩) := by
  have hframe := (createUserConnectionInfo_ok hci).2
  have hforward : ci.isForward = true := by
    obtain ⟨_, _, hret⟩ := bind_eq_ok.mp hci
    cases hret
    rfl
  let data : Bytes := List.replicate 200000 7
  have hlen : data.length = 200000 := List.length_replicate
  let user : UserFlow := { sendingUser ci k with ci := { (sendingUser ci k).ci with bufRead := data } }
  have hread : (UserTable.keepsBlocked rawConfig calcSHA1Sig fun _ => none).Runs (events ++ [.read 0 data]) ⟨[user], 0, 1⟩ := by
    refine hrun.step ⟨not_false, ?_⟩
    have hbuf : (sendingUser ci k).ci.bufRead ++ data.take (recvBufsize - (sendingUser ci k).ci.bufRead.length) = data := by
      have hempty : (sendingUser ci k).ci.bufRead = [] := by
        show ci.bufRead = []
        rw [hframe]
      rw [hempty, List.nil_append, List.take_of_length_le]
      rw [hlen]
      decide
    show userNext _ _ _ _ _ = _
    simp only [userNext, withUser, List.getElem?_cons_zero, hbuf]
    rfl
  obtain ⟨msg, hmsg⟩ : ∃ msg, buildWARawMessage sampleConn data = .ok msg := by
    rw [buildWARawMessage, check_of (by rw [hlen]; decide), ok_bind, fillControlHeader_eq (by decide)]
    exact ⟨_, rfl⟩
  have hserve := @serveUser_raw rawConfig calcSHA1Sig (fun _ => false) (fun _ => none) user.ci ⟨emptyTempCache, default⟩ msg
    (by show ci.isHttpProxy = false; rw [hframe]) (by show ¬ (sampleConn.dstIP = 0 ∧ sampleConn.dstPort = 0); decide)
    (by show ci.status = .active; rw [hframe]) (by show rawMode rawConfig ci.isForward = true; rw [hforward]; rfl) hmsg false
  have hbytes : user.ci.bufRead.length = 200000 := hlen
  have hsum : BitVec.ofNat 32 (k * 200000) + BitVec.ofNat 32 200000 = BitVec.ofNat 32 ((k + 1) * 200000) := by
    rw [Nat.succ_mul, BitVec.ofNat_add]
  have hfull : windowFull (countSent user.ci 200000) = decide (4 * maxWindow < 5 * ((k + 1) * 200000)) := by
    have hmax : ci.maxWindowSize = BitVec.ofNat 32 maxWindow := by rw [hframe]
    show decide (4 * ci.maxWindowSize.toNat < 5 * (BitVec.ofNat 32 (k * 200000) + BitVec.ofNat 32 200000).toNat) = _
    rw [hmax, hsum, BitVec.toNat_ofNat, BitVec.toNat_ofNat, Nat.mod_eq_of_lt (by decide), Nat.mod_eq_of_lt (by omega)]
  rw [hbytes, hfull] at hserve
  have hsent : { countSent user.ci 200000 with bufRead := [] } = (sendingUser ci (k + 1)).ci := by
    have hempty : ci.bufRead = [] := by rw [hframe]
    show { (sendingUser ci k).ci with
      bufRead := []
      bytesTX := BitVec.ofNat 32 (k * 200000) + BitVec.ofNat 32 200000
      numSent := BitVec.ofNat 32 (k * 200000) + BitVec.ofNat 32 200000 } = (sendingUser ci (k + 1)).ci
    rw [hsum, ← hempty]
    rfl
  have hresult : { countSent user.ci 200000 with
      bufRead := []
      status := if decide (4 * maxWindow < 5 * ((k + 1) * 200000)) = true then .block else .active } =
      { (sendingUser ci (k + 1)).ci with
        status := if decide (4 * maxWindow < 5 * ((k + 1) * 200000)) = true then .block else .active } := by
    rw [← hsent]
  rw [hresult] at hserve
  refine ⟨_, hread.step (e := .serve 0 false (fun _ => false) ⟨emptyTempCache, default⟩) ⟨?_, ?_⟩⟩
  · exact not_false
  have hroom : (((0 : BitVec 32) + 1).toNat : Int) ≤ 1 := by decide
  have hcounted := @UserTable.serveCounted_eq ⟨[user], 0, 1⟩ 0 user _ _ _ _ _ _ _ hserve (fun _ => hroom)
  refine Eq.trans hcounted ?_
  by_cases hblock : 4 * maxWindow < 5 * ((k + 1) * 200000)
  · simp only [hblock, decide_true, if_true]
    rfl
  · have hactive : ConnectionStatus.active = (sendingUser ci (k + 1)).ci.status := by
      show _ = ci.status
      rw [hframe]
    simp only [hblock, decide_false, Bool.false_eq_true, if_false, hactive]
    rfl

theorem sendingUser_blocked : ∃ events uf, (UserTable.keepsBlocked rawConfig calcSHA1Sig fun _ => none).Runs events ⟨[uf], 1, 1⟩ ∧
    uf.ci.status = .block ∧ uf.isDead = false := by
  obtain ⟨ci, hci⟩ : ∃ ci, createUserConnectionInfo rawConfig true = .ok ci := by
    obtain ⟨rctx, hrctx⟩ : ∃ rctx, startRabinCtx rawConfig = .ok rctx := ⟨_, rfl⟩
    exact ⟨_, by rw [createUserConnectionInfo, hrctx]; rfl⟩
  have hsent : ∀ k, k ≤ 251 → ∃ events,
      (UserTable.keepsBlocked rawConfig calcSHA1Sig fun _ => none).Runs events ⟨[sendingUser ci k], 0, 1⟩ := by
    intro k hk
    induction k with
    | zero =>
        have hstart : (UserTable.keepsBlocked rawConfig calcSHA1Sig fun _ => none).Runs [] ⟨[], 0, 0⟩ := .start rfl
        refine ⟨_, hstart.step (e := .accept true false sampleConn) ⟨?_, ?_⟩⟩
        · exact not_false
        show userNext _ _ _ _ _ = _
        rw [userNext, inBounds_of (by decide), hci]
        have hframe := (createUserConnectionInfo_ok hci).2
        rw [hframe]
        rfl
    | succ k ih =>
        obtain ⟨events, hrun⟩ := ih (by omega)
        obtain ⟨events', hrun'⟩ := sendingUser_step hci (by omega) hrun
        rw [if_neg (by unfold maxWindow; omega)] at hrun'
        exact ⟨events', hrun'⟩
  obtain ⟨events, hrun⟩ := hsent 251 (le_refl _)
  obtain ⟨events', hrun'⟩ := sendingUser_step hci (by decide) hrun
  rw [if_pos (by decide)] at hrun'
  exact ⟨events', _, hrun', rfl, rfl⟩

theorem blocked_count_sample : ∃ events t, (UserTable.keepsBlocked rawConfig calcSHA1Sig fun _ => none).Runs events t ∧
    t.numBlocked = 1 ∧ t.numBlocked.toNat = t.blocked := by
  obtain ⟨events, uf, hrun, _, _⟩ := sendingUser_blocked
  exact ⟨events, _, hrun, rfl, (blocked_count hrun).1⟩

/-- The other side closes the blocked client: nobody is blocked, and one is counted. When it is destroyed, the counter is
larger than the number of connections. -/
theorem closed_client_stays_counted : ∃ events t, (userSystem rawConfig calcSHA1Sig fun _ => none).Runs events t ∧
    t.numBlocked = 1 ∧ t.blocked = 0 ∧ t.numUserConns = 0 := by
  obtain ⟨events, uf, hrun, hblock, hdead⟩ := sendingUser_blocked
  have hstart : (userSystem rawConfig calcSHA1Sig fun _ => none).Runs events ⟨[uf], 1, 1⟩ := hrun.of_restrict
  have hclose : (userSystem rawConfig calcSHA1Sig fun _ => none).Runs (events ++ [.peerClose 0 0])
      ⟨[{ uf with ci := { uf.ci with status := .closed }, isAbnormal := true, isDead := true }], 1, 1⟩ := by
    refine hstart.step ?_
    show Except.ok (UserTable.put _ 0 (applyCloseConnection 0 uf)) = _
    rw [applyCloseConnection, if_pos rfl, setDead, if_neg (by rw [hblock]; decide)]
    rfl
  refine ⟨_, ⟨[], 1, 0⟩, hclose.step (e := .destroy 0) ?_, rfl, rfl, rfl⟩
  show userNext _ _ _ _ _ = _
  rfl

end BeagleCache
