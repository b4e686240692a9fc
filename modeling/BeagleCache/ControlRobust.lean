import BeagleCache.ControlFraming

/-! Arbitrary bytes in the receive buffer of a control connection. `VerifyControlHeader` compares the length in a header
with what was received and nothing else, and the handlers trust it; here is exactly which bytes they can be trusted
with. -/

namespace BeagleCache

open Run

/-- The fixed part of a message. -/
def fixedSize (msgType : Byte) : Nat := if msgType = typeWAOpenConnection then sizeofWAOpenConnection else sizeofWANameAck

/-- What the handler of a message returns when it returns. -/
def takenBytes (msgType : Byte) (length : BitVec 32) : Nat :=
  if msgType = typeWAOpenConnection then sizeofWAOpenConnection
  else if msgType = typeWANameDelivery then length.toNat
  else if msgType = typeWANameAck then sizeofWANameAck
  else if msgType = typeWACloseConnection then sizeofWACloseConnection
  else length.toNat

/-- The loop of `ProcessControlData` on `buffer` gets to `b`. -/
inductive Reaches : Bytes → Bytes → Prop
  | here (buffer : Bytes) : Reaches buffer buffer
  | next {buffer b : Bytes} {msgType : Byte} {length : BitVec 32} : verifyControlHeader buffer = .ok (.message msgType) →
      headerLength buffer = .ok length → Reaches (buffer.drop (takenBytes msgType length)) b → Reaches buffer b

theorem Reaches.length_le {buffer b : Bytes} (h : Reaches buffer b) : b.length ≤ buffer.length := by
  induction h with
  | here => exact le_refl _
  | next _ _ _ ih =>
      rw [List.length_drop] at ih
      exact ih.trans (Nat.sub_le _ _)

/-- The length in the header is smaller than the fixed part of the message. -/
def ShortHeader (b : Bytes) : Prop :=
  ∃ msgType length, verifyControlHeader b = .ok (.message msgType) ∧ headerLength b = .ok length ∧ length.toNat < fixedSize msgType

/-- A message whose handler finds what it reads: the header counts at least the fixed part, no address is zero, the data
of a raw message is there, and the chunks of a name delivery are there and end where the header says. -/
def SoundMessage (msgType : Byte) (b : Bytes) : Prop :=
  ∃ id length, headerConnID b = .ok id ∧ id.Known ∧ headerLength b = .ok length ∧ fixedSize msgType ≤ length.toNat ∧
    (msgType = typeWARawMessage → ∃ msgLen, readU32 b (sizeofWAControlHeader + 1) = .ok msgLen ∧ 0 < msgLen.toInt ∧
      sizeofWARawMessage + msgLen.toNat ≤ b.length) ∧
    (msgType = typeWANameDelivery → readU32 b (sizeofWAControlHeader + 1) = .ok 1 ∧
      ∃ numNames cs, readU32 b (sizeofWANameDelivery + 1) = .ok numNames ∧
        readTree b numNames.toInt.toNat (sizeofWANameDelivery + sizeofWAOneTree) = .ok (cs, length.toNat))

/-- Every message the loop gets to is sound. -/
def SoundFrames (buffer : Bytes) : Prop :=
  ∀ b msgType, Reaches buffer b → verifyControlHeader b = .ok (.message msgType) → SoundMessage msgType b

/-- `ProcessControlData` on `buffer` only hands out events, so it fails only where one of these does; it returns `-1` or
a number of bytes that were received; and it gives up at a header whose length is smaller than the fixed part. -/
def RobustFraming (buffer : Bytes) : Prop :=
  (∀ (σ : Type) (found : σ → ConnectionID → Bool) (handle : σ → ControlEvent → Run σ) (s : σ),
    ∃ (evs : List ControlEvent) (r : Int),
      processControlData found handle buffer s = (evs.foldlM handle s >>= fun s' => .ok (s', r)) ∧
        (r = -1 ∨ 0 ≤ r ∧ r ≤ buffer.length)) ∧
  ∀ b, Reaches buffer b → ShortHeader b →
    ∀ (σ : Type) (found : σ → ConnectionID → Bool) (handle : σ → ControlEvent → Run σ) (s : σ),
      processControlData found handle b s = .ok (s, -1)

/-! ## Headers -/

section Header

variable {b : Bytes} {msgType : Byte}

theorem readAt_ok {off n : Nat} (h : off + n ≤ b.length) : ∃ bytes, readAt b off n = .ok bytes := ⟨_, by rw [readAt, if_pos h]⟩

theorem readU32_ok {off : Nat} (h : off + 4 ≤ b.length) : ∃ x, readU32 b off = .ok x := by
  obtain ⟨bytes, hread⟩ := readAt_ok h
  exact ⟨ntohl bytes, by rw [readU32, hread]; rfl⟩

theorem verifyControlHeader_total (b : Bytes) : ∃ c, verifyControlHeader b = .ok c := by
  unfold verifyControlHeader
  by_cases hshort : b.length < sizeofWAControlHeader
  · exact ⟨.wait, if_pos hshort⟩
  · have hheader : 18 ≤ b.length := Nat.le_of_not_lt hshort
    obtain ⟨magic, hmagic⟩ := readAt_ok (show 0 + 1 ≤ b.length by omega)
    obtain ⟨type, htype⟩ := readAt_ok (show 1 + 1 ≤ b.length by omega)
    obtain ⟨length, hlength⟩ := readU32_ok (show 2 + 4 ≤ b.length by omega)
    rw [if_neg hshort, hmagic, ok_bind, headerLength, hlength, ok_bind, htype, ok_bind]
    split
    · exact ⟨_, rfl⟩
    · split
      · exact ⟨_, rfl⟩
      · split
        · exact ⟨_, rfl⟩
        · exact ⟨_, rfl⟩

theorem verified_cases (h : verifyControlHeader b = .ok (.message msgType)) :
    sizeofWAControlHeader ≤ b.length ∧ (∃ length, headerLength b = .ok length ∧ length.toNat ≤ b.length) ∧
      (msgType = typeWAOpenConnection ∨ msgType = typeWANameDelivery ∨ msgType = typeWACloseConnection ∨ msgType = typeWANameAck ∨
        msgType = typeWARawMessage) := by
  unfold verifyControlHeader at h
  by_cases hshort : b.length < sizeofWAControlHeader
  · rw [if_pos hshort] at h
    cases h
  · rw [if_neg hshort] at h
    obtain ⟨magic, -, h⟩ := bind_eq_ok.mp h
    split at h
    · cases h
    · obtain ⟨length, hlength, h⟩ := bind_eq_ok.mp h
      split at h
      · cases h
      case isFalse hlong =>
        obtain ⟨type, -, h⟩ := bind_eq_ok.mp h
        split at h
        case isTrue hmem =>
          cases h
          refine ⟨Nat.le_of_not_lt hshort, ⟨length, hlength, Nat.le_of_not_lt hlong⟩, ?_⟩
          simpa only [List.mem_cons, List.not_mem_nil, or_false] using hmem
        · cases h

end Header

/-! ## Sound messages -/

section Sound

variable {σ : Type} (found : σ → ConnectionID → Bool) (handle : σ → ControlEvent → Run σ) {b : Bytes} {msgType : Byte}

theorem foldlM_chunks (id : ConnectionID) (cs : List WireChunk) (s : σ) :
    cs.foldlM (fun s c => handle s (.chunk id c)) s = (cs.map (ControlEvent.chunk id)).foldlM handle s := by
  rw [List.foldlM_map]

/-- A handler on a sound message hands out its events and takes what the header says. -/
theorem processOneControl_sound (hverify : verifyControlHeader b = .ok (.message msgType)) (hsound : SoundMessage msgType b)
    (hsmall : b.length < 2 ^ 31) (s : σ) : ∃ (evs : List ControlEvent) (length : BitVec 32), headerLength b = .ok length ∧
      0 < takenBytes msgType length ∧ takenBytes msgType length ≤ b.length ∧
      processOneControl found handle msgType b s =
        (evs.foldlM handle s >>= fun s' => .ok (s', (takenBytes msgType length : Int))) := by
  obtain ⟨hheader, ⟨length, hlength, hle⟩, htype⟩ := verified_cases hverify
  obtain ⟨id, length', hconn, hid, hlength', hfixed, hraw, hnames⟩ := hsound
  rw [hlength] at hlength'
  cases hlength'
  have hint : length.toInt = length.toNat := BitVec.toInt_eq_toNat_of_lt (by omega)
  rcases htype with rfl | rfl | rfl | rfl | rfl
  · refine ⟨[.openConnection id], length, hlength, show 0 < sizeofWAOpenConnection by decide, le_trans hfixed hle, ?_⟩
    show processOpenConnection handle b s = _
    unfold processOpenConnection
    rw [hconn, ok_bind, check_of hid, ok_bind, List.foldlM_cons]
    cases handle s (.openConnection id) <;> rfl
  · obtain ⟨htrees, numNames, cs, hnum, hread⟩ := hnames rfl
    have hpos : 23 ≤ length.toNat := hfixed
    by_cases hfound : found s id = true
    · refine ⟨.newTree id :: (cs.map (ControlEvent.chunk id) ++ [.endTree id]), length, hlength,
        show 0 < length.toNat by omega, hle, ?_⟩
      show processNames found handle b s = _
      unfold processNames
      rw [hlength, ok_bind, htrees, ok_bind, hint, check_of (by omega), ok_bind, check_of (by decide), ok_bind,
        check_of (by decide), ok_bind, hconn, ok_bind, check_of hid, ok_bind, if_pos hfound, List.foldlM_cons]
      cases handle s (.newTree id) with
      | error f => rfl
      | ok s₁ =>
          simp only [ok_bind]
          rw [hnum, ok_bind, processChunks_eq handle id s₁ hread, foldlM_chunks, List.foldlM_append]
          cases (cs.map (ControlEvent.chunk id)).foldlM handle s₁ with
          | error f => rfl
          | ok s₂ =>
              simp only [ok_bind, List.foldlM_cons, List.foldlM_nil]
              cases handle s₂ (.endTree id) with
              | error f => rfl
              | ok s₃ =>
                  simp only [ok_bind]
                  rw [check_of trivial]
                  rfl
    · refine ⟨[], length, hlength, show 0 < length.toNat by omega, hle, ?_⟩
      show processNames found handle b s = _
      unfold processNames
      rw [hlength, ok_bind, htrees, ok_bind, hint, check_of (by omega), ok_bind, check_of (by decide), ok_bind,
        check_of (by decide), ok_bind, hconn, ok_bind, check_of hid, ok_bind, if_neg hfound]
      rfl
  · obtain ⟨bytesTX, hbytes⟩ := readU32_ok (show 18 + 1 + 4 ≤ b.length from le_trans hfixed hle)
    refine ⟨if found s id then [.closeConnection id bytesTX] else [], length, hlength,
      show 0 < sizeofWACloseConnection by decide, le_trans hfixed hle, ?_⟩
    show processCloseConnection found handle b s = _
    unfold processCloseConnection
    rw [hconn, ok_bind, show sizeofWAControlHeader + 1 = 18 + 1 from rfl, hbytes, ok_bind, check_of hid, ok_bind]
    by_cases hfound : found s id = true
    · rw [if_pos hfound, if_pos hfound, List.foldlM_cons]
      cases handle s (.closeConnection id bytesTX) <;> rfl
    · rw [if_neg hfound, if_neg hfound]
      rfl
  · obtain ⟨ack, hack⟩ := readU32_ok (show 18 + 1 + 4 ≤ b.length from le_trans hfixed hle)
    refine ⟨if found s id then [.nameAck id ack] else [], length, hlength, show 0 < sizeofWANameAck by decide,
      le_trans hfixed hle, ?_⟩
    show processNameAck found handle b s = _
    unfold processNameAck
    rw [show sizeofWAControlHeader + 1 = 18 + 1 from rfl, hack, ok_bind, hconn, ok_bind, check_of hid, ok_bind,
      check_of (show sizeofWANameAck ≤ b.length from le_trans hfixed hle)]
    by_cases hfound : found s id = true
    · rw [if_pos hfound, if_pos hfound, List.foldlM_cons]
      cases handle s (.nameAck id ack) <;> rfl
    · rw [if_neg hfound, if_neg hfound]
      rfl
  · obtain ⟨msgLen, hmsgLen, hpos, hdata⟩ := hraw rfl
    obtain ⟨data, hread⟩ := readAt_ok hdata
    have hpos' : 23 ≤ length.toNat := hfixed
    refine ⟨if found s id then [.rawMessage id data] else [], length, hlength, show 0 < length.toNat by omega, hle, ?_⟩
    show processRaw found handle b s = _
    unfold processRaw
    rw [hconn, ok_bind, hmsgLen, ok_bind, check_of hpos, ok_bind, hlength, ok_bind, hint, check_of (by omega),
      ok_bind, check_of hid, ok_bind]
    by_cases hfound : found s id = true
    · rw [if_pos hfound, if_pos hfound, hread, ok_bind, List.foldlM_cons]
      cases handle s (.rawMessage id data) <;> rfl
    · rw [if_neg hfound, if_neg hfound]
      rfl

theorem SoundFrames.next {buffer : Bytes} {length : BitVec 32} (h : SoundFrames buffer)
    (hverify : verifyControlHeader buffer = .ok (.message msgType)) (hlength : headerLength buffer = .ok length) :
    SoundFrames (buffer.drop (takenBytes msgType length)) :=
  fun b t hreach hmsg => h b t (.next hverify hlength hreach) hmsg

/-- The loop over sound messages hands out their events and stays inside the buffer. -/
theorem controlLoop_sound {fuel : Nat} {buffer : Bytes} (hsound : SoundFrames buffer) (hsmall : buffer.length < 2 ^ 31)
    (hfuel : buffer.length < fuel) {numProcessed : Int} (hnum : 0 ≤ numProcessed) (s : σ) :
    ∃ (evs : List ControlEvent) (r : Int),
      controlLoop found handle fuel buffer numProcessed s = (evs.foldlM handle s >>= fun s' => .ok (s', r)) ∧
        (r = -1 ∨ 0 ≤ r ∧ r ≤ numProcessed + buffer.length) := by
  induction fuel generalizing buffer numProcessed s with
  | zero => exact absurd hfuel (Nat.not_lt_zero _)
  | succ fuel ih =>
      rw [controlLoop]
      by_cases hempty : buffer.length = 0
      · exact ⟨[], numProcessed, by rw [if_pos hempty]; rfl, .inr ⟨hnum, by omega⟩⟩
      rw [if_neg hempty]
      obtain ⟨c, hverify⟩ := verifyControlHeader_total buffer
      rw [hverify, ok_bind]
      cases c with
      | wait => exact ⟨[], numProcessed, rfl, .inr ⟨hnum, by omega⟩⟩
      | invalid => exact ⟨[], -1, rfl, .inl rfl⟩
      | message msgType =>
          obtain ⟨evs, length, hlength, hpos, hle, hone⟩ := processOneControl_sound found handle hverify
            (hsound buffer msgType (.here buffer) hverify) hsmall s
          simp only
          rw [hone]
          cases hfold : evs.foldlM handle s with
          | error f => exact ⟨evs, -1, by rw [hfold]; rfl, .inl rfl⟩
          | ok s' =>
              have hdrop : (buffer.drop (takenBytes msgType length)).length = buffer.length - takenBytes msgType length :=
                List.length_drop
              obtain ⟨evs', r, hrest, hr⟩ := ih (hsound.next hverify hlength) (by omega) (by omega)
                (show 0 ≤ numProcessed + takenBytes msgType length by omega) s'
              refine ⟨evs ++ evs', r, ?_, ?_⟩
              · simp only [ok_bind]
                rw [if_neg (by omega), if_neg (by omega), inBounds_of (by omega), ok_bind, Int.toNat_natCast, hrest,
                  List.foldlM_append, hfold]
                rfl
              · rcases hr with h | ⟨h1, h2⟩
                · exact .inl h
                · exact .inr ⟨h1, by omega⟩

end Sound

/-! ## Messages the handlers return from -/

section Returns

variable {b : Bytes} {msgType : Byte}

/-- Every connection is there. -/
def allFound {σ : Type} (_ : σ) (_ : ConnectionID) : Bool := true

/-- Every event can be handled. -/
def accept (_ : Unit) (_ : ControlEvent) : Run Unit := .ok ()

/-- No event can be handled. -/
def refuse (_ : Unit) (_ : ControlEvent) : Run Unit := .error .exit

theorem not_ok_of_error {α : Type} {f : Fault} {x : α} (h : (Except.error f : Run α) = .ok x) : False := by
  cases h

theorem processOneControl_refuse {r : Unit × Int} (hverify : verifyControlHeader b = .ok (.message msgType))
    (h : processOneControl allFound refuse msgType b () = .ok r) : False := by
  obtain ⟨-, -, htype⟩ := verified_cases hverify
  rcases htype with rfl | rfl | rfl | rfl | rfl
  · change processOpenConnection refuse b () = .ok r at h
    obtain ⟨id, -, h⟩ := bind_eq_ok.mp h
    obtain ⟨_, -, h⟩ := bind_eq_ok.mp h
    exact not_ok_of_error h
  · change processNames allFound refuse b () = .ok r at h
    obtain ⟨totLength, -, h⟩ := bind_eq_ok.mp h
    obtain ⟨numTrees, -, h⟩ := bind_eq_ok.mp h
    obtain ⟨_, -, h⟩ := bind_eq_ok.mp h
    obtain ⟨_, -, h⟩ := bind_eq_ok.mp h
    obtain ⟨_, -, h⟩ := bind_eq_ok.mp h
    obtain ⟨id, -, h⟩ := bind_eq_ok.mp h
    obtain ⟨_, -, h⟩ := bind_eq_ok.mp h
    exact not_ok_of_error h
  · change processCloseConnection allFound refuse b () = .ok r at h
    obtain ⟨id, -, h⟩ := bind_eq_ok.mp h
    obtain ⟨bytesTX, -, h⟩ := bind_eq_ok.mp h
    obtain ⟨_, -, h⟩ := bind_eq_ok.mp h
    exact not_ok_of_error h
  · change processNameAck allFound refuse b () = .ok r at h
    obtain ⟨ack, -, h⟩ := bind_eq_ok.mp h
    obtain ⟨id, -, h⟩ := bind_eq_ok.mp h
    obtain ⟨_, -, h⟩ := bind_eq_ok.mp h
    exact not_ok_of_error h
  · change processRaw allFound refuse b () = .ok r at h
    obtain ⟨id, -, h⟩ := bind_eq_ok.mp h
    obtain ⟨msgLen, -, h⟩ := bind_eq_ok.mp h
    obtain ⟨_, -, h⟩ := bind_eq_ok.mp h
    obtain ⟨totLength, -, h⟩ := bind_eq_ok.mp h
    obtain ⟨_, -, h⟩ := bind_eq_ok.mp h
    obtain ⟨_, -, h⟩ := bind_eq_ok.mp h
    obtain ⟨data, -, h⟩ := bind_eq_ok.mp h
    exact not_ok_of_error h

theorem readTree_of_processChunks {id : ConnectionID} {n offset : Nat} {r : Unit × Nat}
    (h : processChunks accept id b n offset () = .ok r) : ∃ cs, readTree b n offset = .ok (cs, r.2) := by
  induction n generalizing offset with
  | zero =>
      cases h
      exact ⟨[], rfl⟩
  | succ n ih =>
      rw [processChunks] at h
      obtain ⟨c, hread, h⟩ := bind_eq_ok.mp h
      obtain ⟨cs, hcs⟩ := ih h
      exact ⟨c.1 :: cs, by rw [readTree, hread, ok_bind, hcs]; rfl⟩

/-- A message whose header is not short is sound where its handler returns, and the handler returns what it takes. -/
theorem processOneControl_accept {r : Unit × Int} {length : BitVec 32} (hverify : verifyControlHeader b = .ok (.message msgType))
    (hlength : headerLength b = .ok length) (hsmall : b.length < 2 ^ 31)
    (h : processOneControl allFound accept msgType b () = .ok r) :
    r.2 = takenBytes msgType length ∧ (fixedSize msgType ≤ length.toNat → SoundMessage msgType b) := by
  obtain ⟨hheader, ⟨length', hlength', hle⟩, htype⟩ := verified_cases hverify
  rw [hlength] at hlength'
  cases hlength'
  have hint : length.toInt = length.toNat := BitVec.toInt_eq_toNat_of_lt (by omega)
  rcases htype with rfl | rfl | rfl | rfl | rfl
  · change processOpenConnection accept b () = .ok r at h
    obtain ⟨id, hconn, h⟩ := bind_eq_ok.mp h
    obtain ⟨_, hid, h⟩ := bind_eq_ok.mp h
    cases h
    exact ⟨rfl, fun hfixed => ⟨id, length, hconn, check_eq_ok.mp hid, hlength, hfixed, fun h => absurd h (by decide),
      fun h => absurd h (by decide)⟩⟩
  · change processNames allFound accept b () = .ok r at h
    obtain ⟨totLength, htot, h⟩ := bind_eq_ok.mp h
    rw [hlength] at htot
    cases htot
    obtain ⟨numTrees, htrees, h⟩ := bind_eq_ok.mp h
    obtain ⟨_, -, h⟩ := bind_eq_ok.mp h
    obtain ⟨_, -, h⟩ := bind_eq_ok.mp h
    obtain ⟨_, hone, h⟩ := bind_eq_ok.mp h
    obtain ⟨id, hconn, h⟩ := bind_eq_ok.mp h
    obtain ⟨_, hid, h⟩ := bind_eq_ok.mp h
    obtain ⟨_, -, h⟩ := bind_eq_ok.mp h
    obtain ⟨numNames, hnum, h⟩ := bind_eq_ok.mp h
    obtain ⟨chunks, hchunks, h⟩ := bind_eq_ok.mp h
    obtain ⟨_, -, h⟩ := bind_eq_ok.mp h
    obtain ⟨_, hend, h⟩ := bind_eq_ok.mp h
    cases h
    have htree : numTrees = 1 := BitVec.eq_of_toInt_eq (check_eq_ok.mp hone)
    obtain ⟨cs, hread⟩ := readTree_of_processChunks hchunks
    have hoffset : chunks.2 = length.toNat := by
      have := check_eq_ok.mp hend
      omega
    rw [htree] at htrees
    rw [hoffset] at hread
    exact ⟨hint, fun hfixed => ⟨id, length, hconn, check_eq_ok.mp hid, hlength, hfixed, fun h => absurd h (by decide),
      fun _ => ⟨htrees, numNames, cs, hnum, hread⟩⟩⟩
  · change processCloseConnection allFound accept b () = .ok r at h
    obtain ⟨id, hconn, h⟩ := bind_eq_ok.mp h
    obtain ⟨bytesTX, -, h⟩ := bind_eq_ok.mp h
    obtain ⟨_, hid, h⟩ := bind_eq_ok.mp h
    cases h
    exact ⟨rfl, fun hfixed => ⟨id, length, hconn, check_eq_ok.mp hid, hlength, hfixed, fun h => absurd h (by decide),
      fun h => absurd h (by decide)⟩⟩
  · change processNameAck allFound accept b () = .ok r at h
    obtain ⟨ack, -, h⟩ := bind_eq_ok.mp h
    obtain ⟨id, hconn, h⟩ := bind_eq_ok.mp h
    obtain ⟨_, hid, h⟩ := bind_eq_ok.mp h
    obtain ⟨_, -, h⟩ := bind_eq_ok.mp h
    obtain ⟨_, -, h⟩ := bind_eq_ok.mp h
    cases h
    exact ⟨rfl, fun hfixed => ⟨id, length, hconn, check_eq_ok.mp hid, hlength, hfixed, fun h => absurd h (by decide),
      fun h => absurd h (by decide)⟩⟩
  · change processRaw allFound accept b () = .ok r at h
    obtain ⟨id, hconn, h⟩ := bind_eq_ok.mp h
    obtain ⟨msgLen, hmsgLen, h⟩ := bind_eq_ok.mp h
    obtain ⟨_, hpos, h⟩ := bind_eq_ok.mp h
    obtain ⟨totLength, htot, h⟩ := bind_eq_ok.mp h
    rw [hlength] at htot
    cases htot
    obtain ⟨_, -, h⟩ := bind_eq_ok.mp h
    obtain ⟨_, hid, h⟩ := bind_eq_ok.mp h
    obtain ⟨data, hdata, h⟩ := bind_eq_ok.mp h
    cases h
    have hbound : sizeofWARawMessage + msgLen.toNat ≤ b.length := by
      by_contra hover
      rw [readAt, if_neg hover] at hdata
      cases hdata
    exact ⟨hint, fun hfixed => ⟨id, length, hconn, check_eq_ok.mp hid, hlength, hfixed,
      fun _ => ⟨msgLen, hmsgLen, check_eq_ok.mp hpos, hbound⟩, fun h => absurd h (by decide)⟩⟩

/-- A loop that returns does so from wherever it gets to. -/
theorem controlLoop_reaches {buffer : Bytes} {fuel : Nat} {numProcessed : Int} {r : Unit × Int} (hreach : Reaches buffer b)
    (hsmall : buffer.length < 2 ^ 31) (h : controlLoop allFound accept fuel buffer numProcessed () = .ok r) :
    ∃ fuel' numProcessed', controlLoop allFound accept fuel' b numProcessed' () = .ok r := by
  induction hreach generalizing fuel numProcessed with
  | here buffer => exact ⟨fuel, numProcessed, h⟩
  | @next buffer b msgType length hverify hlength hrest ih =>
      have hdrop : (buffer.drop (takenBytes msgType length)).length ≤ buffer.length := by
        rw [List.length_drop]
        exact Nat.sub_le _ _
      obtain ⟨hheader, -, -⟩ := verified_cases hverify
      have hne : buffer.length ≠ 0 := fun h0 => absurd hheader (by rw [h0]; decide)
      by_cases hzero : takenBytes msgType length = 0
      · rw [hzero, List.drop_zero] at ih
        exact ih hsmall h
      · cases fuel with
        | zero => cases h
        | succ fuel =>
            rw [controlLoop, if_neg hne, hverify, ok_bind] at h
            simp only at h
            obtain ⟨one, hone, h⟩ := bind_eq_ok.mp h
            obtain ⟨htaken, -⟩ := processOneControl_accept hverify hlength hsmall hone
            rw [htaken, if_neg (by omega), if_neg (by omega), inBounds_of (by omega), ok_bind, Int.toNat_natCast] at h
            exact ih (by omega) h

end Returns

/-- A buffer is processed as it should be exactly when every message the loop gets to in it is sound. -/
theorem control_robust_iff {buffer : Bytes} (hbuffer : buffer.length ≤ recvBufsize) :
    RobustFraming buffer ↔ SoundFrames buffer := by
  have hsmall : buffer.length < 2 ^ 31 := lt_of_le_of_lt hbuffer (by decide)
  constructor
  · rintro ⟨hreturns, hshort⟩ b msgType hreach hverify
    obtain ⟨hheader, ⟨length, hlength, hle⟩, -⟩ := verified_cases hverify
    have hne : b.length ≠ 0 := fun h0 => absurd hheader (by rw [h0]; decide)
    by_cases hfixed : fixedSize msgType ≤ length.toNat
    · obtain ⟨evs, r, hrun, -⟩ := hreturns Unit allFound accept ()
      have hfold : evs.foldlM accept () = .ok () := by
        clear hrun
        induction evs with
        | nil => rfl
        | cons e evs ih => exact ih
      rw [hfold] at hrun
      obtain ⟨fuel, numProcessed, hb⟩ := controlLoop_reaches hreach hsmall hrun
      cases fuel with
      | zero => cases hb
      | succ fuel =>
          rw [controlLoop, if_neg hne, hverify, ok_bind] at hb
          simp only at hb
          obtain ⟨one, hone, -⟩ := bind_eq_ok.mp hb
          exact (processOneControl_accept hverify hlength (lt_of_le_of_lt hreach.length_le hsmall) hone).2 hfixed
    · have hrefuse := hshort b hreach ⟨msgType, length, hverify, hlength, Nat.lt_of_not_le hfixed⟩ Unit allFound refuse ()
      unfold processControlData at hrefuse
      rw [controlLoop, if_neg hne, hverify, ok_bind] at hrefuse
      simp only at hrefuse
      obtain ⟨one, hone, -⟩ := bind_eq_ok.mp hrefuse
      exact (processOneControl_refuse hverify hone).elim
  · intro hsound
    constructor
    · intro σ found handle s
      obtain ⟨evs, r, hrun, hr⟩ := controlLoop_sound found handle hsound hsmall (Nat.lt_succ_self _) (le_refl 0) s
      rw [zero_add] at hr
      exact ⟨evs, r, hrun, hr⟩
    · rintro b hreach ⟨msgType, length, hverify, hlength, hlt⟩
      obtain ⟨-, length', -, -, hlength', hfixed, -⟩ := hsound b msgType hreach hverify
      rw [hlength] at hlength'
      cases hlength'
      exact absurd hfixed (Nat.not_le_of_lt hlt)

theorem control_robust_iff_sample : RobustFraming (ControlMessage.bytes (.openConnection sampleConn)) := by
  refine (control_robust_iff (by decide)).mpr ?_
  have hverify : verifyControlHeader (ControlMessage.bytes (.openConnection sampleConn)) = .ok (.message typeWAOpenConnection) := by
    decide
  intro b msgType hreach hmsg
  cases hreach with
  | here =>
      rw [hverify] at hmsg
      cases hmsg
      exact ⟨sampleConn, 19, by decide, by decide, by decide, by decide, fun h => absurd h (by decide), fun h => absurd h (by decide)⟩
  | next hfirst hlength hrest =>
      rw [hverify] at hfirst
      cases hfirst
      cases hrest with
      | here => cases hmsg
      | next hsecond _ _ => cases hsecond

/-- The header of an open message that says it is 18 bytes long, and no more. -/
def openHeader : Bytes := [magicWAHeader, typeWAOpenConnection] ++ (htonl 18 ++ sampleConn.bytes)

/-- Of the 18 bytes of `openHeader` 19 are taken. -/
theorem openHeader_overtaken : openHeader.length = 18 ∧
    processControlData allFound accept openHeader () = .ok ((), 19) ∧ ¬ RobustFraming openHeader := by
  have hrun : processControlData allFound accept openHeader () = .ok ((), 19) := by decide
  refine ⟨rfl, hrun, ?_⟩
  rintro ⟨-, hshort⟩
  have hreject := hshort openHeader (.here _) ⟨typeWAOpenConnection, 18, by decide, by decide, by decide⟩ Unit allFound accept ()
  rw [hrun] at hreject
  cases hreject

end BeagleCache
