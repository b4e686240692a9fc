import BeagleCache.Framing
import BeagleCache.ControlChannel

/-! Framing of the control flow. Whatever the cuts between two reads are, `ProcessControlData` hands out the messages of
the stream in order, and `bufRead` keeps the part of the next one. -/

namespace BeagleCache

open Framing Run

/-- A message of the control flow, with the fields it carries. -/
inductive ControlMessage
  | openConnection (id : ConnectionID)
  | nameDelivery (id : ConnectionID) (chunks : List WireChunk)
  | nameAck (id : ConnectionID) (ack : BitVec 32)
  | closeConnection (id : ConnectionID) (bytesTX : BitVec 32)
  | rawMessage (id : ConnectionID) (data : Bytes)

/-- The chunk that `BuildWANameTreeDelivery3` writes for a candidate. -/
def OneCandidate.wire (psrc : Bytes) (pNames : NameTable) (c : OneCandidate) : WireChunk where
  sha1name := (pNames c.index).sha1name
  length := BitVec.ofNat 32 c.length
  content := if c.isHit = false ∨ c.length ≤ waproxMinChunkSize then some (c.slice psrc) else none

namespace ControlMessage

def id : ControlMessage → ConnectionID
  | openConnection id => id
  | nameDelivery id _ => id
  | nameAck id _ => id
  | closeConnection id _ => id
  | rawMessage id _ => id

def type : ControlMessage → Byte
  | openConnection .. => typeWAOpenConnection
  | nameDelivery .. => typeWANameDelivery
  | nameAck .. => typeWANameAck
  | closeConnection .. => typeWACloseConnection
  | rawMessage .. => typeWARawMessage

/-- The bytes behind the header. -/
def body : ControlMessage → Bytes
  | openConnection _ => [magicWAOpenConnection]
  | nameDelivery _ cs =>
      [magicWANameDelivery] ++ (htonl 1 ++ ([1] ++ (htonl (BitVec.ofNat 32 cs.length) ++ cs.flatMap WireChunk.bytes)))
  | nameAck _ ack => [magicWANameAck] ++ htonl ack
  | closeConnection _ bytesTX => [magicWACloseConnection] ++ htonl bytesTX
  | rawMessage _ data => [magicWARawMessage] ++ (htonl (BitVec.ofNat 32 data.length) ++ data)

def header (m : ControlMessage) : Bytes :=
  [magicWAHeader, m.type] ++ (htonl (BitVec.ofNat 32 (sizeofWAControlHeader + m.body.length)) ++ m.id.bytes)

def bytes (m : ControlMessage) : Bytes := m.header ++ m.body

/-- The message `m` as its builder puts it into `buffer`. -/
inductive BuiltAs (cfg : Config) (sha1 : Bytes → Sha1Name) : ControlMessage → Bytes → Prop
  | openConnection {id : ConnectionID} {buffer : Bytes} : buildWAOpenConnection id = .ok buffer →
      BuiltAs cfg sha1 (openConnection id) buffer
  | nameDelivery {id : ConnectionID} {buffer psrc : Bytes} {pNames : NameTable} {cands : List OneCandidate} {newmsgLen : Nat} :
      buildWANameTreeDelivery3 cfg sha1 id psrc pNames cands cands.length newmsgLen = .ok buffer →
      BuiltAs cfg sha1 (nameDelivery id (cands.map (OneCandidate.wire psrc pNames))) buffer
  | nameAck {id : ConnectionID} {ack : BitVec 32} {buffer : Bytes} : buildWANameAck id ack = .ok buffer →
      BuiltAs cfg sha1 (nameAck id ack) buffer
  | closeConnection {id : ConnectionID} {bytesTX : BitVec 32} {buffer : Bytes} : buildWACloseConnection id bytesTX = .ok buffer →
      BuiltAs cfg sha1 (closeConnection id bytesTX) buffer
  | rawMessage {id : ConnectionID} {data buffer : Bytes} : buildWARawMessage id data = .ok buffer →
      BuiltAs cfg sha1 (rawMessage id data) buffer

/-- The contents a message carries have the lengths it says. -/
def Exact : ControlMessage → Prop
  | nameDelivery _ cs => ∀ c ∈ cs, ∀ content, c.content = some content → content.length = c.length.toNat
  | rawMessage _ data => 0 < data.length
  | _ => True

end ControlMessage

/-! ## What the builders write -/

section Build

variable {cfg : Config} {sha1 : Bytes → Sha1Name} {m : ControlMessage} {buffer : Bytes}

theorem ControlMessage.header_length (m : ControlMessage) : m.header.length = sizeofWAControlHeader := rfl

theorem ControlMessage.bytes_length (m : ControlMessage) : m.bytes.length = sizeofWAControlHeader + m.body.length := by
  rw [ControlMessage.bytes, List.length_append, m.header_length]

theorem fillControlHeader_ok {id : ConnectionID} {type : Byte} {length : Nat} {hdr : Bytes}
    (h : fillControlHeader id type length = .ok hdr) :
    id.Known ∧ hdr = [magicWAHeader, type] ++ (htonl (BitVec.ofNat 32 length) ++ id.bytes) := by
  unfold fillControlHeader at h
  obtain ⟨_, hid, hret⟩ := bind_eq_ok.mp h
  cases hret
  exact ⟨check_eq_ok.mp hid, rfl⟩

theorem putChunks_ok {psrc : Bytes} {pNames : NameTable} {alloc actualLen offset : Nat} {cands : List OneCandidate} {bytes : Bytes}
    (h : putChunks cfg sha1 psrc pNames alloc actualLen offset cands = .ok bytes) :
    bytes = (cands.map (OneCandidate.wire psrc pNames)).flatMap WireChunk.bytes ∧
      ∀ c ∈ cands, ∀ content, (c.wire psrc pNames).content = some content → content.length = c.length ∧ c.length ≤ bytes.length := by
  induction cands generalizing actualLen offset bytes with
  | nil =>
      cases h
      exact ⟨rfl, by simp⟩
  | cons walk rest ih =>
      rw [putChunks] at h
      obtain ⟨_, hoff, h⟩ := bind_eq_ok.mp h
      obtain rfl := check_eq_ok.mp hoff
      obtain ⟨_, -, h⟩ := bind_eq_ok.mp h
      simp only at h
      by_cases hput : walk.isHit = false ∨ walk.length ≤ waproxMinChunkSize
      · rw [if_pos hput] at h
        obtain ⟨content, hread, h⟩ := bind_eq_ok.mp h
        obtain ⟨_, -, h⟩ := bind_eq_ok.mp h
        obtain ⟨_, -, h⟩ := bind_eq_ok.mp h
        obtain ⟨tail, htail, hret⟩ := bind_eq_ok.mp h
        cases hret
        obtain ⟨hbytes, hall⟩ := ih htail
        have hslice : content = walk.slice psrc := by
          unfold readAt at hread
          split at hread
          · cases hread
            rfl
          · cases hread
        have hlen := readAt_length hread
        constructor
        · rw [List.map_cons, List.flatMap_cons, ← hbytes, WireChunk.bytes, OneCandidate.wire, if_pos hput, hslice]
          simp only [List.append_assoc]
        · intro c hc x hx
          have hlonger : tail.length ≤ ((pNames walk.index).sha1name.bytes ++
              (htonl (BitVec.ofNat 32 walk.length) ++ ([1] ++ (content ++ tail)))).length := by
            simp only [List.length_append]
            omega
          rcases List.mem_cons.mp hc with rfl | hmem
          · rw [OneCandidate.wire, if_pos hput] at hx
            cases hx
            rw [← hslice]
            refine ⟨hlen, ?_⟩
            simp only [List.length_append]
            omega
          · obtain ⟨h1, h2⟩ := hall c hmem x hx
            exact ⟨h1, h2.trans hlonger⟩
      · rw [if_neg hput] at h
        obtain ⟨tail, htail, hret⟩ := bind_eq_ok.mp h
        cases hret
        obtain ⟨hbytes, hall⟩ := ih htail
        constructor
        · rw [List.map_cons, List.flatMap_cons, ← hbytes, WireChunk.bytes, OneCandidate.wire, if_neg hput]
          simp only [List.append_assoc]
        · intro c hc x hx
          rcases List.mem_cons.mp hc with rfl | hmem
          · rw [OneCandidate.wire, if_neg hput] at hx
            cases hx
          · obtain ⟨h1, h2⟩ := hall c hmem x hx
            refine ⟨h1, h2.trans ?_⟩
            simp only [List.length_append]
            omega

theorem builtAs_bytes (h : m.BuiltAs cfg sha1 buffer) (hsmall : buffer.length < 2 ^ 31) :
    buffer = m.bytes ∧ m.id.Known ∧ m.Exact := by
  cases h with
  | openConnection h =>
      obtain ⟨hdr, hfill, hret⟩ := bind_eq_ok.mp h
      cases hret
      obtain ⟨hid, rfl⟩ := fillControlHeader_ok hfill
      exact ⟨rfl, hid, trivial⟩
  | nameAck h =>
      obtain ⟨hdr, hfill, hret⟩ := bind_eq_ok.mp h
      cases hret
      obtain ⟨hid, rfl⟩ := fillControlHeader_ok hfill
      exact ⟨rfl, hid, trivial⟩
  | closeConnection h =>
      obtain ⟨hdr, hfill, hret⟩ := bind_eq_ok.mp h
      cases hret
      obtain ⟨hid, rfl⟩ := fillControlHeader_ok hfill
      exact ⟨rfl, hid, trivial⟩
  | @rawMessage id data _ h =>
      obtain ⟨_, hpos, h⟩ := bind_eq_ok.mp h
      obtain ⟨hdr, hfill, hret⟩ := bind_eq_ok.mp h
      cases hret
      obtain ⟨hid, rfl⟩ := fillControlHeader_ok hfill
      have hdata : 0 < data.length := check_eq_ok.mp hpos
      refine ⟨?_, hid, hdata⟩
      have hlen : sizeofWAControlHeader + (ControlMessage.rawMessage id data).body.length = sizeofWARawMessage + data.length := by
        simp only [ControlMessage.body, List.length_append, htonl_length, List.length_cons, List.length_nil, sizeofWAControlHeader,
          sizeofWARawMessage]
        omega
      rw [ControlMessage.bytes, ControlMessage.header, hlen]
      rfl
  | @nameDelivery id _ psrc pNames cands newmsgLen h =>
      obtain ⟨chunks, hput, h⟩ := bind_eq_ok.mp h
      obtain ⟨hdr, hfill, hret⟩ := bind_eq_ok.mp h
      cases hret
      obtain ⟨hid, rfl⟩ := fillControlHeader_ok hfill
      obtain ⟨hchunks, hcontent⟩ := putChunks_ok hput
      have hlen : sizeofWAControlHeader + (ControlMessage.nameDelivery id (cands.map (OneCandidate.wire psrc pNames))).body.length =
          sizeofWANameDelivery + sizeofWAOneTree + chunks.length := by
        rw [ControlMessage.body, ← hchunks]
        simp only [List.length_append, htonl_length, List.length_cons, List.length_nil, sizeofWAControlHeader,
          sizeofWANameDelivery, sizeofWAOneTree]
        omega
      refine ⟨?_, hid, ?_⟩
      · rw [ControlMessage.bytes, ControlMessage.header, hlen, ControlMessage.body, ← hchunks, List.length_map]
        rfl
      · intro c hc content hsome
        obtain ⟨cand, hcand, rfl⟩ := List.mem_map.mp hc
        obtain ⟨h1, h2⟩ := hcontent cand hcand content hsome
        simp only [List.length_append] at hsmall
        rw [h1]
        exact (toNat_ofNat_of_lt (by omega)).symm

end Build

/-! ## What the handlers read -/

section Read

variable {m : ControlMessage}

theorem ControlMessage.header_fill (hid : m.id.Known) :
    fillControlHeader m.id m.type (sizeofWAControlHeader + m.body.length) = .ok m.header :=
  fillControlHeader_eq hid m.type _

theorem headerLength_bytes (hid : m.id.Known) (rest : Bytes) :
    headerLength (m.bytes ++ rest) = .ok (BitVec.ofNat 32 m.bytes.length) := by
  rw [m.bytes_length, ControlMessage.bytes, List.append_assoc]
  exact headerLength_eq (m.header_fill hid) _

theorem headerConnID_bytes (hid : m.id.Known) (rest : Bytes) : headerConnID (m.bytes ++ rest) = .ok m.id := by
  rw [ControlMessage.bytes, List.append_assoc]
  exact headerConnID_eq (m.header_fill hid) _

theorem readU32_body {magic : Byte} (tail : Bytes) (hbody : m.body = [magic] ++ tail) (rest : Bytes) {off k : Nat}
    (hoff : off = sizeofWAControlHeader + 1 + k) : readU32 (m.bytes ++ rest) off = readU32 (tail ++ rest) k := by
  have hsplit : m.bytes ++ rest = (m.header ++ [magic]) ++ (tail ++ rest) := by
    rw [ControlMessage.bytes, hbody]
    simp only [List.append_assoc]
  rw [hsplit]
  exact readU32_skip _ _ hoff

theorem readU32_first {magic : Byte} {x : BitVec 32} {tail : Bytes} (hbody : m.body = [magic] ++ (htonl x ++ tail)) (rest : Bytes) :
    readU32 (m.bytes ++ rest) (sizeofWAControlHeader + 1) = .ok x := by
  rw [readU32_body (htonl x ++ tail) hbody rest (Nat.add_zero _).symm, List.append_assoc, readU32_head]

theorem magic_bytes (m : ControlMessage) (rest : Bytes) : readAt (m.bytes ++ rest) 0 1 = .ok [magicWAHeader] := by
  rw [ControlMessage.bytes, ControlMessage.header, List.append_assoc, List.append_assoc]
  exact readAt_head [magicWAHeader] _ rfl

theorem verifyControlHeader_bytes (hid : m.id.Known) (rest : Bytes) (hsmall : (m.bytes ++ rest).length < 2 ^ 31) :
    verifyControlHeader (m.bytes ++ rest) = .ok (.message m.type) := by
  have hlen := m.bytes_length
  have hle : m.bytes.length ≤ (m.bytes ++ rest).length := by
    rw [List.length_append]
    omega
  have hnat := toNat_ofNat_of_lt (show m.bytes.length < 2 ^ 31 by omega)
  have htype : readAt (m.bytes ++ rest) 1 1 = .ok [m.type] := by
    rw [ControlMessage.bytes, ControlMessage.header, List.append_assoc, List.append_assoc]
    exact (readAt_skip [magicWAHeader] _ (show 1 = [magicWAHeader].length + 0 from rfl)).trans (readAt_head [m.type] _ rfl)
  unfold verifyControlHeader
  rw [if_neg (by omega), magic_bytes, ok_bind, if_neg (by simp), headerLength_bytes hid, ok_bind, if_neg (by omega), htype,
    ok_bind, if_pos]
  · rfl
  · cases m <;> simp [ControlMessage.type]

theorem readAt_of_prefix {left buffer : Bytes} {off n : Nat} (hleft : left <+: buffer) (hn : off + n ≤ left.length) :
    readAt left off n = readAt buffer off n := by
  obtain ⟨tail, rfl⟩ := hleft
  unfold readAt
  rw [if_pos hn, if_pos (by rw [List.length_append]; omega), List.drop_append_of_le_length (by omega),
    List.take_append_of_le_length (by rw [List.length_drop]; omega)]

theorem verifyControlHeader_part (hid : m.id.Known) {left : Bytes} (hleft : left <+: m.bytes) (hlt : left.length < m.bytes.length)
    (hsmall : m.bytes.length < 2 ^ 31) : verifyControlHeader left = .ok .wait := by
  unfold verifyControlHeader
  by_cases hshort : left.length < sizeofWAControlHeader
  · rw [if_pos hshort]
  · have hheader : 18 ≤ left.length := Nat.le_of_not_lt hshort
    have hmagic := magic_bytes m []
    have hlength := headerLength_bytes hid []
    rw [List.append_nil] at hmagic hlength
    rw [headerLength, readU32, ← readAt_of_prefix hleft (by omega)] at hlength
    rw [if_neg hshort, readAt_of_prefix hleft (by omega), hmagic, ok_bind, if_neg (by simp), headerLength, readU32, hlength,
      ok_bind, if_pos (by rw [toNat_ofNat_of_lt hsmall]; exact hlt)]
    rfl

end Read

section Dispatch

variable {σ : Type} (found : σ → ConnectionID → Bool) (handle : σ → ControlEvent → Run σ)

/-- What a message asks of the proxy. A message other than the first one of its connection is dropped when the
connection is not there. -/
def dispatch (s : σ) : ControlMessage → Run σ
  | .openConnection id => handle s (.openConnection id)
  | .nameDelivery id cs =>
      if found s id then do
        let s ← handle s (.newTree id)
        let s ← cs.foldlM (fun s c => handle s (.chunk id c)) s
        handle s (.endTree id)
      else .ok s
  | .nameAck id ack => if found s id then handle s (.nameAck id ack) else .ok s
  | .closeConnection id bytesTX => if found s id then handle s (.closeConnection id bytesTX) else .ok s
  | .rawMessage id data => if found s id then handle s (.rawMessage id data) else .ok s

theorem length_le_flatMap (cs : List WireChunk) : cs.length ≤ (cs.flatMap WireChunk.bytes).length := by
  induction cs with
  | nil => exact Nat.zero_le _
  | cons c rest ih =>
      have hname := c.sha1name.length_eq
      rw [List.flatMap_cons, List.length_append, List.length_cons, WireChunk.bytes, List.length_append]
      omega

theorem processChunks_eq (id : ConnectionID) {buffer : Bytes} {n offset e : Nat} {cs : List WireChunk} (s : σ)
    (hread : readTree buffer n offset = .ok (cs, e)) :
    processChunks handle id buffer n offset s =
      (cs.foldlM (fun s c => handle s (.chunk id c)) s >>= fun s' => .ok (s', e)) := by
  induction n generalizing offset cs s with
  | zero =>
      cases hread
      rfl
  | succ n ih =>
      rw [readTree] at hread
      obtain ⟨c, hone, hread⟩ := bind_eq_ok.mp hread
      obtain ⟨r, hrest, hret⟩ := bind_eq_ok.mp hread
      cases hret
      rw [processChunks, hone, ok_bind, List.foldlM_cons]
      cases handle s (.chunk id c.1) with
      | error f => rfl
      | ok s' => exact ih s' hrest

/-- A message in front of the buffer is dispatched, and its bytes are taken. -/
theorem processOneControl_eq {m : ControlMessage} (hid : m.id.Known) (hexact : m.Exact) (rest : Bytes) (s : σ)
    (hsmall : (m.bytes ++ rest).length < 2 ^ 31) :
    processOneControl found handle m.type (m.bytes ++ rest) s =
      (dispatch found handle s m >>= fun s' => .ok (s', (m.bytes.length : Int))) := by
  have htotal : (m.bytes ++ rest).length = m.bytes.length + rest.length := List.length_append
  have hlength := headerLength_bytes hid rest
  have hconn := headerConnID_bytes hid rest
  have hint := toInt_ofNat_of_lt (show m.bytes.length < 2 ^ 31 by omega)
  have hlen := m.bytes_length
  cases m with
  | openConnection id =>
      show processOpenConnection handle _ s = _
      unfold processOpenConnection
      rw [hconn, ok_bind, check_of hid, ok_bind, hlen]
      rfl
  | nameAck id ack =>
      change headerConnID _ = .ok id at hconn
      change id.Known at hid
      have hack := readU32_first (m := .nameAck id ack) (show _ = [magicWANameAck] ++ (htonl ack ++ []) from rfl) rest
      show processNameAck found handle _ s = _
      unfold processNameAck
      rw [hack, ok_bind, hconn, ok_bind, check_of hid, ok_bind,
        check_of (by rw [htotal, hlen]; exact Nat.le_add_right _ _), hlen]
      by_cases hfound : found s id = true
      · rw [if_pos hfound, dispatch, if_pos hfound]
        rfl
      · rw [if_neg hfound, dispatch, if_neg hfound]
        rfl
  | closeConnection id bytesTX =>
      change headerConnID _ = .ok id at hconn
      change id.Known at hid
      have hbytes := readU32_first (m := .closeConnection id bytesTX)
        (show _ = [magicWACloseConnection] ++ (htonl bytesTX ++ []) from rfl) rest
      show processCloseConnection found handle _ s = _
      unfold processCloseConnection
      rw [hconn, ok_bind, hbytes, ok_bind, check_of hid, ok_bind, hlen]
      by_cases hfound : found s id = true
      · rw [if_pos hfound, dispatch, if_pos hfound]
        rfl
      · rw [if_neg hfound, dispatch, if_neg hfound]
        rfl
  | rawMessage id data =>
      change headerConnID _ = .ok id at hconn
      change id.Known at hid
      have hbody : (ControlMessage.rawMessage id data).body.length = 5 + data.length := by
        simp only [ControlMessage.body, List.length_append, htonl_length, List.length_cons, List.length_nil]
        omega
      have hpos : 0 < data.length := hexact
      have hdata : readAt ((ControlMessage.rawMessage id data).bytes ++ rest) sizeofWARawMessage data.length = .ok data := by
        have hsplit : (ControlMessage.rawMessage id data).bytes ++ rest = ((ControlMessage.rawMessage id data).header ++
            ([magicWARawMessage] ++ htonl (BitVec.ofNat 32 data.length))) ++ data ++ rest := by
          rw [ControlMessage.bytes, ControlMessage.body]
          simp only [List.append_assoc]
        exact readAt_of_eq hsplit rfl rfl
      have hmsgLen := readU32_first (m := .rawMessage id data)
        (show _ = [magicWARawMessage] ++ (htonl (BitVec.ofNat 32 data.length) ++ data) from rfl) rest
      show processRaw found handle _ s = _
      unfold processRaw
      rw [hconn, ok_bind, hmsgLen, ok_bind, toInt_ofNat_of_lt (by omega), check_of (by omega), ok_bind, hlength, ok_bind, hint,
        check_of (by omega), ok_bind, check_of hid, ok_bind, toNat_ofNat_of_lt (by omega), hdata]
      by_cases hfound : found s id = true
      · rw [if_pos hfound, dispatch, if_pos hfound]
        rfl
      · rw [if_neg hfound, dispatch, if_neg hfound]
        rfl
  | nameDelivery id cs =>
      change headerConnID _ = .ok id at hconn
      change id.Known at hid
      have hbody : (ControlMessage.nameDelivery id cs).body.length = 10 + (cs.flatMap WireChunk.bytes).length := by
        simp only [ControlMessage.body, List.length_append, htonl_length, List.length_cons, List.length_nil]
        omega
      have hcount := length_le_flatMap cs
      have hsplit : (ControlMessage.nameDelivery id cs).bytes ++ rest = ((ControlMessage.nameDelivery id cs).header ++
          ([magicWANameDelivery] ++ (htonl 1 ++ ([1] ++ htonl (BitVec.ofNat 32 cs.length))))) ++
            (cs.flatMap WireChunk.bytes ++ rest) := by
        rw [ControlMessage.bytes, ControlMessage.body]
        simp only [List.append_assoc]
      have hread : readTree ((ControlMessage.nameDelivery id cs).bytes ++ rest) cs.length (sizeofWANameDelivery + sizeofWAOneTree) =
          .ok (cs, (ControlMessage.nameDelivery id cs).bytes.length) := by
        have htree := readTree_eq cs ((ControlMessage.nameDelivery id cs).header ++
          ([magicWANameDelivery] ++ (htonl 1 ++ ([1] ++ htonl (BitVec.ofNat 32 cs.length))))) rest hexact
        rw [hsplit, hlen, hbody, ← Nat.add_assoc]
        exact htree
      have htrees := readU32_first (m := .nameDelivery id cs) (show _ = [magicWANameDelivery] ++
        (htonl 1 ++ ([1] ++ (htonl (BitVec.ofNat 32 cs.length) ++ cs.flatMap WireChunk.bytes))) from rfl) rest
      have hnames : readU32 ((ControlMessage.nameDelivery id cs).bytes ++ rest) (sizeofWANameDelivery + 1) =
          .ok (BitVec.ofNat 32 cs.length) := by
        rw [readU32_body (m := .nameDelivery id cs) _ rfl rest (show sizeofWANameDelivery + 1 = sizeofWAControlHeader + 1 + 5 from rfl),
          List.append_assoc, readU32_skip (htonl 1) _ (show 5 = (htonl 1).length + 1 from rfl), List.append_assoc,
          readU32_skip [1] _ (show 1 = [(1 : Byte)].length + 0 from rfl), List.append_assoc, readU32_head]
      show processNames found handle _ s = _
      unfold processNames
      rw [hlength, ok_bind, htrees, ok_bind, hint, check_of (by omega), ok_bind, check_of (by decide), ok_bind,
        check_of (by decide), ok_bind, hconn, ok_bind, check_of hid, ok_bind, hnames]
      simp only [ok_bind]
      by_cases hfound : found s id = true
      · rw [if_pos hfound, dispatch, if_pos hfound]
        cases handle s (.newTree id) with
        | error f => rfl
        | ok s₁ =>
            simp only [ok_bind]
            rw [toInt_ofNat_of_lt (by omega), Int.toNat_natCast, processChunks_eq handle id s₁ hread]
            cases cs.foldlM (fun s c => handle s (.chunk id c)) s₁ with
            | error f => rfl
            | ok s₂ =>
                simp only [ok_bind]
                cases handle s₂ (.endTree id) with
                | error f => rfl
                | ok s₃ =>
                    simp only [ok_bind]
                    rw [check_of trivial]
                    rfl
      · rw [if_neg hfound, dispatch, if_neg hfound]
        rfl

/-- The loop on complete messages and a part of the next one. -/
theorem controlLoop_eq {msgs : List ControlMessage} {left : Bytes} (hmsgs : ∀ m ∈ msgs, m.id.Known ∧ m.Exact)
    (hleft : left ≠ [] → verifyControlHeader left = .ok .wait) {fuel : Nat} (numProcessed : Int) (s : σ)
    (hsmall : (msgs.flatMap ControlMessage.bytes ++ left).length < 2 ^ 31)
    (hfuel : (msgs.flatMap ControlMessage.bytes ++ left).length < fuel) :
    controlLoop found handle fuel (msgs.flatMap ControlMessage.bytes ++ left) numProcessed s =
      (msgs.foldlM (dispatch found handle) s >>= fun s' =>
        .ok (s', numProcessed + (msgs.flatMap ControlMessage.bytes).length)) := by
  induction msgs generalizing fuel numProcessed s with
  | nil =>
      obtain ⟨fuel, rfl⟩ := Nat.exists_eq_add_one.mpr hfuel.pos
      have hfold : ([].foldlM (dispatch found handle) s >>= fun s' =>
          Except.ok (s', numProcessed + (([] : List ControlMessage).flatMap ControlMessage.bytes).length)) =
            (.ok (s, numProcessed) : Run (σ × Int)) := by
        simp
      rw [hfold, List.flatMap_nil, List.nil_append, controlLoop]
      by_cases hnil : left = []
      · rw [if_pos (by rw [hnil]; rfl)]
      · rw [if_neg (by rw [List.length_eq_zero_iff]; exact hnil), hleft hnil]
        rfl
  | cons m rest ih =>
      obtain ⟨fuel, rfl⟩ := Nat.exists_eq_add_one.mpr hfuel.pos
      obtain ⟨hid, hexact⟩ := hmsgs m (by simp)
      have hlen := m.bytes_length
      have hpos : 0 < m.bytes.length := by
        rw [hlen]
        exact Nat.add_pos_left (by decide) _
      rw [List.flatMap_cons, List.append_assoc] at hsmall hfuel ⊢
      have htotal : (m.bytes ++ (rest.flatMap ControlMessage.bytes ++ left)).length =
          m.bytes.length + (rest.flatMap ControlMessage.bytes ++ left).length := List.length_append
      rw [controlLoop, if_neg (by omega), verifyControlHeader_bytes hid _ hsmall, ok_bind]
      simp only
      rw [processOneControl_eq found handle hid hexact _ s hsmall, List.foldlM_cons]
      cases dispatch found handle s m with
      | error f => rfl
      | ok s' =>
          simp only [ok_bind]
          rw [if_neg (by omega), if_neg (by omega), inBounds_of (by omega), ok_bind, Int.toNat_natCast, List.drop_left,
            ih (fun x hx => hmsgs x (List.mem_cons_of_mem m hx)) _ s' (by omega) (by omega)]
          simp only [List.length_append, Nat.cast_add, add_assoc]

/-- `ProcessReadBuffer` dispatches the complete messages and keeps the rest. -/
theorem processReadBuffer_eq {msgs : List ControlMessage} {left : Bytes} (hmsgs : ∀ m ∈ msgs, m.id.Known ∧ m.Exact)
    (hleft : left ≠ [] → verifyControlHeader left = .ok .wait) (s : σ)
    (hsmall : (msgs.flatMap ControlMessage.bytes ++ left).length < 2 ^ 31) :
    processReadBuffer found handle (msgs.flatMap ControlMessage.bytes ++ left) s =
      (msgs.foldlM (dispatch found handle) s >>= fun s' => .ok (s', some left)) := by
  unfold processReadBuffer processControlData
  rw [controlLoop_eq found handle hmsgs hleft 0 s hsmall (Nat.lt_succ_self _)]
  cases msgs.foldlM (dispatch found handle) s with
  | error f => rfl
  | ok s' =>
      simp only [ok_bind, zero_add]
      rw [if_neg (by omega)]
      by_cases hzero : (msgs.flatMap ControlMessage.bytes).length = 0
      · rw [if_pos (by omega), List.length_eq_zero_iff.mp hzero, List.nil_append]
        rfl
      · rw [if_neg (by omega), check_of (by omega), ok_bind, check_of (by rw [List.length_append]; omega), ok_bind,
          Int.toNat_natCast, List.drop_left]
        rfl

end Dispatch

/-! ## Streams -/

section Stream

variable {cfg : Config} {sha1 : Bytes → Sha1Name} {σ : Type} (found : σ → ConnectionID → Bool) (handle : σ → ControlEvent → Run σ)

theorem flatMap_bytes_eq {msgs : List (ControlMessage × Bytes)} (hbuilt : ∀ m ∈ msgs, m.1.BuiltAs cfg sha1 m.2)
    (hfits : ∀ m ∈ msgs, m.2.length ≤ recvBufsize) :
    (msgs.map Prod.fst).flatMap ControlMessage.bytes = (msgs.map Prod.snd).flatten := by
  rw [List.flatMap_def, List.map_map]
  congr 1
  apply List.map_congr_left
  intro m hm
  have hsmall := hfits m hm
  exact (builtAs_bytes (hbuilt m hm) (lt_of_le_of_lt hsmall (by decide))).1.symm

theorem verifyControlHeader_incomplete {rest : List (ControlMessage × Bytes)} (hbuilt : ∀ m ∈ rest, m.1.BuiltAs cfg sha1 m.2)
    (hfits : ∀ m ∈ rest, m.2.length ≤ recvBufsize) {left : Bytes} (hleft : Incomplete left (rest.map Prod.snd)) (hne : left ≠ []) :
    verifyControlHeader left = .ok .wait := by
  cases rest with
  | nil => exact absurd hleft hne
  | cons m rest =>
      have hsmall : m.2.length < 2 ^ 31 := lt_of_le_of_lt (hfits m (by simp)) (by decide)
      obtain ⟨hbytes, hid, -⟩ := builtAs_bytes (hbuilt m (by simp)) hsmall
      rw [hbytes] at hsmall
      rw [List.map_cons, hbytes] at hleft
      exact verifyControlHeader_part hid hleft.1 hleft.2 hsmall

/-- How many bytes of the stream have been read after the reads, of which `k` were there before: each brings what the kernel has, or
what there is room for behind the part of a message in `bufRead`, or what is left of the stream. -/
def arrived (msgs : List Bytes) : List Nat → Nat → Nat
  | [], k => k
  | n :: reads, k => arrived msgs reads (min (k + min n (recvBufsize - pending msgs k)) msgs.flatten.length)

theorem arrived_append (done rest : List Bytes) (reads : List Nat) (k : Nat) :
    arrived (done ++ rest) reads (done.flatten.length + k) = done.flatten.length + arrived rest reads k := by
  induction reads generalizing k with
  | nil => rfl
  | cons n reads ih =>
      rw [arrived, arrived, pending_append, ← ih]
      congr 1
      rw [List.flatten_append, List.length_append]
      omega

theorem le_arrived {msgs : List Bytes} (hfits : ∀ m ∈ msgs, m.length ≤ recvBufsize) {reads : List Nat} (hpos : ∀ n ∈ reads, 0 < n)
    (k : Nat) : min (k + reads.length) msgs.flatten.length ≤ arrived msgs reads k := by
  induction reads generalizing k with
  | nil => exact min_le_left _ _
  | cons n reads ih =>
      have hn := hpos n List.mem_cons_self
      have hroom := pending_lt (by decide) hfits k
      refine le_trans ?_ (ih (fun n hn => hpos n (List.mem_cons_of_mem _ hn)) _)
      rw [List.length_cons]
      omega

theorem readControl_eq {rest : List (ControlMessage × Bytes)} (hbuilt : ∀ m ∈ rest, m.1.BuiltAs cfg sha1 m.2)
    (hfits : ∀ m ∈ rest, m.2.length ≤ recvBufsize) {left stream : Bytes} (hleft : Incomplete left (rest.map Prod.snd))
    (hstream : left ++ stream = (rest.map Prod.snd).flatten) (n : Nat) :
    ∃ done rest' left', rest = done ++ rest' ∧ Incomplete left' (rest'.map Prod.snd) ∧
      (done.map Prod.snd).flatten ++ left' = left ++ stream.take (min n (recvBufsize - left.length)) ∧
      ∀ s, readControl found handle n left stream s =
        ((done.map Prod.fst).foldlM (dispatch found handle) s >>= fun s' =>
          .ok (s', some left', stream.drop (min n (recvBufsize - left.length)))) := by
  have hroom : left.length < recvBufsize := by
    apply hleft.length_lt (by decide)
    intro b hb
    obtain ⟨m, hm, rfl⟩ := List.mem_map.mp hb
    exact hfits m hm
  let numRead := min n (recvBufsize - left.length)
  obtain ⟨doneBytes, restBytes, left', hsplit, htake, hleft'⟩ := exists_split (rest.map Prod.snd) (left.length + numRead)
  obtain ⟨done, rest', rfl, rfl, rfl⟩ := List.map_eq_append_iff.mp hsplit
  have hdone : ∀ m ∈ done, m.1.BuiltAs cfg sha1 m.2 ∧ m.2.length ≤ recvBufsize := fun m hm =>
    ⟨hbuilt m (List.mem_append_left _ hm), hfits m (List.mem_append_left _ hm)⟩
  have hrest' : ∀ m ∈ rest', m.1.BuiltAs cfg sha1 m.2 ∧ m.2.length ≤ recvBufsize := fun m hm =>
    ⟨hbuilt m (List.mem_append_right _ hm), hfits m (List.mem_append_right _ hm)⟩
  -- the buffer holds what was read so far
  have hsofar : (done.map Prod.snd).flatten ++ left' = left ++ stream.take numRead := by
    rw [← htake, ← hstream, List.take_append, List.take_of_length_le (Nat.le_add_right _ _), Nat.add_sub_cancel_left]
  have hbuffer : left ++ stream.take numRead = (done.map Prod.fst).flatMap ControlMessage.bytes ++ left' := by
    rw [flatMap_bytes_eq (fun m hm => (hdone m hm).1) (fun m hm => (hdone m hm).2), hsofar]
  have hsmall : (left ++ stream.take numRead).length < 2 ^ 31 := by
    have hbuf : recvBufsize < 2 ^ 31 := by decide
    rw [List.length_append, List.length_take]
    omega
  refine ⟨done, rest', left', rfl, hleft', hsofar, ?_⟩
  intro s
  unfold readControl
  rw [check_of hroom.le, ok_bind, if_neg hroom.ne]
  show (processReadBuffer found handle (left ++ stream.take numRead) s >>= _) = _
  rw [hbuffer] at hsmall ⊢
  rw [processReadBuffer_eq found handle ?_ ?_ s hsmall]
  · cases (done.map Prod.fst).foldlM (dispatch found handle) s <;> rfl
  · intro x hx
    obtain ⟨m, hm, rfl⟩ := List.mem_map.mp hx
    exact (builtAs_bytes (hdone m hm).1 (lt_of_le_of_lt (hdone m hm).2 (by decide))).2
  · exact verifyControlHeader_incomplete (fun m hm => (hrest' m hm).1) (fun m hm => (hrest' m hm).2) hleft'

theorem readAll_eq (reads : List Nat) {rest : List (ControlMessage × Bytes)} (hbuilt : ∀ m ∈ rest, m.1.BuiltAs cfg sha1 m.2)
    (hfits : ∀ m ∈ rest, m.2.length ≤ recvBufsize) {left stream : Bytes} (hleft : Incomplete left (rest.map Prod.snd))
    (hstream : left ++ stream = (rest.map Prod.snd).flatten) :
    ∃ done rest' left' stream', rest = done ++ rest' ∧ Incomplete left' (rest'.map Prod.snd) ∧
      left' ++ stream' = (rest'.map Prod.snd).flatten ∧
      (done.map Prod.snd).flatten.length + left'.length = arrived (rest.map Prod.snd) reads left.length ∧
      ∀ s, readAll found handle reads left stream s =
        ((done.map Prod.fst).foldlM (dispatch found handle) s >>= fun s' => .ok (s', some left', stream')) := by
  induction reads generalizing rest left stream with
  | nil => exact ⟨[], rest, left, stream, rfl, hleft, hstream, Nat.zero_add _, fun _ => rfl⟩
  | cons n reads ih =>
      obtain ⟨done, rest', left', rfl, hleft', hsofar, hread⟩ := readControl_eq found handle hbuilt hfits hleft hstream n
      have hbuilt' : ∀ m ∈ rest', m.1.BuiltAs cfg sha1 m.2 := fun m hm => hbuilt m (List.mem_append_right _ hm)
      have hfits' : ∀ m ∈ rest', m.2.length ≤ recvBufsize := fun m hm => hfits m (List.mem_append_right _ hm)
      have hpending := hleft.pending_eq
      rw [List.map_append] at hstream hpending
      generalize hk : min n (recvBufsize - left.length) = k at hsofar hread
      have hstream' : left' ++ stream.drop k = (rest'.map Prod.snd).flatten := by
        refine List.append_cancel_left (?_ : (done.map Prod.snd).flatten ++ _ = (done.map Prod.snd).flatten ++ _)
        rw [← List.append_assoc, hsofar, List.append_assoc, List.take_append_drop, hstream, List.flatten_append]
      have htotal := congrArg List.length hstream
      have hseen := congrArg List.length hsofar
      rw [List.length_append] at htotal
      rw [List.length_append, List.length_append, List.length_take] at hseen
      obtain ⟨done₁, rest₁, left₁, stream₁, rfl, hleft₁, hstream₁, hcount, hrun⟩ := ih hbuilt' hfits' hleft' hstream'
      refine ⟨done ++ done₁, rest₁, left₁, stream₁, by rw [List.append_assoc], hleft₁, hstream₁, ?_, ?_⟩
      · have hnext : min (left.length + k) (List.map Prod.snd done ++ List.map Prod.snd (done₁ ++ rest₁)).flatten.length =
            (done.map Prod.snd).flatten.length + left'.length := by omega
        have hmap : (done ++ (done₁ ++ rest₁)).map Prod.snd = done.map Prod.snd ++ (done₁ ++ rest₁).map Prod.snd := List.map_append
        rw [hmap, arrived, hpending, hk, hnext, arrived_append, ← hcount, List.map_append, List.flatten_append,
          List.length_append, Nat.add_assoc]
      · intro s
        rw [readAll, hread, List.map_append, List.foldlM_append]
        cases (done.map Prod.fst).foldlM (dispatch found handle) s with
        | error f => rfl
        | ok s₁ => exact hrun s₁

/-- Whatever the reads are, the messages that are complete in the bytes that have arrived were dispatched, each once and in order, and
`bufRead` is the part of the next one. When all bytes have arrived, which reads that bring something come to, all messages were
dispatched and `bufRead` is empty. -/
theorem control_framing {msgs : List (ControlMessage × Bytes)} (hbuilt : ∀ m ∈ msgs, m.1.BuiltAs cfg sha1 m.2)
    (hfits : ∀ m ∈ msgs, m.2.length ≤ recvBufsize) (reads : List Nat) :
    ∃ done rest bufRead, msgs = done ++ rest ∧ Incomplete bufRead (rest.map Prod.snd) ∧
      (msgs.map Prod.snd).flatten.take (arrived (msgs.map Prod.snd) reads 0) = (done.map Prod.snd).flatten ++ bufRead ∧
      (∀ s, readAll found handle reads [] (msgs.map Prod.snd).flatten s =
        ((done.map Prod.fst).foldlM (dispatch found handle) s >>= fun s' =>
          .ok (s', some bufRead, (msgs.map Prod.snd).flatten.drop (arrived (msgs.map Prod.snd) reads 0)))) ∧
      ((msgs.map Prod.snd).flatten.length ≤ arrived (msgs.map Prod.snd) reads 0 → done = msgs ∧ bufRead = []) ∧
      ((∀ n ∈ reads, 0 < n) → (msgs.map Prod.snd).flatten.length ≤ reads.length → done = msgs ∧ bufRead = []) := by
  have hnone : Incomplete [] (msgs.map Prod.snd) := by
    cases msgs with
    | nil => rfl
    | cons m msgs =>
        obtain ⟨hbytes, -⟩ := builtAs_bytes (hbuilt m (by simp)) (lt_of_le_of_lt (hfits m (by simp)) (by decide))
        refine ⟨List.nil_prefix, ?_⟩
        rw [hbytes, m.1.bytes_length]
        exact Nat.add_pos_left (by decide) _
  obtain ⟨done, rest, bufRead, stream, rfl, hleft, hstream, hcount, hrun⟩ :=
    readAll_eq found handle reads hbuilt hfits hnone (List.nil_append _)
  have hall : ((done ++ rest).map Prod.snd).flatten = ((done.map Prod.snd).flatten ++ bufRead) ++ stream := by
    rw [List.map_append, List.flatten_append, ← hstream, List.append_assoc]
  have hlength : arrived ((done ++ rest).map Prod.snd) reads 0 = ((done.map Prod.snd).flatten ++ bufRead).length := by
    rw [List.length_append]
    exact hcount.symm
  have hend : ((done ++ rest).map Prod.snd).flatten.length ≤ arrived ((done ++ rest).map Prod.snd) reads 0 →
      done = done ++ rest ∧ bufRead = [] := by
    intro hle
    have hrest : rest.map Prod.snd = [] := by
      apply hleft.rest_eq_nil
      rw [hlength, List.map_append, List.flatten_append, List.length_append, List.length_append] at hle
      omega
    rw [hrest] at hleft
    rw [List.map_eq_nil_iff.mp hrest, List.append_nil]
    exact ⟨rfl, hleft⟩
  refine ⟨done, rest, bufRead, rfl, hleft, ?_, ?_, hend, ?_⟩
  · rw [hlength, hall, List.take_left]
  · intro s
    rw [hrun s, hlength, hall, List.drop_left]
  · intro hpos hle
    apply hend
    have hfit : ∀ m ∈ (done ++ rest).map Prod.snd, m.length ≤ recvBufsize := List.forall_mem_map.mpr hfits
    have hmin := le_arrived hfit hpos 0
    rw [Nat.zero_add] at hmin
    exact (le_min hle le_rfl).trans hmin

/-- An open message and an acknowledgement. -/
def sampleStream : List (ControlMessage × Bytes) :=
  [(.openConnection sampleConn, ControlMessage.bytes (.openConnection sampleConn)),
    (.nameAck sampleConn 7, ControlMessage.bytes (.nameAck sampleConn 7))]

/-- The reads cut both messages, and then bring what is left. -/
theorem control_framing_sample :
    readAll (fun _ _ => true) (fun (s : List ControlEvent) e => .ok (s ++ [e])) [5, 20, 30] [] (sampleStream.map Prod.snd).flatten [] =
      .ok ([.openConnection sampleConn, .nameAck sampleConn 7], some [], []) := by
  obtain ⟨done, rest, bufRead, -, -, -, hrun, hall, -⟩ :=
    @control_framing sampleConfig calcSHA1Sig _ (fun _ _ => true) (fun (s : List ControlEvent) e => .ok (s ++ [e])) sampleStream (by
      intro m hm
      simp only [sampleStream, List.mem_cons, List.not_mem_nil, or_false] at hm
      rcases hm with rfl | rfl
      · exact .openConnection rfl
      · exact .nameAck rfl) (by
      intro m hm
      simp only [sampleStream, List.mem_cons, List.not_mem_nil, or_false] at hm
      rcases hm with rfl | rfl
      · decide
      · decide) [5, 20, 30]
  obtain ⟨rfl, rfl⟩ := hall (by decide)
  rw [hrun]
  decide

end Stream

end BeagleCache
