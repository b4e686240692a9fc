import BeagleCache.Reassemble
import BeagleCache.SendBlock

/-! The name delivery from both sides. Three traversals of a candidate list have to agree on where content
stands: the one that measures the message, the one that writes it and the one that reads it. -/

namespace BeagleCache

open Tiling Run

/-- The bytes of a candidate in the block. -/
def OneCandidate.slice (psrc : Bytes) (c : OneCandidate) : Bytes := (psrc.drop c.offset).take c.length

/-- What the reader makes of a candidate. -/
def OneCandidate.onWire (psrc : Bytes) (c : OneCandidate) : WireChunk where
  sha1name := c.sha1name
  length := BitVec.ofNat 32 c.length
  content := if c.hasContent then some (c.slice psrc) else none

/-- A chunk of a message as bytes. -/
def WireChunk.bytes (c : WireChunk) : Bytes :=
  c.sha1name.bytes ++ (htonl c.length ++ match c.content with
    | some content => [1] ++ content
    | none => [0])

/-! ## Writing -/

section Write

variable {cfg : Config} {sha1 : Bytes → Sha1Name} {psrc : Bytes} {pNames : NameTable}

/-- The writer puts the candidates one after the other and stays inside the allocation. -/
theorem putChunks_eq {offset n actualLen alloc : Nat} {cands : List OneCandidate}
    (htiles : Tiles OneCandidate.offset OneCandidate.length offset n cands) (hsrc : n ≤ psrc.length)
    (hentry : ∀ c ∈ cands, (pNames c.index).sha1name = c.sha1name)
    (hverify : cfg.integrityCheck = true → ∀ c ∈ cands, c.sha1name = sha1 (c.slice psrc))
    (halloc : actualLen + (cands.map OneCandidate.wireLength).sum ≤ alloc) :
    putChunks cfg sha1 psrc pNames alloc actualLen offset cands =
      .ok (cands.flatMap fun c => (c.onWire psrc).bytes) := by
  induction cands generalizing offset actualLen with
  | nil => rfl
  | cons c rest ih =>
      obtain ⟨hoff, -, htail⟩ := htiles
      have hend := tiles_le htail
      have hname := hentry c (by simp)
      have hentry' : ∀ d ∈ rest, (pNames d.index).sha1name = d.sha1name := fun d hd => hentry d (List.mem_cons_of_mem c hd)
      have hverify' : cfg.integrityCheck = true → ∀ d ∈ rest, d.sha1name = sha1 (d.slice psrc) :=
        fun h d hd => hverify h d (List.mem_cons_of_mem c hd)
      rw [List.map_cons, List.sum_cons] at halloc
      rw [putChunks, check_of hoff.symm, ok_bind, inBounds_of (by unfold OneCandidate.wireLength at halloc; omega), ok_bind]
      by_cases hcontent : c.isHit = false ∨ c.length ≤ waproxMinChunkSize
      · have hhas : c.hasContent = true := by
          rw [OneCandidate.hasContent]
          rcases hcontent with h | h <;> simp [h]
        have hwire : c.wireLength = sizeofWAOneChunk + c.length := by rw [OneCandidate.wireLength, if_pos hhas]
        have hread : readAt psrc offset c.length = .ok (c.slice psrc) := by
          rw [readAt, if_pos (by omega), ← hoff, OneCandidate.slice]
        have hcheck : verifySHA1 cfg sha1 (c.slice psrc) (pNames c.index).sha1name = true := by
          rw [verifySHA1]
          cases hcfg : cfg.integrityCheck with
          | false => rfl
          | true => simp [hname, hverify hcfg c (by simp)]
        rw [if_pos hcontent, hread, ok_bind, inBounds_of (by omega), ok_bind, check_of hcheck, ok_bind,
          ih htail hentry' hverify' (by omega), ok_bind, List.flatMap_cons]
        simp only [WireChunk.bytes, OneCandidate.onWire, hhas, if_true, hname, List.append_assoc, pure_eq_ok]
      · have hhas : c.hasContent = false := by
          rw [not_or] at hcontent
          simp [OneCandidate.hasContent, hcontent.1, hcontent.2]
        have hwire : c.wireLength = sizeofWAOneChunk := by simp [OneCandidate.wireLength, hhas]
        rw [if_neg hcontent, ih htail hentry' hverify' (by omega), ok_bind, List.flatMap_cons]
        simp only [WireChunk.bytes, OneCandidate.onWire, hhas, Bool.false_eq_true, if_false, hname, List.append_assoc,
          pure_eq_ok]

theorem onWire_bytes_length {c : OneCandidate} (hend : c.offset + c.length ≤ psrc.length) :
    ((c.onWire psrc).bytes).length = c.wireLength := by
  have hslice : (c.slice psrc).length = c.length := by
    rw [OneCandidate.slice, List.length_take, List.length_drop]
    omega
  unfold WireChunk.bytes OneCandidate.onWire OneCandidate.wireLength
  cases c.hasContent with
  | true => simp [c.sha1name.length_eq, hslice, sizeofWAOneChunk]; omega
  | false => simp [c.sha1name.length_eq, sizeofWAOneChunk]

theorem flatMap_bytes_length {offset n : Nat} {cands : List OneCandidate}
    (htiles : Tiles OneCandidate.offset OneCandidate.length offset n cands) (hsrc : n ≤ psrc.length) :
    (cands.flatMap fun c => (c.onWire psrc).bytes).length = (cands.map OneCandidate.wireLength).sum := by
  rw [List.length_flatMap]
  congr 1
  apply List.map_congr_left
  intro c hc
  obtain ⟨-, hend, -⟩ := tiles_mem htiles hc
  exact onWire_bytes_length (by omega)

end Write

/-! ## Reading -/

/-- The chunks of a tree at `offset`, as the loop of `ProcessNameTreeDelivery2` reads them. -/
def readTree (buffer : Bytes) : Nat → Nat → Run (List WireChunk × Nat)
  | 0, offset => .ok ([], offset)
  | n + 1, offset => do
      let c ← readOneChunk buffer offset
      let r ← readTree buffer n c.2
      return (c.1 :: r.1, r.2)

/-- Delivers chunks that were read before. -/
def deliverChunks (cfg : Config) (sha1 : Bytes → Sha1Name) (pickPeer : Sha1Name → Int) :
    List WireChunk → ReassembleInfo → TempCache → Run (ReassembleInfo × TempCache)
  | [], ri, tmp => .ok (ri, tmp)
  | c :: rest, ri, tmp => do
      let r ← deliverChunk cfg sha1 pickPeer c ri tmp
      deliverChunks cfg sha1 pickPeer rest r.1 r.2

/-- What a name delivery with the chunks `cs` does to the connection it is for. -/
def receiveNames (cfg : Config) (sha1 : Bytes → Sha1Name) (pickPeer : Sha1Name → Int) (cs : List WireChunk) (ci : UserConnection)
    (tmp : TempCache) : Run (UserConnection × TempCache) := do
  let r ← deliverChunks cfg sha1 pickPeer cs (createNewReassembleInfo ci.seqNo) tmp
  return ({ ci with seqNo := ci.seqNo + 1, reassembleList := ci.reassembleList ++ [checkPeek r.1] }, r.2)

/-- What a name delivery with the connection `id` and the chunks `cs` does to a proxy. -/
def receiveDelivery (cfg : Config) (sha1 : Bytes → Sha1Name) (pickPeer : Sha1Name → Int) (id : ConnectionID) (cs : List WireChunk)
    (users : List UserConnection) (tmp : TempCache) : Run (List UserConnection × TempCache) :=
  match getDestinationConnection users id with
  | none => .ok (users, tmp)
  | some i =>
      match users[i]? with
      | none => .ok (users, tmp)
      | some ci => do
          let r ← receiveNames cfg sha1 pickPeer cs ci tmp
          return (users.set i r.1, r.2)

section Read

variable {cfg : Config} {sha1 : Bytes → Sha1Name} {pickPeer : Sha1Name → Int}

/-- Delivering a tree is reading it and delivering its chunks. -/
theorem deliverTree_eq {buffer : Bytes} {n offset e : Nat} {cs : List WireChunk} (ri : ReassembleInfo) (tmp : TempCache)
    (hread : readTree buffer n offset = .ok (cs, e)) :
    deliverTree cfg sha1 pickPeer buffer n offset ri tmp =
      (deliverChunks cfg sha1 pickPeer cs ri tmp >>= fun r => .ok (r.1, r.2, e)) := by
  induction n generalizing offset cs ri tmp with
  | zero =>
      cases hread
      rfl
  | succ n ih =>
      rw [readTree] at hread
      obtain ⟨c, hc, hread⟩ := bind_eq_ok.mp hread
      obtain ⟨r, hr, hret⟩ := bind_eq_ok.mp hread
      cases hret
      rw [deliverTree, hc, ok_bind, deliverChunks]
      cases hone : deliverChunk cfg sha1 pickPeer c.1 ri tmp with
      | error f => rfl
      | ok out =>
          rw [ok_bind, ok_bind]
          exact ih out.1 out.2 hr

/-- A message that reads as the chunks `cs` up to its end does what a delivery of these chunks does. -/
theorem processNameTreeDelivery2_eq {msg : Bytes} {id : ConnectionID} {cs : List WireChunk} (pickPeer : Sha1Name → Int)
    (users : List UserConnection) (tmp : TempCache) (hid : id.Known) (hsmall : msg.length < 2 ^ 31)
    (hlength : headerLength msg = .ok (BitVec.ofNat 32 msg.length)) (hconn : headerConnID msg = .ok id)
    (htrees : readU32 msg (sizeofWAControlHeader + 1) = .ok 1)
    (hnames : readU32 msg (sizeofWANameDelivery + 1) = .ok (BitVec.ofNat 32 cs.length)) (hcount : cs.length < 2 ^ 31)
    (hread : readTree msg cs.length (sizeofWANameDelivery + sizeofWAOneTree) = .ok (cs, msg.length)) :
    processNameTreeDelivery2 cfg sha1 pickPeer msg users tmp =
      (receiveDelivery cfg sha1 pickPeer id cs users tmp >>= fun r => .ok (r.1, r.2, (msg.length : Int))) := by
  unfold processNameTreeDelivery2 receiveDelivery
  rw [hlength, htrees, hconn]
  simp only [ok_bind]
  rw [toInt_ofNat_of_lt hsmall, check_of (le_refl _), check_of (by decide), check_of (by decide), check_of hid]
  simp only [ok_bind]
  cases getDestinationConnection users id with
  | none => rfl
  | some i =>
      simp only
      cases users[i]? with
      | none => rfl
      | some ci =>
          simp only
          unfold deliverNames receiveNames
          rw [hnames]
          simp only [ok_bind]
          rw [toInt_ofNat_of_lt hcount, Int.toNat_natCast, deliverTree_eq _ tmp hread]
          cases deliverChunks cfg sha1 pickPeer cs (createNewReassembleInfo ci.seqNo) tmp with
          | error f => rfl
          | ok r => simp

theorem readSha1Name_skip (pre rest : Bytes) {off k : Nat} (hoff : off = pre.length + k) :
    readSha1Name (pre ++ rest) off = readSha1Name rest k := by
  subst hoff
  unfold readSha1Name
  by_cases h : k + 20 ≤ rest.length
  · rw [dif_pos h, dif_pos (by rw [List.length_append]; omega)]
    congr 2
    rw [List.drop_append, List.drop_eq_nil_of_le (Nat.le_add_right ..), List.nil_append, Nat.add_sub_cancel_left]
  · rw [dif_neg h, dif_neg (by rw [List.length_append]; omega)]

theorem readSha1Name_head (name : Sha1Name) (rest : Bytes) : readSha1Name (name.bytes ++ rest) 0 = .ok name := by
  have hlen := name.length_eq
  unfold readSha1Name
  rw [dif_pos (by rw [List.length_append]; omega)]
  congr 2
  rw [List.drop_zero, List.take_left' hlen]

theorem readOneChunk_skip (pre rest : Bytes) {off k : Nat} (hoff : off = pre.length + k) :
    readOneChunk (pre ++ rest) off = (readOneChunk rest k >>= fun r => .ok (r.1, pre.length + r.2)) := by
  subst hoff
  unfold readOneChunk
  rw [readSha1Name_skip pre rest rfl, readU32_skip pre rest (Nat.add_assoc ..), readAt_skip pre rest (Nat.add_assoc ..)]
  cases readSha1Name rest k with
  | error f => rfl
  | ok name =>
      cases readU32 rest (k + 20) with
      | error f => rfl
      | ok len =>
          cases readAt rest (k + 24) 1 with
          | error f => rfl
          | ok flag =>
              simp only [ok_bind]
              rw [readAt_skip pre rest (Nat.add_assoc ..)]
              split
              · cases readAt rest (k + sizeofWAOneChunk) len.toNat with
                | error f => rfl
                | ok content => simp [Nat.add_assoc]
              · simp [Nat.add_assoc]

/-- A chunk that was written is read back. -/
theorem readOneChunk_head (c : WireChunk) (rest : Bytes) (hcontent : ∀ content, c.content = some content →
    content.length = c.length.toNat) : readOneChunk (c.bytes ++ rest) 0 = .ok (c, c.bytes.length) := by
  obtain ⟨name, len, content⟩ := c
  have hname := name.length_eq
  have hlen : ∀ tail : Bytes, readU32 (name.bytes ++ (htonl len ++ tail)) 20 = .ok len := by
    intro tail
    rw [readU32_skip name.bytes _ (show 20 = name.bytes.length + 0 by omega), readU32_head]
  have hflag : ∀ (flag : Byte) (tail : Bytes), readAt (name.bytes ++ (htonl len ++ ([flag] ++ tail))) 24 1 = .ok [flag] := by
    intro flag tail
    rw [readAt_skip name.bytes _ (show 24 = name.bytes.length + 4 by omega),
      readAt_skip (htonl len) _ (show 4 = (htonl len).length + 0 from rfl)]
    exact readAt_head [flag] tail rfl
  unfold readOneChunk
  cases content with
  | none =>
      have hbytes : (WireChunk.bytes ⟨name, len, none⟩) ++ rest = name.bytes ++ (htonl len ++ ([0] ++ rest)) := by
        simp [WireChunk.bytes]
      rw [hbytes, readSha1Name_head, ok_bind, hlen, ok_bind, hflag, ok_bind, if_neg (by decide)]
      simp [WireChunk.bytes, hname, sizeofWAOneChunk]
  | some content =>
      have hsize : content.length = len.toNat := hcontent content rfl
      have hbytes : (WireChunk.bytes ⟨name, len, some content⟩) ++ rest =
          name.bytes ++ (htonl len ++ ([1] ++ (content ++ rest))) := by
        simp [WireChunk.bytes]
      have hread : readAt (name.bytes ++ (htonl len ++ ([1] ++ (content ++ rest)))) (0 + sizeofWAOneChunk) len.toNat = .ok content := by
        rw [readAt_skip name.bytes _ (show 0 + sizeofWAOneChunk = name.bytes.length + 5 by rw [hname]; rfl),
          readAt_skip (htonl len) _ (show 5 = (htonl len).length + 1 from rfl),
          readAt_skip [1] _ (show 1 = ([1] : Bytes).length + 0 from rfl), readAt_head content rest hsize.symm]
      rw [hbytes, readSha1Name_head, ok_bind, hlen, ok_bind, hflag, ok_bind, if_pos rfl, hread]
      simp [WireChunk.bytes, hname, sizeofWAOneChunk, hsize]
      omega

/-- Chunks that were written one after the other are read back in order. -/
theorem readTree_eq (cs : List WireChunk) (pre post : Bytes)
    (hcontent : ∀ c ∈ cs, ∀ content, c.content = some content → content.length = c.length.toNat) :
    readTree (pre ++ (cs.flatMap WireChunk.bytes ++ post)) cs.length pre.length =
      .ok (cs, pre.length + (cs.flatMap WireChunk.bytes).length) := by
  induction cs generalizing pre with
  | nil => rfl
  | cons c rest ih =>
      have hrest := ih (pre ++ c.bytes) fun d hd => hcontent d (List.mem_cons_of_mem c hd)
      rw [List.append_assoc, List.length_append] at hrest
      rw [List.flatMap_cons, List.append_assoc, List.length_cons, readTree,
        readOneChunk_skip pre _ (show pre.length = pre.length + 0 from rfl),
        readOneChunk_head c _ (hcontent c (by simp)), ok_bind, ok_bind, hrest, ok_bind, List.length_append]
      rw [Nat.add_assoc]
      rfl

end Read

/-! ## The round trip -/

/-- The reader's chunk is the writer's candidate: the same name and length, and the bytes of the block
exactly for misses and small chunks. -/
structure SameOnWire (psrc : Bytes) (c : OneCandidate) (w : WireChunk) : Prop where
  name_eq : w.sha1name = c.sha1name
  length_eq : w.length.toNat = c.length
  content_eq : w.content = if c.isHit = false ∨ c.length ≤ waproxMinChunkSize then some (c.slice psrc) else none

theorem onWire_same (psrc : Bytes) {c : OneCandidate} (hlen : c.length < 2 ^ 31) : SameOnWire psrc c (c.onWire psrc) where
  name_eq := rfl
  length_eq := by
    show (BitVec.ofNat 32 c.length).toNat = c.length
    rw [BitVec.toNat_ofNat, Nat.mod_eq_of_lt (by omega)]
  content_eq := by
    have hiff : c.hasContent = true ↔ c.isHit = false ∨ c.length ≤ waproxMinChunkSize := by
      simp [OneCandidate.hasContent]
    simp only [OneCandidate.onWire, hiff]

section RoundTrip

variable {cfg : Config} {sha1 : Bytes → Sha1Name} {id : ConnectionID} {psrc : Bytes} {pNames : NameTable} {n : Nat}
  {cands : List OneCandidate}

/-- The bytes of a name delivery. -/
theorem buildWANameTreeDelivery3_eq (hid : id.Known) (htiles : Tiles OneCandidate.offset OneCandidate.length 0 n cands)
    (hsrc : n ≤ psrc.length) (hentry : ∀ c ∈ cands, (pNames c.index).sha1name = c.sha1name)
    (hverify : cfg.integrityCheck = true → ∀ c ∈ cands, c.sha1name = sha1 (c.slice psrc)) :
    ∃ hdr, fillControlHeader id typeWANameDelivery
        (sizeofWANameDelivery + sizeofWAOneTree + (cands.map OneCandidate.wireLength).sum) = .ok hdr ∧
      buildWANameTreeDelivery3 cfg sha1 id psrc pNames cands cands.length (cands.map OneCandidate.wireLength).sum =
        .ok (hdr ++ ([magicWANameDelivery] ++ (htonl 1 ++ ([1] ++ (htonl (BitVec.ofNat 32 cands.length) ++
          (cands.map (OneCandidate.onWire psrc)).flatMap WireChunk.bytes))))) := by
  refine ⟨_, fillControlHeader_eq hid _ _, ?_⟩
  unfold buildWANameTreeDelivery3
  simp only
  rw [putChunks_eq htiles hsrc hentry hverify (le_refl _), ok_bind, flatMap_bytes_length htiles hsrc,
    fillControlHeader_eq hid, ok_bind, List.flatMap_map]
  rfl

/-- For every candidate list that tiles a block, the message has the length that was measured, says so in its
header, and is read as exactly the candidates; what `ProcessNameTreeDelivery2` then does is to deliver these. -/
theorem nameDelivery_roundTrip (hid : id.Known) (htiles : Tiles OneCandidate.offset OneCandidate.length 0 n cands)
    (hsrc : n ≤ psrc.length) (hentry : ∀ c ∈ cands, (pNames c.index).sha1name = c.sha1name)
    (hverify : cfg.integrityCheck = true → ∀ c ∈ cands, c.sha1name = sha1 (c.slice psrc)) (hblock : n < 2 ^ 31)
    (hsmall : sizeofWANameDelivery + sizeofWAOneTree + (cands.map OneCandidate.wireLength).sum < 2 ^ 31) :
    ∃ newmsgLen msg cs, getCandidateMessageLength 0 cands = .ok (newmsgLen, cands.length) ∧
      buildWANameTreeDelivery3 cfg sha1 id psrc pNames cands cands.length newmsgLen = .ok msg ∧
      msg.length = sizeofWANameDelivery + sizeofWAOneTree + newmsgLen ∧
      headerLength msg = .ok (BitVec.ofNat 32 msg.length) ∧ headerConnID msg = .ok id ∧
      readTree msg cands.length (sizeofWANameDelivery + sizeofWAOneTree) = .ok (cs, msg.length) ∧
      List.Forall₂ (SameOnWire psrc) cands cs ∧
      ∀ pickPeer users tmp, processNameTreeDelivery2 cfg sha1 pickPeer msg users tmp =
        (receiveDelivery cfg sha1 pickPeer id cs users tmp >>= fun r => .ok (r.1, r.2, (msg.length : Int))) := by
  obtain ⟨hdr, hhdr, hbuild⟩ := buildWANameTreeDelivery3_eq hid htiles hsrc hentry hverify
  have hhdrlen := fillControlHeader_length hhdr
  have hbytes : ((cands.map (OneCandidate.onWire psrc)).flatMap WireChunk.bytes).length =
      (cands.map OneCandidate.wireLength).sum := by
    rw [List.flatMap_map]
    exact flatMap_bytes_length htiles hsrc
  have hbound : ∀ c ∈ cands, c.length < 2 ^ 31 := by
    intro c hc
    obtain ⟨-, hend, -⟩ := tiles_mem htiles hc
    omega
  generalize htail : (cands.map (OneCandidate.onWire psrc)).flatMap WireChunk.bytes = tail at *
  -- the fixed part, in front of the chunks
  obtain ⟨fixed, hfixed⟩ : ∃ fixed, fixed = hdr ++ ([magicWANameDelivery] ++ (htonl 1 ++ ([1] ++
      htonl (BitVec.ofNat 32 cands.length)))) := ⟨_, rfl⟩
  have hfixedlen : fixed.length = sizeofWANameDelivery + sizeofWAOneTree := by
    rw [hfixed, List.length_append, hhdrlen]
    rfl
  have hmsg : hdr ++ ([magicWANameDelivery] ++ (htonl 1 ++ ([1] ++ (htonl (BitVec.ofNat 32 cands.length) ++ tail)))) =
      fixed ++ tail := by
    rw [hfixed]
    simp only [List.append_assoc]
  have hlen : (fixed ++ tail).length = sizeofWANameDelivery + sizeofWAOneTree + (cands.map OneCandidate.wireLength).sum := by
    rw [List.length_append, hfixedlen, hbytes]
  have hlength : headerLength (fixed ++ tail) = .ok (BitVec.ofNat 32 (fixed ++ tail).length) := by
    rw [hlen, ← hmsg]
    exact headerLength_eq hhdr _
  have hconn : headerConnID (fixed ++ tail) = .ok id := by
    rw [← hmsg]
    exact headerConnID_eq hhdr _
  have htrees : readU32 (fixed ++ tail) (sizeofWAControlHeader + 1) = .ok 1 := by
    rw [← hmsg, readU32_skip hdr _ (show sizeofWAControlHeader + 1 = hdr.length + 1 by rw [hhdrlen]),
      readU32_skip [magicWANameDelivery] _ (show 1 = [magicWANameDelivery].length + 0 from rfl), readU32_head]
  have hnames : readU32 (fixed ++ tail) (sizeofWANameDelivery + 1) = .ok (BitVec.ofNat 32 cands.length) := by
    rw [← hmsg, readU32_skip hdr _ (show sizeofWANameDelivery + 1 = hdr.length + 6 by rw [hhdrlen]; rfl),
      readU32_skip [magicWANameDelivery] _ (show 6 = [magicWANameDelivery].length + 5 from rfl),
      readU32_skip (htonl 1) _ (show 5 = (htonl 1).length + 1 from rfl),
      readU32_skip [1] _ (show 1 = ([1] : Bytes).length + 0 from rfl), readU32_head]
  have hcontent : ∀ c ∈ cands.map (OneCandidate.onWire psrc), ∀ content, c.content = some content →
      content.length = c.length.toNat := by
    intro w hw content hsome
    obtain ⟨c, hc, rfl⟩ := List.mem_map.mp hw
    obtain ⟨-, hend, -⟩ := tiles_mem htiles hc
    rw [(onWire_same psrc (hbound c hc)).length_eq]
    rw [(onWire_same psrc (hbound c hc)).content_eq] at hsome
    split at hsome
    · cases hsome
      rw [OneCandidate.slice, List.length_take, List.length_drop]
      omega
    · cases hsome
  have hread : readTree (fixed ++ tail) cands.length (sizeofWANameDelivery + sizeofWAOneTree) =
      .ok (cands.map (OneCandidate.onWire psrc), (fixed ++ tail).length) := by
    have := readTree_eq (cands.map (OneCandidate.onWire psrc)) fixed [] hcontent
    rwa [htail, List.append_nil, List.length_map, hfixedlen, hbytes, ← hlen] at this
  have hcount : cands.length < 2 ^ 31 := by
    have hwire : ∀ c ∈ cands, 1 ≤ c.wireLength := fun c _ => by unfold OneCandidate.wireLength sizeofWAOneChunk; omega
    have := List.length_le_sum_of_one_le (cands.map OneCandidate.wireLength) (by simpa using hwire)
    rw [List.length_map] at this
    omega
  rw [hmsg] at hbuild
  refine ⟨_, fixed ++ tail, cands.map (OneCandidate.onWire psrc), getCandidateMessageLength_eq htiles, hbuild, hlen, hlength, hconn,
    hread, ?_, ?_⟩
  · rw [List.forall₂_map_right_iff]
    exact List.forall₂_same.mpr fun c hc => onWire_same psrc (hbound c hc)
  · intro pickPeer users tmp
    have hcs : (cands.map (OneCandidate.onWire psrc)).length = cands.length := List.length_map _
    exact processNameTreeDelivery2_eq pickPeer users tmp hid (by omega) hlength hconn htrees (hcs.symm ▸ hnames)
      (hcs.symm ▸ hcount) (hcs.symm ▸ hread)

end RoundTrip

/-- A hit, a hit that is too small to be left out, and a miss. -/
def sampleCandidates : List OneCandidate :=
  [⟨0, 0, 31, true, calcSHA1Sig (sampleData.take 31)⟩, ⟨1, 31, 2, true, calcSHA1Sig ((sampleData.drop 31).take 2)⟩,
    ⟨2, 33, 7, false, calcSHA1Sig ((sampleData.drop 33).take 7)⟩]

def sampleNames : NameTable := fun k => { (default : OneChunkName) with
  sha1name := (sampleCandidates.map OneCandidate.sha1name).getD k default }

def sampleConn : ConnectionID := ⟨0x0a000001, 5000, 0x0a000002, 80⟩

theorem nameDelivery_roundTrip_sample :
    ∃ newmsgLen msg cs, getCandidateMessageLength 0 sampleCandidates = .ok (newmsgLen, 3) ∧
      buildWANameTreeDelivery3 sampleConfig calcSHA1Sig sampleConn sampleData sampleNames sampleCandidates 3 newmsgLen = .ok msg ∧
      msg.length = sizeofWANameDelivery + sizeofWAOneTree + newmsgLen ∧
      headerLength msg = .ok (BitVec.ofNat 32 msg.length) ∧ headerConnID msg = .ok sampleConn ∧
      readTree msg 3 (sizeofWANameDelivery + sizeofWAOneTree) = .ok (cs, msg.length) ∧
      List.Forall₂ (SameOnWire sampleData) sampleCandidates cs ∧
      ∀ pickPeer users tmp, processNameTreeDelivery2 sampleConfig calcSHA1Sig pickPeer msg users tmp =
        (receiveDelivery sampleConfig calcSHA1Sig pickPeer sampleConn cs users tmp >>= fun r =>
          .ok (r.1, r.2, (msg.length : Int))) := by
  refine nameDelivery_roundTrip (by decide) (n := 40) ?_ (by decide) ?_ ?_ (by decide) (by decide)
  · simp [sampleCandidates]
  · intro c hc
    simp only [sampleCandidates, List.mem_cons, List.not_mem_nil, or_false] at hc
    rcases hc with rfl | rfl | rfl <;> rfl
  · intro h
    cases h

end BeagleCache
