import BeagleCache.MessageSize
import BeagleCache.Reconstruct

/-! The messages of a sender at the connection they are for. A raw message hands its data to the user at once; a name
delivery adds an entry whose names stand for the chunks of the block, in their order. -/

namespace BeagleCache

open Tiling Run

/-- The messages with data in the dispatch of `ProcessControlData`. -/
def deliverMessage (cfg : Config) (sha1 : Bytes → Sha1Name) (pickPeer : Sha1Name → Int) (buffer : Bytes)
    (users : List UserConnection) (tmp : TempCache) : Run (List UserConnection × TempCache) := do
  let msgType ← readAt buffer 1 1
  if msgType = [typeWANameDelivery] then do
    let r ← processNameTreeDelivery2 cfg sha1 pickPeer buffer users tmp
    return (r.1, r.2.1)
  else if msgType = [typeWARawMessage] then do
    let r ← processRawMessage buffer users
    return (r.1, tmp)
  else .error .assertion

/-- A message with its block, as a round of `ProcessUserData` makes it. -/
inductive Announced (cfg : Config) (sha1 : Bytes → Sha1Name) : Outgoing → Prop
  | raw {id : ConnectionID} {msg block : Bytes} : buildWARawMessage id block = .ok msg → block.length ≤ recvBufsize →
      Announced cfg sha1 ⟨msg, block, []⟩
  | names {id : ConnectionID} {msg psrc : Bytes} {pNames : NameTable} {cands : List OneCandidate} {n : Nat} :
      Tiles OneCandidate.offset OneCandidate.length 0 n cands → 0 < n → n ≤ psrc.length → psrc.length ≤ recvBufsize →
      (∀ c ∈ cands, (pNames c.index).sha1name = c.sha1name) → (∀ c ∈ cands, c.sha1name = sha1 (c.slice psrc)) →
      buildWANameTreeDelivery3 cfg sha1 id psrc pNames cands cands.length (cands.map OneCandidate.wireLength).sum = .ok msg →
      Announced cfg sha1 ⟨msg, psrc.take n, cands.map (OneCandidate.slice psrc)⟩

/-- A name of an entry stands for a chunk. -/
def StandsFor (sha1 : Bytes → Sha1Name) (name : ChunkNameInfo) (chunk : Bytes) : Prop :=
  name.sha1name = sha1 chunk ∧ name.length = chunk.length

/-- Every block of the table has to do with its name. -/
def HoldsOnly (P : Sha1Name → Bytes → Prop) (tmp : TempCache) : Prop := ∀ n value, tmp n = some value → P n value.pBlock

/-- The connection is the one that `GetDestinationConnection` finds for the message. -/
def IsFor (message : Bytes) (ci : UserConnection) : Prop :=
  ∃ id, headerConnID message = .ok id ∧ getDestinationConnection [ci] id = some 0

/-- What a message does to the only connection of a proxy: it is for another one, it hands its block over, or it adds an
entry and stores chunks under their names. -/
inductive Delivered (sha1 : Bytes → Sha1Name) (o : Outgoing) (ci : UserConnection) (tmp : TempCache) :
    List UserConnection → TempCache → Prop
  | elsewhere : ¬ IsFor o.message ci → Delivered sha1 o ci tmp [ci] tmp
  | raw : IsFor o.message ci → o.chunks = [] →
      Delivered sha1 o ci tmp [{ ci with sent := ci.sent ++ o.block, seqNo := ci.seqNo + 1 }] tmp
  | names {ri : ReassembleInfo} {tmp' : TempCache} : IsFor o.message ci → o.chunks.flatten = o.block →
      List.Forall₂ (StandsFor sha1) ri.nameList o.chunks →
      (∀ P, HoldsOnly P tmp → (∀ chunk ∈ o.chunks, P (sha1 chunk) chunk) → HoldsOnly P tmp') →
      Delivered sha1 o ci tmp [{ ci with seqNo := ci.seqNo + 1, reassembleList := ci.reassembleList ++ [ri] }] tmp'

section Announce

variable {cfg : Config} {sha1 : Bytes → Sha1Name} {hint : Sha1Name → Bool} {ci ci' : UserConnection} {sh sh' : Shared}

theorem Round.announced {buffer : Bytes} {one : Nat} {o : Outgoing} (hcfg : cfg.Sized) (hctx : ci.ChunkReady)
    (h : Round cfg sha1 hint ci buffer sh one o ci' sh') (hbuffer : buffer.length ≤ recvBufsize) : Announced cfg sha1 o := by
  cases h with
  | raw hraw hmsg => exact .raw hmsg hbuffer
  | @first r msg hraw hpre hskip hnum hmsg =>
      apply Announced.raw hmsg
      rw [List.length_take]
      exact (min_le_right _ _).trans hbuffer
  | @names r names low cands names' cb tmp' msg hraw hpre hfirst hblock hput hbuf hmsg =>
      obtain ⟨-, -, hpos, hle⟩ := doPreMRC_spec hcfg hctx hpre
      have hselected := hblock.selected
      have hentry : ∀ c ∈ cands, (names' c.index).sha1name = c.sha1name := fun c hc =>
        (congrArg OneCandidate.sha1name (hselected.entry c hc)).symm
      exact .names hselected.tiles hpos hle hbuffer hentry hselected.name_eq hmsg

theorem Announced.block_length {o : Outgoing} (h : Announced cfg sha1 o) : 0 < o.block.length ∧ o.block.length ≤ recvBufsize := by
  cases h with
  | raw hmsg hle => exact ⟨buildWARawMessage_pos hmsg, hle⟩
  | @names id msg psrc pNames cands n htiles hpos hle hbuffer =>
      have hlen : (psrc.take n).length = n := List.length_take_of_le hle
      show 0 < (psrc.take n).length ∧ (psrc.take n).length ≤ recvBufsize
      omega

theorem slices_flatten {psrc : Bytes} {offset n : Nat} {cands : List OneCandidate}
    (htiles : Tiles OneCandidate.offset OneCandidate.length offset n cands) :
    (cands.map (OneCandidate.slice psrc)).flatten = (psrc.drop offset).take (n - offset) := by
  induction cands generalizing offset with
  | nil =>
      have hend : offset = n := htiles
      simp [hend]
  | cons c rest ih =>
      obtain ⟨hoff, hpos, htail⟩ := htiles
      have hend := tiles_le htail
      have hsplit : n - offset = c.length + (n - (offset + c.length)) := by omega
      rw [List.map_cons, List.flatten_cons, ih htail, OneCandidate.slice, hoff, hsplit, List.take_add, List.drop_drop]

end Announce

/-! ## Raw messages -/

theorem getDestinationConnection_single (ci : UserConnection) (id : ConnectionID) :
    getDestinationConnection [ci] id = none ∨ getDestinationConnection [ci] id = some 0 := by
  unfold getDestinationConnection
  by_cases hrev : ci.key = id.reverse
  · exact .inr (by simp [List.findIdx?_cons, hrev])
  · by_cases hsame : ci.key = id
    · have hid : ¬ id = id.reverse := fun h => hrev (hsame.trans h)
      exact .inr (by simp [List.findIdx?_cons, hsame, hid])
    · exact .inl (by simp [List.findIdx?_cons, hrev, hsame])

theorem not_isFor {message : Bytes} {ci : UserConnection} {id : ConnectionID} (hid : headerConnID message = .ok id)
    (hnone : getDestinationConnection [ci] id = none) : ¬ IsFor message ci := by
  rintro ⟨id', hid', hsome⟩
  cases hid.symm.trans hid'
  rw [hnone] at hsome
  cases hsome

section Raw

variable {ci : UserConnection} {id : ConnectionID} {msg block : Bytes}

theorem processRawMessage_eq (hbuild : buildWARawMessage id block = .ok msg) (hsmall : msg.length < 2 ^ 31)
    (users : List UserConnection) : processRawMessage msg users =
      match getDestinationConnection users id with
      | none => .ok (users, (msg.length : Int))
      | some i =>
          match users[i]? with
          | none => .ok (users, (msg.length : Int))
          | some ci => .ok (users.set i { ci with sent := ci.sent ++ block, seqNo := ci.seqNo + 1 }, (msg.length : Int)) := by
  have hlen := buildWARawMessage_length hbuild
  have hpos := buildWARawMessage_pos hbuild
  obtain ⟨_, -, h⟩ := bind_eq_ok.mp hbuild
  obtain ⟨hdr, hfill, hret⟩ := bind_eq_ok.mp h
  have hid := (fillControlHeader_ok hfill).1
  have hhdr := fillControlHeader_length hfill
  cases hret
  have hconn := headerConnID_eq hfill ([magicWARawMessage] ++ (htonl (BitVec.ofNat 32 block.length) ++ block))
  have hlength := headerLength_eq hfill ([magicWARawMessage] ++ (htonl (BitVec.ofNat 32 block.length) ++ block))
  rw [← hlen] at hlength
  have hmsgLen : readU32 (hdr ++ ([magicWARawMessage] ++ (htonl (BitVec.ofNat 32 block.length) ++ block)))
      (sizeofWAControlHeader + 1) = .ok (BitVec.ofNat 32 block.length) := by
    rw [readU32_skip hdr _ (show sizeofWAControlHeader + 1 = hdr.length + 1 by rw [hhdr]),
      readU32_skip [magicWARawMessage] _ (show 1 = [magicWARawMessage].length + 0 from rfl), readU32_head]
  have hdata : readAt (hdr ++ ([magicWARawMessage] ++ (htonl (BitVec.ofNat 32 block.length) ++ block))) sizeofWARawMessage
      block.length = .ok block := by
    have hsplit : hdr ++ ([magicWARawMessage] ++ (htonl (BitVec.ofNat 32 block.length) ++ block)) =
        (hdr ++ ([magicWARawMessage] ++ htonl (BitVec.ofNat 32 block.length))) ++ block ++ [] := by
      simp only [List.append_assoc, List.append_nil]
    refine readAt_of_eq hsplit ?_ rfl
    rw [List.length_append, hhdr]
    rfl
  unfold processRawMessage
  rw [hconn, ok_bind, hmsgLen, ok_bind, toInt_ofNat_of_lt (by omega), check_of (by omega), ok_bind, hlength,
    ok_bind, toInt_ofNat_of_lt hsmall, check_of (le_refl _), ok_bind, check_of hid, ok_bind,
    toNat_ofNat_of_lt (by omega), hdata]
  cases getDestinationConnection users id with
  | none => rfl
  | some i =>
      simp only
      cases users[i]? with
      | none => rfl
      | some ci => rfl

theorem readAt_type {type : Byte} {length : Nat} {hdr : Bytes} (hfill : fillControlHeader id type length = .ok hdr)
    (rest : Bytes) : readAt (hdr ++ rest) 1 1 = .ok [type] := by
  obtain ⟨-, rfl⟩ := fillControlHeader_ok hfill
  rfl

theorem deliverMessage_raw_eq {cfg : Config} {sha1 : Bytes → Sha1Name} {pickPeer : Sha1Name → Int}
    (hbuild : buildWARawMessage id block = .ok msg) (hle : block.length ≤ recvBufsize) (users : List UserConnection) (tmp : TempCache) :
    headerConnID msg = .ok id ∧ deliverMessage cfg sha1 pickPeer msg users tmp =
      match getDestinationConnection users id with
      | none => .ok (users, tmp)
      | some i =>
          match users[i]? with
          | none => .ok (users, tmp)
          | some ci => .ok (users.set i { ci with sent := ci.sent ++ block, seqNo := ci.seqNo + 1 }, tmp) := by
  have hsmall : msg.length < 2 ^ 31 := by
    rw [buildWARawMessage_length hbuild]
    have : recvBufsize < 2 ^ 30 := by decide
    simp only [sizeofWARawMessage]
    omega
  obtain ⟨htype, hconn⟩ : readAt msg 1 1 = .ok [typeWARawMessage] ∧ headerConnID msg = .ok id := by
    obtain ⟨_, -, hmsg⟩ := bind_eq_ok.mp hbuild
    obtain ⟨hdr, hfill, hret⟩ := bind_eq_ok.mp hmsg
    cases hret
    exact ⟨readAt_type hfill _, headerConnID_eq hfill _⟩
  refine ⟨hconn, ?_⟩
  rw [deliverMessage, htype, ok_bind, if_neg (by decide), if_pos rfl, processRawMessage_eq hbuild hsmall]
  cases getDestinationConnection users id with
  | none => rfl
  | some i =>
      simp only
      cases users[i]? with
      | none => rfl
      | some ci => rfl

theorem deliverMessage_raw {cfg : Config} {sha1 : Bytes → Sha1Name} {pickPeer : Sha1Name → Int} {tmp : TempCache}
    {r : List UserConnection × TempCache} (hbuild : buildWARawMessage id block = .ok msg) (hle : block.length ≤ recvBufsize)
    (h : deliverMessage cfg sha1 pickPeer msg [ci] tmp = .ok r) : Delivered sha1 ⟨msg, block, []⟩ ci tmp r.1 r.2 := by
  obtain ⟨hconn, heq⟩ := @deliverMessage_raw_eq id msg block cfg sha1 pickPeer hbuild hle [ci] tmp
  rw [heq] at h
  rcases getDestinationConnection_single ci id with hnone | hsome
  · rw [hnone] at h
    cases h
    exact .elsewhere (not_isFor hconn hnone)
  · rw [hsome] at h
    cases h
    exact .raw ⟨id, hconn, hsome⟩ rfl

end Raw

/-! ## Name deliveries -/

section Names

variable {cfg : Config} {sha1 : Bytes → Sha1Name} {pickPeer : Sha1Name → Int} {tmp tmp' : TempCache} {P : Sha1Name → Bytes → Prop}

/-- A chunk of a message stands for a chunk of the block, and its content is that chunk. -/
structure CarriesChunk (sha1 : Bytes → Sha1Name) (c : WireChunk) (chunk : Bytes) : Prop where
  name_eq : c.sha1name = sha1 chunk
  length_eq : c.length.toNat = chunk.length
  content_eq : ∀ content, c.content = some content → content = chunk

theorem HoldsOnly.update {name : Sha1Name} {value : Option CacheValue} (h : HoldsOnly P tmp)
    (hvalue : ∀ v, value = some v → P name v.pBlock) : HoldsOnly P (Function.update tmp name value) := by
  intro n v hn
  by_cases hname : n = name
  · subst hname
    rw [Function.update_self] at hn
    exact hvalue v hn
  · rw [Function.update_of_ne hname] at hn
    exact h n v hn

theorem refPutChunkCallback_holdsOnly {name : Sha1Name} {buffer : Bytes} (h : HoldsOnly P tmp) (hnew : P name buffer)
    (hput : refPutChunkCallback cfg sha1 tmp name buffer = .ok tmp') : HoldsOnly P tmp' := by
  obtain ⟨_, -, hput⟩ := bind_eq_ok.mp hput
  split at hput
  · cases hput
    exact h
  · split at hput
    · obtain ⟨_, -, hret⟩ := bind_eq_ok.mp hput
      cases hret
      apply h.update
      rintro v ⟨⟩
      exact hnew
    case h_2 value hsome =>
      obtain ⟨_, -, hret⟩ := bind_eq_ok.mp hput
      cases hret
      apply h.update
      rintro v ⟨⟩
      exact h name value hsome

theorem deliverChunk_ok {c : WireChunk} {ri : ReassembleInfo} {r : ReassembleInfo × TempCache}
    (h : deliverChunk cfg sha1 pickPeer c ri tmp = .ok r) :
    r.1.nameList = ri.nameList ++ [⟨c.sha1name, c.length.toNat, true, c.content.isSome, pickPeer c.sha1name⟩] ∧
      (r.2 = tmp ∨ ∃ content, c.content = some content ∧ refPutChunkCallback cfg sha1 tmp c.sha1name content = .ok r.2) := by
  obtain ⟨ri₁, happend, h⟩ := bind_eq_ok.mp h
  obtain ⟨_, -, hret⟩ := bind_eq_ok.mp happend
  cases hret
  simp only at h
  split at h
  · cases h
  · split at h
    case h_1 content hcontent =>
      obtain ⟨tmp₁, hput, h⟩ := bind_eq_ok.mp h
      obtain ⟨ri₂, hpeek, hret⟩ := bind_eq_ok.mp h
      obtain ⟨_, -, hri⟩ := bind_eq_ok.mp hpeek
      cases hri
      cases hret
      exact ⟨rfl, .inr ⟨content, hcontent, hput⟩⟩
    · obtain ⟨ri₂, hpeek, hret⟩ := bind_eq_ok.mp h
      obtain ⟨_, -, hri⟩ := bind_eq_ok.mp hpeek
      cases hri
      cases hret
      exact ⟨rfl, .inl rfl⟩

/-- What `ProcessNameTreeDelivery2` can do: nothing, or a delivery to one connection. -/
theorem processNameTreeDelivery2_cases {buffer : Bytes} {users : List UserConnection} {r : List UserConnection × TempCache × Int}
    (h : processNameTreeDelivery2 cfg sha1 pickPeer buffer users tmp = .ok r) :
    (r.1 = users ∧ r.2.1 = tmp) ∨ ∃ i ci numNames r₁, users[i]? = some ci ∧
      readU32 buffer (sizeofWANameDelivery + 1) = .ok numNames ∧
      deliverTree cfg sha1 pickPeer buffer numNames.toInt.toNat (sizeofWANameDelivery + sizeofWAOneTree)
        (createNewReassembleInfo ci.seqNo) tmp = .ok r₁ ∧
      r.1 = users.set i { ci with seqNo := ci.seqNo + 1, reassembleList := ci.reassembleList ++ [checkPeek r₁.1] } ∧ r.2.1 = r₁.2.1 := by
  obtain ⟨_, -, h⟩ := bind_eq_ok.mp h
  obtain ⟨_, -, h⟩ := bind_eq_ok.mp h
  obtain ⟨_, -, h⟩ := bind_eq_ok.mp h
  obtain ⟨_, -, h⟩ := bind_eq_ok.mp h
  obtain ⟨_, -, h⟩ := bind_eq_ok.mp h
  obtain ⟨id, -, h⟩ := bind_eq_ok.mp h
  obtain ⟨_, -, h⟩ := bind_eq_ok.mp h
  split at h
  · cases h
    exact .inl ⟨rfl, rfl⟩
  case h_2 i hfound =>
    split at h
    · cases h
      exact .inl ⟨rfl, rfl⟩
    case h_2 ci hci =>
      obtain ⟨r₁, hnames, h⟩ := bind_eq_ok.mp h
      obtain ⟨_, -, hret⟩ := bind_eq_ok.mp h
      cases hret
      obtain ⟨numNames, hnum, hnames⟩ := bind_eq_ok.mp hnames
      obtain ⟨r₂, htree, hret⟩ := bind_eq_ok.mp hnames
      cases hret
      exact .inr ⟨i, ci, numNames, r₂, hci, hnum, htree, rfl, rfl⟩

theorem deliverChunks_ok {cs : List WireChunk} {chunks : List Bytes} {ri : ReassembleInfo} {r : ReassembleInfo × TempCache}
    (hcs : List.Forall₂ (CarriesChunk sha1) cs chunks) (h : deliverChunks cfg sha1 pickPeer cs ri tmp = .ok r) :
    ∃ names, r.1.nameList = ri.nameList ++ names ∧ List.Forall₂ (StandsFor sha1) names chunks ∧
      ∀ P, HoldsOnly P tmp → (∀ chunk ∈ chunks, P (sha1 chunk) chunk) → HoldsOnly P r.2 := by
  induction hcs generalizing ri tmp with
  | nil =>
      cases h
      exact ⟨[], (List.append_nil _).symm, .nil, fun P hP _ => hP⟩
  | @cons c chunk cs chunks hc hcs ih =>
      obtain ⟨r₁, hone, h⟩ := bind_eq_ok.mp h
      obtain ⟨hnames, htmp⟩ := deliverChunk_ok hone
      obtain ⟨names, hrest, hstands, hholds⟩ := ih h
      refine ⟨⟨c.sha1name, c.length.toNat, true, c.content.isSome, pickPeer c.sha1name⟩ :: names, ?_,
        .cons ⟨hc.name_eq, hc.length_eq⟩ hstands, ?_⟩
      · rw [hrest, hnames, List.append_assoc, List.singleton_append]
      · intro P hP hchunks
        refine hholds P ?_ fun x hx => hchunks x (List.mem_cons_of_mem chunk hx)
        rcases htmp with hsame | ⟨content, hcontent, hput⟩
        · rwa [hsame]
        · obtain rfl := hc.content_eq content hcontent
          apply refPutChunkCallback_holdsOnly hP _ hput
          rw [hc.name_eq]
          exact hchunks content List.mem_cons_self

theorem OneCandidate.slice_length {psrc : Bytes} {c : OneCandidate} (hend : c.offset + c.length ≤ psrc.length) :
    (c.slice psrc).length = c.length := by
  rw [OneCandidate.slice, List.length_take, List.length_drop]
  omega

/-- What is read of a delivery carries the chunks of the block. -/
theorem carriesChunk_of_sameOnWire {psrc : Bytes} {cands : List OneCandidate} {cs : List WireChunk}
    (h : List.Forall₂ (SameOnWire psrc) cands cs) (hend : ∀ c ∈ cands, c.offset + c.length ≤ psrc.length)
    (hname : ∀ c ∈ cands, c.sha1name = sha1 (c.slice psrc)) :
    List.Forall₂ (CarriesChunk sha1) cs (cands.map (OneCandidate.slice psrc)) := by
  induction h with
  | nil => exact .nil
  | @cons c w cands cs hcw _ ih =>
      refine .cons ⟨?_, ?_, ?_⟩ (ih (fun d hd => hend d (List.mem_cons_of_mem c hd)) fun d hd => hname d (List.mem_cons_of_mem c hd))
      · rw [hcw.name_eq]
        exact hname c List.mem_cons_self
      · rw [hcw.length_eq, OneCandidate.slice_length (hend c List.mem_cons_self)]
      · intro content hcontent
        rw [hcw.content_eq] at hcontent
        split at hcontent
        · cases hcontent
          rfl
        · cases hcontent

theorem deliverMessage_names {ci : UserConnection} {id : ConnectionID} {msg psrc : Bytes} {pNames : NameTable} {cands : List OneCandidate}
    {n : Nat} {r : List UserConnection × TempCache} (htiles : Tiles OneCandidate.offset OneCandidate.length 0 n cands)
    (hsrc : n ≤ psrc.length) (hle : psrc.length ≤ recvBufsize) (hentry : ∀ c ∈ cands, (pNames c.index).sha1name = c.sha1name)
    (hname : ∀ c ∈ cands, c.sha1name = sha1 (c.slice psrc))
    (hbuild : buildWANameTreeDelivery3 cfg sha1 id psrc pNames cands cands.length (cands.map OneCandidate.wireLength).sum = .ok msg)
    (h : deliverMessage cfg sha1 pickPeer msg [ci] tmp = .ok r) :
    Delivered sha1 ⟨msg, psrc.take n, cands.map (OneCandidate.slice psrc)⟩ ci tmp r.1 r.2 := by
  have hrecv : recvBufsize < 2 ^ 20 := by decide
  have hcount : cands.length ≤ n := by
    have hone : ∀ c ∈ cands.map OneCandidate.length, 1 ≤ c := by
      intro l hl
      obtain ⟨c, hc, rfl⟩ := List.mem_map.mp hl
      exact (tiles_mem htiles hc).2.2
    have hsum := tiles_sum htiles
    have := List.length_le_sum_of_one_le _ hone
    rw [List.length_map] at this
    omega
  have hwire := wireLength_sum_le htiles
  have hsmall : sizeofWANameDelivery + sizeofWAOneTree + (cands.map OneCandidate.wireLength).sum < 2 ^ 31 := by
    simp only [sizeofWANameDelivery, sizeofWAOneTree, sizeofWAOneChunk] at hwire ⊢
    omega
  have hid : id.Known := by
    obtain ⟨chunks, -, hmsg⟩ := bind_eq_ok.mp hbuild
    obtain ⟨hdr, hfill, -⟩ := bind_eq_ok.mp hmsg
    exact (fillControlHeader_ok hfill).1
  obtain ⟨newmsgLen, msg', cs, hmeasure, hmsg', -, -, hconn, -, hcs, hprocess⟩ := nameDelivery_roundTrip hid htiles hsrc hentry
    (fun _ => hname) (by omega) hsmall
  rw [getCandidateMessageLength_eq htiles] at hmeasure
  cases hmeasure
  cases hbuild.symm.trans hmsg'
  have htype : readAt msg 1 1 = .ok [typeWANameDelivery] := by
    obtain ⟨chunks, -, hmsg⟩ := bind_eq_ok.mp hbuild
    obtain ⟨hdr, hfill, hret⟩ := bind_eq_ok.mp hmsg
    cases hret
    exact readAt_type hfill _
  have hcarries := carriesChunk_of_sameOnWire hcs (fun c hc => (tiles_mem htiles hc).2.1.trans hsrc) hname
  have hflatten : (cands.map (OneCandidate.slice psrc)).flatten = psrc.take n := slices_flatten htiles
  rw [deliverMessage, htype, ok_bind, if_pos rfl, hprocess] at h
  obtain ⟨r₁, hrun, hret⟩ := bind_eq_ok.mp h
  cases hret
  obtain ⟨r₂, hreceive, hret⟩ := bind_eq_ok.mp hrun
  cases hret
  unfold receiveDelivery at hreceive
  rcases getDestinationConnection_single ci id with hnone | hsome
  · rw [hnone] at hreceive
    cases hreceive
    exact .elsewhere (not_isFor hconn hnone)
  · rw [hsome] at hreceive
    obtain ⟨r₃, hnames, hret⟩ := bind_eq_ok.mp hreceive
    cases hret
    obtain ⟨r₄, hchunks, hret⟩ := bind_eq_ok.mp hnames
    cases hret
    obtain ⟨names, hlist, hstands, hholds⟩ := deliverChunks_ok hcarries hchunks
    have hpeek : (checkPeek r₄.1).nameList = names := by
      rw [show (checkPeek r₄.1).nameList = r₄.1.nameList by unfold checkPeek; split <;> rfl, hlist]
      rfl
    exact .names ⟨id, hconn, hsome⟩ hflatten (hpeek ▸ hstands) hholds

/-- What a message of a sender does at its destination. -/
theorem Announced.delivered {ci : UserConnection} {o : Outgoing} {r : List UserConnection × TempCache} (ho : Announced cfg sha1 o)
    (h : deliverMessage cfg sha1 pickPeer o.message [ci] tmp = .ok r) : Delivered sha1 o ci tmp r.1 r.2 := by
  cases ho with
  | raw hbuild hle => exact deliverMessage_raw hbuild hle h
  | names htiles hpos hsrc hle hentry hname hbuild => exact deliverMessage_names htiles hsrc hle hentry hname hbuild h

end Names

end BeagleCache
