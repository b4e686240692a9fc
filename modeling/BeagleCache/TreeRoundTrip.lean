import BeagleCache.TreeInit
import BeagleCache.NameDelivery

/-! When a full tree survives its delivery. The encoder and the decoder agree entry by entry as long as no entry
carries content of its own length: the content of a `chunk_both` is never written, and of a `chunk_raw` four bytes
are, whatever its length. Behind the first entry of another size the two are out of step. -/

namespace BeagleCache

open Run

/-- What the decoder should have made of an entry: the fields its type calls for. -/
structure SameEntry (name got : OneChunkName) : Prop where
  type_eq : got.type = name.type
  length_eq : got.length = name.length
  index_eq : got.index = name.index
  sha1name_eq : name.type = .chunkName ∨ name.type = .chunkBoth → got.sha1name = name.sha1name
  content_eq : name.type = .chunkRaw ∨ name.type = .chunkBoth → got.content = name.content
  rindex_eq : name.type = .chunkIndex → got.rindex = name.rindex

/-- The array is written in as many bytes as were measured and read back from them, whatever the decoder's static
table `prev` held before. -/
def RoundTrips (cfg : Config) (id : ConnectionID) (names : NameTable) (n numLevels : Nat) : Prop :=
  ∀ prev seq, ∃ msg info, buildWANameTreeDelivery2 id n names numLevels = .ok msg ∧
    msg.length = sizeofWANameDelivery + sizeofWAOneTree + getAcutalTreeSize names n ∧
    decodeOneTree cfg prev (msg.drop sizeofWANameDelivery) seq = .ok (info, msg.length - sizeofWANameDelivery) ∧
    info.numNames = n ∧ info.numLevels = numLevels ∧ ∀ k, k < n → SameEntry (names k) (info.pNames k)

/-- The array with other hashes and contents. -/
def refill (hash : Nat → Sha1Name) (mem : Nat → Bytes) (names : NameTable) : NameTable :=
  fun k => { names k with sha1name := hash k, pChunk := some (mem k) }

/-- An entry is written in as many bytes as it is read from. -/
def WellSized (names : NameTable) (k : Nat) : Prop :=
  match (names k).type with
  | .chunkName => True
  | .chunkBoth => False
  | .chunkRaw => (names k).length = 4
  | .chunkIndex => (names k).length = (names (names k).rindex.toNat).length

/-- The arrays that survive their delivery: every entry has the size the encoder writes, and the entries are the
tree `InitChunkTreeInfo` rebuilds, in `numLevels` levels. Entries behind the last level are passed over when the
tree has `g_maxLevel` levels. -/
structure Deliverable (cfg : Config) (names : NameTable) (n numLevels : Nat) : Prop where
  pos : 0 < n
  fits : n ≤ cfg.maxNames
  root : 0 < (names 0).length
  index_eq : ∀ k, k < n → (names k).index = k
  sized : ∀ k, k < n → WellSized names k
  tree : ∃ off e levels, LevelTree names off e levels ∧ e ≤ n ∧ (e = n ∨ levels.length = cfg.maxLevel) ∧
    levels.length = numLevels ∧ numLevels ≤ cfg.maxLevel

/-! ## Writing -/

/-- What the encoder writes for an entry. -/
def entryBytes (name : OneChunkName) : Bytes :=
  memInt name.type.code ++ match name.type with
    | .chunkName => memInt (BitVec.ofNat 32 name.length) ++ name.sha1name.bytes
    | .chunkBoth => memInt (BitVec.ofNat 32 name.length) ++ name.sha1name.bytes
    | .chunkRaw => memInt (BitVec.ofNat 32 name.length) ++ (name.pChunk.getD []).take 4
    | .chunkIndex => memInt (BitVec.ofInt 32 name.rindex)

/-- Four bytes can be read from the content of a raw entry. -/
def Readable (name : OneChunkName) : Prop :=
  name.type = .chunkRaw → ∃ mem, name.pChunk = some mem ∧ 4 ≤ mem.length

section Write

variable {names : List OneChunkName} {lenTree actualLen : Nat}

theorem encodeEntry_eq {name : OneChunkName} (h : Readable name) : encodeEntry name = .ok (entryBytes name) := by
  unfold encodeEntry entryBytes
  cases htype : name.type with
  | chunkName => rfl
  | chunkBoth => rfl
  | chunkIndex => rfl
  | chunkRaw =>
      obtain ⟨mem, hmem, hlen⟩ := h htype
      simp only [hmem, readAt, Nat.zero_add, if_pos hlen, List.drop_zero, Option.getD_some]
      rfl

theorem encodeEntries_eq (h : ∀ name ∈ names, Readable name)
    (hlen : actualLen + (names.flatMap entryBytes).length = lenTree) :
    encodeEntries lenTree actualLen names = .ok (names.flatMap entryBytes) := by
  induction names generalizing actualLen with
  | nil =>
      rw [encodeEntries, check_of (by simpa using hlen)]
      rfl
  | cons name rest ih =>
      rw [List.flatMap_cons, List.length_append] at hlen
      rw [encodeEntries, encodeEntry_eq (h name (by simp)), ok_bind, inBounds_of (by omega), ok_bind,
        ih (fun x hx => h x (List.mem_cons_of_mem name hx)) (by omega)]
      rfl

theorem encodeEntries_ok (h : ∀ name ∈ names, Readable name) {bytes : Bytes}
    (hrun : encodeEntries lenTree actualLen names = .ok bytes) :
    bytes = names.flatMap entryBytes ∧ actualLen + bytes.length = lenTree := by
  induction names generalizing actualLen bytes with
  | nil =>
      rw [encodeEntries] at hrun
      obtain ⟨_, hcheck, hret⟩ := bind_eq_ok.mp hrun
      cases hret
      exact ⟨rfl, check_eq_ok.mp hcheck⟩
  | cons name rest ih =>
      rw [encodeEntries, encodeEntry_eq (h name (by simp)), ok_bind] at hrun
      obtain ⟨_, -, hrun⟩ := bind_eq_ok.mp hrun
      obtain ⟨tail, htail, hret⟩ := bind_eq_ok.mp hrun
      cases hret
      obtain ⟨rfl, hlen⟩ := ih (fun x hx => h x (List.mem_cons_of_mem name hx)) htail
      refine ⟨rfl, ?_⟩
      rw [List.length_append]
      omega

end Write

/-! ## Reading one entry -/

/-- What `InitChunkTreeInfo` sees of a delivered entry. -/
def plainEntry (name : OneChunkName) : OneChunkName :=
  { initOneChunk default with
    type := name.type
    length := name.length
    rindex := if name.type = .chunkIndex then name.rindex else -1 }

/-- The other fields of entry `k`; the hash of an entry without one is what its memory held before. -/
def receivedExtras (prev name : OneChunkName) (k : Nat) : Extras where
  sha1name := if name.type = .chunkName then name.sha1name else prev.sha1name
  pChunk := if name.type = .chunkRaw then some ((name.pChunk.getD []).take 4) else none
  freeChunk := decide (name.type = .chunkRaw)
  index := k
  offset := 0

section Read

theorem ofCode_code (type : ChunkType) : ChunkType.ofCode type.code = some type := by
  cases type <;> decide

theorem toInt_ofInt_of_lt {x : Int} (h0 : 0 ≤ x) (hx : x < 2 ^ 31) : (BitVec.ofInt 32 x).toInt = x := by
  rw [BitVec.toInt_ofInt, Int.bmod_eq_of_le (by omega) (by omega)]

variable {table : NameTable} {k : Nat} {name : OneChunkName} (pre post : Bytes)

theorem readInt_type (pre post : Bytes) (name : OneChunkName) :
    readInt (pre ++ (entryBytes name ++ post)) pre.length = .ok name.type.code := by
  rw [readInt_skip pre _ (show pre.length = pre.length + 0 from rfl), entryBytes, List.append_assoc, readInt_head]

theorem readInt_second (pre post : Bytes) (x y : BitVec 32) :
    readInt (pre ++ (memInt x ++ (memInt y ++ post))) (pre.length + 4) = .ok y := by
  rw [readInt_skip pre _ rfl, readInt_skip (memInt x) _ (show 4 = (memInt x).length + 0 from rfl), readInt_head]

theorem decodeEntry_raw (pre tail : Bytes) {len : Nat} (hlen : len < 2 ^ 31) :
    decodeEntry table k (pre ++ (memInt ChunkType.chunkRaw.code ++ (memInt (BitVec.ofNat 32 len) ++ tail))) pre.length =
      (check (0 < len) >>= fun _ => readAt tail 0 len >>= fun content =>
        .ok ({ initOneChunk (table k) with
          index := k, type := .chunkRaw, length := len, pChunk := some content, freeChunk := true }, pre.length + 8 + len)) := by
  have hcontent : readAt (pre ++ (memInt ChunkType.chunkRaw.code ++ (memInt (BitVec.ofNat 32 len) ++ tail))) (pre.length + 8) len =
      readAt tail 0 len := by
    rw [readAt_skip pre _ rfl, readAt_skip (memInt _) _ (show 8 = (memInt ChunkType.chunkRaw.code).length + 4 from rfl),
      readAt_skip (memInt _) _ (show 4 = (memInt (BitVec.ofNat 32 len)).length + 0 from rfl)]
  have hpos : (0 : Int) < len ↔ 0 < len := by omega
  unfold decodeEntry
  rw [readInt_skip pre _ (show pre.length = pre.length + 0 from rfl), readInt_head, ok_bind, ofCode_code]
  simp only
  rw [readInt_second, ok_bind, toInt_ofNat_of_lt hlen, toNat_ofNat_of_lt hlen, hcontent]
  simp only [hpos]
  rfl

theorem decodeEntry_both (pre tail : Bytes) (sha1name : Sha1Name) {len : Nat} (hlen : len < 2 ^ 31) :
    decodeEntry table k (pre ++ (memInt ChunkType.chunkBoth.code ++ (memInt (BitVec.ofNat 32 len) ++ (sha1name.bytes ++ tail))))
        pre.length =
      (check (0 < len) >>= fun _ => readAt tail 0 len >>= fun content =>
        .ok ({ initOneChunk (table k) with
          index := k, type := .chunkBoth, length := len, sha1name := sha1name, pChunk := some content, freeChunk := true },
          pre.length + 8 + sha1Len + len)) := by
  have hname : readSha1Name (pre ++ (memInt ChunkType.chunkBoth.code ++ (memInt (BitVec.ofNat 32 len) ++ (sha1name.bytes ++ tail))))
      (pre.length + 8) = .ok sha1name := by
    rw [readSha1Name_skip pre _ rfl, readSha1Name_skip (memInt _) _ (show 8 = (memInt ChunkType.chunkBoth.code).length + 4 from rfl),
      readSha1Name_skip (memInt _) _ (show 4 = (memInt (BitVec.ofNat 32 len)).length + 0 from rfl), readSha1Name_head]
  have hcontent : readAt (pre ++ (memInt ChunkType.chunkBoth.code ++ (memInt (BitVec.ofNat 32 len) ++ (sha1name.bytes ++ tail))))
      (pre.length + 8 + sha1Len) len = readAt tail 0 len := by
    rw [Nat.add_assoc, readAt_skip pre _ rfl,
      readAt_skip (memInt _) _ (show 8 + sha1Len = (memInt ChunkType.chunkBoth.code).length + 24 from rfl),
      readAt_skip (memInt _) _ (show 24 = (memInt (BitVec.ofNat 32 len)).length + 20 from rfl),
      readAt_skip sha1name.bytes _ (show 20 = sha1name.bytes.length + 0 by rw [sha1name.length_eq])]
  have hpos : (0 : Int) < len ↔ 0 < len := by omega
  unfold decodeEntry
  rw [readInt_skip pre _ (show pre.length = pre.length + 0 from rfl), readInt_head, ok_bind, ofCode_code]
  simp only
  rw [readInt_second, ok_bind, hname, ok_bind, toInt_ofNat_of_lt hlen, toNat_ofNat_of_lt hlen, hcontent]
  simp only [hpos]
  rfl

/-- An entry of the size that was written is read back, and the decoder stands behind it. -/
theorem decodeEntry_eq (hlength : name.length < 2 ^ 31) (hboth : name.type ≠ .chunkBoth)
    (hraw : name.type = .chunkRaw → name.length = 4) (hread : Readable name)
    (hindex : name.type = .chunkIndex → 0 ≤ name.rindex ∧ name.rindex < k ∧ k < 2 ^ 31 ∧
      name.length = (table name.rindex.toNat).length) :
    decodeEntry table k (pre ++ (entryBytes name ++ post)) pre.length =
      .ok ((plainEntry name).withExtras (receivedExtras (table k) name k), pre.length + (entryBytes name).length) := by
  cases htype : name.type with
  | chunkBoth => exact absurd htype hboth
  | chunkName =>
      have hbytes : entryBytes name ++ post = memInt name.type.code ++ (memInt (BitVec.ofNat 32 name.length) ++
          (name.sha1name.bytes ++ post)) := by
        simp only [entryBytes, htype, List.append_assoc]
      have hname : readSha1Name (pre ++ (entryBytes name ++ post)) (pre.length + 8) = .ok name.sha1name := by
        rw [hbytes, readSha1Name_skip pre _ rfl,
          readSha1Name_skip (memInt _) _ (show 8 = (memInt name.type.code).length + 4 from rfl),
          readSha1Name_skip (memInt _) _ (show 4 = (memInt (BitVec.ofNat 32 name.length)).length + 0 from rfl), readSha1Name_head]
      unfold decodeEntry
      rw [readInt_type, ok_bind, ofCode_code, htype]
      simp only
      rw [hname, hbytes, readInt_second, ok_bind, ok_bind]
      simp [entryBytes, htype, plainEntry, receivedExtras, OneChunkName.withExtras, initOneChunk, toNat_ofNat_of_lt hlength,
        name.sha1name.length_eq, sha1Len]
  | chunkRaw =>
      obtain ⟨mem, hmem, hmemlen⟩ := hread htype
      have h4 := hraw htype
      have hbytes : entryBytes name ++ post = memInt ChunkType.chunkRaw.code ++ (memInt (BitVec.ofNat 32 name.length) ++
          (mem.take 4 ++ post)) := by
        simp only [entryBytes, htype, hmem, Option.getD_some, List.append_assoc]
      have hfour : (mem.take 4).length = 4 := by
        rw [List.length_take]
        omega
      rw [hbytes, decodeEntry_raw pre _ hlength, check_of (by omega), ok_bind,
        readAt_head (mem.take 4) post (by rw [hfour, h4]), ok_bind]
      simp [entryBytes, htype, hmem, plainEntry, receivedExtras, OneChunkName.withExtras, initOneChunk, h4, hfour]
  | chunkIndex =>
      obtain ⟨h0, hlt, hk, hsame⟩ := hindex htype
      have hbytes : entryBytes name ++ post = memInt name.type.code ++ (memInt (BitVec.ofInt 32 name.rindex) ++ post) := by
        simp only [entryBytes, htype, List.append_assoc]
      have hint := toInt_ofInt_of_lt h0 (by omega)
      have hnat : (BitVec.ofInt 32 name.rindex).toNat = name.rindex.toNat := by
        rw [BitVec.toNat_ofInt]
        omega
      unfold decodeEntry
      rw [readInt_type, ok_bind, ofCode_code, htype]
      simp only
      rw [hbytes, readInt_second, ok_bind, hint, check_of hlt, ok_bind, inBounds_of h0, ok_bind, hnat, ← hsame]
      simp [entryBytes, htype, plainEntry, receivedExtras, OneChunkName.withExtras, initOneChunk]

end Read

/-! ## Reading all entries -/

/-- The entries from `j` on, `m` of them, in the decoder's table. -/
def receivedTable (names table : NameTable) (j m : Nat) : NameTable := fun k =>
  if j ≤ k ∧ k < j + m then (plainEntry (names k)).withExtras (receivedExtras (table k) (names k) k) else table k

/-- The bytes of the entries from `j` on, `m` of them. -/
def entriesBytes (names : NameTable) (j m : Nat) : Bytes := (List.range' j m).flatMap fun k => entryBytes (names k)

theorem entriesBytes_succ (names : NameTable) (j m : Nat) :
    entriesBytes names j (m + 1) = entryBytes (names j) ++ entriesBytes names (j + 1) m := by
  rw [entriesBytes, List.range'_succ, List.flatMap_cons, entriesBytes]

theorem receivedTable_succ (names table : NameTable) (j m : Nat) :
    receivedTable names (receivedTable names table j 1) (j + 1) m = receivedTable names table j (m + 1) := by
  funext k
  by_cases hk : k = j
  · subst hk
    simp [receivedTable]
  · by_cases hlate : j + 1 ≤ k ∧ k < j + 1 + m
    · rw [receivedTable, receivedTable, receivedTable, if_pos hlate, if_neg (by omega), if_pos (by omega)]
    · rw [receivedTable, receivedTable, receivedTable, if_neg hlate, if_neg (by omega), if_neg (by omega)]

theorem update_eq_receivedTable (names table : NameTable) (j : Nat) :
    Function.update table j ((plainEntry (names j)).withExtras (receivedExtras (table j) (names j) j)) =
      receivedTable names table j 1 := by
  funext k
  by_cases hk : k = j
  · subst hk
    simp [receivedTable]
  · rw [Function.update_of_ne hk, receivedTable, if_neg (by omega)]

/-- What a message may hold: its length and the lengths of the entries are `int`s, indices point at earlier entries. -/
structure Encodable (names : NameTable) (n : Nat) : Prop where
  size : sizeofWANameDelivery + sizeofWAOneTree + getAcutalTreeSize names n < 2 ^ 31
  length_lt : ∀ k, k < n → (names k).length < 2 ^ 31
  rindex_lt : ∀ k, k < n → (names k).type = .chunkIndex → 0 ≤ (names k).rindex ∧ (names k).rindex < k

theorem Encodable.count {names : NameTable} {n : Nat} (h : Encodable names n) : n < 2 ^ 31 := by
  have hone : ∀ x ∈ (List.range n).map fun k => (names k).treeSize, 1 ≤ x := by
    intro x hx
    obtain ⟨k, -, rfl⟩ := List.mem_map.mp hx
    unfold OneChunkName.treeSize
    split <;> omega
  have hsum := List.length_le_sum_of_one_le _ hone
  have hsize := h.size
  rw [List.length_map, List.length_range] at hsum
  unfold getAcutalTreeSize at hsize
  omega

section ReadAll

variable {cfg : Config} {names table : NameTable} {n : Nat}

/-- An entry of the right size is read back into a table that has the lengths of the entries before it. -/
theorem decodeEntry_wellSized (henc : Encodable names n) {j : Nat} (hj : j < n) (hsized : WellSized names j)
    (hread : Readable (names j)) (hbefore : ∀ i, i < j → (table i).length = (names i).length) (pre post : Bytes) :
    decodeEntry table j (pre ++ (entryBytes (names j) ++ post)) pre.length =
      .ok ((plainEntry (names j)).withExtras (receivedExtras (table j) (names j) j),
        pre.length + (entryBytes (names j)).length) := by
  have hcount := henc.count
  unfold WellSized at hsized
  refine decodeEntry_eq pre post (henc.length_lt j hj) ?_ ?_ hread ?_
  · intro htype
    rw [htype] at hsized
    exact hsized
  · intro htype
    rw [htype] at hsized
    exact hsized
  · intro htype
    obtain ⟨h0, hlt⟩ := henc.rindex_lt j hj htype
    rw [htype] at hsized
    exact ⟨h0, hlt, by omega, by rw [hbefore _ (by omega)]; exact hsized⟩

theorem receivedTable_lengths {j : Nat} (hbefore : ∀ i, i < j → (table i).length = (names i).length) :
    ∀ i, i < j + 1 → (receivedTable names table j 1 i).length = (names i).length := by
  intro i hi
  unfold receivedTable
  split
  · rfl
  · exact hbefore i (by omega)

theorem decodeEntries_eq (henc : Encodable names n) (hmax : n ≤ cfg.maxNames) (hread : ∀ k, k < n → Readable (names k))
    (hsized : ∀ k, k < n → WellSized names k) {m j : Nat} (hm : j + m = n)
    (hbefore : ∀ i, i < j → (table i).length = (names i).length) (pre : Bytes) :
    decodeEntries cfg (pre ++ entriesBytes names j m) m j pre.length table =
      .ok (receivedTable names table j m, pre.length + (entriesBytes names j m).length) := by
  induction m generalizing j table pre with
  | zero =>
      have htable : receivedTable names table j 0 = table := by
        funext k
        rw [receivedTable, if_neg (by omega)]
      rw [htable]
      rfl
  | succ m ih =>
      have hj : j < n := by omega
      have hrest := ih (j := j + 1) (by omega) (receivedTable_lengths hbefore) (pre ++ entryBytes (names j))
      rw [List.append_assoc, List.length_append] at hrest
      rw [entriesBytes_succ, decodeEntries, inBounds_of (by omega), ok_bind,
        decodeEntry_wellSized henc hj (hsized j hj) (hread j hj) hbefore, ok_bind]
      simp only
      rw [check_of (by rw [List.length_append, List.length_append]; omega), ok_bind, update_eq_receivedTable, hrest,
        receivedTable_succ, List.length_append, Nat.add_assoc]

end ReadAll

/-! ## Behind an entry of another size

Contents of bytes `0xff` show where the decoder stands: no type starts with such a byte. -/

section OutOfStep

variable {cfg : Config} {names table table' : NameTable} {n : Nat}

theorem ofCode_of_head (b c d : Byte) : ChunkType.ofCode (intMem [0xff, b, c, d]) = none := by
  have hbit : (intMem [0xff, b, c, d]).getLsbD 7 = true := by
    rw [intMem, BitVec.getLsbD_append]
    rfl
  have hne : ∀ x : BitVec 32, x.getLsbD 7 = false → intMem [0xff, b, c, d] ≠ x := by
    intro x hx heq
    rw [heq, hx] at hbit
    cases hbit
  rw [ChunkType.ofCode, if_neg (hne 0 rfl), if_neg (hne 1 rfl), if_neg (hne 2 rfl), if_neg (hne 3 rfl)]

theorem decodeEntry_of_head (pre tail : Bytes) {off j : Nat} (hoff : off = pre.length) (r : OneChunkName × Nat) :
    decodeEntry table j (pre ++ (0xff :: tail)) off ≠ .ok r := by
  intro h
  unfold decodeEntry at h
  obtain ⟨type, htype, h⟩ := bind_eq_ok.mp h
  have hnone : ChunkType.ofCode type = none := by
    rw [readInt_skip pre _ (show off = pre.length + 0 from hoff), readInt, readAt] at htype
    split at htype
    case isTrue hlen =>
      obtain ⟨b, c, d, tail', rfl⟩ : ∃ b c d tail', tail = b :: c :: d :: tail' := by
        rcases tail with _ | ⟨b, _ | ⟨c, _ | ⟨d, tail'⟩⟩⟩
        · simp at hlen
        · simp at hlen
        · simp at hlen
        · exact ⟨b, c, d, tail', rfl⟩
      cases htype
      exact ofCode_of_head b c d
    case isFalse => cases htype
  rw [hnone] at h
  cases h

theorem entriesBytes_head {j m : Nat} {b : Byte} {tail : Bytes} (h : entriesBytes names j m = b :: tail) : b ≠ 0xff := by
  cases m with
  | zero => cases h
  | succ m =>
      rw [entriesBytes_succ, entryBytes, List.append_assoc] at h
      obtain ⟨rfl, -⟩ := List.cons.inj h
      cases (names j).type <;> decide

theorem content_not_read {j m len : Nat} {content : Bytes} (hpos : 0 < len)
    (hread : readAt (entriesBytes names j m) 0 len = .ok content) : content ≠ List.replicate len 0xff := by
  intro hcontent
  unfold readAt at hread
  split at hread
  case isTrue hle =>
    cases hbytes : entriesBytes names j m with
    | nil =>
        rw [hbytes] at hle
        simp at hle
        omega
    | cons b tail =>
        obtain ⟨len, rfl⟩ := Nat.exists_eq_add_one.mpr hpos
        rw [hbytes, hcontent] at hread
        rw [List.drop_zero, List.take_succ_cons, List.replicate_succ] at hread
        exact entriesBytes_head hbytes (List.cons.inj (Except.ok.inj hread)).1
  case isFalse => cases hread

theorem decodeEntries_frame {buffer : Bytes} {m j off e : Nat} (h : decodeEntries cfg buffer m j off table = .ok (table', e))
    {i : Nat} (hi : i < j) : table' i = table i := by
  induction m generalizing j off table with
  | zero =>
      cases h
      rfl
  | succ m ih =>
      rw [decodeEntries] at h
      obtain ⟨_, -, h⟩ := bind_eq_ok.mp h
      obtain ⟨r, -, h⟩ := bind_eq_ok.mp h
      obtain ⟨_, -, h⟩ := bind_eq_ok.mp h
      rw [ih h (by omega), Function.update_of_ne (by omega)]

/-- A raw entry of another size than four bytes stops the decoder, or its content is not what was sent. -/
theorem raw_out_of_step {pre : Bytes} {j m e len : Nat} (hlen : len < 2 ^ 31) (hne : len ≠ 4)
    (hrun : decodeEntries cfg (pre ++ (memInt ChunkType.chunkRaw.code ++ (memInt (BitVec.ofNat 32 len) ++
      (List.replicate 4 0xff ++ entriesBytes names (j + 1) m)))) (m + 1) j pre.length table = .ok (table', e))
    (hend : e = pre.length + 12 + (entriesBytes names (j + 1) m).length) :
    (table' j).content ≠ List.replicate len 0xff := by
  rw [decodeEntries, decodeEntry_raw pre _ hlen] at hrun
  obtain ⟨_, -, hrun⟩ := bind_eq_ok.mp hrun
  obtain ⟨r, hr, hrun⟩ := bind_eq_ok.mp hrun
  obtain ⟨_, -, hrun⟩ := bind_eq_ok.mp hrun
  obtain ⟨_, hpos, hr⟩ := bind_eq_ok.mp hr
  obtain ⟨content, hcontent, hr⟩ := bind_eq_ok.mp hr
  cases hr
  have hlenpos := check_eq_ok.mp hpos
  rw [decodeEntries_frame hrun (Nat.lt_succ_self j), Function.update_self]
  intro heq
  have hff : content = List.replicate len 0xff := by
    rw [← heq]
    exact (List.take_of_length_le (le_of_eq (readAt_length hcontent))).symm
  rcases Nat.lt_or_gt_of_ne hne with hshort | hlong
  · -- the decoder stands inside the four bytes
    have hbuffer : pre ++ (memInt ChunkType.chunkRaw.code ++ (memInt (BitVec.ofNat 32 len) ++
        (List.replicate 4 0xff ++ entriesBytes names (j + 1) m))) =
        (pre ++ (memInt ChunkType.chunkRaw.code ++ (memInt (BitVec.ofNat 32 len) ++ List.replicate len 0xff))) ++
          (0xff :: (List.replicate (3 - len) 0xff ++ entriesBytes names (j + 1) m)) := by
      have hfour : List.replicate 4 (0xff : Byte) = List.replicate len 0xff ++ 0xff :: List.replicate (3 - len) 0xff := by
        rw [← List.replicate_succ, ← List.replicate_add]
        congr 1
        omega
      rw [hfour]
      simp only [List.append_assoc, List.cons_append]
    rw [hbuffer] at hrun
    cases m with
    | zero =>
        cases hrun
        simp [entriesBytes] at hend
        omega
    | succ m =>
        rw [decodeEntries] at hrun
        obtain ⟨_, -, hrun⟩ := bind_eq_ok.mp hrun
        obtain ⟨r, hr, -⟩ := bind_eq_ok.mp hrun
        refine decodeEntry_of_head _ _ ?_ r hr
        simp only [List.length_append, memInt_length, List.length_replicate]
        omega
  · -- the content runs into the next entry
    have hnext : readAt (entriesBytes names (j + 1) m) 0 (len - 4) = .ok (List.replicate (len - 4) 0xff) := by
      unfold readAt at hcontent ⊢
      split at hcontent
      case isTrue hle =>
        rw [List.length_append, List.length_replicate] at hle
        rw [if_pos (by omega)]
        rw [hff, List.drop_zero, show len = 4 + (len - 4) by omega, List.take_add, List.replicate_add] at hcontent
        have htail := (List.append_inj (Except.ok.inj hcontent) (by simp)).2
        simpa using htail
      case isFalse => cases hcontent
    exact content_not_read (by omega) hnext rfl

theorem both_out_of_step {pre : Bytes} {j m e len : Nat} {sha1name : Sha1Name} (hlen : len < 2 ^ 31)
    (hrun : decodeEntries cfg (pre ++ (memInt ChunkType.chunkBoth.code ++ (memInt (BitVec.ofNat 32 len) ++
      (sha1name.bytes ++ entriesBytes names (j + 1) m)))) (m + 1) j pre.length table = .ok (table', e)) :
    (table' j).content ≠ List.replicate len 0xff := by
  rw [decodeEntries, decodeEntry_both pre _ sha1name hlen] at hrun
  obtain ⟨_, -, hrun⟩ := bind_eq_ok.mp hrun
  obtain ⟨r, hr, hrun⟩ := bind_eq_ok.mp hrun
  obtain ⟨_, -, hrun⟩ := bind_eq_ok.mp hrun
  obtain ⟨_, hpos, hr⟩ := bind_eq_ok.mp hr
  obtain ⟨content, hcontent, hr⟩ := bind_eq_ok.mp hr
  cases hr
  rw [decodeEntries_frame hrun (Nat.lt_succ_self j), Function.update_self]
  intro heq
  have hff : content = List.replicate len 0xff := by
    rw [← heq]
    exact (List.take_of_length_le (le_of_eq (readAt_length hcontent))).symm
  exact content_not_read (check_eq_ok.mp hpos) hcontent hff

theorem index_length {pre post : Bytes} {j : Nat} {name : OneChunkName} {r : OneChunkName × Nat} (htype : name.type = .chunkIndex)
    (h0 : 0 ≤ name.rindex) (hlt : name.rindex < j) (hj : j < 2 ^ 31)
    (h : decodeEntry table j (pre ++ (entryBytes name ++ post)) pre.length = .ok r) :
    r.1.length = (table name.rindex.toNat).length := by
  have hbytes : entryBytes name ++ post = memInt name.type.code ++ (memInt (BitVec.ofInt 32 name.rindex) ++ post) := by
    simp only [entryBytes, htype, List.append_assoc]
  have hnat : (BitVec.ofInt 32 name.rindex).toNat = name.rindex.toNat := by
    rw [BitVec.toNat_ofInt]
    omega
  unfold decodeEntry at h
  rw [readInt_type, ok_bind, ofCode_code, htype] at h
  simp only at h
  rw [hbytes, readInt_second, ok_bind] at h
  obtain ⟨_, -, h⟩ := bind_eq_ok.mp h
  obtain ⟨_, -, h⟩ := bind_eq_ok.mp h
  cases h
  rw [hnat]

/-- Contents of bytes `0xff`, with memory behind those that are shorter than four bytes. -/
def Filled (name : OneChunkName) : Prop := name.pChunk = some (List.replicate (max name.length 4) 0xff)

theorem Filled.readable {name : OneChunkName} (h : Filled name) : Readable name :=
  fun _ => ⟨_, h, by rw [List.length_replicate]; omega⟩

theorem Filled.content {name : OneChunkName} (h : Filled name) : name.content = List.replicate name.length 0xff := by
  rw [OneChunkName.content, h, Option.getD_some, List.take_replicate]
  congr 1
  omega

/-- If the decoder reaches the end and every entry has its length and content, then every entry has the size it
was written in. -/
theorem wellSized_of_decodeEntries (henc : Encodable names n) (hfill : ∀ k, k < n → Filled (names k)) {m j e : Nat}
    {pre : Bytes} (hm : j + m = n) (hbefore : ∀ i, i < j → (table i).length = (names i).length)
    (hrun : decodeEntries cfg (pre ++ entriesBytes names j m) m j pre.length table = .ok (table', e))
    (hend : e = pre.length + (entriesBytes names j m).length) (hlength : ∀ k, k < n → (table' k).length = (names k).length)
    (hcontent : ∀ k, k < n → (names k).type = .chunkRaw ∨ (names k).type = .chunkBoth →
      (table' k).content = List.replicate (names k).length 0xff) {k : Nat} (hjk : j ≤ k) (hk : k < n) :
    WellSized names k := by
  induction m generalizing j table pre with
  | zero => omega
  | succ m ih =>
      have hj : j < n := by omega
      have hcount := henc.count
      have hlen := henc.length_lt j hj
      have hmem := hfill j hj
      have hsized : WellSized names j := by
        rw [entriesBytes_succ] at hrun hend
        unfold WellSized
        cases htype : (names j).type with
        | chunkName => trivial
        | chunkBoth =>
            have hbytes : entryBytes (names j) ++ entriesBytes names (j + 1) m = memInt ChunkType.chunkBoth.code ++
                (memInt (BitVec.ofNat 32 (names j).length) ++ ((names j).sha1name.bytes ++ entriesBytes names (j + 1) m)) := by
              simp only [entryBytes, htype, List.append_assoc]
            rw [hbytes] at hrun
            exact both_out_of_step hlen hrun (hcontent j hj (.inr htype))
        | chunkRaw =>
            by_contra hne
            have hfour : ((names j).pChunk.getD []).take 4 = List.replicate 4 0xff := by
              rw [hmem, Option.getD_some, List.take_replicate]
              congr 1
              omega
            have hbytes : entryBytes (names j) ++ entriesBytes names (j + 1) m = memInt ChunkType.chunkRaw.code ++
                (memInt (BitVec.ofNat 32 (names j).length) ++ (List.replicate 4 0xff ++ entriesBytes names (j + 1) m)) := by
              simp only [entryBytes, htype, hfour, List.append_assoc]
            rw [hbytes] at hrun
            refine raw_out_of_step hlen hne hrun ?_ (hcontent j hj (.inl htype))
            rw [hend, hbytes]
            simp only [List.length_append, memInt_length, List.length_replicate]
            omega
        | chunkIndex =>
            obtain ⟨h0, hlt⟩ := henc.rindex_lt j hj htype
            rw [decodeEntries] at hrun
            obtain ⟨_, -, hrun⟩ := bind_eq_ok.mp hrun
            obtain ⟨r, hr, hrun⟩ := bind_eq_ok.mp hrun
            obtain ⟨_, -, hrun⟩ := bind_eq_ok.mp hrun
            have hrlen := index_length htype h0 hlt (by omega) hr
            have hfinal := hlength j hj
            rw [decodeEntries_frame hrun (Nat.lt_succ_self j), Function.update_self, hrlen, hbefore _ (by omega)] at hfinal
            exact hfinal.symm
      by_cases heq : k = j
      · exact heq ▸ hsized
      · rw [entriesBytes_succ, List.length_append] at hend
        rw [entriesBytes_succ, decodeEntries, decodeEntry_wellSized henc hj hsized hmem.readable hbefore] at hrun
        obtain ⟨_, -, hrun⟩ := bind_eq_ok.mp hrun
        rw [ok_bind, update_eq_receivedTable] at hrun
        obtain ⟨_, -, hrun⟩ := bind_eq_ok.mp hrun
        simp only at hrun
        rw [← List.append_assoc, ← List.length_append] at hrun
        refine ih (by omega) (receivedTable_lengths hbefore) hrun ?_ (by omega)
        rw [hend, List.length_append]
        omega

theorem decodeEntry_index {buffer : Bytes} {j off : Nat} {r : OneChunkName × Nat} (h : decodeEntry table j buffer off = .ok r) :
    r.1.index = j := by
  unfold decodeEntry at h
  obtain ⟨type, -, h⟩ := bind_eq_ok.mp h
  split at h
  · obtain ⟨_, -, h⟩ := bind_eq_ok.mp h
    obtain ⟨_, -, h⟩ := bind_eq_ok.mp h
    cases h
    rfl
  · obtain ⟨_, -, h⟩ := bind_eq_ok.mp h
    obtain ⟨_, -, h⟩ := bind_eq_ok.mp h
    obtain ⟨_, -, h⟩ := bind_eq_ok.mp h
    obtain ⟨_, -, h⟩ := bind_eq_ok.mp h
    cases h
    rfl
  · obtain ⟨_, -, h⟩ := bind_eq_ok.mp h
    obtain ⟨_, -, h⟩ := bind_eq_ok.mp h
    obtain ⟨_, -, h⟩ := bind_eq_ok.mp h
    cases h
    rfl
  · obtain ⟨_, -, h⟩ := bind_eq_ok.mp h
    obtain ⟨_, -, h⟩ := bind_eq_ok.mp h
    obtain ⟨_, -, h⟩ := bind_eq_ok.mp h
    cases h
    rfl
  · cases h

theorem decodeEntries_index {buffer : Bytes} {m j off e : Nat} (h : decodeEntries cfg buffer m j off table = .ok (table', e))
    {k : Nat} (hjk : j ≤ k) (hk : k < j + m) : (table' k).index = k := by
  induction m generalizing j off table with
  | zero => omega
  | succ m ih =>
      rw [decodeEntries] at h
      obtain ⟨_, -, h⟩ := bind_eq_ok.mp h
      obtain ⟨r, hr, h⟩ := bind_eq_ok.mp h
      obtain ⟨_, -, h⟩ := bind_eq_ok.mp h
      by_cases heq : k = j
      · subst heq
        rw [decodeEntries_frame h (Nat.lt_succ_self k), Function.update_self]
        exact decodeEntry_index hr
      · exact ih h (by omega) (by omega)

end OutOfStep

/-! ## The message -/

section Message

variable {cfg : Config} {id : ConnectionID} {names : NameTable} {n numLevels : Nat}

/-- The tree of a message: its header and its entries. -/
def treeBytes (names : NameTable) (n numLevels : Nat) : Bytes :=
  ([BitVec.ofNat 8 numLevels] ++ htonl (BitVec.ofNat 32 n)) ++ entriesBytes names 0 n

theorem treeBytes_length (names : NameTable) (n numLevels : Nat) :
    (treeBytes names n numLevels).length = sizeofWAOneTree + (entriesBytes names 0 n).length := by
  rw [treeBytes, List.length_append]
  rfl

theorem flatMap_entryBytes (names : NameTable) (n : Nat) :
    ((List.range n).map names).flatMap entryBytes = entriesBytes names 0 n := by
  rw [List.flatMap_map, List.range_eq_range', entriesBytes]

theorem buildWANameTreeDelivery2_ok (hread : ∀ k, k < n → Readable (names k)) {msg : Bytes}
    (h : buildWANameTreeDelivery2 id n names numLevels = .ok msg) :
    ∃ front, front.length = sizeofWANameDelivery ∧ msg = front ++ treeBytes names n numLevels ∧
      (entriesBytes names 0 n).length = getAcutalTreeSize names n := by
  unfold buildWANameTreeDelivery2 at h
  obtain ⟨_, -, h⟩ := bind_eq_ok.mp h
  obtain ⟨entries, hentries, h⟩ := bind_eq_ok.mp h
  obtain ⟨hdr, hhdr, hret⟩ := bind_eq_ok.mp h
  have hhdrlen := fillControlHeader_length hhdr
  obtain ⟨hbytes, hlen⟩ := encodeEntries_ok (by simpa using hread) hentries
  rw [flatMap_entryBytes] at hbytes
  cases hret
  refine ⟨hdr ++ ([magicWANameDelivery] ++ htonl 1), ?_, ?_, ?_⟩
  · rw [List.length_append, hhdrlen]
    rfl
  · rw [hbytes, treeBytes]
    simp only [List.append_assoc]
  · rw [← hbytes]
    omega

theorem buildWANameTreeDelivery2_eq (hid : id.Known) (hread : ∀ k, k < n → Readable (names k)) (hone : n = 1 → numLevels = 1)
    (hsize : (entriesBytes names 0 n).length = getAcutalTreeSize names n) :
    ∃ front, front.length = sizeofWANameDelivery ∧
      buildWANameTreeDelivery2 id n names numLevels = .ok (front ++ treeBytes names n numLevels) := by
  have hentries : encodeEntries (getAcutalTreeSize names n + (sizeofWANameDelivery + sizeofWAOneTree))
      (sizeofWANameDelivery + sizeofWAOneTree) ((List.range n).map names) = .ok (entriesBytes names 0 n) := by
    rw [← flatMap_entryBytes]
    apply encodeEntries_eq (by simpa using hread)
    rw [flatMap_entryBytes, hsize]
    omega
  obtain ⟨hdr, hhdr⟩ : ∃ hdr, fillControlHeader id typeWANameDelivery
      (sizeofWANameDelivery + sizeofWAOneTree + (entriesBytes names 0 n).length) = .ok hdr := ⟨_, fillControlHeader_eq hid _ _⟩
  have hhdrlen := fillControlHeader_length hhdr
  refine ⟨hdr ++ ([magicWANameDelivery] ++ htonl 1), ?_, ?_⟩
  · rw [List.length_append, hhdrlen]
    rfl
  · unfold buildWANameTreeDelivery2
    simp only
    rw [check_of hone, ok_bind, hentries, ok_bind, hhdr, ok_bind, treeBytes]
    simp only [List.append_assoc, pure_eq_ok]

theorem decodeOneTree_eq (hn : n < 2 ^ 31) (hlevels : numLevels < 128) (prev : NameTable) (seq : Int) :
    decodeOneTree cfg prev (treeBytes names n numLevels) seq =
      (decodeEntries cfg (treeBytes names n numLevels) n 0 sizeofWAOneTree prev >>= fun r =>
        check (r.2 ≤ (treeBytes names n numLevels).length) >>= fun _ =>
        createNewChunkTreeInfo cfg n numLevels >>= fun _ =>
        initChunkTreeInfo cfg r.1 n seq >>= fun cti => .ok (cti, r.2)) := by
  have hnames : readU32 (treeBytes names n numLevels) 1 = .ok (BitVec.ofNat 32 n) := by
    rw [treeBytes, List.append_assoc, readU32_skip _ _ (show 1 = [BitVec.ofNat 8 numLevels].length + 0 from rfl), readU32_head]
  have hlv : readAt (treeBytes names n numLevels) 0 1 = .ok [BitVec.ofNat 8 numLevels] := by
    rw [treeBytes, List.append_assoc, readAt_head _ _ (show 1 = [BitVec.ofNat 8 numLevels].length from rfl)]
  have hint : (BitVec.ofNat 8 numLevels).toInt = numLevels := by
    rw [BitVec.toInt_eq_toNat_of_lt] <;> rw [BitVec.toNat_ofNat] <;> omega
  unfold decodeOneTree
  rw [hnames, ok_bind, hlv, ok_bind, toInt_ofNat_of_lt hn, Int.toNat_natCast]
  simp only [List.headD_cons, hint]
  rfl

end Message

/-! ## Both directions -/

section RoundTrip

variable {cfg : Config} {id : ConnectionID} {names : NameTable} {n numLevels : Nat}

theorem entryBytes_length {k : Nat} (hsized : WellSized names k) (hread : Readable (names k)) :
    (entryBytes (names k)).length = (names k).treeSize := by
  unfold WellSized at hsized
  unfold entryBytes OneChunkName.treeSize
  cases htype : (names k).type with
  | chunkName => simp [(names k).sha1name.length_eq, sha1Len]
  | chunkBoth =>
      rw [htype] at hsized
      exact hsized.elim
  | chunkIndex => rfl
  | chunkRaw =>
      rw [htype] at hsized
      obtain ⟨mem, hmem, hlen⟩ := hread htype
      simp only at hsized
      simp [hmem, hsized, hlen]

theorem entriesBytes_length (hsized : ∀ k, k < n → WellSized names k) (hread : ∀ k, k < n → Readable (names k)) :
    (entriesBytes names 0 n).length = getAcutalTreeSize names n := by
  rw [entriesBytes, List.length_flatMap, getAcutalTreeSize, List.range_eq_range']
  congr 1
  apply List.map_congr_left
  intro k hk
  rw [List.mem_range'_1] at hk
  exact entryBytes_length (hsized k (by omega)) (hread k (by omega))

theorem clip_receivedTable (prev : NameTable) :
    clip n (receivedTable names prev 0 n) =
      decorate (clipExtras n fun k => receivedExtras (prev k) (names k) k) (clip n fun k => plainEntry (names k)) := by
  apply clip_decorate
  intro k hk
  rw [receivedTable, if_pos ⟨Nat.zero_le k, by omega⟩]

/-- Entries with content have all of it in memory. -/
def Loaded (names : NameTable) (n : Nat) : Prop :=
  ∀ k, k < n → (names k).type = .chunkRaw ∨ (names k).type = .chunkBoth →
    ∃ mem, (names k).pChunk = some mem ∧ (names k).length ≤ mem.length

theorem readable_of_sized (hload : Loaded names n) {k : Nat} (hk : k < n) (hsized : WellSized names k) : Readable (names k) := by
  intro htype
  obtain ⟨mem, hmem, hlen⟩ := hload k hk (.inl htype)
  unfold WellSized at hsized
  rw [htype] at hsized
  exact ⟨mem, hmem, hsized ▸ hlen⟩

theorem received_same (hload : Loaded names n) {k : Nat} (hk : k < n) (hsized : WellSized names k) (hindex : (names k).index = k)
    (prev got : OneChunkName) (htype : got.type = (names k).type) (hlength : got.length = (names k).length)
    (hrindex : got.rindex = (plainEntry (names k)).rindex) (hextras : got.extras = receivedExtras prev (names k) k) :
    SameEntry (names k) got := by
  have hname : got.sha1name = (receivedExtras prev (names k) k).sha1name := congrArg Extras.sha1name hextras
  have hchunk : got.pChunk = (receivedExtras prev (names k) k).pChunk := congrArg Extras.pChunk hextras
  unfold WellSized at hsized
  refine ⟨htype, hlength, (congrArg Extras.index hextras).trans hindex.symm, ?_, ?_, ?_⟩
  · rintro (h | h)
    · rw [hname, receivedExtras, if_pos h]
    · rw [h] at hsized
      exact hsized.elim
  · rintro (h | h)
    · obtain ⟨mem, hmem, -⟩ := hload k hk (.inl h)
      rw [h] at hsized
      rw [OneChunkName.content, OneChunkName.content, hchunk, receivedExtras, if_pos h, hmem, hlength, hsized]
      simp
    · rw [h] at hsized
      exact hsized.elim
  · intro h
    rw [hrindex, plainEntry]
    exact if_pos h

theorem roundTrips_of_deliverable (hid : id.Known) (hlevels : numLevels < 128) (henc : Encodable names n) (hload : Loaded names n)
    (h : Deliverable cfg names n numLevels) : RoundTrips cfg id names n numLevels := by
  intro prev seq
  obtain ⟨off, e, levels, htree, hen, hstop, hnum, hmaxLevel⟩ := h.tree
  have hepos := laid_pos htree.laid h.pos hstop
  have hread : ∀ k, k < n → Readable (names k) := fun k hk => readable_of_sized hload hk (h.sized k hk)
  have hsize := entriesBytes_length h.sized hread
  -- a single entry is the only level
  have hone : n = 1 → numLevels = 1 := by
    rintro rfl
    have hlaid := htree.laid
    rw [show e = 1 by omega] at hlaid
    rw [← hnum]
    match levels, hlaid with
    | [a], _ => rfl
    | a :: b :: rest, ⟨_, ha, _, hb, hrest⟩ =>
        have := Tiling.tiles_le hrest
        omega
  obtain ⟨front, hfront, hbuild⟩ := buildWANameTreeDelivery2_eq hid hread hone hsize
  have hplain : LevelTree (clip n fun k => plainEntry (names k)) off e levels := by
    refine htree.congr hepos ?_ ?_ ?_
    · intro k hk
      rw [clip, if_pos (by omega)]
      rfl
    · intro k hk
      rw [clip, if_pos (by omega)]
      rfl
    · intro k hk htype
      rw [clip, if_pos (by omega)]
      exact if_pos htype
  have hroot : 0 < (clip n (fun k => plainEntry (names k)) 0).length := by
    rw [clip, if_pos h.pos]
    exact h.root
  obtain ⟨t, ht, hfields⟩ := initTree_of_levelTree hroot hplain h.pos hen hstop (hnum ▸ hmaxLevel)
  have hkeeps := initTree_keeps ht
  have hdecode : decodeEntries cfg (treeBytes names n numLevels) n 0 sizeofWAOneTree prev =
      .ok (receivedTable names prev 0 n, (treeBytes names n numLevels).length) := by
    rw [treeBytes_length]
    exact decodeEntries_eq henc h.fits hread h.sized (Nat.zero_add n) (fun i hi => absurd hi (Nat.not_lt_zero i)) _
  have hinit : initChunkTreeInfo cfg (receivedTable names prev 0 n) n seq =
      .ok ⟨seq, n, levels.length, decorate (clipExtras n fun k => receivedExtras (prev k) (names k) k) t, levels⟩ := by
    have hposroot : 0 < (receivedTable names prev 0 n 0).length := by
      rw [receivedTable, if_pos ⟨le_refl 0, by have := h.pos; omega⟩]
      exact h.root
    rw [initChunkTreeInfo_eq ?_ h.fits h.pos, clip_receivedTable, initTree_decorate, ht, ok_bind, ok_bind,
      check_of hposroot, ok_bind]
    intro k hk
    rw [receivedTable, if_pos ⟨Nat.zero_le k, by omega⟩]
    rfl
  have hcreate : createNewChunkTreeInfo cfg n numLevels = .ok () := by
    have hfits := h.fits
    rw [createNewChunkTreeInfo, check_of (by omega), ok_bind, check_of (by omega), ok_bind, if_neg (by omega)]
  refine ⟨_, ⟨seq, n, levels.length, decorate (clipExtras n fun k => receivedExtras (prev k) (names k) k) t, levels⟩, hbuild,
    ?_, ?_, rfl, hnum, ?_⟩
  · rw [List.length_append, hfront, treeBytes_length, hsize, Nat.add_assoc]
  · rw [List.drop_left' hfront, decodeOneTree_eq henc.count hlevels, hdecode, ok_bind, check_of (le_refl _), ok_bind,
      hcreate, ok_bind, hinit, ok_bind, List.length_append, hfront, Nat.add_sub_cancel_left]
  · intro k hk
    have hclip : clip n (fun k => plainEntry (names k)) k = plainEntry (names k) := if_pos hk
    refine received_same hload hk (h.sized k hk) (h.index_eq k hk) (prev k) _ ?_ ?_ ?_ ?_
    · exact (hfields k).1.trans (by rw [hclip]; rfl)
    · exact (hkeeps k).1.trans (by rw [hclip]; rfl)
    · exact (hfields k).2.trans (by rw [hclip])
    · show clipExtras n _ k = _
      rw [clipExtras, if_pos hk]

/-- The test array: hashes and contents of bytes `0xff`. -/
def testFill (names : NameTable) : NameTable :=
  refill (fun _ => ⟨List.replicate 20 0xff, by simp⟩) (fun k => List.replicate (max (names k).length 4) 0xff) names

theorem deliverable_of_roundTrips (hlevels : numLevels < 128) (henc : Encodable names n)
    (hfill : ∀ k, k < n → Filled (names k)) (h : RoundTrips cfg id names n numLevels) : Deliverable cfg names n numLevels := by
  obtain ⟨msg, info, hbuild, -, hdecode, -, hnum, hsame⟩ := h default 0
  obtain ⟨front, hfront, rfl, -⟩ := buildWANameTreeDelivery2_ok (fun k hk => (hfill k hk).readable) hbuild
  rw [List.drop_left' hfront, List.length_append, hfront, Nat.add_sub_cancel_left, decodeOneTree_eq henc.count hlevels] at hdecode
  obtain ⟨⟨table, e⟩, hentries, hdecode⟩ := bind_eq_ok.mp hdecode
  obtain ⟨_, -, hdecode⟩ := bind_eq_ok.mp hdecode
  obtain ⟨_, -, hdecode⟩ := bind_eq_ok.mp hdecode
  obtain ⟨cti, hinit, hret⟩ := bind_eq_ok.mp hdecode
  obtain ⟨rfl, hend⟩ := Prod.mk.inj (Except.ok.inj hret)
  simp only at hinit hend
  have hfits : n ≤ cfg.maxNames := by
    unfold initChunkTreeInfo at hinit
    obtain ⟨_, hcheck, -⟩ := bind_eq_ok.mp hinit
    exact check_eq_ok.mp hcheck
  have hpos : 0 < n := by
    unfold initChunkTreeInfo at hinit
    obtain ⟨_, -, hinit⟩ := bind_eq_ok.mp hinit
    obtain ⟨_, -, hinit⟩ := bind_eq_ok.mp hinit
    obtain ⟨_, hcheck, -⟩ := bind_eq_ok.mp hinit
    exact inBounds_eq_ok.mp hcheck
  rw [initChunkTreeInfo_eq (fun k hk => decodeEntries_index hentries (Nat.zero_le k) (by omega)) hfits hpos] at hinit
  obtain ⟨⟨levels, t⟩, htree, hinit⟩ := bind_eq_ok.mp hinit
  obtain ⟨_, hroot, hret⟩ := bind_eq_ok.mp hinit
  cases hret
  -- the decoder's table has the lengths and contents of the result
  have hkeeps : ∀ k, k < n → (table k).length = (t k).length ∧ (table k).extras = (t k).extras := by
    intro k hk
    have := initTree_keeps htree k
    rw [clip, if_pos hk] at this
    exact ⟨this.1.symm, this.2.symm⟩
  have hsized : ∀ k, k < n → WellSized names k := by
    intro k hk
    refine wellSized_of_decodeEntries henc hfill (Nat.zero_add n) (fun i hi => absurd hi (Nat.not_lt_zero i)) hentries ?_
      (fun j hj => (hkeeps j hj).1.trans (hsame j hj).length_eq) ?_ (Nat.zero_le k) hk
    · rw [hend, treeBytes_length]
      rfl
    · intro j hj htype
      have hchunk : (table j).pChunk = (t j).pChunk := congrArg Extras.pChunk (hkeeps j hj).2
      rw [← (hfill j hj).content, ← (hsame j hj).content_eq htype, OneChunkName.content, hchunk, (hkeeps j hj).1,
        OneChunkName.content]
  have htable : table = receivedTable names default 0 n := by
    have hrun : decodeEntries cfg (treeBytes names n numLevels) n 0 sizeofWAOneTree default = _ :=
      decodeEntries_eq henc hfits (fun k hk => (hfill k hk).readable) hsized (Nat.zero_add n)
        (fun i hi => absurd hi (Nat.not_lt_zero i)) _
    exact (Prod.mk.inj (Except.ok.inj (hentries.symm.trans hrun))).1
  rw [htable, clip_receivedTable, initTree_decorate] at htree
  obtain ⟨⟨levels', t'⟩, hplain, hret⟩ := bind_eq_ok.mp htree
  obtain ⟨rfl, rfl⟩ := Prod.mk.inj (Except.ok.inj hret)
  have hclip : ∀ k, k < n → clip n (fun k => plainEntry (names k)) k = plainEntry (names k) := fun k hk => if_pos hk
  obtain ⟨off, e, hlevel, hen, hstop, hlength⟩ := levelTree_of_initTree hpos hplain
    (fun k hk => by
      rw [hclip k hk]
      exact (hsame k hk).type_eq)
    (fun k hk htype => by
      rw [hclip k hk] at htype ⊢
      exact ((hsame k hk).rindex_eq htype).trans (if_pos htype).symm)
    (fun k hk htype => by
      rw [hclip k hk] at htype ⊢
      have hfour := hsized k hk
      unfold WellSized at hfour
      rw [show (names k).type = .chunkRaw from htype] at hfour
      exact hfour ▸ Nat.zero_lt_succ 3)
    (fun k hk htype => by
      rw [hclip k hk] at htype ⊢
      have hlt := (henc.rindex_lt k hk htype).2
      rwa [show (plainEntry (names k)).rindex = (names k).rindex from if_pos htype])
  refine ⟨hpos, hfits, ?_, ?_, hsized, off, e, levels', ?_, hen, hstop, hnum, hnum ▸ hlength⟩
  · have hzero := check_eq_ok.mp hroot
    rw [(hkeeps 0 hpos).1, (hsame 0 hpos).length_eq] at hzero
    exact hzero
  · intro k hk
    have hindex := decodeEntries_index hentries (Nat.zero_le k) (by omega)
    exact (hsame k hk).index_eq.symm.trans ((congrArg Extras.index (hkeeps k hk).2).symm.trans hindex)
  · refine hlevel.congr (laid_pos hlevel.laid hpos hstop) ?_ ?_ ?_
    · intro k hk
      rw [hclip k (by omega)]
      rfl
    · intro k hk
      rw [hclip k (by omega)]
      rfl
    · intro k hk htype
      rw [hclip k (by omega)] at htype ⊢
      exact (if_pos htype).symm

theorem deliverable_refill (hash : Nat → Sha1Name) (mem : Nat → Bytes) :
    Deliverable cfg (refill hash mem names) n numLevels ↔ Deliverable cfg names n numLevels := by
  constructor
  · intro h
    obtain ⟨off, e, levels, htree, hen, hstop, hnum⟩ := h.tree
    have htree' : LevelTree names off e levels :=
      htree.congr (laid_pos htree.laid h.pos hstop) (fun _ _ => rfl) (fun _ _ => rfl) (fun _ _ _ => rfl)
    exact ⟨h.pos, h.fits, h.root, h.index_eq, h.sized, off, e, levels, htree', hen, hstop, hnum⟩
  · intro h
    obtain ⟨off, e, levels, htree, hen, hstop, hnum⟩ := h.tree
    have htree' : LevelTree (refill hash mem names) off e levels :=
      htree.congr (laid_pos htree.laid h.pos hstop) (fun _ _ => rfl) (fun _ _ => rfl) (fun _ _ _ => rfl)
    exact ⟨h.pos, h.fits, h.root, h.index_eq, h.sized, off, e, levels, htree', hen, hstop, hnum⟩

/-- The delivery of a full tree, exactly: arrays with these types, lengths and indices survive it whatever their hashes
and contents are if and only if no entry carries content of its own length and the entries are a tree. -/
theorem treeDelivery_roundTrips_iff (hid : id.Known) (hlevels : numLevels < 128) (henc : Encodable names n) :
    (∀ hash mem, Loaded (refill hash mem names) n → RoundTrips cfg id (refill hash mem names) n numLevels) ↔
      Deliverable cfg names n numLevels := by
  have henc' : ∀ hash mem, Encodable (refill hash mem names) n := fun _ _ => ⟨henc.size, henc.length_lt, henc.rindex_lt⟩
  constructor
  · intro h
    have hload : Loaded (testFill names) n := by
      intro k _ _
      exact ⟨_, rfl, by rw [List.length_replicate]; exact Nat.le_max_left _ _⟩
    have hfill : ∀ k, k < n → Filled (testFill names k) := fun _ _ => rfl
    exact (deliverable_refill _ _).mp (deliverable_of_roundTrips hlevels (henc' _ _) hfill (h _ _ hload))
  · intro h hash mem hload
    exact roundTrips_of_deliverable hid hlevels (henc' hash mem) hload ((deliverable_refill hash mem).mpr h)

end RoundTrip

/-- A root of 64 bytes over a chunk of the same length. -/
def sampleTree : NameTable := fun k =>
  { (default : OneChunkName) with
    index := k
    length := 64
    type := if k = 1 then .chunkIndex else .chunkName
    rindex := if k = 1 then 0 else -1 }

theorem sampleTree_deliverable : Deliverable sampleConfig sampleTree 2 2 := by
  refine ⟨by decide, by decide, by decide, by decide, ?_, fun _ => 0, 2, [⟨1, 0⟩, ⟨1, 1⟩], ?_, by decide, .inl rfl, rfl, by decide⟩
  · intro k hk
    interval_cases k
    · exact trivial
    · exact rfl
  · refine ⟨by simp, ?_, ?_, rfl, ?_⟩
    · intro a ha
      simp only [List.mem_cons, List.not_mem_nil, or_false] at ha
      rcases ha with rfl | rfl <;> exact ⟨rfl, by decide, rfl⟩
    · exact List.isChain_cons_cons.mpr ⟨by decide, List.IsChain.singleton _⟩
    · refine List.isChain_cons_cons.mpr ⟨?_, List.IsChain.singleton _⟩
      intro k hk p hp _
      simp only [MRCPerLevelInfo.range, List.range'_one, List.mem_singleton] at hk hp
      subst hk hp
      exact ⟨rfl, rfl⟩

theorem treeDelivery_roundTrips_iff_sample : Deliverable sampleConfig sampleTree 2 2 ∧
    ∀ hash mem, Loaded (refill hash mem sampleTree) 2 → RoundTrips sampleConfig sampleConn (refill hash mem sampleTree) 2 2 := by
  refine ⟨sampleTree_deliverable, ?_⟩
  exact (treeDelivery_roundTrips_iff (by decide) (by decide) ⟨by decide, by decide, by decide⟩).mpr sampleTree_deliverable

/-- A block of ten bytes. -/
def shortTree : NameTable := fun _ =>
  { (default : OneChunkName) with length := 10, type := .chunkRaw, pChunk := some (List.replicate 10 7) }

/-- The only chunk of a block of ten bytes is a `chunk_raw`, for which four bytes are written: the assertion that the
message is as long as was measured fails. -/
theorem short_block_not_delivered : Loaded shortTree 1 ∧ buildWANameTreeDelivery2 sampleConn 1 shortTree 1 = .error .assertion ∧
    ¬ RoundTrips sampleConfig sampleConn shortTree 1 1 := by
  have hbuild : buildWANameTreeDelivery2 sampleConn 1 shortTree 1 = .error .assertion := by rfl
  refine ⟨fun k _ _ => ⟨_, rfl, le_of_eq rfl⟩, hbuild, ?_⟩
  intro h
  obtain ⟨msg, -, hmsg, -⟩ := h default 0
  rw [hbuild] at hmsg
  cases hmsg

end BeagleCache
