import BeagleCache.Ownership

/-! The blocks in `tmp_ht`. A proxy stores a chunk of its own under the SHA1 of the chunk, and a chunk that it gets under the
name it came with. So where what it gets hashes to its name, all it holds does, whatever its connections do. -/

namespace BeagleCache

open Tiling Run

/-- Every block of the table is one its name stands for. -/
def Genuine (sha1 : Bytes → Sha1Name) (tmp : TempCache) : Prop := HoldsOnly (fun n block => sha1 block = n) tmp

/-- The bodies in a name delivery hash to their names. -/
def GenuineDelivery (sha1 : Bytes → Sha1Name) (buffer : Bytes) : Prop :=
  ∀ numNames cs e, readU32 buffer (sizeofWANameDelivery + 1) = .ok numNames →
    readTree buffer numNames.toInt.toNat (sizeofWANameDelivery + sizeofWAOneTree) = .ok (cs, e) →
    ∀ c ∈ cs, ∀ content, c.content = some content → sha1 content = c.sha1name

/-- The bodies that come with an event hash to their names. -/
def ProxyEvent.Genuine (sha1 : Bytes → Sha1Name) : ProxyEvent → Prop
  | .put name buffer => sha1 buffer = name
  | .deliver _ buffer => GenuineDelivery sha1 buffer
  | _ => True

section Blocks

variable {cfg : Config} {sha1 : Bytes → Sha1Name} {P : Sha1Name → Bytes → Prop} {tmp tmp' : TempCache}

theorem holdsOnly_empty (P : Sha1Name → Bytes → Prop) : HoldsOnly P emptyTempCache := by
  intro n value h
  cases h

/-! ## Flushing -/

theorem refFlushChunk_holdsOnly {name : Sha1Name} (h : HoldsOnly P tmp) (hflush : refFlushChunk tmp name = .ok tmp') :
    HoldsOnly P tmp' := by
  unfold refFlushChunk at hflush
  cases hsearch : searchCache tmp name with
  | none =>
      rw [hsearch] at hflush
      cases hflush
  | some value =>
      rw [hsearch] at hflush
      obtain ⟨_, -, hflush⟩ := bind_eq_ok.mp hflush
      obtain ⟨_, -, hflush⟩ := bind_eq_ok.mp hflush
      split at hflush
      · cases hflush
        apply h.update
        rintro v ⟨⟩
      · cases hflush
        apply h.update
        rintro v ⟨⟩
        exact h name value hsearch

theorem flushCandidates_holdsOnly {cands : List OneCandidate} (h : HoldsOnly P tmp) (hflush : flushCandidates cands tmp = .ok tmp') :
    HoldsOnly P tmp' := by
  induction cands generalizing tmp with
  | nil =>
      cases hflush
      exact h
  | cons c rest ih =>
      obtain ⟨tmp₁, hone, hrest⟩ := bind_eq_ok.mp hflush
      exact ih (refFlushChunk_holdsOnly h hone) hrest

theorem destroyChunkBufferList_holdsOnly {ack : BitVec 32} {updateHint : Bool} {list : List ChunkBuffer} {hints : HintTable}
    {r : List ChunkBuffer × TempCache × HintTable} (h : HoldsOnly P tmp)
    (hdestroy : destroyChunkBufferList ack updateHint list tmp hints = .ok r) : HoldsOnly P r.2.1 := by
  induction list generalizing tmp hints with
  | nil =>
      cases hdestroy
      exact h
  | cons cb rest ih =>
      rw [destroyChunkBufferList] at hdestroy
      split at hdestroy
      · obtain ⟨r₁, hone, hrest⟩ := bind_eq_ok.mp hdestroy
        exact ih (flushCandidates_holdsOnly h (destroyChunkBuffer2_ok hone)) hrest
      · cases hdestroy
        exact h

theorem copyChunks_holdsOnly {names : List ChunkNameInfo} {r : Bytes × TempCache} (h : HoldsOnly P tmp)
    (hcopy : copyChunks cfg sha1 names tmp = .ok r) : HoldsOnly P r.2 := by
  induction names generalizing tmp r with
  | nil =>
      cases hcopy
      exact h
  | cons walk rest ih =>
      rw [copyChunks] at hcopy
      split at hcopy
      · cases hcopy
      · obtain ⟨_, -, hcopy⟩ := bind_eq_ok.mp hcopy
        obtain ⟨_, -, hcopy⟩ := bind_eq_ok.mp hcopy
        obtain ⟨tmp₁, hflush, hcopy⟩ := bind_eq_ok.mp hcopy
        obtain ⟨r₁, hrest, hret⟩ := bind_eq_ok.mp hcopy
        cases hret
        have hkept := ih (refFlushChunk_holdsOnly h hflush) hrest
        exact hkept

theorem reconstructEntries_holdsOnly {entries : List ReassembleInfo} {r : Bytes × List ReassembleInfo × TempCache}
    (h : HoldsOnly P tmp) (hrec : reconstructEntries cfg sha1 entries tmp = .ok r) : HoldsOnly P r.2.2 := by
  induction entries generalizing tmp r with
  | nil =>
      cases hrec
      exact h
  | cons ri rest ih =>
      rw [reconstructEntries] at hrec
      obtain ⟨one, hone, hrec⟩ := bind_eq_ok.mp hrec
      rcases reconstructOneChunkTree_cases hone with ⟨hnone, htmp⟩ | ⟨-, -, block, hsome, hcopy⟩
      · rw [hnone] at hrec
        cases hrec
        rw [htmp]
        exact h
      · rw [hsome] at hrec
        obtain ⟨next, hnext, hret⟩ := bind_eq_ok.mp hrec
        cases hret
        have hkept := ih (copyChunks_holdsOnly h hcopy) hnext
        exact hkept

/-! ## Storing -/

theorem putTempCacheCandidateList_genuine {buffer : Bytes} {buflen offset n : Nat} {cands : List OneCandidate} (h : Genuine sha1 tmp)
    (htiles : Tiles OneCandidate.offset OneCandidate.length offset n cands) (hname : ∀ c ∈ cands, c.sha1name = sha1 (c.slice buffer))
    (hput : putTempCacheCandidateList cfg sha1 buffer buflen offset cands tmp = .ok tmp') : Genuine sha1 tmp' := by
  induction cands generalizing tmp offset with
  | nil =>
      obtain ⟨_, -, hret⟩ := bind_eq_ok.mp hput
      cases hret
      exact h
  | cons c rest ih =>
      obtain ⟨hoff, -, htail⟩ := htiles
      rw [putTempCacheCandidateList] at hput
      obtain ⟨chunk, hread, hput⟩ := bind_eq_ok.mp hput
      obtain ⟨tmp₁, hone, hput⟩ := bind_eq_ok.mp hput
      obtain ⟨_, -, hrest⟩ := bind_eq_ok.mp hput
      have hchunk : chunk = c.slice buffer := by
        rw [readAt] at hread
        split at hread
        · cases hread
          rw [OneCandidate.slice, hoff]
        · cases hread
      have hown : sha1 chunk = c.sha1name := by
        rw [hchunk]
        exact (hname c List.mem_cons_self).symm
      exact ih (refPutChunkCallback_holdsOnly h hown hone) htail (fun d hd => hname d (List.mem_cons_of_mem c hd)) hrest

theorem Round.genuine {hint : Sha1Name → Bool} {ci ci' : UserConnection} {sh sh' : Shared} {buffer : Bytes} {one : Nat} {o : Outgoing}
    (h : Genuine sha1 sh.tmp) (hround : Round cfg sha1 hint ci buffer sh one o ci' sh') : Genuine sha1 sh'.tmp := by
  cases hround with
  | raw hraw hmsg => exact h
  | first hraw hpre hskip hnum hmsg => exact h
  | names hraw hpre hfirst hblock hput hbuf hmsg =>
      exact putTempCacheCandidateList_genuine h hblock.selected.tiles hblock.selected.name_eq hput

theorem Rounds.genuine {hint : Sha1Name → Bool} {ci : UserConnection} {sh : Shared} {srcOff : Nat} {r : UserDataResult}
    (h : Genuine sha1 sh.tmp) (hrounds : Rounds cfg sha1 hint srcOff ci sh r) : Genuine sha1 r.sh.tmp := by
  induction hrounds with
  | stop srcOff ci sh => exact h
  | block hlt hround hfull =>
      have hone := hround.genuine h
      exact hone
  | next hlt hround hopen hrest ih => exact ih (hround.genuine h)

theorem Served.genuine {hint : Sha1Name → Bool} {host : Bytes → Option (BitVec 32 × BitVec 16)} {ci : UserConnection} {sh : Shared}
    {r : UserDataResult} (h : Genuine sha1 sh.tmp) (hserved : Served cfg sha1 hint host ci sh r) : Genuine sha1 r.sh.tmp := by
  cases hserved with
  | idle _ _ _ _ hsh =>
      rw [hsh]
      exact h
  | sent _ _ _ hrounds _ _ _ hsh _ =>
      rw [hsh]
      exact hrounds.genuine h

/-- A delivered tree was read, and the bodies in it are stored under the names they came with. -/
theorem deliverTree_holdsOnly {pickPeer : Sha1Name → Int} {buffer : Bytes} {num offset : Nat} {ri : ReassembleInfo}
    {r : ReassembleInfo × TempCache × Nat} (h : deliverTree cfg sha1 pickPeer buffer num offset ri tmp = .ok r) :
    ∃ cs, readTree buffer num offset = .ok (cs, r.2.2) ∧
      (HoldsOnly P tmp → (∀ c ∈ cs, ∀ content, c.content = some content → P c.sha1name content) → HoldsOnly P r.2.1) := by
  induction num generalizing offset ri tmp with
  | zero =>
      cases h
      exact ⟨[], rfl, fun hP _ => hP⟩
  | succ num ih =>
      obtain ⟨c, hread, h⟩ := bind_eq_ok.mp h
      obtain ⟨r₁, hone, h⟩ := bind_eq_ok.mp h
      obtain ⟨cs, hrest, hholds⟩ := ih h
      refine ⟨c.1 :: cs, ?_, ?_⟩
      · rw [readTree, hread, ok_bind, hrest]
        rfl
      · intro hP hbodies
        apply hholds _ fun d hd => hbodies d (List.mem_cons_of_mem c.1 hd)
        rcases (deliverChunk_ok hone).2 with hsame | ⟨content, hcontent, hput⟩
        · rwa [hsame]
        · exact refPutChunkCallback_holdsOnly hP (hbodies c.1 List.mem_cons_self content hcontent) hput

end Blocks

/-! ## Steps of a proxy -/

section Steps

variable {cfg : Config} {sha1 : Bytes → Sha1Name} {host : Bytes → Option (BitVec 32 × BitVec 16)} {p p' : Proxy}

theorem ready_set {users : List UserConnection} {i : Nat} {ci : UserConnection} (h : ∀ u ∈ users, u.ChunkReady) (hci : ci.ChunkReady) :
    ∀ u ∈ users.set i ci, u.ChunkReady := by
  intro u hu
  rcases List.mem_or_eq_of_mem_set hu with hold | rfl
  · exact h u hold
  · exact hci

theorem proxyNext_ready (hcfg : cfg.Sized) {e : ProxyEvent} (h : ∀ ci ∈ p.users, ci.ChunkReady)
    (hstep : proxyNext cfg sha1 host p e = .ok p') : ∀ ci ∈ p'.users, ci.ChunkReady := by
  have hat : ∀ {i : Nat} {ci : UserConnection}, p.users[i]? = some ci → ci.ChunkReady := fun hci => h _ (List.mem_of_getElem? hci)
  cases proxyStep_of_next hstep with
  | accept isForward isHttpProxy key hnew =>
      intro u hu
      rcases List.mem_append.mp hu with hold | hlast
      · exact h u hold
      · rw [List.mem_singleton.mp hlast]
        exact (createUserConnectionInfo_ok hnew).1
  | same => exact h
  | serve i forceProcess hci hserve => exact ready_set h ((serveUser_served hcfg (hat hci) hserve).ready hcfg (hat hci))
  | close i updateHint hci hdestroy => exact fun u hu => h u (List.mem_of_mem_eraseIdx hu)
  | put name buffer hput => exact h
  | read i data hci | ack i ack hci | deliver i pickPeer buffer hci | schedule i hci | reconstruct i hci =>
      have hready := hat hci
      exact ready_set h hready

theorem proxyNext_genuine (hcfg : cfg.Sized) {e : ProxyEvent} (hready : ∀ ci ∈ p.users, ci.ChunkReady) (h : Genuine sha1 p.tmp)
    (hevent : e.Genuine sha1) (hstep : proxyNext cfg sha1 host p e = .ok p') : Genuine sha1 p'.tmp := by
  cases proxyStep_of_next hstep with
  | accept | same | read | schedule => exact h
  | serve i forceProcess hci hserve =>
      have hserved := serveUser_served hcfg (hready _ (List.mem_of_getElem? hci)) hserve
      exact hserved.genuine h
  | ack i ack hci hdestroy => exact destroyChunkBufferList_holdsOnly h hdestroy
  | close i updateHint hci hdestroy => exact destroyChunkBufferList_holdsOnly h hdestroy
  | put name buffer hput => exact refPutChunkCallback_holdsOnly h hevent hput
  | @deliver i pickPeer buffer ci numNames r hci hnum htree =>
      obtain ⟨cs, hread, hholds⟩ := deliverTree_holdsOnly htree
      exact hholds h (hevent numNames cs r.2.2 hnum hread)
  | reconstruct i hci hentries => exact reconstructEntries_holdsOnly h hentries

end Steps

end BeagleCache
