import BeagleCache.Genuine

/-! The way of the data from one user to another: the proxy of the source, the messages in their order, and the proxy of the
destination with its other connections, which use the same tables. -/

namespace BeagleCache

open Transition

/-- The blocks in a table. -/
def blocksOf (tmp : TempCache) : Set Bytes := { block | ∃ n value, tmp n = some value ∧ value.pBlock = block }

/-- The chunks that messages name. -/
def chunksOf (out : List Outgoing) : Set Bytes := { chunk | ∃ o ∈ out, chunk ∈ o.chunks }

/-- A path from a source connection to a destination connection. `out` are all the messages of the source, of which the
destination got the first `delivered`; `proxy` is the proxy of the destination, with the other connections in `users`. The last
three are not in the source: whether the source was accepted as an HTTP proxy connection, the bytes that were taken from its
user, and the chunks that have occurred. -/
structure Path where
  src : UserConnection
  out : List Outgoing
  delivered : Nat
  dst : UserConnection
  proxy : Proxy
  isHttp : Bool
  consumed : Bytes
  occurred : Set Bytes

/-- What can happen. `source` is what else is done to the source: acknowledgements, window changes, and the data of the other
direction. `own` is done to the destination and `other` to the other connections of its proxy. -/
inductive PathEvent
  | read (data : Bytes)
  | serve (forceProcess : Bool) (hint : Sha1Name → Bool) (sh : Shared)
  | source (ci : UserConnection)
  | receive (pickPeer : Sha1Name → Int)
  | own (e : ProxyEvent)
  | other (e : ProxyEvent)

/-- The tables and the connections of the proxy have changed. -/
def Path.withProxy (p : Path) (dst : UserConnection) (proxy : Proxy) : Path :=
  { p with dst := dst, proxy := proxy, occurred := p.occurred ∪ blocksOf proxy.tmp }

section Next

variable (cfg : Config) (sha1 : Bytes → Sha1Name) (host : Bytes → Option (BitVec 32 × BitVec 16))

/-- The next state. A destination that was closed gets nothing any more. -/
def pathNext (p : Path) : PathEvent → Run Path
  | .read data => return { p with src := { p.src with
      bufRead := p.src.bufRead ++ data.take (recvBufsize - p.src.bufRead.length) } }
  | .serve forceProcess hint sh => do
      let r ← serveUser cfg sha1 hint host forceProcess p.src sh
      return { p with
        src := r.ci
        out := p.out ++ r.out
        consumed := p.consumed ++ p.src.bufRead.take (p.src.bufRead.length - r.ci.bufRead.length)
        occurred := p.occurred ∪ chunksOf r.out }
  | .source ci => return { p with src := { ci with
      bufRead := p.src.bufRead
      key := p.src.key
      isForward := p.src.isForward
      isHttpProxy := p.src.isHttpProxy
      rctx := p.src.rctx
      numChunks := p.src.numChunks } }
  | .receive pickPeer =>
      match p.out[p.delivered]? with
      | none => return p
      | some o => do
          let r ← deliverMessage cfg sha1 pickPeer o.message [p.dst] p.proxy.tmp
          return { p.withProxy (r.1.headD p.dst) { p.proxy with tmp := r.2 } with delivered := p.delivered + 1 }
  | .own e => do
      let q ← proxyNext cfg sha1 host { p.proxy with users := [p.dst] } e
      match q.users with
      | [dst] => return p.withProxy dst { q with users := p.proxy.users }
      | _ => .error .exit
  | .other e => do
      let q ← proxyNext cfg sha1 host p.proxy e
      return p.withProxy p.dst q

/-- Both ends of a connection as `CreateUserConnectionInfo` makes them, with the addresses and the kind of connection that
its callers set. -/
def StartsPath (p : Path) : Prop := ∃ forward forward' src dst srcKey dstKey isHttpProxy hints table,
  createUserConnectionInfo cfg forward = .ok src ∧ createUserConnectionInfo cfg forward' = .ok dst ∧
    p = ⟨{ src with key := srcKey, isHttpProxy := isHttpProxy }, [], 0, { dst with key := dstKey }, ⟨[], emptyTempCache, hints, table⟩,
      isHttpProxy, [], ∅⟩

def pathSystem : System Path PathEvent := .ofNext (StartsPath cfg) (pathNext cfg sha1 host)

end Next

def ProxyEvent.isDelivery : ProxyEvent → Bool
  | .deliver _ _ => true
  | _ => false

/-- The bodies that come with the event hash to their names, and the destination gets the messages of its source only. -/
def PathEvent.Genuine (sha1 : Bytes → Sha1Name) : PathEvent → Prop
  | .own e => e.Genuine sha1 ∧ e.isDelivery = false
  | .other e => e.Genuine sha1
  | _ => True

/-- A path with genuine bodies. -/
def genuinePath (cfg : Config) (sha1 : Bytes → Sha1Name) (host : Bytes → Option (BitVec 32 × BitVec 16)) : System Path PathEvent :=
  (pathSystem cfg sha1 host).restrict fun _ e => e.Genuine sha1

/-- The data that messages stand for. -/
def payload (out : List Outgoing) : Bytes := (out.map Outgoing.block).flatten

/-- What of the bytes of a user is meant for the other user: for an HTTP proxy connection, what follows the first line. -/
def meantBytes (isHttp : Bool) (bytes : Bytes) : Bytes :=
  if isHttp then (bytes.dropWhile (· ≠ 0x0a)).tail else bytes

@[simp] theorem payload_nil : payload [] = [] := rfl

@[simp] theorem payload_append (a b : List Outgoing) : payload (a ++ b) = payload a ++ payload b := by
  rw [payload, List.map_append, List.flatten_append]
  rfl

@[simp] theorem payload_singleton (o : Outgoing) : payload [o] = o.block := by
  rw [payload, List.map_singleton, List.flatten_singleton]

/-- What an HTTP proxy connection takes out of its data to open the connection: a line. -/
def OpeningLine (isHttp : Bool) (line : Bytes) : Prop :=
  if isHttp then ∃ front, line = front ++ [0x0a] ∧ 0x0a ∉ front else line = []

theorem OpeningLine.meantBytes_append {isHttp : Bool} {line : Bytes} (h : OpeningLine isHttp line) (rest : Bytes) :
    meantBytes isHttp (line ++ rest) = rest := by
  cases isHttp with
  | false =>
      have hnil : line = [] := h
      rw [meantBytes, if_neg (by decide), hnil, List.nil_append]
  | true =>
      obtain ⟨front, hline, hfront⟩ : ∃ front, line = front ++ [0x0a] ∧ 0x0a ∉ front := h
      have hall : ∀ b ∈ front, decide (b ≠ 0x0a) = true := by
        intro b hb
        apply decide_eq_true
        rintro rfl
        exact hfront hb
      rw [meantBytes, if_pos rfl, hline, List.append_assoc, List.dropWhile_append_of_pos hall, List.singleton_append,
        List.dropWhile_cons_of_neg (by decide), List.tail_cons]

/-! ## The source -/

section Source

variable {cfg : Config} {sha1 : Bytes → Sha1Name} {hint : Sha1Name → Bool} {host : Bytes → Option (BitVec 32 × BitVec 16)}
  {ci ci' : UserConnection} {sh sh' : Shared} {r : UserDataResult}

/-- Raw messages come before name deliveries. -/
def RawsFirst (out : List Outgoing) : Prop := out.Pairwise fun o o' => o'.chunks = [] → o.chunks = []

/-- The message of a round is for the other end of the connection. -/
theorem Round.headerConnID {buffer : Bytes} {one : Nat} {o : Outgoing} (h : Round cfg sha1 hint ci buffer sh one o ci' sh') :
    headerConnID o.message = .ok ci.key := by
  have hraw : ∀ {block msg : Bytes}, buildWARawMessage ci.key block = .ok msg → BeagleCache.headerConnID msg = .ok ci.key := by
    intro block msg hmsg
    obtain ⟨_, -, hmsg⟩ := Run.bind_eq_ok.mp hmsg
    obtain ⟨hdr, hfill, hret⟩ := Run.bind_eq_ok.mp hmsg
    cases hret
    exact headerConnID_eq hfill _
  cases h with
  | raw _ hmsg => exact hraw hmsg
  | first _ _ _ _ hmsg => exact hraw hmsg
  | names _ _ _ _ _ _ hmsg =>
      obtain ⟨chunks, -, hmsg⟩ := Run.bind_eq_ok.mp hmsg
      obtain ⟨hdr, hfill, hret⟩ := Run.bind_eq_ok.mp hmsg
      cases hret
      exact headerConnID_eq hfill _

/-- In raw mode all messages are raw. -/
theorem Round.raw_of_mode {buffer : Bytes} {one : Nat} {o : Outgoing} (hmode : rawMode cfg ci.isForward = true)
    (h : Round cfg sha1 hint ci buffer sh one o ci' sh') : o.chunks = [] := by
  cases h with
  | raw _ _ => rfl
  | first _ _ _ _ _ => rfl
  | names hraw _ _ _ _ _ _ =>
      rw [hmode] at hraw
      cases hraw

/-- Otherwise the messages are counted, and a raw one is the first. -/
theorem Round.counted {buffer : Bytes} {one n : Nat} {o : Outgoing} (hcfg : cfg.Sized) (hctx : ci.ChunkReady)
    (hmode : rawMode cfg ci.isForward = false) (hnum : ci.numChunks = BitVec.ofNat 32 n)
    (hsmall : cfg.skipFirstChunk = true → n + 1 < 2 ^ 32) (h : Round cfg sha1 hint ci buffer sh one o ci' sh') :
    ci'.numChunks = BitVec.ofNat 32 (n + 1) ∧ (o.chunks = [] → n = 0) := by
  have hnext : ci.numChunks + 1 = BitVec.ofNat 32 (n + 1) := by
    rw [hnum, BitVec.ofNat_add]
    rfl
  cases h with
  | raw hraw _ =>
      rw [hmode] at hraw
      cases hraw
  | first _ _ hskip hfirst _ =>
      refine ⟨hnext, fun _ => ?_⟩
      have hlt := hsmall hskip
      rw [hnext, BitVec.le_def, BitVec.toNat_ofNat, Nat.mod_eq_of_lt hlt] at hfirst
      have : n + 1 ≤ 1 := hfirst
      omega
  | @names r names low cands names' cb tmp' msg _ hpre _ hblock _ _ _ =>
      refine ⟨hnext, fun hnil => ?_⟩
      obtain ⟨-, -, hpos, -⟩ := doPreMRC_spec hcfg hctx hpre
      exact absurd (List.map_eq_nil_iff.mp hnil) (Tiling.tiles_ne_nil hblock.selected.tiles hpos)

/-- A message that was announced for `id`. -/
def AnnouncedFor (cfg : Config) (sha1 : Bytes → Sha1Name) (id : ConnectionID) (o : Outgoing) : Prop :=
  Announced cfg sha1 o ∧ BeagleCache.headerConnID o.message = .ok id

/-- What the rounds of a call send to `id`: `n` is the number of messages before, where these are counted. -/
structure SendsInOrder (cfg : Config) (sha1 : Bytes → Sha1Name) (id : ConnectionID) (n : Nat) (ci : UserConnection)
    (r : UserDataResult) : Prop where
  announced : ci.bufRead.length ≤ recvBufsize → ∀ o ∈ r.out, AnnouncedFor cfg sha1 id o
  raws : rawMode cfg ci.isForward = true → ∀ o ∈ r.out, o.chunks = []
  counted : rawMode cfg ci.isForward = false → (cfg.skipFirstChunk = true → n + r.out.length < 2 ^ 32) →
    ci.numChunks = BitVec.ofNat 32 n →
    r.ci.numChunks = BitVec.ofNat 32 (n + r.out.length) ∧ (∀ o ∈ r.out, o.chunks = [] → n = 0) ∧ RawsFirst r.out
  /-- The receiving side of the connection stays as it is. -/
  receiving : r.ci.sent = ci.sent ∧ r.ci.reassembleList = ci.reassembleList

theorem SendsInOrder.nothing {id : ConnectionID} {n : Nat} (hout : r.out = []) (hci : r.ci = ci) : SendsInOrder cfg sha1 id n ci r where
  announced := by
    rw [hout]
    exact fun _ o ho => nomatch ho
  raws := by
    rw [hout]
    exact fun _ o ho => nomatch ho
  counted := by
    intro _ _ hnum
    rw [hout, hci]
    refine ⟨hnum, ?_, List.Pairwise.nil⟩
    exact fun o ho => nomatch ho
  receiving := by rw [hci]; exact ⟨rfl, rfl⟩

theorem Rounds.sendsInOrder {srcOff n : Nat} (hcfg : cfg.Sized) (hctx : ci.ChunkReady)
    (h : Rounds cfg sha1 hint srcOff ci sh r) : SendsInOrder cfg sha1 ci.key n ci r := by
  induction h generalizing n with
  | stop srcOff ci sh => exact .nothing rfl rfl
  | @block srcOff one ci ci₁ sh sh₁ o hlt hround hfull =>
      have hbuffer : ci.bufRead.length ≤ recvBufsize → (ci.bufRead.drop srcOff).length ≤ recvBufsize := by
        intro hbuf
        rw [List.length_drop]
        omega
      obtain ⟨-, -, -, -, hframe⟩ := hround.frame hcfg hctx
      have honly : ∀ {Q : Outgoing → Prop}, Q o → ∀ x ∈ [o], Q x := by
        intro Q hQ x hx
        rw [List.mem_singleton.mp hx]
        exact hQ
      refine ⟨fun hbuf => honly ⟨hround.announced hcfg hctx (hbuffer hbuf), hround.headerConnID⟩,
        fun hmode => honly (hround.raw_of_mode hmode), ?_, ?_⟩
      · intro hmode hsmall hnum
        obtain ⟨hnum', hfirst⟩ := hround.counted hcfg hctx hmode hnum hsmall
        exact ⟨hnum', honly hfirst, List.pairwise_singleton _ _⟩
      · rw [hframe]
        exact ⟨rfl, rfl⟩
  | @next srcOff one ci ci₁ sh sh₁ o rest hlt hround hopen hrest ih =>
      have hbuffer : ci.bufRead.length ≤ recvBufsize → (ci.bufRead.drop srcOff).length ≤ recvBufsize := by
        intro hbuf
        rw [List.length_drop]
        omega
      obtain ⟨-, -, -, -, hframe⟩ := hround.frame hcfg hctx
      have hsame : (countSent ci₁ one).bufRead = ci.bufRead ∧ (countSent ci₁ one).key = ci.key ∧
          (countSent ci₁ one).isForward = ci.isForward ∧ (countSent ci₁ one).sent = ci.sent ∧
          (countSent ci₁ one).reassembleList = ci.reassembleList := by
        rw [hframe]
        exact ⟨rfl, rfl, rfl, rfl, rfl⟩
      obtain ⟨hread, hkey, hforward, hsent, hlist⟩ := hsame
      have hnext := @ih (n + 1) (hround.countSent_ready hcfg hctx)
      refine ⟨?_, ?_, ?_, ?_⟩
      · intro hbuf x hx
        rcases List.mem_cons.mp hx with rfl | hmem
        · exact ⟨hround.announced hcfg hctx (hbuffer hbuf), hround.headerConnID⟩
        · rw [← hkey]
          exact hnext.announced (by rw [hread]; exact hbuf) x hmem
      · intro hmode x hx
        rcases List.mem_cons.mp hx with rfl | hmem
        · exact hround.raw_of_mode hmode
        · exact hnext.raws (by rw [hforward]; exact hmode) x hmem
      · intro hmode hsmall hnum
        have hlength : n + (o :: rest.out).length = n + 1 + rest.out.length := by
          rw [List.length_cons]
          omega
        obtain ⟨hnum', hfirst⟩ := hround.counted hcfg hctx hmode hnum fun hskip => by
          have := hsmall hskip
          rw [hlength] at this
          omega
        obtain ⟨hnum'', hlater, hpairs⟩ := hnext.counted (by rw [hforward]; exact hmode) (by rw [← hlength]; exact hsmall) hnum'
        refine ⟨?_, ?_, ?_⟩
        · rw [hlength]
          exact hnum''
        · intro x hx hraw
          rcases List.mem_cons.mp hx with rfl | hmem
          · exact hfirst hraw
          · exact absurd (hlater x hmem hraw) (Nat.succ_ne_zero n)
        · refine List.pairwise_cons.mpr ⟨?_, hpairs⟩
          intro x hmem hraw
          exact absurd (hlater x hmem hraw) (Nat.succ_ne_zero n)
      · rw [← hsent, ← hlist]
        exact hnext.receiving

/-- What a call takes from the buffer: the line that opens the connection, and the data of its messages. -/
structure Takes (ci : UserConnection) (r : UserDataResult) (line : Bytes) : Prop where
  bufRead_eq : ci.bufRead = line ++ (payload r.out ++ r.ci.bufRead)
  line_is : OpeningLine ci.isHttpProxy line
  key_eq : ci.isHttpProxy = false → r.ci.key = ci.key
  isHttpProxy_eq : r.ci.isHttpProxy = false
  isForward_eq : r.ci.isForward = ci.isForward

theorem Takes.taken {line : Bytes} (h : Takes ci r line) :
    ci.bufRead.take (ci.bufRead.length - r.ci.bufRead.length) = line ++ payload r.out := by
  have hsplit : ci.bufRead = line ++ payload r.out ++ r.ci.bufRead := by
    rw [List.append_assoc]
    exact h.bufRead_eq
  have hlen : ci.bufRead.length - r.ci.bufRead.length = (line ++ payload r.out).length := by
    rw [hsplit, List.length_append, Nat.add_sub_cancel]
  rw [hlen, hsplit, List.take_left]

/-- The first line of the data that opens a connection. -/
theorem opened_line {ci₀ : UserConnection} (h : opened host ci = some ci₀) : ci₀.isHttpProxy = false ∧
    (ci.isHttpProxy = false → ci₀.key = ci.key) ∧ ∃ line, ci.bufRead = line ++ ci₀.bufRead ∧ OpeningLine ci.isHttpProxy line := by
  unfold opened at h
  split at h
  case isFalse hplain =>
    cases h
    rw [Bool.not_eq_true] at hplain
    refine ⟨hplain, fun _ => rfl, [], rfl, ?_⟩
    rw [hplain]
    rfl
  case isTrue hhttp =>
    split at h
    case h_2 => cases h
    case h_1 target line _ hline =>
      cases h
      obtain ⟨hlt, hend, hbefore⟩ := List.findIdx?_eq_some_iff_getElem.mp hline
      have hbyte : ci.bufRead[line] = 0x0a := of_decide_eq_true hend
      refine ⟨rfl, fun hplain => ?_, ci.bufRead.take line ++ [0x0a], ?_, ?_⟩
      · rw [hhttp] at hplain
        cases hplain
      · show ci.bufRead = ci.bufRead.take line ++ [0x0a] ++ ci.bufRead.drop (line + 1)
        rw [List.append_assoc, List.singleton_append, ← hbyte, ← List.drop_eq_getElem_cons hlt, List.take_append_drop]
      · rw [hhttp]
        refine ⟨_, rfl, ?_⟩
        intro hmem
        obtain ⟨j, hj, hget⟩ := List.mem_take_iff_getElem.mp hmem
        exact hbefore j (by omega) (decide_eq_true hget)

/-- What a call of `ProcessUserData` takes and sends. -/
theorem Served.takes (hcfg : cfg.Sized) (hctx : ci.ChunkReady)
    (h : Served cfg sha1 hint host ci sh r) :
    (∀ n, SendsInOrder cfg sha1 r.ci.key n ci r) ∧ ((r.out = [] ∧ r.ci = ci) ∨ ∃ line, Takes ci r line) := by
  cases h with
  | idle hout _ _ hci _ => exact ⟨fun n => .nothing hout hci, .inl ⟨hout, hci⟩⟩
  | @sent ci₀ r₀ hopened _ _ hrounds hout _ _ _ hci =>
      have hready := opened_ready hopened hctx
      obtain ⟨k, hframe⟩ := opened_frame hopened
      obtain ⟨hplain₀, hkey₀, line, hread, hline⟩ := opened_line hopened
      obtain ⟨-, hbufRead, hkey, hforward, hproxy, -, hend, hblocks⟩ := hrounds.frame hcfg hready (Nat.zero_le _)
      have hrest : r.ci = { r₀.ci with bufRead := ci₀.bufRead.drop r₀.numProcessed, status := r.ci.status } := by
        rw [hci, (finish_frame r₀).2.2.2.2, hbufRead]
      have hsame : ci₀.isForward = ci.isForward ∧ ci₀.numChunks = ci.numChunks ∧ ci₀.sent = ci.sent ∧
          ci₀.reassembleList = ci.reassembleList := by
        rw [hframe]
        exact ⟨rfl, rfl, rfl, rfl⟩
      obtain ⟨hforward₀, hnum₀, hsent₀, hlist₀⟩ := hsame
      rw [List.drop_zero, Nat.sub_zero] at hblocks
      constructor
      · intro n
        have hsends := @Rounds.sendsInOrder cfg sha1 hint ci₀ sh r₀ 0 n hcfg hready hrounds
        refine ⟨?_, ?_, ?_, ?_⟩
        · intro hbuf
          rw [hread, List.length_append] at hbuf
          rw [hout, hrest]
          show ∀ o ∈ r₀.out, AnnouncedFor cfg sha1 r₀.ci.key o
          rw [hkey]
          exact hsends.announced (by omega)
        · rw [hout, ← hforward₀]
          exact hsends.raws
        · rw [hout, hrest, ← hforward₀, ← hnum₀]
          exact hsends.counted
        · rw [hrest, ← hsent₀, ← hlist₀]
          exact hsends.receiving
      · refine .inr ⟨line, ?_, hline, ?_, ?_, ?_⟩
        · rw [hread, hout, hrest, payload, hblocks]
          show line ++ ci₀.bufRead = line ++ (_ ++ ci₀.bufRead.drop r₀.numProcessed)
          rw [List.take_append_drop]
        · intro hno
          rw [hrest]
          exact hkey.trans (hkey₀ hno)
        · rw [hrest]
          exact hproxy.trans hplain₀
        · rw [hrest]
          exact hforward.trans hforward₀

end Source

end BeagleCache
