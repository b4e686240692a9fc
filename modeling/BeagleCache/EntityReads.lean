import Mathlib.Tactic
import BeagleCache.ChunkLines
import BeagleCache.StoredMetadata

/-! When `parseResponse` takes the entity of a response for complete. The entity comes in reads, which may end anywhere; a read
of a chunked entity is in order if it does not end between the bytes of a chunk and the line that follows them, nor behind the
size line of the last chunk before the end of the message. -/

namespace BeagleCache

open Run

/-! ## The message -/

/-- A size line says the number. -/
structure SizeLine (digits ext : Bytes) (n : Nat) : Prop where
  digits_ne : digits ≠ []
  hex : ∀ b ∈ digits, hexValue b ≠ none
  value : hexNumber digits = n
  short : digits.length + 1 < httpBufSize
  small : n < 2 ^ 31
  plain : Plain ext
  first : ∀ b ∈ ext.head?, hexValue b = none ∧ b ≠ 120 ∧ b ≠ 88

/-- A chunk of an entity, with the text behind the number on its size line. -/
structure Chunk where
  digits : Bytes
  ext : Bytes
  data : Bytes
  size : SizeLine digits ext data.length
  data_ne : data ≠ []

/-- A line of the trailer. -/
structure TrailerLine (line : Bytes) : Prop where
  text : LineText line
  first : ∃ b ∈ line.head?, present b ≠ .creturn ∧ StartsLine b

/-- The last chunk, which is empty, and the trailer. -/
structure LastChunk where
  digits : Bytes
  ext : Bytes
  trailer : List Bytes
  size : SizeLine digits ext 0
  lines : ∀ line ∈ trailer, TrailerLine line

def Chunk.line (c : Chunk) : Bytes := c.digits ++ c.ext

def Chunk.text (c : Chunk) : Bytes := c.line ++ (crlf ++ (c.data ++ crlf))

def LastChunk.line (z : LastChunk) : Bytes := z.digits ++ z.ext

/-- The trailer, with the empty line. -/
def trailerText (trailer : List Bytes) : Bytes := trailer.flatMap (fun line => line ++ crlf) ++ crlf

def LastChunk.text (z : LastChunk) : Bytes := z.line ++ (crlf ++ trailerText z.trailer)

/-- A chunked entity. -/
inductive Chunks
  | last (z : LastChunk)
  | chunk (c : Chunk) (rest : Chunks)

namespace Chunks

def text : Chunks → Bytes
  | last z => z.text
  | chunk c rest => c.text ++ rest.text

/-- The size line that comes next. -/
def nextLine : Chunks → Bytes
  | last z => z.line
  | chunk c _ => c.line

def count : Chunks → Nat
  | last _ => 1
  | chunk _ rest => rest.count + 1

end Chunks

/-! ## The reads -/

/-- Where the message was read to: so many bytes of an entity of known length are left; `seen` of a size line was read; or
`left` of a chunk is left. -/
inductive Place
  | body (left : Nat)
  | line (seen : Bytes) (chunks : Chunks)
  | data (left : Bytes) (chunks : Chunks)

/-- Some bytes have to be read again. -/
def Place.Rewinds : Place → Prop
  | .line seen _ => seen ≠ []
  | _ => False

/-- From the beginning of a size line, a read gets to a place where it may end. -/
inductive Goes : Chunks → Bytes → Place → Prop
  | cut {chunks : Chunks} {seen : Bytes} : seen <+: chunks.nextLine ++ [13] → Goes chunks seen (.line seen chunks)
  | within {c : Chunk} {rest : Chunks} {part left : Bytes} : c.data = part ++ left → left ≠ [] →
      Goes (.chunk c rest) (c.line ++ (crlf ++ part)) (.data left rest)
  | past {c : Chunk} {rest : Chunks} {bytes : Bytes} {p : Place} : Goes rest bytes p → Goes (.chunk c rest) (c.text ++ bytes) p

/-- A read of these bytes goes from one place to another. -/
def Moves : Place → Bytes → Place → Prop
  | .body left, bytes, p => bytes.length < left ∧ p = .body (left - bytes.length)
  | .line seen chunks, bytes, p => Goes chunks (seen ++ bytes) p
  | .data left chunks, bytes, p =>
      (∃ left', left = bytes ++ left' ∧ left' ≠ [] ∧ p = .data left' chunks) ∨ ∃ more, bytes = left ++ (crlf ++ more) ∧ Goes chunks more p

/-- A read of these bytes gets to the end of the message, and maybe further. -/
def Ends : Place → Bytes → Prop
  | .body left, bytes => left ≤ bytes.length
  | .line seen chunks, bytes => ∃ extra, seen ++ bytes = chunks.text ++ extra
  | .data left chunks, bytes => ∃ extra, bytes = left ++ (crlf ++ (chunks.text ++ extra))

/-- The reads get from a place to the end of the message; `again` is that the first of them begins with bytes that are read
again. -/
inductive Splits : Bool → Place → Bytes → List Bytes → Prop
  | last {again : Bool} {p : Place} {bytes : Bytes} : Ends p bytes → Splits again p bytes []
  | more {again again' : Bool} {p p' : Place} {bytes bytes' : Bytes} {reads : List Bytes} : Moves p bytes p' →
      (again = true → ¬p'.Rewinds) → (again' = true ↔ p'.Rewinds) → bytes' ≠ [] → Splits again' p' bytes' reads →
      Splits again p bytes (bytes' :: reads)

/-- Between two reads the buffer may be begun anew, unless bytes in it have to be read again; it is not full. -/
structure Handed (r r' : HttpResponse) : Prop where
  stage : r'.stage = r.stage
  start : r'.start = r.start
  state : r'.state = r.state
  etype : r'.etype = r.etype
  con_len : r'.con_len = r.con_len
  rcvd : r'.rcvd = r.rcvd
  entityLen : r'.entityLen = r.entityLen
  rewind : r'.rewind = r.rewind
  status : r'.status = r.status
  buffer : 0 < r.rewind → r'.mem = r.mem ∧ r'.used = r.used
  room : r'.isFull = false

/-- The response is complete with the last of the reads, and neither complete nor bad before. -/
def Detected [Daylight] (fuel : Nat) : List Bytes → Run (Int × HttpResponse) → Prop
  | [], result => ∃ r, result = .ok (0, r) ∧ r.status = .entityComplete
  | bytes :: reads, result => ∃ r, result = .ok (0, r) ∧ r.status ≠ .entityComplete ∧ r.status ≠ .badResponse ∧
      ∀ r', Handed r r' → bytes.length ≤ r'.room → Detected fuel reads (parseResponse fuel (.data bytes) r')

/-- The response is not complete after any of the reads. -/
def NeverComplete [Daylight] (fuel : Nat) : List Bytes → Run (Int × HttpResponse) → Prop
  | [], result => ∃ r, result = .ok (0, r) ∧ r.status ≠ .entityComplete
  | bytes :: reads, result => ∃ r, result = .ok (0, r) ∧ r.status ≠ .entityComplete ∧
      ∀ r', Handed r r' → bytes.length ≤ r'.room → NeverComplete fuel reads (parseResponse fuel (.data bytes) r')

/-- The entity of the response comes. -/
structure Fetching (etype : EntityType) (r : HttpResponse) : Prop where
  stage : r.stage = .entityFetch
  etype : r.etype = etype
  status : r.status ≠ .entityComplete ∧ r.status ≠ .badResponse

/-- It comes from the next read on. -/
structure Awaits (etype : EntityType) (start : Start) (r : HttpResponse) : Prop extends Fetching etype r where
  start : r.start = start
  state : r.state = .none

/-- The response was read to the place. -/
def IsAt : Place → HttpResponse → Prop
  | .body left, r => Awaits .clen .body r ∧ r.con_len - r.rcvd = left ∧ r.rewind = 0
  | .line seen _, r => Awaits .chun .lineend r ∧ r.entityLen = -1 ∧ r.rewind = seen.length ∧ Spells r.mem (r.used - seen.length) seen
  | .data left _, r => Awaits .chun .body r ∧ r.entityLen - r.rcvd = left.length ∧ r.entityLen ≠ -1 ∧ r.rewind = 0

/-! ## A token of the entity -/

section Stage

variable {fuel rounds : Nat} {stream : Bool} {r r' : HttpResponse} {l l' : Lex} {stop top : Int}

/-- The response in the stage of the entity, with the block that was read. -/
def HttpResponse.fetched (stream : Bool) (r : HttpResponse) (l l' : Lex) : HttpResponse :=
  if stream then { r with start := l.start, state := l.state }.addBlock l' 0 else { r with start := l.start, state := l.state }

/-- How the loop goes on. -/
def EntityStep.go [Daylight] (fuel rounds : Nat) : EntityStep → Run (Int × HttpResponse)
  | .ret status r l => .ok (r.leave l status)
  | .again r l => responseLoop fuel rounds false r l

theorem responseLoop_entity [Daylight] (htoken : getNextToken fuel l = .ok (.ok, l')) (htype : l'.tokenType ≠ .bufend)
    (hstage : r.stage = .entityFetch) :
    responseLoop fuel (rounds + 1) stream r l = (entityStage fuel (r.fetched stream l l') l' >>= EntityStep.go fuel rounds) := by
  cases r
  cases hstage
  rw [responseLoop, htoken]
  simp only [ok_bind]
  rw [if_neg (fun h => by cases h), if_neg htype]
  cases stream <;> rfl

theorem responseLoop_cut [Daylight] (htoken : getNextToken fuel l = .ok (.ok, l')) (htype : l'.tokenType = .bufend) :
    responseLoop fuel (rounds + 1) stream r l =
      .ok ({ r with start := l.start, state := l.state, rewind := l'.toklen, status := .comeBack, len := l'.last }.leave l' 0) := by
  rw [responseLoop, htoken]
  simp only [ok_bind]
  rw [if_neg (fun h => by cases h), if_pos htype]
  rfl

@[simp] theorem fetched_etype : (r.fetched stream l l').etype = r.etype := by
  cases stream <;> rfl

@[simp] theorem fetched_stage : (r.fetched stream l l').stage = r.stage := by
  cases stream <;> rfl

@[simp] theorem fetched_entityLen : (r.fetched stream l l').entityLen = r.entityLen := by
  cases stream <;> rfl

@[simp] theorem fetched_rcvd : (r.fetched stream l l').rcvd = r.rcvd := by
  cases stream <;> rfl

@[simp] theorem fetched_con_len : (r.fetched stream l l').con_len = r.con_len := by
  cases stream <;> rfl

@[simp] theorem fetched_status : (r.fetched stream l l').status = r.status := by
  cases stream <;> rfl

@[simp] theorem fetched_used : (r.fetched stream l l').used = r.used := by
  cases stream <;> rfl

@[simp] theorem fetched_rewind : (r.fetched stream l l').rewind = r.rewind := by
  cases stream <;> rfl

theorem fetched_start : (r.fetched stream l l').start = l.start := by
  cases stream <;> rfl

theorem fetched_state : (r.fetched stream l l').state = l.state := by
  cases stream <;> rfl

theorem Fetching.fetched {etype : EntityType} (h : Fetching etype r) : Fetching etype (r.fetched stream l l') where
  stage := fetched_stage.trans h.stage
  etype := fetched_etype.trans h.etype
  status := by
    rw [fetched_status]
    exact h.status

theorem responseLoop_length [Daylight] (stream : Bool) (rounds : Nat) (hfetching : Fetching .clen r) (hrewind : r.rewind = 0)
    (hinside : l.processed ≤ l.last)
    (hstart : l.start = .body) (hfuel : 0 < fuel) {left : Nat} (hleft : r.con_len - r.rcvd = left) :
    ∃ r', responseLoop fuel (rounds + 1) stream r l = .ok (0, r') ∧
      (left ≤ l.last - l.processed → r'.status = .entityComplete) ∧
      (l.last - l.processed < left → IsAt (.body (left - (l.last - l.processed).toNat)) r') := by
  have htoken := getNextToken_body (not_lt.mpr hinside) hstart hfuel
  have hbefore : ({ l.fresh with tokenType := .body } : Lex).last - ({ l.fresh with tokenType := .body } : Lex).processed =
      l.last - l.processed := rfl
  have htype : ({ l.fresh with tokenType := .body } : Lex).tokenType = .body := rfl
  generalize ({ l.fresh with tokenType := .body } : Lex) = l₁ at htoken hbefore htype
  rw [responseLoop_entity htoken (by rw [htype]; decide) hfetching.stage]
  have hfetching₁ : Fetching .clen (r.fetched stream l l₁) := hfetching.fetched
  have hleft₁ : (r.fetched stream l l₁).con_len - (r.fetched stream l l₁).rcvd = left := by
    rw [fetched_con_len, fetched_rcvd, hleft]
  have hrewind₁ : (r.fetched stream l l₁).rewind = 0 := fetched_rewind.trans hrewind
  generalize r.fetched stream l l₁ = r₁ at hfetching₁ hleft₁ hrewind₁
  have hstage : entityStage fuel r₁ l₁ = .ok (clenEntity r₁ l₁) := by
    rw [entityStage, hfetching₁.etype]
  rw [hstage, ok_bind, clenEntity, if_neg (not_not.mpr htype), hleft₁, hbefore]
  by_cases hall : (left : Int) ≤ l.last - l.processed
  · rw [if_pos hall]
    exact ⟨_, rfl, fun _ => rfl, fun hnot => absurd hall (not_le.mpr hnot)⟩
  · rw [if_neg hall]
    refine ⟨_, rfl, fun h => absurd h hall, fun hless => ?_⟩
    refine ⟨⟨⟨hfetching₁.stage, hfetching₁.etype, hfetching₁.status⟩, rfl, rfl⟩, ?_, hrewind₁⟩
    show r₁.con_len - (r₁.rcvd + (l.last - l.processed)) = (left - (l.last - l.processed).toNat : Nat)
    omega

theorem responseLoop_connection [Daylight] (stream : Bool) (rounds : Nat) (hfetching : Fetching .conn r) (hrewind : r.rewind = 0)
    (hinside : l.processed ≤ l.last) (hstart : l.start = .body) (hstate : l.state = .none) (hfuel : 0 < fuel) :
    ∃ r', responseLoop fuel (rounds + 1) stream r l = .ok (0, r') ∧ Awaits .conn .body r' ∧ r'.rewind = 0 := by
  have htoken := getNextToken_body (not_lt.mpr hinside) hstart hfuel
  have htype : ({ l.fresh with tokenType := .body } : Lex).tokenType = .body := rfl
  generalize ({ l.fresh with tokenType := .body } : Lex) = l₁ at htoken htype
  have hfetching₁ : Fetching .conn (r.fetched stream l l₁) := hfetching.fetched
  have hstage : entityStage fuel (r.fetched stream l l₁) l₁ = .ok (connEntity (r.fetched stream l l₁) l₁) := by
    rw [entityStage, hfetching₁.etype]
  rw [responseLoop_entity htoken (by rw [htype]; decide) hfetching.stage, hstage, ok_bind, connEntity, if_neg (not_not.mpr htype)]
  refine ⟨_, rfl, ⟨⟨hfetching₁.stage, hfetching₁.etype, ?_⟩, fetched_start.trans hstart, fetched_state.trans hstate⟩,
    fetched_rewind.trans hrewind⟩
  constructor
  · intro h
    cases h
  · intro h
    cases h

end Stage

/-! ## Chunks -/

section Lines

variable {digits ext line rest seen : Bytes} {n : Nat} {mem : Int → Byte} {pos : Int}

theorem SizeLine.line_plain (h : SizeLine digits ext n) : Plain (digits ++ ext) := by
  have hhex : ∀ b : Byte, hexValue b ≠ none → b ≠ 13 ∧ b ≠ 255 := by decide
  intro b hb
  rcases List.mem_append.mp hb with hdigit | hext
  · exact hhex b (h.hex b hdigit)
  · exact h.plain b hext

theorem SizeLine.scan (h : SizeLine digits ext n) (hspells : Spells mem pos (digits ++ ext ++ (crlf ++ rest))) :
    sscanfHex (fun k => mem (pos + k)) httpBufSize 0 = .ok (some n) := by
  have hsmall : hexNumber digits < 2 ^ 31 := h.value ▸ h.small
  rw [← h.value]
  rw [List.append_assoc] at hspells
  cases hext : ext with
  | nil =>
      rw [hext] at hspells
      exact sscanfHex_digits (c := 13) h.digits_ne h.hex (by decide) hspells h.short hsmall
  | cons c ext' =>
      rw [hext] at hspells
      exact sscanfHex_digits h.digits_ne h.hex (h.first c (by rw [hext]; rfl)) hspells h.short hsmall

theorem Chunks.nextLine_plain (chunks : Chunks) : Plain chunks.nextLine := by
  cases chunks with
  | last z => exact z.size.line_plain
  | chunk c _ => exact c.size.line_plain

theorem lineCut_of_begins (hline : Plain line) (hseen : seen <+: line ++ [13]) : LineCut seen := by
  rcases List.prefix_concat_iff.mp hseen with hall | hpart
  · exact ⟨line, hline, .inr hall⟩
  · exact ⟨seen, fun b hb => hline b (hpart.subset hb), .inl rfl⟩

end Lines

section Chunks

variable {fuel rounds : Nat} {stream : Bool} {r : HttpResponse} {l l' : Lex} {stop top : Int} {w more bytes left : Bytes}
  {start next : Start} {c : Chunk} {chunks : Chunks} {p : Place}

theorem Lex.Ready.skip (h : l.Ready fuel stop top start (w ++ more)) (hmem : l'.mem = l.mem) (hbuf : l'.buf = l.buf)
    (hlast : l'.last = l.last) (hprocessed : l'.processed = l.processed + w.length) (hstart : l'.start = next)
    (hstate : l'.state = .none) : l'.Ready fuel stop top next more := by
  have hends := h.ends
  have hfits := h.fits
  have hcursor := h.cursor
  rw [List.length_append, Nat.cast_add] at hends hfits
  have hpos : l'.buf + l'.processed = l.buf + l.processed + w.length := by omega
  refine ⟨hstart, hstate, ?_, by omega, by omega, hlast.trans h.last, by omega, h.fuel⟩
  rw [hpos, hmem]
  exact h.spells.right

/-- The loop is at a size line. -/
structure AtLine (r : HttpResponse) : Prop extends Fetching .chun r where
  entityLen : r.entityLen = -1
  rewind : r.rewind = 0

theorem responseLoop_size [Daylight] (stream : Bool) (rounds : Nat) (hr : AtLine r)
    (h : l.Ready fuel stop top .lineend (c.line ++ (crlf ++ more))) :
    ∃ r₁ l₁, responseLoop fuel (rounds + 1) stream r l = (chunkData r₁ l₁).go fuel rounds ∧ Fetching .chun r₁ ∧
      r₁.entityLen = c.data.length ∧ r₁.rcvd = 0 ∧ r₁.rewind = 0 ∧ r₁.used = r.used ∧ l₁.Ready fuel stop top .body more ∧
      l₁.mem = l.mem ∧ l₁.buf = l.buf := by
  have htoken := getNextToken_line h c.size.line_plain
  have hscan : sscanfHex (fun k => l.mem (l.buf + l.processed + k)) httpBufSize 0 = .ok (some c.data.length) := c.size.scan h.spells
  have hskip : l.Ready fuel stop top .lineend (c.line ++ crlf ++ more) := by
    rw [List.append_assoc]
    exact h
  generalize hl₁ : ({ l.fresh.onward (c.line.length + 2) with tokenType := .token, state := .lf } : Lex) = l₁ at htoken
  have htype : l₁.tokenType = .token := hl₁ ▸ rfl
  have hready : Lex.Ready fuel stop top .body { l₁ with start := .body, state := .none } more := by
    refine hskip.skip (hl₁ ▸ rfl) (hl₁ ▸ rfl) (hl₁ ▸ rfl) ?_ rfl rfl
    rw [← hl₁, List.length_append]
    rfl
  have hmem : l₁.mem = l.mem ∧ l₁.token = l.buf + l.processed ∧ l₁.buf = l.buf := by
    rw [← hl₁]
    exact ⟨rfl, rfl, rfl⟩
  refine ⟨{ r.fetched stream l l₁ with entityLen := c.data.length, rcvd := 0 }, { l₁ with start := .body, state := .none }, ?_, ?_⟩
  · have hne : ¬(c.data.length : Int) = 0 := by
      intro hzero
      exact c.data_ne (List.length_eq_zero_iff.mp (Int.ofNat_eq_zero.mp hzero))
    have hlen : (r.fetched stream l l₁).entityLen = -1 := fetched_entityLen.trans hr.entityLen
    have hetype : (r.fetched stream l l₁).etype = .chun := fetched_etype.trans hr.etype
    rw [responseLoop_entity htoken (by rw [htype]; decide) hr.stage, entityStage, hetype]
    show chunEntity fuel _ l₁ >>= _ = _
    rw [chunEntity, if_pos hlen, hmem.1, hmem.2.1, hscan, ok_bind]
    show (if (c.data.length : Int) = 0 then _ else _) >>= _ = _
    rw [if_neg hne]
    rfl
  · have hfetching : Fetching .chun (r.fetched stream l l₁) := hr.toFetching.fetched
    exact ⟨⟨hfetching.stage, hfetching.etype, hfetching.status⟩, rfl, rfl, fetched_rewind.trans hr.rewind, fetched_used, hready,
      hmem.1, hmem.2.2⟩

theorem chunkData_within [Daylight] (hfetching : Fetching .chun r) (hrewind : r.rewind = 0) (hknown : r.entityLen ≠ -1)
    (hleft : r.entityLen - r.rcvd = left.length) (hend : l.processed + w.length = l.last)
    {left' : Bytes} (hpart : left = w ++ left') (hne : left' ≠ []) (rounds : Nat) (chunks : Chunks) :
    ∃ r', (chunkData r l).go fuel rounds = .ok (0, r') ∧ IsAt (.data left' chunks) r' := by
  have hpos : 0 < left'.length := List.length_pos_iff.mpr hne
  have hlength : left.length = w.length + left'.length := by
    rw [hpart, List.length_append]
  have hless : l.last - l.processed < r.entityLen - r.rcvd := by omega
  rw [chunkData, if_pos hless]
  refine ⟨_, rfl, ⟨⟨hfetching.stage, hfetching.etype, hfetching.status⟩, rfl, rfl⟩, ?_, hknown, hrewind⟩
  show r.entityLen - (r.rcvd + (l.last - l.processed)) = left'.length
  omega

theorem chunkData_over [Daylight] (hfetching : Fetching .chun r) (hrewind : r.rewind = 0) (hleft : r.entityLen - r.rcvd = left.length)
    (h : l.Ready fuel stop top .body (left ++ (crlf ++ more))) (rounds : Nat) :
    ∃ r₁ l₁, (chunkData r l).go fuel rounds = responseLoop fuel rounds false r₁ l₁ ∧ AtLine r₁ ∧
      r₁.used = r.used ∧ l₁.mem = l.mem ∧ l₁.buf = l.buf ∧ l₁.Ready fuel stop top .lineend more := by
  have hfits := h.fits
  simp only [List.length_append, crlf, List.length_cons, List.length_nil] at hfits
  have hall : ¬l.last - l.processed < r.entityLen - r.rcvd := by omega
  have hskip : l.Ready fuel stop top .body (left ++ crlf ++ more) := by
    rw [List.append_assoc]
    exact h
  rw [chunkData, if_neg hall]
  refine ⟨_, _, rfl, ⟨⟨hfetching.stage, hfetching.etype, hfetching.status⟩, rfl, hrewind⟩, rfl, rfl, rfl, ?_⟩
  refine hskip.skip rfl rfl rfl ?_ rfl rfl
  show l.processed + (2 + r.entityLen - r.rcvd) = l.processed + ((left ++ crlf).length : Int)
  rw [List.length_append, crlf, List.length_cons, List.length_cons, List.length_nil]
  omega

theorem responseLoop_chunk [Daylight] (stream : Bool) (rounds : Nat) (hr : AtLine r) (h : l.Ready fuel stop top .lineend (c.text ++ more)) :
    ∃ r₁ l₁, responseLoop fuel (rounds + 1) stream r l = responseLoop fuel rounds false r₁ l₁ ∧ AtLine r₁ ∧
      r₁.used = r.used ∧ l₁.mem = l.mem ∧ l₁.buf = l.buf ∧ l₁.Ready fuel stop top .lineend more := by
  have hline : l.Ready fuel stop top .lineend (c.line ++ (crlf ++ (c.data ++ (crlf ++ more)))) := by
    unfold Chunk.text at h
    simp only [List.append_assoc] at h
    exact h
  obtain ⟨r₁, l₁, hloop, hfetching, hlen, hrcvd, hrewind, hused, hready, hmem, hbuf⟩ := responseLoop_size stream rounds hr hline
  obtain ⟨r₂, l₂, hgo, hat, hused₂, hmem₂, hbuf₂, hready₂⟩ := chunkData_over hfetching hrewind (by rw [hlen, hrcvd, sub_zero]) hready rounds
  exact ⟨r₂, l₂, hloop.trans hgo, hat, hused₂.trans hused, hmem₂.trans hmem, hbuf₂.trans hbuf, hready₂⟩

/-- A read that begins at a size line gets to its place. -/
theorem responseLoop_goes [Daylight] (hgoes : Goes chunks bytes p) (hr : AtLine r)
    (h : l.Ready fuel stop top .lineend (bytes ++ [255])) (hend : l.processed + bytes.length = l.last)
    (hexact : p.Rewinds → r.used = l.buf + l.last) (hrounds : chunks.count ≤ rounds) :
    ∃ r', responseLoop fuel rounds stream r l = .ok (0, r') ∧ IsAt p r' := by
  induction hgoes generalizing rounds stream r l with
  | @cut chunks seen hseen =>
      have hcount : 0 < chunks.count := by
        cases chunks <;> exact Nat.succ_pos _
      obtain ⟨rounds, rfl⟩ := Nat.exists_eq_add_one.mpr (hcount.trans_le hrounds)
      have htoken := getNextToken_cut h (lineCut_of_begins chunks.nextLine_plain hseen)
      rw [responseLoop_cut htoken rfl]
      refine ⟨_, rfl, ⟨⟨hr.stage, hr.etype, by show HttpStatus.comeBack ≠ _ ∧ HttpStatus.comeBack ≠ _; decide⟩, h.start, h.state⟩,
        hr.entityLen, ?_, ?_⟩
      · show ((0 + seen.length : Nat) : Int) = seen.length
        rw [Nat.zero_add]
      · show Spells l.mem (r.used - seen.length) seen
        by_cases hne : seen = []
        · rw [hne]
          exact fun k hk => absurd hk (Nat.not_lt_zero k)
        · have hpos : r.used - seen.length = l.buf + l.processed := by
            have hused := hexact hne
            omega
          rw [hpos]
          exact h.spells.left
  | @within c rest part left hdata hne =>
      obtain ⟨rounds, rfl⟩ := Nat.exists_eq_add_one.mpr ((Nat.succ_pos rest.count).trans_le hrounds)
      have hline : l.Ready fuel stop top .lineend (c.line ++ (crlf ++ (part ++ [255]))) := by
        simp only [List.append_assoc] at h
        exact h
      obtain ⟨r₁, l₁, hloop, hfetching, hlen, hrcvd, hrewind, -, hready, -, hbuf⟩ := responseLoop_size stream rounds hr hline
      rw [hloop]
      refine chunkData_within hfetching hrewind ?_ (by rw [hlen, hrcvd, sub_zero]) ?_ hdata hne rounds rest
      · rw [hlen]
        omega
      · have hstop := hready.ends
        have hbefore := h.ends
        have hlast := hready.last.trans h.last.symm
        rw [List.length_append, List.length_singleton, Nat.cast_add, Nat.cast_one] at hstop hbefore
        omega
  | @past c rest bytes p _ ih =>
      obtain ⟨rounds, rfl⟩ := Nat.exists_eq_add_one.mpr ((Nat.succ_pos rest.count).trans_le hrounds)
      rw [List.append_assoc] at h
      obtain ⟨r₁, l₁, hloop, hat, hused, -, hbuf, hready⟩ := responseLoop_chunk stream rounds hr h
      rw [hloop]
      have hlast := hready.last.trans h.last.symm
      refine ih hat hready ?_ ?_ (Nat.le_of_succ_le_succ hrounds)
      · have hstop := hready.ends
        have hbefore := h.ends
        simp only [List.length_append, List.length_singleton, Nat.cast_add, Nat.cast_one] at hstop hbefore hend
        omega
      · intro hrewinds
        rw [hused, hbuf, hlast]
        exact hexact hrewinds

theorem trailerText_cons (line : Bytes) (trailer : List Bytes) : trailerText (line :: trailer) = line ++ (crlf ++ trailerText trailer) := by
  unfold trailerText
  rw [List.flatMap_cons, List.append_assoc, List.append_assoc]

/-- What follows a line of the trailer does not go on with it. -/
theorem trailerText_first {trailer : List Bytes} (hlines : ∀ line ∈ trailer, TrailerLine line) (more : Bytes) :
    ∃ c rest, trailerText trailer ++ more = c :: rest ∧ StartsLine c := by
  cases trailer with
  | nil => exact ⟨13, 10 :: more, rfl, by decide⟩
  | cons line trailer =>
      obtain ⟨b, hb, -, hstarts⟩ := (hlines line List.mem_cons_self).first
      obtain ⟨tail, rfl⟩ := List.head?_eq_some_iff.mp hb
      exact ⟨b, tail ++ (crlf ++ trailerText trailer) ++ more, by rw [trailerText_cons, List.cons_append, List.cons_append], hstarts⟩

theorem trailerLoop_lines {trailer : List Bytes} (hlines : ∀ line ∈ trailer, TrailerLine line)
    (h : Lex.Ready fuel stop top .line { l with start := .line } (trailerText trailer ++ more)) (hrounds : trailer.length < rounds) :
    ∃ l', trailerLoop fuel rounds l = .ok (true, l') := by
  induction trailer generalizing l rounds with
  | nil =>
      obtain ⟨rounds, rfl⟩ := Nat.exists_eq_add_one.mpr hrounds.pos
      obtain ⟨l', hread⟩ := Lex.Ready.blank h
      refine ⟨l', ?_⟩
      rw [trailerLoop, hread.run, ok_bind, if_neg nofun, if_pos hread.on.tokenType]
      rfl
  | cons line trailer ih =>
      obtain ⟨rounds, rfl⟩ := Nat.exists_eq_add_one.mpr hrounds.pos
      obtain ⟨hline, hothers⟩ := List.forall_mem_cons.mp hlines
      obtain ⟨b, hb, hcr, -⟩ := hline.first
      obtain ⟨tail, rfl⟩ := List.head?_eq_some_iff.mp hb
      obtain ⟨c, rest, hrest, hc⟩ := trailerText_first hothers more
      rw [trailerText_cons, List.append_assoc, List.append_assoc, hrest] at h
      obtain ⟨l', hread⟩ := Lex.Ready.next_line h hcr hline.text hc
      have hready : l'.Ready fuel stop top .line (c :: rest) := by
        apply hread.ready
        rw [List.append_assoc]
        exact h
      have hsame : { l' with start := .line } = l' := by
        rw [← hready.start]
      rw [trailerLoop, hread.run, ok_bind, if_neg nofun, if_neg (by rw [hread.on.tokenType]; decide)]
      apply ih hothers
      · rw [hsame, hrest]
        exact hready
      · exact Nat.lt_of_succ_lt_succ hrounds

theorem length_le_trailerText (trailer : List Bytes) : trailer.length ≤ (trailerText trailer).length := by
  induction trailer with
  | nil => exact Nat.zero_le _
  | cons line trailer ih =>
      rw [trailerText_cons, List.length_append, List.length_append, List.length_cons, crlf, List.length_cons]
      omega

theorem responseLoop_trailer [Daylight] {z : LastChunk} (stream : Bool) (rounds : Nat) (hr : AtLine r)
    (h : l.Ready fuel stop top .lineend (z.line ++ (crlf ++ more))) :
    ∃ (l₁ : Lex) (after : Bool × Lex → Run (Int × HttpResponse)),
      responseLoop fuel (rounds + 1) stream r l = (trailerLoop fuel fuel l₁ >>= after) ∧
      Lex.Ready fuel stop top .line { l₁ with start := .line } more ∧
      ∀ l₂, ∃ r', after (true, l₂) = .ok (0, r') ∧ r'.status = .entityComplete := by
  have htoken := getNextToken_line h z.size.line_plain
  have hscan : sscanfHex (fun k => l.mem (l.buf + l.processed + k)) httpBufSize 0 = .ok (some 0) := z.size.scan h.spells
  have hskip : l.Ready fuel stop top .lineend (z.line ++ crlf ++ more) := by
    rw [List.append_assoc]
    exact h
  generalize hl₁ : ({ l.fresh.onward (z.line.length + 2) with tokenType := .token, state := .lf } : Lex) = l₁ at htoken
  have htype : l₁.tokenType = .token := hl₁ ▸ rfl
  have hmem : l₁.mem = l.mem ∧ l₁.token = l.buf + l.processed := by
    rw [← hl₁]
    exact ⟨rfl, rfl⟩
  have hready : Lex.Ready fuel stop top .line { l₁ with start := .line, state := .none } more := by
    refine hskip.skip (hl₁ ▸ rfl) (hl₁ ▸ rfl) (hl₁ ▸ rfl) ?_ rfl rfl
    rw [← hl₁, List.length_append]
    rfl
  have hlen : (r.fetched stream l l₁).entityLen = -1 := fetched_entityLen.trans hr.entityLen
  have hetype : (r.fetched stream l l₁).etype = .chun := fetched_etype.trans hr.etype
  rw [← hmem.1, ← hmem.2] at hscan
  rw [responseLoop_entity htoken (by rw [htype]; decide) hr.stage, entityStage, hetype]
  show ∃ l₁' after, chunEntity fuel _ l₁ >>= EntityStep.go fuel rounds = _ ∧ _
  rw [chunEntity, if_pos hlen, hscan, ok_bind]
  simp only [Option.getD_some, if_true, bind_assoc]
  exact ⟨_, _, rfl, hready, fun l₂ => ⟨_, rfl, rfl⟩⟩

theorem responseLoop_last [Daylight] {z : LastChunk} (hr : AtLine r) (h : l.Ready fuel stop top .lineend (z.text ++ more)) :
    ∃ r', responseLoop fuel (rounds + 1) stream r l = .ok (0, r') ∧ r'.status = .entityComplete := by
  have hline : l.Ready fuel stop top .lineend (z.line ++ (crlf ++ (trailerText z.trailer ++ more))) := by
    unfold LastChunk.text at h
    simp only [List.append_assoc] at h
    exact h
  obtain ⟨l₁, after, hloop, hready, hafter⟩ := responseLoop_trailer stream rounds hr hline
  have hrounds : z.trailer.length < fuel := by
    have hcount := length_le_trailerText z.trailer
    have henough := hready.enough
    rw [List.length_append] at henough
    omega
  obtain ⟨l₂, htrailer⟩ := trailerLoop_lines z.lines hready hrounds
  rw [hloop, htrailer, ok_bind]
  exact hafter l₂

/-- At the mark, the loop over the trailer has no end. -/
theorem trailerLoop_mark (fuel rounds : Nat) (hsees : l.Sees [255]) (hstate : l.state = .none) :
    ∃ e, trailerLoop fuel rounds l = .error e := by
  induction rounds generalizing l with
  | zero => exact ⟨.hang, rfl⟩
  | succ rounds ih =>
      have hline : ({ l with start := .line } : Lex).fresh.Sees [255] := ⟨hsees.bytes, hsees.fits⟩
      have hheader : ({ l with start := .header } : Lex).fresh.Sees [255] := ⟨hsees.bytes, hsees.fits⟩
      have hlineState : ({ l with start := .line } : Lex).fresh.state = .none := hstate
      have hheaderState : ({ l with start := .header } : Lex).fresh.state = .none := hstate
      have hfirst : lexStep ({ l with start := .line } : Lex).fresh = .again ({ l with start := .header } : Lex).fresh := by
        rw [hline.line rfl, lineStep, hlineState, hline.here]
        show LexStep.again { ({ l with start := .line } : Lex).fresh with state := .none, start := .header } = _
        rw [← hstate]
        rfl
      have hsecond : lexStep ({ l with start := .header } : Lex).fresh = .found ({ l with start := .header } : Lex).fresh .bufend := by
        rw [lexStep, if_neg hheader.inside]
        show headerStep _ = _
        rw [headerStep, hheaderState, hheader.here]
        rfl
      rw [trailerLoop]
      show ∃ e, lexLoop fuel ({ l with start := .line } : Lex).fresh >>= _ = _
      rcases fuel with _ | _ | fuel
      · exact ⟨.hang, rfl⟩
      · rw [lexLoop, hfirst]
        exact ⟨.hang, rfl⟩
      · rw [lexLoop, hfirst]
        show ∃ e, lexLoop (fuel + 1) _ >>= _ = _
        rw [lexLoop, hsecond, LexStep.found, ok_bind, if_neg (fun h => by cases h), if_neg (fun h => by cases h)]
        exact ih ⟨hsees.bytes, hsees.fits⟩ hstate

/-- A read that ends right behind the size line of the last chunk never comes to an end. -/
theorem responseLoop_early [Daylight] {z : LastChunk} (stream : Bool) (rounds : Nat) (hr : AtLine r)
    (h : l.Ready fuel stop top .lineend (z.line ++ (crlf ++ [255]))) :
    ∃ e, responseLoop fuel (rounds + 1) stream r l = .error e := by
  obtain ⟨l₁, after, hloop, hready, -⟩ := responseLoop_trailer stream rounds hr h
  obtain ⟨e, hhang⟩ := trailerLoop_mark fuel fuel (l := l₁) ⟨hready.sees.bytes, hready.sees.fits⟩ hready.state
  rw [hloop, hhang]
  exact ⟨e, rfl⟩

/-- A read that begins at a size line and has the rest of the message. -/
theorem responseLoop_ends [Daylight] (hr : AtLine r) (h : l.Ready fuel stop top .lineend (chunks.text ++ more))
    (hrounds : chunks.count ≤ rounds) :
    ∃ r', responseLoop fuel rounds stream r l = .ok (0, r') ∧ r'.status = .entityComplete := by
  induction chunks generalizing rounds stream r l with
  | last z =>
      obtain ⟨rounds, rfl⟩ := Nat.exists_eq_add_one.mpr (Nat.zero_lt_of_lt hrounds)
      exact responseLoop_last hr h
  | chunk c rest ih =>
      obtain ⟨rounds, rfl⟩ := Nat.exists_eq_add_one.mpr ((Nat.succ_pos rest.count).trans_le hrounds)
      rw [Chunks.text, List.append_assoc] at h
      obtain ⟨r₁, l₁, hloop, hat, -, -, -, hready⟩ := responseLoop_chunk stream rounds hr h
      rw [hloop]
      exact ih hat hready (Nat.le_of_succ_le_succ hrounds)

end Chunks

/-! ## A read -/

section Reads

variable {fuel rounds : Nat} {stream again : Bool} {r : HttpResponse} {l : Lex} {stop top : Int} {bytes first seen left w : Bytes}
  {reads : List Bytes}
  {chunks : Chunks} {p p' : Place} {result : Run (Int × HttpResponse)}

theorem spells_read {mem : Int → Byte} {used : Int} (hseen : Spells mem (used - seen.length) seen) (bytes : Bytes) :
    Spells (Function.update (copyBytes mem used bytes) (used + bytes.length) 255) (used - seen.length) (seen ++ bytes ++ [255]) := by
  intro k hk
  rw [List.length_append, List.length_append, List.length_singleton] at hk
  rcases Nat.lt_or_ge k (seen.length + bytes.length) with hlt | hge
  · rw [List.getElem?_append_left (by rw [List.length_append]; exact hlt), Function.update_of_ne (by omega), copyBytes]
    rcases Nat.lt_or_ge k seen.length with hbefore | hafter
    · rw [List.getElem?_append_left hbefore, if_neg (by omega)]
      exact hseen k hbefore
    · have hindex : (used - seen.length + k - used).toNat = k - seen.length := by omega
      rw [List.getElem?_append_right hafter, if_pos (by omega), hindex, List.getD_eq_getElem?_getD,
        List.getElem?_eq_getElem (by omega)]
      rfl
  · have hlast : k = seen.length + bytes.length := by omega
    have hpos : used - seen.length + (seen.length + bytes.length : Nat) = used + bytes.length := by omega
    rw [hlast, hpos, Function.update_self, List.getElem?_append_right (by rw [List.length_append]), List.length_append, Nat.sub_self]
    rfl

theorem parseResponse_read [Daylight] (hroom : r.isFull = false) (hlength : bytes.length ≤ r.room) (hne : bytes ≠ [])
    (hrewind : r.rewind = seen.length)
    (hseen : Spells r.mem (r.used - seen.length) seen) (hstate : r.state = .none) (hfuel : seen.length + bytes.length + 4 ≤ fuel) :
    ∃ used unWritten l stop top, parseResponse fuel (.data bytes) r =
        responseLoop fuel fuel true { r with used := used, unWritten := unWritten, rewind := 0 } l ∧
      l.Ready fuel stop top r.start (seen ++ bytes ++ [255]) ∧ l.processed + (seen ++ bytes).length = l.last ∧
      (seen = [] → used = l.buf + l.last) := by
  have hmax : max r.rewind 0 = seen.length := by omega
  have htake : bytes.take r.room.toNat = bytes := List.take_of_length_le (by omega)
  have hlast : ¬((bytes.length : Int) + seen.length = -1) := by omega
  have hmark : r.used - seen.length + (bytes.length + seen.length) = r.used + bytes.length := by omega
  refine ⟨r.used + (bytes.length + seen.length), r.unWritten + (bytes.length + seen.length),
    r.startLex (copyBytes r.mem r.used bytes) (r.used - seen.length) (bytes.length + seen.length), r.used + bytes.length + 1,
    bytes.length + seen.length, ?_, ?_, ?_, ?_⟩
  · rw [parseResponse, hroom, if_neg Bool.false_ne_true]
    simp only [htake, hne, if_false, parseBlock, hmax]
  · refine ⟨rfl, hstate, ?_, ?_, ?_, rfl, le_rfl, by omega⟩
    · have hmem : (r.startLex (copyBytes r.mem r.used bytes) (r.used - seen.length) (bytes.length + seen.length)).mem =
          Function.update (copyBytes r.mem r.used bytes) (r.used - seen.length + (bytes.length + seen.length)) 255 := by
        simp only [HttpResponse.startLex, if_neg hlast]
      rw [hmem, hmark]
      show Spells _ (r.used - seen.length + 0) _
      rw [add_zero]
      exact spells_read hseen bytes
    · show r.used - seen.length + 0 + ((seen ++ bytes ++ [255]).length : Int) = r.used + bytes.length + 1
      rw [List.length_append, List.length_append, List.length_singleton]
      push_cast
      ring
    · show 0 + ((seen ++ bytes ++ [255]).length : Int) ≤ bytes.length + seen.length + 1
      rw [List.length_append, List.length_append, List.length_singleton]
      push_cast
      omega
  · show 0 + ((seen ++ bytes).length : Int) = bytes.length + seen.length
    rw [List.length_append]
    push_cast
    ring
  · rintro rfl
    show r.used + (bytes.length + _) = r.used - _ + (bytes.length + _)
    simp

/-- What can be left to do at a place. -/
def Place.size : Place → Nat
  | .body _ => 0
  | .line seen chunks => seen.length + chunks.count
  | .data _ chunks => chunks.count + 1

theorem Goes.size_le (hgoes : Goes chunks bytes p) : p.size ≤ bytes.length + chunks.count := by
  induction hgoes with
  | cut _ => exact le_rfl
  | within _ _ => exact Nat.le_add_left _ _
  | @past c rest bytes p _ ih =>
      rw [List.length_append, Chunks.count]
      omega

theorem Moves.size_le (hmoves : Moves p bytes p') : p'.size ≤ p.size + bytes.length := by
  cases p with
  | body left =>
      obtain ⟨-, rfl⟩ := hmoves
      exact Nat.zero_le _
  | line seen chunks =>
      have hsize := Goes.size_le hmoves
      rw [List.length_append] at hsize
      show p'.size ≤ seen.length + chunks.count + bytes.length
      omega
  | data left chunks =>
      rcases hmoves with ⟨left', -, -, rfl⟩ | ⟨more, rfl, hgoes⟩
      · exact Nat.le_add_right _ _
      · have hsize := hgoes.size_le
        simp only [List.length_append]
        show p'.size ≤ chunks.count + 1 + _
        omega

/-- A call has taken the bytes it was given, at a place. -/
structure Took (again : Bool) (p : Place) (bytes : Bytes) (result : Run (Int × HttpResponse)) : Prop where
  ends : Ends p bytes → ∃ r, result = .ok (0, r) ∧ r.status = .entityComplete
  moves : ∀ p', Moves p bytes p' → (again = true → ¬p'.Rewinds) → ∃ r, result = .ok (0, r) ∧ IsAt p' r

theorem IsAt.status (h : IsAt p r) : r.status ≠ .entityComplete ∧ r.status ≠ .badResponse := by
  cases p with
  | body _ => exact h.1.status
  | line _ _ => exact h.1.status
  | data _ _ => exact h.1.status

theorem took_body [Daylight] {left : Nat} (hat : IsAt (.body left) r) (hroom : r.isFull = false) (hlength : bytes.length ≤ r.room)
    (hne : bytes ≠ [])
    (hfuel : bytes.length + 4 ≤ fuel) : Took again (.body left) bytes (parseResponse fuel (.data bytes) r) := by
  obtain ⟨⟨hfetching, hstart, hstate⟩, hleft, hrewind⟩ := hat
  have hnothing : Spells r.mem (r.used - ([] : Bytes).length) [] := fun k hk => absurd hk (Nat.not_lt_zero k)
  have hnoneSeen : ([] : Bytes).length + bytes.length + 4 ≤ fuel := by
    rw [List.length_nil, Nat.zero_add]
    exact hfuel
  obtain ⟨used, unWritten, l, stop, top, hcall, hready, hend, -⟩ := parseResponse_read hroom hlength hne
    (show r.rewind = (([] : Bytes).length : Int) from hrewind) hnothing hstate hnoneSeen
  rw [List.nil_append] at hend
  have hinside : l.processed ≤ l.last := by omega
  have hpos : 0 < fuel := by omega
  obtain ⟨rounds, hrounds⟩ := Nat.exists_eq_add_one.mpr hpos
  have hread := responseLoop_length true rounds (r := { r with used := used, unWritten := unWritten, rewind := 0 })
    ⟨hfetching.stage, hfetching.etype, hfetching.status⟩ rfl hinside (hready.start.trans hstart) hpos hleft
  rw [← hrounds, ← hcall] at hread
  obtain ⟨r', hrun, hall, hpart⟩ := hread
  have htotal : l.last - l.processed = bytes.length := by omega
  rw [htotal] at hall hpart
  constructor
  · intro hends
    exact ⟨r', hrun, hall (Int.ofNat_le.mpr hends)⟩
  · rintro p' ⟨hless, rfl⟩ -
    exact ⟨r', hrun, hpart (Int.ofNat_lt.mpr hless)⟩

theorem took_line [Daylight] (hat : IsAt (.line seen chunks) r) (hagain : again = true ↔ (Place.line seen chunks).Rewinds)
    (hroom : r.isFull = false)
    (hlength : bytes.length ≤ r.room) (hne : bytes ≠ []) (hfuel : (Place.line seen chunks).size + bytes.length + 4 ≤ fuel) :
    Took again (.line seen chunks) bytes (parseResponse fuel (.data bytes) r) := by
  obtain ⟨⟨hfetching, hstart, hstate⟩, hlen, hrewind, hseen⟩ := hat
  have hsize : seen.length + chunks.count + bytes.length + 4 ≤ fuel := hfuel
  have hallSeen : seen.length + bytes.length + 4 ≤ fuel := by omega
  obtain ⟨used, unWritten, l, stop, top, hcall, hready, hend, hexact⟩ := parseResponse_read hroom hlength hne hrewind hseen hstate hallSeen
  have hr : AtLine { r with used := used, unWritten := unWritten, rewind := 0 } :=
    ⟨⟨hfetching.stage, hfetching.etype, hfetching.status⟩, hlen, rfl⟩
  rw [hstart] at hready
  rw [hcall]
  constructor
  · rintro ⟨extra, hall⟩
    rw [hall, List.append_assoc] at hready
    exact responseLoop_ends hr hready (by omega)
  · intro p' hgoes hrewinds
    refine responseLoop_goes hgoes hr hready hend ?_ (by omega)
    intro hp'
    apply hexact
    by_contra hseen
    exact hrewinds (hagain.mpr hseen) hp'

theorem responseLoop_data [Daylight] (stream : Bool) (rounds : Nat) (hfetching : Fetching .chun r) (hknown : r.entityLen ≠ -1)
    (h : l.Ready fuel stop top .body w) (hinside : l.processed ≤ l.last)
    (hpos : 0 < fuel) :
    ∃ r₁ l₁, responseLoop fuel (rounds + 1) stream r l = (chunkData r₁ l₁).go fuel rounds ∧ Fetching .chun r₁ ∧
      r₁.entityLen = r.entityLen ∧ r₁.rcvd = r.rcvd ∧ r₁.rewind = r.rewind ∧ r₁.used = r.used ∧ l₁.Ready fuel stop top .body w ∧
      l₁.processed = l.processed ∧ l₁.last = l.last ∧ l₁.buf = l.buf := by
  have htoken := getNextToken_body (not_lt.mpr hinside) h.start hpos
  have hready : Lex.Ready fuel stop top .body { l.fresh with tokenType := .body } w :=
    Lex.Ready.skip (w := []) h rfl rfl rfl (add_zero _).symm h.start h.state
  refine ⟨r.fetched stream l { l.fresh with tokenType := .body }, { l.fresh with tokenType := .body }, ?_, hfetching.fetched,
    fetched_entityLen,
    fetched_rcvd, fetched_rewind, fetched_used, hready, rfl, rfl, rfl⟩
  have hlen : (r.fetched stream l { l.fresh with tokenType := .body }).entityLen ≠ -1 := by
    rw [fetched_entityLen]
    exact hknown
  have hetype : (r.fetched stream l { l.fresh with tokenType := .body }).etype = .chun := fetched_etype.trans hfetching.etype
  rw [responseLoop_entity htoken nofun hfetching.stage, entityStage, hetype]
  show chunEntity fuel _ _ >>= _ = _
  rw [chunEntity, if_neg hlen]
  rfl

theorem took_data [Daylight] (hat : IsAt (.data left chunks) r) (hroom : r.isFull = false) (hlength : bytes.length ≤ r.room)
    (hne : bytes ≠ [])
    (hfuel : (Place.data left chunks).size + bytes.length + 4 ≤ fuel) :
    Took again (.data left chunks) bytes (parseResponse fuel (.data bytes) r) := by
  obtain ⟨⟨hfetching, hstart, hstate⟩, hleft, hknown, hrewind⟩ := hat
  have hsize : chunks.count + 1 + bytes.length + 4 ≤ fuel := hfuel
  have hnothing : Spells r.mem (r.used - ([] : Bytes).length) [] := fun k hk => absurd hk (Nat.not_lt_zero k)
  have hnoneSeen : ([] : Bytes).length + bytes.length + 4 ≤ fuel := by
    rw [List.length_nil]
    omega
  obtain ⟨used, unWritten, l, stop, top, hcall, hready, hend, hexact⟩ := parseResponse_read hroom hlength hne
    (show r.rewind = (([] : Bytes).length : Int) from hrewind) hnothing hstate hnoneSeen
  rw [List.nil_append] at hready hend
  rw [hstart] at hready
  have hpos : 0 < fuel := by omega
  obtain ⟨rounds, hrounds⟩ := Nat.exists_eq_add_one.mpr hpos
  obtain ⟨r₁, l₁, hloop, hfetching₁, hlen₁, hrcvd₁, hrewind₁, hused₁, hready₁, hprocessed₁, hlast₁, hbuf₁⟩ :=
    responseLoop_data true rounds (r := { r with used := used, unWritten := unWritten, rewind := 0 })
      ⟨hfetching.stage, hfetching.etype, hfetching.status⟩ hknown hready (by omega) hpos
  have hleft₁ : r₁.entityLen - r₁.rcvd = left.length := by
    rw [hlen₁, hrcvd₁]
    exact hleft
  rw [← hrounds] at hloop
  rw [hcall]
  constructor
  · rintro ⟨extra, rfl⟩
    simp only [List.append_assoc] at hready₁
    obtain ⟨r₂, l₂, hgo, hat, -, -, -, hready₂⟩ := chunkData_over hfetching₁ hrewind₁ hleft₁ hready₁ rounds
    rw [hloop, hgo]
    exact responseLoop_ends hat hready₂ (by omega)
  · rintro p' (⟨left', hpart, hne', rfl⟩ | ⟨more, rfl, hgoes⟩) -
    · rw [hloop]
      exact chunkData_within hfetching₁ hrewind₁ (by rw [hlen₁]; exact hknown) hleft₁ (by omega) hpart hne' rounds chunks
    · simp only [List.append_assoc] at hready₁
      obtain ⟨r₂, l₂, hgo, hat, hused₂, hmem₂, hbuf₂, hready₂⟩ := chunkData_over hfetching₁ hrewind₁ hleft₁ hready₁ rounds
      rw [hloop, hgo]
      have hlast := hready₂.last.trans hready₁.last.symm
      refine responseLoop_goes hgoes hat hready₂ ?_ ?_ (by omega)
      · have hstop := hready₂.ends
        have hbefore := hready₁.ends
        simp only [List.length_append, List.length_singleton, Nat.cast_add, Nat.cast_one] at hstop hbefore hend
        omega
      · intro _
        rw [hused₂, hused₁, hbuf₂, hbuf₁, hlast, hlast₁]
        exact hexact rfl

/-- One call takes one read. -/
theorem took_read [Daylight] (hat : IsAt p r) (hagain : again = true ↔ p.Rewinds) (hroom : r.isFull = false)
    (hlength : bytes.length ≤ r.room)
    (hne : bytes ≠ []) (hfuel : p.size + bytes.length + 4 ≤ fuel) : Took again p bytes (parseResponse fuel (.data bytes) r) := by
  cases p with
  | body left => exact took_body hat hroom hlength hne (by change 0 + _ + _ ≤ _ at hfuel; omega)
  | line seen chunks => exact took_line hat hagain hroom hlength hne hfuel
  | data left chunks => exact took_data hat hroom hlength hne hfuel

theorem IsAt.handed {r' : HttpResponse} (h : IsAt p r) (handed : Handed r r') : IsAt p r' := by
  have hfetching {etype : EntityType} (hr : Fetching etype r) : Fetching etype r' :=
    ⟨handed.stage.trans hr.stage, handed.etype.trans hr.etype, by rw [handed.status]; exact hr.status⟩
  have hawaits {etype : EntityType} {start : Start} (hr : Awaits etype start r) : Awaits etype start r' :=
    ⟨hfetching hr.toFetching, handed.start.trans hr.start, handed.state.trans hr.state⟩
  cases p with
  | body left =>
      obtain ⟨hr, hleft, hrewind⟩ := h
      exact ⟨hawaits hr, by rw [handed.con_len, handed.rcvd, hleft], handed.rewind.trans hrewind⟩
  | line seen chunks =>
      obtain ⟨hr, hlen, hrewind, hseen⟩ := h
      refine ⟨hawaits hr, handed.entityLen.trans hlen, handed.rewind.trans hrewind, ?_⟩
      by_cases hne : seen = []
      · rw [hne]
        exact fun k hk => absurd hk (Nat.not_lt_zero k)
      · have hpos : 0 < seen.length := List.length_pos_iff.mpr hne
        obtain ⟨hmem, hused⟩ := handed.buffer (by omega)
        rw [hmem, hused]
        exact hseen
  | data left chunks =>
      obtain ⟨hr, hleft, hknown, hrewind⟩ := h
      exact ⟨hawaits hr, by rw [handed.entityLen, handed.rcvd, hleft], by rw [handed.entityLen]; exact hknown, handed.rewind.trans hrewind⟩

/-- From a call that has taken its bytes on, the end of the message is found where it is. -/
theorem detected_of_splits [Daylight] (hsplits : Splits again p bytes reads) (htook : Took again p bytes result)
    (hfuel : p.size + bytes.length + reads.flatten.length + 4 ≤ fuel) : Detected fuel reads result := by
  induction hsplits generalizing result with
  | last hends => exact htook.ends hends
  | @more again again' p p' bytes bytes' reads hmoves hrewinds hagain' hne _ ih =>
      obtain ⟨r, hresult, hat⟩ := htook.moves p' hmoves hrewinds
      refine ⟨r, hresult, hat.status.1, hat.status.2, ?_⟩
      intro r' handed hlength
      have hsize := hmoves.size_le
      rw [List.flatten_cons, List.length_append] at hfuel
      apply ih
      · exact took_read (hat.handed handed) hagain' handed.room hlength hne (by omega)
      · omega

/-- The headers announce the entity: its length, or chunks. -/
def Announces (r : HttpResponse) (mem : Int → Byte) : Place → Prop
  | .body n => r.con_len = n
  | .line seen _ => seen = [] ∧ r.te.any (startsWith mem · (ascii "chunked"))
  | .data _ _ => False

/-- Chunks are looked for: the headers say no length, and not that the connection is closed. -/
def LooksFor (r : HttpResponse) (mem : Int → Byte) : Place → Prop
  | .body _ => True
  | _ => r.con_len < 0 ∧ r.conn.any (startsWith mem · (ascii "close")) = false

theorem entityType_chunked {mem : Int → Byte} (hte : r.te.any (startsWith mem · (ascii "chunked")))
    (hlooks : LooksFor r mem (.line seen chunks)) : entityType r mem = .chun := by
  obtain ⟨hlen, hconn⟩ := hlooks
  rw [entityType, if_neg (not_le.mpr hlen), if_neg (by rw [hconn]; decide), if_pos hte]

theorem entityType_closed {mem : Int → Byte} (hannounces : Announces r mem p) (hlen : r.con_len < 0) (hnot : ¬LooksFor r mem p) :
    entityType r mem = .conn := by
  cases p with
  | data _ _ => exact hannounces.elim
  | body n => exact absurd trivial hnot
  | line seen chunks =>
      have hclose : r.conn.any (startsWith mem · (ascii "close")) = true := by
        by_contra hkept
        exact hnot ⟨hlen, Bool.eq_false_iff.mpr hkept⟩
      rw [entityType, if_neg (not_le.mpr hlen), if_pos hclose]

/-- Where the entity begins. -/
structure Begins (etype : EntityType) (r r₁ : HttpResponse) : Prop extends Fetching etype r₁ where
  con_len : r₁.con_len = r.con_len
  rcvd : r₁.rcvd = 0
  entityLen : r₁.entityLen = -1
  rewind : r₁.rewind = r.rewind
  used : r₁.used = r.used

theorem responseLoop_headers [Daylight] (stream : Bool) (rounds : Nat) (h : l.Ready fuel stop top .line (crlf ++ w))
    (hstage : r.stage = .httpHeader) :
    ∃ r₁ l₁, responseLoop fuel (rounds + 1) stream r l = responseLoop fuel rounds false r₁ l₁ ∧ Begins (entityType r l.mem) r r₁ ∧
      l₁.Ready fuel stop top (if entityType r l.mem = .chun then .lineend else .body) w ∧ l₁.mem = l.mem ∧ l₁.buf = l.buf := by
  have htoken := getNextToken_blank h
  generalize hl₁ : ({ l.fresh.onward 2 with tokenType := .crlf, start := .header, state := .none } : Lex) = l₁ at htoken
  have htype : l₁.tokenType = .crlf := hl₁ ▸ rfl
  have hmem : l₁.mem = l.mem := hl₁ ▸ rfl
  have hbuf : l₁.buf = l.buf := hl₁ ▸ rfl
  have hetype : entityType (if stream then ({ r with start := l.start, state := l.state } : HttpResponse).addBlock l₁ l₁.processed else
      { r with start := l.start, state := l.state }) l₁.mem = entityType r l.mem := by
    rw [hmem]
    cases stream <;> rfl
  refine ⟨(endOfHeaders stream { r with start := l.start, state := l.state } l₁).1,
    (endOfHeaders stream { r with start := l.start, state := l.state } l₁).2, ?_, ⟨⟨rfl, ?_, ?_⟩, ?_, rfl, rfl, ?_, ?_⟩, ?_, hmem, hbuf⟩
  · rw [responseLoop, htoken]
    simp only [ok_bind, hstage]
    rw [if_neg (fun h => by cases h), if_neg (by rw [htype]; decide), if_pos htype]
  · exact hetype
  · show HttpStatus.entityIncomplete ≠ _ ∧ HttpStatus.entityIncomplete ≠ _
    decide
  · cases stream <;> rfl
  · cases stream <;> rfl
  · cases stream <;> rfl
  · rw [← hetype]
    exact h.skip hmem hbuf (hl₁ ▸ rfl) (hl₁ ▸ rfl) rfl rfl

theorem took_first [Daylight] (h : l.Ready fuel stop top .line (crlf ++ (first ++ [255])))
    (hend : l.processed + (crlf ++ first).length = l.last)
    (hstage : r.stage = .httpHeader) (hrewind : r.rewind = 0) (hannounces : Announces r l.mem p)
    (hlooks : LooksFor r l.mem p) (hexact : again = false → r.used = l.buf + l.last) (hrounds : p.size + 2 ≤ rounds) :
    Took again p first (responseLoop fuel rounds stream r l) := by
  obtain ⟨rounds, rfl⟩ : ∃ less, rounds = less + 1 := ⟨rounds - 1, by omega⟩
  obtain ⟨r₁, l₁, hloop, hbegins, hready, hmem, hbuf⟩ := responseLoop_headers stream rounds h hstage
  have hlast := hready.last.trans h.last.symm
  have hend₁ : l₁.processed + first.length = l₁.last := by
    have hstop := hready.ends
    have hbefore := h.ends
    simp only [List.length_append, List.length_singleton, Nat.cast_add, Nat.cast_one] at hstop hbefore hend
    omega
  rw [hloop]
  cases p with
  | data _ _ => exact hannounces.elim
  | body n =>
      have hlen : r.con_len = n := hannounces
      have hetype : entityType r l.mem = .clen := if_pos (by omega)
      rw [hetype] at hbegins hready
      have henough := hready.enough
      have hpos : 0 < fuel := by omega
      have hinside : l₁.processed ≤ l₁.last := by omega
      have hleft : r₁.con_len - r₁.rcvd = n := by rw [hbegins.con_len, hbegins.rcvd, hlen, sub_zero]
      obtain ⟨rounds, rfl⟩ : ∃ less, rounds = less + 1 := ⟨rounds - 1, by omega⟩
      obtain ⟨r', hrun, hall, hpart⟩ := responseLoop_length false rounds hbegins.toFetching
        (hbegins.rewind.trans hrewind) hinside hready.start hpos hleft
      have htotal : l₁.last - l₁.processed = first.length := by omega
      rw [htotal] at hall hpart
      constructor
      · intro hends
        exact ⟨r', hrun, hall (Int.ofNat_le.mpr hends)⟩
      · rintro p' ⟨hless, rfl⟩ -
        exact ⟨r', hrun, hpart (Int.ofNat_lt.mpr hless)⟩
  | line seen chunks =>
      obtain ⟨rfl, hte⟩ := hannounces
      rw [entityType_chunked hte hlooks] at hbegins hready
      have hat : AtLine r₁ := ⟨hbegins.toFetching, hbegins.entityLen, hbegins.rewind.trans hrewind⟩
      have hsize : ([] : Bytes).length + chunks.count + 2 ≤ rounds + 1 := hrounds
      have hcount : chunks.count ≤ rounds := by
        rw [List.length_nil] at hsize
        omega
      constructor
      · rintro ⟨extra, hall⟩
        rw [List.nil_append] at hall
        rw [hall, List.append_assoc] at hready
        exact responseLoop_ends hat hready hcount
      · intro p' hgoes hrewinds
        refine responseLoop_goes hgoes hat hready hend₁ ?_ hcount
        intro hp'
        rw [hbegins.used, hbuf, hlast]
        apply hexact
        exact Bool.eq_false_iff.mpr fun htrue => hrewinds htrue hp'

/-- No read brings the end of an entity that is taken to end with the connection. -/
theorem neverComplete_of_awaits [Daylight] (hat : Awaits .conn .body r) (hrewind : r.rewind = 0) (hne : ∀ bytes ∈ reads, bytes ≠ [])
    (hfuel : reads.flatten.length + 4 ≤ fuel) : NeverComplete fuel reads (.ok (0, r)) := by
  induction reads generalizing r with
  | nil => exact ⟨r, rfl, hat.status.1⟩
  | cons bytes reads ih =>
      rw [List.flatten_cons, List.length_append] at hfuel
      refine ⟨r, rfl, hat.status.1, ?_⟩
      intro r' handed hlength
      have hrewind' : r'.rewind = 0 := handed.rewind.trans hrewind
      have hnothing : Spells r'.mem (r'.used - ([] : Bytes).length) [] := fun k hk => absurd hk (Nat.not_lt_zero k)
      obtain ⟨used, unWritten, l, stop, top, hcall, hready, hend, -⟩ := @parseResponse_read fuel r' bytes [] _ handed.room hlength
        (hne bytes List.mem_cons_self) hrewind' hnothing (handed.state.trans hat.state) (by rw [List.length_nil]; omega)
      rw [List.nil_append] at hend
      obtain ⟨rounds, rfl⟩ : ∃ less, fuel = less + 1 := ⟨fuel - 1, by omega⟩
      have hfetching : Fetching .conn { r' with used := used, unWritten := unWritten, rewind := 0 } :=
        ⟨handed.stage.trans hat.stage, handed.etype.trans hat.etype,
          by change r'.status ≠ _ ∧ r'.status ≠ _; rw [handed.status]; exact hat.status⟩
      obtain ⟨r₁, hloop, hat₁, hrewind₁⟩ := responseLoop_connection true rounds hfetching rfl (by omega)
        (hready.start.trans (handed.start.trans hat.start)) hready.state (Nat.succ_pos rounds)
      rw [hcall, hloop]
      exact ih hat₁ hrewind₁ (fun bytes hbytes => hne bytes (List.mem_cons_of_mem _ hbytes)) (by omega)

theorem Splits.reads_ne (hsplits : Splits again p bytes reads) : ∀ bytes ∈ reads, bytes ≠ [] := by
  induction hsplits with
  | last _ => exact nofun
  | more _ _ _ hne _ ih => exact List.forall_mem_cons.mpr ⟨hne, ih⟩

/-- Chunks of a response whose headers say that the connection is closed. -/
theorem neverComplete_first [Daylight] (h : l.Ready fuel stop top .line (crlf ++ (first ++ [255])))
    (hend : l.processed + (crlf ++ first).length = l.last) (hstage : r.stage = .httpHeader) (hrewind : r.rewind = 0)
    (hetype : entityType r l.mem = .conn) (hne : ∀ bytes ∈ reads, bytes ≠ []) (hfuel : reads.flatten.length + 4 ≤ fuel)
    (hrounds : 2 ≤ rounds) : NeverComplete fuel reads (responseLoop fuel rounds stream r l) := by
  obtain ⟨rounds, rfl⟩ : ∃ less, rounds = less + 1 + 1 := ⟨rounds - 2, by omega⟩
  obtain ⟨r₁, l₁, hloop, hbegins, hready, -, hbuf⟩ := responseLoop_headers stream (rounds + 1) h hstage
  have henough := hready.enough
  rw [hetype] at hbegins hready
  have hlast := hready.last.trans h.last.symm
  have hinside : l₁.processed ≤ l₁.last := by
    have hstop := hready.ends
    have hbefore := h.ends
    simp only [List.length_append, List.length_singleton, Nat.cast_add, Nat.cast_one] at hstop hbefore hend
    omega
  have hpos : 0 < fuel := by omega
  obtain ⟨r₂, hrun, hat, hrewind₂⟩ := responseLoop_connection false rounds hbegins.toFetching (hbegins.rewind.trans hrewind) hinside
    hready.start hready.state hpos
  rw [hloop, hrun]
  exact neverComplete_of_awaits hat hrewind₂ hne hfuel

end Reads

section Sample

/-- The empty line and what was read behind it. -/
def headEnd (first : Bytes) : Lex where
  mem := Function.update (copyBytes (copyBytes (fun _ => 0) 100 (ascii "chunked close")) 0 (crlf ++ first)) (crlf ++ first).length 255
  buf := 0
  last := (crlf ++ first).length
  processed := 0
  start := .line
  state := .none
  token := 0
  toklen := 0
  tokenType := .token

/-- A response whose headers said that it is chunked, and what becomes of the connection. -/
def chunkedResponse (conn : Option Int) (first : Bytes) : HttpResponse :=
  { sampleResponse 0 0 with
    stage := .httpHeader
    status := .badResponse
    con_len := -1
    rcvd := 0
    etype := .unset
    te := some 100
    conn := conn
    used := (headEnd first).last }

theorem headEnd_ready {first : Bytes} {fuel : Nat} (hfuel : (crlf ++ first).length + 4 ≤ fuel) :
    (headEnd first).Ready fuel ((crlf ++ first).length + 1) (crlf ++ first).length .line (crlf ++ (first ++ [255])) := by
  have hlength : (crlf ++ (first ++ [255])).length = (crlf ++ first).length + 1 := by
    rw [← List.append_assoc]
    exact List.length_append
  refine ⟨rfl, rfl, ?_, ?_, ?_, rfl, le_rfl, by omega⟩
  · rw [← List.append_assoc]
    exact spells_block _ _
  · show 0 + 0 + ((crlf ++ (first ++ [255])).length : Int) = (crlf ++ first).length + 1
    omega
  · show 0 + ((crlf ++ (first ++ [255])).length : Int) ≤ (crlf ++ first).length + 1
    omega

theorem zeroSize : SizeLine (ascii "0") [] 0 := ⟨by decide, by decide, by decide, by decide, by decide, nofun, nofun⟩

/-- The last chunk, with no trailer. -/
def lastChunk : LastChunk := ⟨ascii "0", [], [], zeroSize, nofun⟩

/-- A chunk of three bytes. -/
def abcChunk : Chunk := ⟨ascii "3", [], ascii "abc", ⟨by decide, by decide, by decide, by decide, by decide, nofun, nofun⟩, by decide⟩

end Sample

end BeagleCache
