import BeagleCache.HttpLex
import BeagleCache.ReplyText

/-! What `getNextToken` makes of a text in front of it. A token is read byte by byte; the bytes behind it stay as they are, and
those of a separator become zero bytes. -/

namespace BeagleCache

/-- The bytes of a text are in memory from `pos` on. -/
def Spells (mem : Int → Byte) (pos : Int) (text : Bytes) : Prop := ∀ k < text.length, text[k]? = some (mem (pos + k))

namespace Spells

variable {mem mem' : Int → Byte} {pos : Int} {w rest : Bytes} {b : Byte}

theorem first (h : Spells mem pos (b :: rest)) : mem pos = b := by
  have hbyte := h 0 (Nat.succ_pos _)
  rw [Nat.cast_zero, add_zero] at hbyte
  exact (Option.some.inj hbyte).symm

theorem byte {k : Nat} (h : Spells mem pos w) (hb : w[k]? = some b) : mem (pos + k) = b := by
  have hlt : k < w.length := by
    by_contra hge
    rw [List.getElem?_eq_none (by omega)] at hb
    cases hb
  rw [h k hlt] at hb
  exact Option.some.inj hb

theorem left (h : Spells mem pos (w ++ rest)) : Spells mem pos w := by
  intro k hk
  have hbyte := h k (by rw [List.length_append]; omega)
  rwa [List.getElem?_append_left hk] at hbyte

theorem right (h : Spells mem pos (w ++ rest)) : Spells mem (pos + w.length) rest := by
  intro k hk
  have hbyte := h (w.length + k) (by rw [List.length_append]; omega)
  rw [List.getElem?_append_right (by omega), Nat.add_sub_cancel_left] at hbyte
  rw [hbyte, Nat.cast_add, add_assoc]

theorem congr (h : Spells mem pos w) (hmem : ∀ p, pos ≤ p → mem' p = mem p) : Spells mem' pos w := by
  intro k hk
  rw [h k hk, hmem _ (by omega)]

theorem holds (h : Spells mem pos w) : Shows (fun k => mem (pos + k)) w.length w := h

theorem map_range (h : Spells mem pos (w ++ rest)) : ((List.range w.length).map fun k : Nat => mem (pos + k)) = w := by
  apply List.ext_getElem
  · rw [List.length_map, List.length_range]
  · intro k _ hk
    have hbyte := h.left k hk
    rw [List.getElem?_eq_getElem hk] at hbyte
    rw [List.getElem_map, List.getElem_range]
    exact (Option.some.inj hbyte).symm

end Spells

namespace Lex

variable {l l' : Lex} {w rest text : Bytes} {b c : Byte} {fuel n : Nat} {type : TokenType} {start next : Start} {state : LexState}
  {stop top : Int}

/-- The tokenizer read `n` bytes on to the end of a token. The bytes of a word stay where they are. -/
structure ReadOn (l : Lex) (n : Nat) (type : TokenType) (next : Start) (l' : Lex) : Prop where
  tokenType : l'.tokenType = type
  toklen : l'.toklen = l.toklen + n
  token : l'.token = l.token
  processed : l'.processed = l.processed + n
  buf : l'.buf = l.buf
  last : l'.last = l.last
  start : l'.start = next
  state : l'.state = .none
  behind : ∀ pos, l.buf + l.processed + n ≤ pos → l'.mem pos = l.mem pos
  word : type = .token → l'.mem = l.mem

/-- The loop comes to the end of a token. -/
def Scans (fuel : Nat) (l : Lex) (n : Nat) (type : TokenType) (next : Start) : Prop :=
  ∃ l', lexLoop fuel l = .ok (.ok, l') ∧ l.ReadOn n type next l'

theorem Scans.halt (hstep : lexStep l = .found { l with start := next, state := .none } type) (hfuel : 0 < fuel) :
    l.Scans fuel 0 type next := by
  obtain ⟨fuel, rfl⟩ := Nat.exists_eq_add_one.mpr hfuel
  refine ⟨{ l with start := next, state := .none, tokenType := type }, ?_, ?_⟩
  · rw [lexLoop, hstep]
    rfl
  · exact ⟨rfl, rfl, rfl, (add_zero _).symm, rfl, rfl, rfl, rfl, fun _ _ => rfl, fun _ => rfl⟩

theorem Scans.last (hstep : lexStep l = .found { l.take with start := next, state := .none } type) (hfuel : 0 < fuel) :
    l.Scans fuel 1 type next := by
  obtain ⟨fuel, rfl⟩ := Nat.exists_eq_add_one.mpr hfuel
  refine ⟨{ l.take with start := next, state := .none, tokenType := type }, ?_, ?_⟩
  · rw [lexLoop, hstep]
    rfl
  · exact ⟨rfl, rfl, rfl, rfl, rfl, rfl, rfl, rfl, fun _ _ => rfl, fun _ => rfl⟩

theorem Scans.last_erase (hstep : lexStep l = .found { l.erase.take with start := next, state := .none } type)
    (htype : type ≠ .token) (hfuel : 0 < fuel) : l.Scans fuel 1 type next := by
  obtain ⟨fuel, rfl⟩ := Nat.exists_eq_add_one.mpr hfuel
  refine ⟨{ l.erase.take with start := next, state := .none, tokenType := type }, ?_, ?_⟩
  · rw [lexLoop, hstep]
    rfl
  · refine ⟨rfl, rfl, rfl, rfl, rfl, rfl, rfl, rfl, ?_, fun h => absurd h htype⟩
    intro pos hpos
    exact Function.update_of_ne (by omega) _ _

theorem Scans.turn (hstep : lexStep l = .again { l with start := start, state := state })
    (h : Scans fuel { l with start := start, state := state } n type next) : l.Scans (fuel + 1) n type next := by
  obtain ⟨l', hloop, hread⟩ := h
  refine ⟨l', ?_, ?_⟩
  · rw [lexLoop, hstep]
    exact hloop
  · exact ⟨hread.tokenType, hread.toklen, hread.token, hread.processed, hread.buf, hread.last, hread.start, hread.state,
      hread.behind, hread.word⟩

theorem Scans.take (hstep : lexStep l = .again (l.take.goto state)) (h : (l.take.goto state).Scans fuel n type next) :
    l.Scans (fuel + 1) (n + 1) type next := by
  obtain ⟨l', hloop, hread⟩ := h
  have hprocessed : (l.take.goto state).processed = l.processed + 1 := rfl
  have htoklen : (l.take.goto state).toklen = l.toklen + 1 := rfl
  refine ⟨l', ?_, hread.tokenType, ?_, hread.token, ?_, hread.buf, hread.last, hread.start, hread.state, ?_, hread.word⟩
  · rw [lexLoop, hstep]
    exact hloop
  · rw [hread.toklen, htoklen]
    omega
  · rw [hread.processed, hprocessed]
    push_cast
    ring
  · intro pos hpos
    apply hread.behind
    rw [hprocessed]
    change l.buf + (l.processed + 1) + n ≤ pos
    push_cast at hpos
    omega

theorem Scans.erase (hstep : lexStep l = .again (l.erase.take.goto state)) (htype : type ≠ .token)
    (h : (l.erase.take.goto state).Scans fuel n type next) : l.Scans (fuel + 1) (n + 1) type next := by
  obtain ⟨l', hloop, hread⟩ := h
  have hprocessed : (l.erase.take.goto state).processed = l.processed + 1 := rfl
  have htoklen : (l.erase.take.goto state).toklen = l.toklen + 1 := rfl
  refine ⟨l', ?_, hread.tokenType, ?_, hread.token, ?_, hread.buf, hread.last, hread.start, hread.state, ?_, ?_⟩
  · rw [lexLoop, hstep]
    exact hloop
  · rw [hread.toklen, htoklen]
    omega
  · rw [hread.processed, hprocessed]
    push_cast
    ring
  · intro pos hpos
    push_cast at hpos
    have hnext : (l.erase.take.goto state).mem pos = l.mem pos := Function.update_of_ne (by omega) _ _
    rw [← hnext]
    apply hread.behind
    rw [hprocessed]
    change l.buf + (l.processed + 1) + n ≤ pos
    omega
  · exact fun h => absurd h htype

/-- The tokenizer is between two tokens, with the text up to `stop` in front of it and fuel for all of the buffer. -/
structure Ready (fuel : Nat) (stop top : Int) (start : Start) (l : Lex) (text : Bytes) : Prop where
  start : l.start = start
  state : l.state = .none
  spells : Spells l.mem (l.buf + l.processed) text
  ends : l.buf + l.processed + text.length = stop
  fits : l.processed + text.length ≤ l.last + 1
  last : l.last = top
  cursor : 0 ≤ l.processed
  fuel : top + 4 ≤ fuel

/-- Where a token starts, in `getNextToken`. -/
def fresh (l : Lex) : Lex := { l with toklen := 0, tokenType := .lws, token := l.buf + l.processed }

/-- A token `w` was read. -/
structure Reads (fuel : Nat) (l : Lex) (w : Bytes) (type : TokenType) (next : Start) (l' : Lex) : Prop where
  run : getNextToken fuel l = .ok (.ok, l')
  on : l.fresh.ReadOn w.length type next l'

theorem Scans.reads (h : l.fresh.Scans fuel w.length type next) : ∃ l', l.Reads fuel w type next l' := by
  obtain ⟨l', hloop, hread⟩ := h
  exact ⟨l', hloop, hread⟩

namespace Reads

theorem ready (h : l.Reads fuel w type next l') (hl : l.Ready fuel stop top start (w ++ rest)) :
    l'.Ready fuel stop top next rest := by
  have hprocessed : l'.processed = l.processed + w.length := h.on.processed
  have hbuf : l'.buf = l.buf := h.on.buf
  have hlast : l'.last = l.last := h.on.last
  have hends := hl.ends
  have hfits := hl.fits
  have hcursor := hl.cursor
  rw [List.length_append, Nat.cast_add] at hends hfits
  have hpos : l'.buf + l'.processed = l.buf + l.processed + w.length := by omega
  refine ⟨h.on.start, h.on.state, ?_, by omega, by omega, hlast.trans hl.last, by omega, hl.fuel⟩
  rw [hpos]
  exact hl.spells.right.congr h.on.behind

theorem word (h : l.Reads fuel w .token next l') (hl : l.Ready fuel stop top start (w ++ rest)) :
    Spells l'.mem l'.token (w ++ rest) := by
  rw [h.on.word rfl, h.on.token]
  exact hl.spells

theorem eat (h : l.Reads fuel w type next l') {len : Option Nat} (hlen : len.all (· = w.length)) :
    eat fuel l type len = .ok (0, l') := by
  have htoklen : l'.toklen = w.length := h.on.toklen.trans (Nat.zero_add _)
  have hsame : ¬ (len.any (· ≠ l'.toklen)) := by
    rw [htoklen]
    cases len with
    | none => exact Bool.false_ne_true
    | some n => simpa using hlen
  rw [BeagleCache.eat, h.run, Run.ok_bind, if_neg nofun, if_neg (not_not.mpr h.on.tokenType), if_neg hsame]
  rfl

theorem eat_word (h : l.Reads fuel w .token next l') (hl : l.Ready fuel stop top start (w ++ rest)) (len : Option Nat)
    (htype : .token ≠ type) : ∃ l', BeagleCache.eat fuel l type len = .ok (-1, l') ∧ l'.Ready fuel stop top start (w ++ rest) := by
  refine ⟨{ l' with processed := l'.processed - l'.toklen, state := l.state, start := l.start }, ?_, ?_⟩
  · rw [BeagleCache.eat, h.run, Run.ok_bind, if_neg nofun, if_pos (h.on.tokenType.trans_ne htype)]
    rfl
  · have hprocessed : l'.processed - l'.toklen = l.processed := by
      rw [h.on.processed, h.on.toklen]
      change l.processed + (w.length : Int) - ((0 + w.length : Nat) : Int) = l.processed
      omega
    have hbuf : l'.buf = l.buf := h.on.buf
    have hmem : l'.mem = l.mem := h.on.word rfl
    have hlast : l'.last = l.last := h.on.last
    refine ⟨hl.start, hl.state, ?_, ?_, ?_, hlast.trans hl.last, ?_, hl.fuel⟩
    · rw [hprocessed, hbuf, hmem]
      exact hl.spells
    · rw [hprocessed, hbuf]
      exact hl.ends
    · rw [hprocessed, hlast]
      exact hl.fits
    · rw [hprocessed]
      exact hl.cursor

end Reads

end Lex

/-! ## One byte of a text -/

section Bytes

variable {l : Lex} {w rest text : Bytes} {b c : Byte} {fuel n : Nat} {type : TokenType} {start : Start} {stop top : Int}

/-- The bytes at the cursor, none of them behind the end mark. -/
structure Lex.Sees (l : Lex) (text : Bytes) : Prop where
  bytes : Spells l.mem (l.buf + l.processed) text
  fits : l.processed + text.length ≤ l.last + 1

namespace Lex.Sees

theorem here (h : l.Sees (b :: rest)) : l.here = b := h.bytes.first

theorem inside (h : l.Sees (b :: rest)) : ¬ l.last < l.processed := by
  have hfits := h.fits
  rw [List.length_cons, Nat.cast_succ] at hfits
  omega

theorem take (h : l.Sees (b :: rest)) (state : LexState) : (l.take.goto state).Sees rest := by
  have hpos : l.buf + (l.processed + 1) = l.buf + l.processed + ([b] : Bytes).length := by
    rw [List.length_singleton]
    push_cast
    ring
  constructor
  · change Spells l.mem (l.buf + (l.processed + 1)) rest
    rw [hpos]
    exact Spells.right h.bytes
  · have hfits := h.fits
    rw [List.length_cons, Nat.cast_succ] at hfits
    change l.processed + 1 + rest.length ≤ l.last + 1
    omega

theorem erase (h : l.Sees (b :: rest)) (state : LexState) : (l.erase.take.goto state).Sees rest := by
  have htake := h.take state
  constructor
  · apply htake.bytes.congr
    intro pos hpos
    change l.buf + (l.processed + 1) ≤ pos at hpos
    exact Function.update_of_ne (by omega) _ _
  · exact htake.fits

end Lex.Sees

theorem Lex.Ready.sees (h : l.Ready fuel stop top start text) : l.fresh.Sees text := ⟨h.spells, h.fits⟩

theorem Lex.Ready.enough (h : l.Ready fuel stop top start text) : text.length + 3 ≤ fuel := by
  have hfits := h.fits
  have hlast := h.last
  have hcursor := h.cursor
  have hfuel := h.fuel
  omega

theorem Lex.Sees.init (h : l.Sees (b :: rest)) (hstart : l.start = .init) : lexStep l = initStep l := by
  rw [lexStep, if_neg h.inside, hstart]

theorem Lex.Sees.header (h : l.Sees (b :: rest)) (hstart : l.start = .header) : lexStep l = headerStep l := by
  rw [lexStep, if_neg h.inside, hstart]

theorem Lex.Sees.line (h : l.Sees (b :: rest)) (hstart : l.start = .line) : lexStep l = lineStep l := by
  rw [lexStep, if_neg h.inside, hstart]

theorem Lex.Sees.raw (h : l.Sees (b :: rest)) (hstart : l.start = .raw) : lexStep l = rawStep l := by
  rw [lexStep, if_neg h.inside, hstart]

/-- A letter, a digit or a sign that words are made of. -/
def IsChar (b : Byte) : Prop := present b = .char

instance (b : Byte) : Decidable (IsChar b) := inferInstanceAs (Decidable (present b = .char))

theorem isChar_of_isDigit (h : IsDigit b) : IsChar b := by
  revert b
  unfold IsDigit
  decide

end Bytes

/-! ## The tokens of a header -/

section Init

variable {l : Lex} {w rest text : Bytes} {b c : Byte} {fuel n : Nat} {type : TokenType} {stop top : Int}

theorem scans_word (hstart : l.start = .init) (hstate : l.state = .token) (hw : ∀ b ∈ w, IsChar b) (hc : ¬ IsChar c)
    (h : l.Sees (w ++ c :: rest)) (hfuel : w.length < fuel) : l.Scans fuel w.length .token .init := by
  induction w generalizing l fuel with
  | nil =>
      apply Lex.Scans.halt _ hfuel
      have hp : present l.here ≠ .char := h.here.symm ▸ hc
      rw [Lex.Sees.init h hstart, initStep, hstate]
      cases hpresent : present l.here <;> first | exact absurd hpresent hp | (cases l; cases hstart; rfl)
  | cons b w ih =>
      obtain ⟨fuel, rfl⟩ := Nat.exists_eq_add_one.mpr hfuel.pos
      have hp : present l.here = .char := (Lex.Sees.here h).symm ▸ hw b List.mem_cons_self
      have hstep : lexStep l = .again (l.take.goto .token) := by
        rw [Lex.Sees.init h hstart, initStep, hstate, hp]
        cases l
        cases hstate
        rfl
      apply Lex.Scans.take hstep
      exact ih hstart rfl (fun b hb => hw b (List.mem_cons_of_mem _ hb)) (Lex.Sees.take h .token) (Nat.lt_of_succ_lt_succ hfuel)

theorem Lex.Ready.word (h : l.Ready fuel stop top .init (w ++ c :: rest)) (hne : w ≠ []) (hw : ∀ b ∈ w, IsChar b)
    (hc : ¬ IsChar c) : ∃ l', l.Reads fuel w .token .init l' := by
  obtain ⟨b, w, rfl⟩ := List.exists_cons_of_ne_nil hne
  have hfuel := h.enough
  obtain ⟨fuel, rfl⟩ : ∃ less, fuel = less + 1 := ⟨fuel - 1, by omega⟩
  have hsees : l.fresh.Sees (b :: (w ++ c :: rest)) := h.sees
  have hp : present l.fresh.here = .char := hsees.here.symm ▸ hw b List.mem_cons_self
  have hstate : l.fresh.state = .none := h.state
  have hstep : lexStep l.fresh = .again (l.fresh.take.goto .token) := by rw [hsees.init h.start, initStep, hstate, hp]
  rw [List.length_append, List.length_cons] at hfuel
  apply Lex.Scans.reads
  apply Lex.Scans.take hstep
  exact scans_word h.start rfl (fun b hb => hw b (List.mem_cons_of_mem _ hb)) hc (hsees.take .token) (by omega)

/-- The signs that are tokens of their own. -/
def signType : Present → Option TokenType
  | .colon => some .colon
  | .semicolon => some .semicolon
  | .quote => some .quote
  | .equals => some .equals
  | .comma => some .comma
  | _ => none

theorem Lex.Ready.sign (h : l.Ready fuel stop top .init (c :: rest)) (htype : signType (present c) = some type) :
    ∃ l', l.Reads fuel [c] type .init l' := by
  have hfuel := h.enough
  have hsees := h.sees
  have hstart : l.fresh.start = .init := h.start
  have hstate : l.fresh.state = .none := h.state
  have hp : present l.fresh.here = present c := by rw [hsees.here]
  apply Lex.Scans.reads
  refine Lex.Scans.last ?_ (by omega)
  rw [hsees.init hstart, initStep, hstate, hp]
  cases hpresent : present c <;> rw [hpresent] at htype <;> cases htype <;> (cases l; cases hstart; cases hstate; rfl)

/-- What neither goes on with a gap nor ends the line. -/
def EndsGap (c : Byte) : Prop := present c ≠ .space ∧ present c ≠ .tab ∧ present c ≠ .creturn ∧ present c ≠ .lfeed

instance (c : Byte) : Decidable (EndsGap c) := inferInstanceAs (Decidable (_ ∧ _))

theorem scans_spaces (hstart : l.start = .init) (hstate : l.state = .sp) (hc : EndsGap c)
    (h : l.Sees (List.replicate n 32 ++ c :: rest)) (hfuel : n < fuel) : l.Scans fuel n .sp .init := by
  induction n generalizing l fuel with
  | zero =>
      apply Lex.Scans.halt _ hfuel
      have hsees : l.Sees (c :: rest) := h
      obtain ⟨hspace, htab, hcr, hlf⟩ := hsees.here.symm ▸ hc
      rw [hsees.init hstart, initStep, hstate]
      cases hpresent : present l.here <;> first | contradiction | (cases l; cases hstart; rfl)
  | succ n ih =>
      obtain ⟨fuel, rfl⟩ := Nat.exists_eq_add_one.mpr hfuel.pos
      have hsees : l.Sees (32 :: (List.replicate n 32 ++ c :: rest)) := h
      have hp : present l.here = .space := by
        rw [hsees.here]
        rfl
      have hstep : lexStep l = .again (l.erase.take.goto .sp) := by rw [hsees.init hstart, initStep, hstate, hp]
      refine Lex.Scans.erase hstep (by decide) ?_
      exact ih hstart rfl (hsees.erase .sp) (Nat.lt_of_succ_lt_succ hfuel)

theorem Lex.Ready.spaces (h : l.Ready fuel stop top .init (32 :: (List.replicate n 32 ++ c :: rest))) (hc : EndsGap c) :
    ∃ l', l.Reads fuel (32 :: List.replicate n 32) .sp .init l' := by
  have hfuel := h.enough
  have hsees := h.sees
  have hstate : l.fresh.state = .none := h.state
  have hp : present l.fresh.here = .space := by
    rw [hsees.here]
    rfl
  have hstep : lexStep l.fresh = .again (l.fresh.erase.take.goto .sp) := by rw [hsees.init h.start, initStep, hstate, hp]
  obtain ⟨fuel, rfl⟩ : ∃ less, fuel = less + 1 := ⟨fuel - 1, by omega⟩
  rw [List.length_cons, List.length_append, List.length_replicate] at hfuel
  apply Lex.Scans.reads
  rw [List.length_cons, List.length_replicate]
  refine Lex.Scans.erase hstep (by decide) ?_
  exact scans_spaces h.start rfl hc (hsees.erase .sp) (by omega)

/-- What does not go on with the line before. -/
def StartsLine (c : Byte) : Prop := present c ≠ .space ∧ present c ≠ .tab ∧ present c ≠ .eof

instance (c : Byte) : Decidable (StartsLine c) := inferInstanceAs (Decidable (_ ∧ _))

theorem Lex.Ready.line_end (h : l.Ready fuel stop top .init (crlf ++ c :: rest)) (hc : StartsLine c) :
    ∃ l', l.Reads fuel crlf .crlf .init l' := by
  have hfuel := h.enough
  have hsees : l.fresh.Sees (13 :: 10 :: c :: rest) := h.sees
  have hlf := hsees.erase .cr
  have hrest := hlf.erase .lf
  have hstart : l.fresh.start = .init := h.start
  have hstate : l.fresh.state = .none := h.state
  have hcr : lexStep l.fresh = .again (l.fresh.erase.take.goto .cr) := by
    rw [hsees.init hstart, initStep, hstate, hsees.here]
    rfl
  have hfeed : lexStep (l.fresh.erase.take.goto .cr) = .again ((l.fresh.erase.take.goto .cr).erase.take.goto .lf) := by
    rw [hlf.init hstart, initStep, hlf.here]
    rfl
  obtain ⟨fuel, rfl⟩ : ∃ less, fuel = less + 1 + 1 := ⟨fuel - 2, by omega⟩
  apply Lex.Scans.reads
  refine Lex.Scans.erase hcr (by decide) (Lex.Scans.erase hfeed (by decide) (Lex.Scans.halt ?_ (by omega)))
  obtain ⟨hspace, htab, -⟩ := hrest.here.symm ▸ hc
  rw [hrest.init hstart, initStep]
  cases hpresent : present (Lex.here _) <;> first | contradiction | (cases l; cases hstart; rfl)

end Init

/-! ## The lines of a message -/

section Lines

variable {l : Lex} {w line rest text : Bytes} {b c : Byte} {fuel n : Nat} {type : TokenType} {start : Start} {stop top : Int}

/-- The text of a header: a line, with the lines that continue it, up to its end. -/
inductive LineText : Bytes → Prop
  | nil : LineText []
  | byte {b : Byte} {line : Bytes} (hcr : b ≠ 13) (hlf : b ≠ 10) (heof : b ≠ 255) (h : LineText line) : LineText (b :: line)
  | fold {b : Byte} {line : Bytes} (hb : b = 32 ∨ b = 9) (h : LineText line) : LineText (13 :: 10 :: b :: line)

theorem headerStep_byte (hstate : l.state = .none ∨ l.state = .token) (hcr : l.here ≠ 13) (hlf : l.here ≠ 10)
    (heof : l.here ≠ 255) : headerStep l = .again (l.take.goto .token) := by
  have hpresent : ∀ b : Byte, b ≠ 13 → b ≠ 10 → b ≠ 255 →
      present b ≠ .creturn ∧ present b ≠ .lfeed ∧ present b ≠ .eof := by decide
  obtain ⟨hpcr, hplf, hpeof⟩ := hpresent _ hcr hlf heof
  rw [headerStep]
  rcases hstate with hstate | hstate
  · rw [hstate]
    cases hp : present l.here <;> first | contradiction | rfl
  · rw [hstate]
    cases hp : present l.here <;> first | contradiction | rfl

theorem headerStep_creturn (hstate : l.state = .none ∨ l.state = .token) (hcr : l.here = 13) :
    headerStep l = .again (l.take.goto .cr) := by
  rw [headerStep, hcr]
  rcases hstate with hstate | hstate
  · rw [hstate]
    rfl
  · rw [hstate]
    rfl

theorem headerStep_lfeed (hstate : l.state = .cr) (hlf : l.here = 10) : headerStep l = .again (l.take.goto .lf) := by
  rw [headerStep, hlf, hstate]
  rfl

theorem scans_line (hstart : l.start = .header) (hstate : l.state = .none ∨ l.state = .token) (hline : LineText line)
    (hc : StartsLine c) (h : l.Sees (line ++ (crlf ++ c :: rest))) (hfuel : line.length + 2 < fuel) :
    l.Scans fuel (line.length + 2) .token .line := by
  induction hline generalizing l fuel with
  | nil =>
      have hsees : l.Sees (13 :: 10 :: c :: rest) := h
      have hlf := hsees.take .cr
      have hrest := hlf.take .lf
      have hcr : lexStep l = .again (l.take.goto .cr) := by
        rw [hsees.header hstart, headerStep_creturn hstate hsees.here]
      have hfeed : lexStep (l.take.goto .cr) = .again ((l.take.goto .cr).take.goto .lf) := by
        rw [hlf.header hstart, headerStep_lfeed rfl hlf.here]
      obtain ⟨fuel, rfl⟩ : ∃ less, fuel = less + 1 + 1 := ⟨fuel - 2, by omega⟩
      rw [List.length_nil] at hfuel
      refine Lex.Scans.take hcr (Lex.Scans.take hfeed (Lex.Scans.halt ?_ (by omega)))
      obtain ⟨hspace, htab, heof⟩ := hrest.here.symm ▸ hc
      rw [hrest.header hstart, headerStep]
      cases hpresent : present (Lex.here _) <;> first | contradiction | rfl
  | @byte b line hcr hlf heof _ ih =>
      have hsees : l.Sees (b :: (line ++ (crlf ++ c :: rest))) := h
      have hhere := hsees.here
      have hstep : lexStep l = .again (l.take.goto .token) := by
        rw [hsees.header hstart, headerStep_byte hstate (hhere ▸ hcr) (hhere ▸ hlf) (hhere ▸ heof)]
      rw [List.length_cons] at hfuel
      obtain ⟨fuel, rfl⟩ : ∃ less, fuel = less + 1 := ⟨fuel - 1, by omega⟩
      rw [List.length_cons, Nat.add_right_comm]
      apply Lex.Scans.take hstep
      exact ih hstart (.inr rfl) (hsees.take .token) (by omega)
  | @fold b line hb _ ih =>
      have hsees : l.Sees (13 :: 10 :: b :: (line ++ (crlf ++ c :: rest))) := h
      have hlf := hsees.take .cr
      have hrest := hlf.take .lf
      have hcr : lexStep l = .again (l.take.goto .cr) := by
        rw [hsees.header hstart, headerStep_creturn hstate hsees.here]
      have hfeed : lexStep (l.take.goto .cr) = .again ((l.take.goto .cr).take.goto .lf) := by
        rw [hlf.header hstart, headerStep_lfeed rfl hlf.here]
      have hgap : lexStep ((l.take.goto .cr).take.goto .lf) = .again (((l.take.goto .cr).take.goto .lf).take.goto .token) := by
        rw [hrest.header hstart, headerStep, hrest.here]
        rcases hb with rfl | rfl <;> rfl
      simp only [List.length_cons] at hfuel ⊢
      obtain ⟨fuel, rfl⟩ : ∃ less, fuel = less + 1 + 1 + 1 := ⟨fuel - 3, by omega⟩
      have hscans := @ih (((l.take.goto .cr).take.goto .lf).take.goto .token) fuel hstart (.inr rfl) (hrest.take .token) (by omega)
      have hlength : line.length + 1 + 1 + 1 + 2 = line.length + 2 + 1 + 1 + 1 := by omega
      rw [hlength]
      exact Lex.Scans.take hcr (Lex.Scans.take hfeed (Lex.Scans.take hgap hscans))

theorem Lex.Ready.first_line (h : l.Ready fuel stop top .header (line ++ (crlf ++ c :: rest))) (hline : LineText line)
    (hc : StartsLine c) : ∃ l', l.Reads fuel (line ++ crlf) .token .line l' := by
  have hfuel := h.enough
  simp only [List.length_append, List.length_cons] at hfuel
  apply Lex.Scans.reads
  rw [List.length_append]
  exact scans_line h.start (.inl h.state) hline hc h.sees (by omega)

theorem Lex.Ready.next_line (h : l.Ready fuel stop top .line (b :: line ++ (crlf ++ c :: rest))) (hb : present b ≠ .creturn)
    (hline : LineText (b :: line)) (hc : StartsLine c) : ∃ l', l.Reads fuel (b :: line ++ crlf) .token .line l' := by
  have hfuel := h.enough
  have hstart : l.fresh.start = .line := h.start
  have hstate : l.fresh.state = .none := h.state
  have hsees : l.fresh.Sees (b :: (line ++ (crlf ++ c :: rest))) := h.sees
  have hstep : lexStep l.fresh = .again { l.fresh with start := .header, state := .none } := by
    have hp : present l.fresh.here ≠ .creturn := hsees.here.symm ▸ hb
    rw [hsees.line hstart, lineStep, hstate]
    cases hpresent : present l.fresh.here <;> first | contradiction | rfl
  simp only [List.length_append, List.length_cons] at hfuel
  obtain ⟨fuel, rfl⟩ : ∃ less, fuel = less + 1 := ⟨fuel - 1, by omega⟩
  apply Lex.Scans.reads
  apply Lex.Scans.turn hstep
  rw [List.length_append]
  refine scans_line rfl (.inl rfl) hline hc ⟨h.spells, h.fits⟩ ?_
  rw [List.length_cons]
  omega

theorem Lex.Ready.blank (h : l.Ready fuel stop top .line (crlf ++ rest)) : ∃ l', l.Reads fuel crlf .crlf .header l' := by
  have hfuel := h.enough
  have hstart : l.fresh.start = .line := h.start
  have hstate : l.fresh.state = .none := h.state
  have hsees : l.fresh.Sees (13 :: 10 :: rest) := h.sees
  have hlf := hsees.take .cr
  have hstep : lexStep l.fresh = .again (l.fresh.take.goto .cr) := by
    rw [hsees.line hstart, lineStep, hstate, hsees.here]
    rfl
  obtain ⟨fuel, rfl⟩ : ∃ less, fuel = less + 1 := ⟨fuel - 1, by omega⟩
  apply Lex.Scans.reads
  refine Lex.Scans.take hstep (Lex.Scans.last ?_ (by omega))
  rw [hlf.line hstart, lineStep, hlf.here]
  rfl

end Lines

/-! ## The words of the status line -/

section Raw

variable {l : Lex} {w rest : Bytes} {b : Byte} {fuel : Nat} {stop top : Int}

/-- What a word of the status line is made of. -/
def IsRaw (b : Byte) : Prop := present b ≠ .space ∧ present b ≠ .tab ∧ present b ≠ .creturn

instance (b : Byte) : Decidable (IsRaw b) := inferInstanceAs (Decidable (_ ∧ _))

theorem scans_raw (hstart : l.start = .raw) (hstate : l.state = .token) (hw : ∀ b ∈ w, IsRaw b) (h : l.Sees (w ++ 32 :: rest))
    (hfuel : w.length < fuel) : l.Scans fuel w.length .token .raw := by
  induction w generalizing l fuel with
  | nil =>
      have hsees : l.Sees (32 :: rest) := h
      apply Lex.Scans.halt _ hfuel
      rw [hsees.raw hstart, rawStep, hstate, hsees.here]
      cases l
      cases hstart
      rfl
  | cons b w ih =>
      obtain ⟨fuel, rfl⟩ := Nat.exists_eq_add_one.mpr hfuel.pos
      have hsees : l.Sees (b :: (w ++ 32 :: rest)) := h
      obtain ⟨hspace, htab, hcr⟩ := hsees.here.symm ▸ hw b List.mem_cons_self
      have hstep : lexStep l = .again (l.take.goto .token) := by
        rw [hsees.raw hstart, rawStep, hstate]
        cases hpresent : present l.here <;> first | contradiction | (cases l; cases hstate; rfl)
      apply Lex.Scans.take hstep
      exact ih hstart rfl (fun b hb => hw b (List.mem_cons_of_mem _ hb)) (hsees.take .token) (Nat.lt_of_succ_lt_succ hfuel)

theorem Lex.Ready.raw_word (h : l.Ready fuel stop top .raw (w ++ 32 :: rest)) (hne : w ≠ []) (hw : ∀ b ∈ w, IsRaw b) :
    ∃ l', l.Reads fuel w .token .raw l' := by
  obtain ⟨b, w, rfl⟩ := List.exists_cons_of_ne_nil hne
  have hfuel := h.enough
  have hsees : l.fresh.Sees (b :: (w ++ 32 :: rest)) := h.sees
  have hstart : l.fresh.start = .raw := h.start
  have hstate : l.fresh.state = .none := h.state
  obtain ⟨hspace, htab, hcr⟩ := hsees.here.symm ▸ hw b List.mem_cons_self
  have hstep : lexStep l.fresh = .again (l.fresh.take.goto .token) := by
    rw [hsees.raw hstart, rawStep, hstate]
    cases hpresent : present l.fresh.here <;> first | contradiction | rfl
  rw [List.length_append, List.length_cons] at hfuel
  obtain ⟨fuel, rfl⟩ : ∃ less, fuel = less + 1 := ⟨fuel - 1, by omega⟩
  apply Lex.Scans.reads
  apply Lex.Scans.take hstep
  exact scans_raw hstart rfl (fun b hb => hw b (List.mem_cons_of_mem _ hb)) (hsees.take .token) (by omega)

theorem Lex.Ready.raw_space (h : l.Ready fuel stop top .raw (32 :: rest)) : ∃ l', l.Reads fuel [32] .sp .raw l' := by
  have hfuel := h.enough
  have hstart : l.fresh.start = .raw := h.start
  have hstate : l.fresh.state = .none := h.state
  have hsees := h.sees
  apply Lex.Scans.reads
  refine Lex.Scans.last_erase ?_ (by decide) (by omega)
  rw [hsees.raw hstart, rawStep, hstate, hsees.here]
  cases l
  cases hstart
  rfl

end Raw

end BeagleCache
