import Mathlib.Tactic
import BeagleCache.HttpParse
import BeagleCache.HttpTokens

/-! The lines of a chunked entity, and how far the tokenizer comes in them when they are not read to their end. -/

namespace BeagleCache

/-- The token has come `n` bytes further. -/
def Lex.onward (l : Lex) (n : Nat) : Lex := { l with toklen := l.toklen + n, processed := l.processed + n }

/-- The bytes of a line that are neither its end nor the mark. -/
def Plain (line : Bytes) : Prop := ∀ b ∈ line, b ≠ 13 ∧ b ≠ 255

section Tokens

variable {l : Lex} {line rest part : Bytes} {b : Byte} {fuel : Nat} {stop top : Int}

theorem Lex.Sees.lineend (h : l.Sees (b :: rest)) (hstart : l.start = .lineend) : lexStep l = lineendStep l := by
  rw [lexStep, if_neg h.inside, hstart]

theorem Lex.onward_zero (l : Lex) : l.onward 0 = l := by
  unfold Lex.onward
  rw [Nat.add_zero, Nat.cast_zero, add_zero]

theorem Lex.take_onward (l : Lex) (n : Nat) : l.take.onward n = l.onward (n + 1) := by
  unfold Lex.take Lex.onward
  simp only [Nat.cast_succ]
  congr 1
  · omega
  · omega

theorem lexLoop_plain (hline : Plain line) (hstart : l.start = .lineend) (hstate : l.state = .none) (h : l.Sees (line ++ rest)) :
    lexLoop (fuel + line.length) l = lexLoop fuel (l.onward line.length) := by
  induction line generalizing l with
  | nil => rw [List.length_nil, Nat.add_zero, Lex.onward_zero]
  | cons b line ih =>
      obtain ⟨hb, hplain⟩ := List.forall_mem_cons.mp hline
      have hpresent : ∀ b : Byte, b ≠ 13 → b ≠ 255 → present b ≠ .creturn ∧ present b ≠ .eof := by decide
      obtain ⟨hcr, heof⟩ := hpresent b hb.1 hb.2
      have hstep : lexStep l = .again l.take := by
        rw [Lex.Sees.lineend h hstart, lineendStep, hstate, h.here]
        cases hp : present b <;> first | contradiction | rfl
      have hnext : l.take.Sees (line ++ rest) := ⟨(h.take .none).bytes, (h.take .none).fits⟩
      have hrest := ih hplain (l := l.take) hstart hstate hnext
      rw [List.length_cons, ← Nat.add_assoc, lexLoop, hstep]
      show lexLoop (fuel + line.length) l.take = _
      rw [hrest, Lex.take_onward]

theorem Lex.onward_sees (h : l.Sees (line ++ rest)) : (l.onward line.length).Sees rest := by
  constructor
  · have hbytes := h.bytes.right
    rwa [add_assoc] at hbytes
  · have hfits := h.fits
    rw [List.length_append, Nat.cast_add] at hfits
    show l.processed + line.length + rest.length ≤ l.last + 1
    omega

theorem Lex.onward_onward (l : Lex) (m n : Nat) : (l.onward m).onward n = l.onward (m + n) := by
  unfold Lex.onward
  simp only [Nat.cast_add]
  congr 1
  · omega
  · omega

theorem lexStep_creturn (h : l.Sees (13 :: rest)) (hstart : l.start = .lineend) (hstate : l.state = .none) :
    lexStep l = .again { l.onward 1 with state := .cr } := by
  rw [h.lineend hstart, lineendStep, hstate, h.here]
  rfl

theorem getNextToken_line (h : l.Ready fuel stop top .lineend (line ++ (crlf ++ rest))) (hline : Plain line) :
    getNextToken fuel l = .ok (.ok, { l.fresh.onward (line.length + 2) with tokenType := .token, state := .lf }) := by
  have hfuel := h.enough
  simp only [List.length_append, crlf, List.length_cons, List.length_nil] at hfuel
  have hsees : (l.fresh.onward line.length).Sees (13 :: 10 :: rest) := Lex.onward_sees h.sees
  have hlf := hsees.take .cr
  have hfeed : lexStep { (l.fresh.onward line.length).onward 1 with state := .cr } =
      .found { (l.fresh.onward line.length).onward 2 with state := .lf } .token := by
    rw [Lex.Sees.lineend (l := { (l.fresh.onward line.length).onward 1 with state := .cr }) hlf h.start, lineendStep,
      Lex.Sees.here (l := { (l.fresh.onward line.length).onward 1 with state := .cr }) hlf]
    show LexStep.found (({ (l.fresh.onward line.length).onward 1 with state := .cr } : Lex).take.goto .lf) .token = _
    rw [← Lex.onward_onward _ 1 1]
    rfl
  obtain ⟨fuel, rfl⟩ : ∃ less, fuel = less + 1 + 1 + line.length := ⟨fuel - 2 - line.length, by omega⟩
  show lexLoop (fuel + 1 + 1 + line.length) l.fresh = _
  rw [lexLoop_plain (l := l.fresh) hline h.start h.state h.sees, lexLoop, lexStep_creturn hsees h.start h.state]
  show lexLoop (fuel + 1) _ = _
  rw [lexLoop, hfeed, Lex.onward_onward]
  rfl

/-- The part of a line that was read, but for its line feed. -/
def LineCut (seen : Bytes) : Prop := ∃ part, Plain part ∧ (seen = part ∨ seen = part ++ [13])

theorem getNextToken_cut {seen : Bytes} (h : l.Ready fuel stop top .lineend (seen ++ [255])) (hseen : LineCut seen) :
    getNextToken fuel l = .ok (.ok, { l.fresh.onward seen.length with tokenType := .bufend, state := .none }) := by
  have hfuel := h.enough
  rw [List.length_append] at hfuel
  obtain ⟨part, hpart, hseen | hseen⟩ := hseen
  · rw [hseen] at h hfuel ⊢
    have hsees : (l.fresh.onward part.length).Sees [255] := Lex.onward_sees h.sees
    have hstate : (l.fresh.onward part.length).state = .none := h.state
    have hmark : lexStep (l.fresh.onward part.length) = .found ((l.fresh.onward part.length).goto .none) .bufend := by
      rw [hsees.lineend h.start, lineendStep, hstate, hsees.here]
      rfl
    obtain ⟨fuel, rfl⟩ : ∃ less, fuel = less + 1 + part.length := ⟨fuel - 1 - part.length, by omega⟩
    show lexLoop (fuel + 1 + part.length) l.fresh = _
    rw [lexLoop_plain (l := l.fresh) hpart h.start h.state h.sees, lexLoop, hmark]
    rfl
  · rw [hseen, List.append_assoc] at h
    rw [hseen, List.length_append, List.length_singleton] at hfuel ⊢
    have hsees : (l.fresh.onward part.length).Sees (13 :: [255]) := Lex.onward_sees h.sees
    have hend := hsees.take .cr
    have hmark : lexStep { (l.fresh.onward part.length).onward 1 with state := .cr } =
        .found { (l.fresh.onward part.length).onward 1 with state := .none } .bufend := by
      rw [Lex.Sees.lineend (l := { (l.fresh.onward part.length).onward 1 with state := .cr }) hend h.start, lineendStep,
        Lex.Sees.here (l := { (l.fresh.onward part.length).onward 1 with state := .cr }) hend]
      rfl
    obtain ⟨fuel, rfl⟩ : ∃ less, fuel = less + 1 + 1 + part.length := ⟨fuel - 2 - part.length, by omega⟩
    show lexLoop (fuel + 1 + 1 + part.length) l.fresh = _
    rw [lexLoop_plain (l := l.fresh) hpart h.start h.state h.sees, lexLoop, lexStep_creturn hsees h.start h.state]
    show lexLoop (fuel + 1) _ = _
    rw [lexLoop, hmark, Lex.onward_onward]
    rfl

/-- The empty line behind the headers. Nothing is written. -/
theorem getNextToken_blank (h : l.Ready fuel stop top .line (crlf ++ rest)) :
    getNextToken fuel l = .ok (.ok, { l.fresh.onward 2 with tokenType := .crlf, start := .header, state := .none }) := by
  have hfuel := h.enough
  have hsees : l.fresh.Sees (13 :: 10 :: rest) := h.sees
  have hlf := hsees.take .cr
  have hstart : l.fresh.start = .line := h.start
  have hstate : l.fresh.state = .none := h.state
  have hcr : lexStep l.fresh = .again (l.fresh.take.goto .cr) := by
    rw [hsees.line hstart, lineStep, hstate, hsees.here]
    rfl
  have hfeed : lexStep (l.fresh.take.goto .cr) = .found { l.fresh.onward 2 with start := .header, state := .none } .crlf := by
    rw [hlf.line hstart, lineStep, hlf.here, ← Lex.onward_onward _ 1 1]
    rfl
  obtain ⟨fuel, rfl⟩ : ∃ less, fuel = less + 1 + 1 := ⟨fuel - 2, by omega⟩
  show lexLoop (fuel + 1 + 1) l.fresh = _
  rw [lexLoop, hcr]
  show lexLoop (fuel + 1) _ = _
  rw [lexLoop, hfeed]
  rfl

theorem getNextToken_body (hinside : ¬ l.last < l.processed) (hstart : l.start = .body) (hfuel : 0 < fuel) :
    getNextToken fuel l = .ok (.ok, { l.fresh with tokenType := .body }) := by
  obtain ⟨fuel, rfl⟩ := Nat.exists_eq_add_one.mpr hfuel
  have hbody : l.fresh.start = .body := hstart
  have hbefore : ¬ l.fresh.last < l.fresh.processed := hinside
  have hstep : lexStep l.fresh = .found l.fresh .body := by rw [lexStep, if_neg hbefore, hbody]
  show lexLoop (fuel + 1) l.fresh = _
  rw [lexLoop, hstep]
  rfl

end Tokens

/-! ## The size of a chunk -/

section Size

variable {mem : Int → Byte} {pos : Int} {digits rest : Bytes} {c : Byte} {fuel value count : Nat}

/-- The number that hexadecimal digits are of. -/
def hexNumber (digits : Bytes) : Nat := digits.foldl (fun value b => value * 16 + (hexValue b).getD 0) 0

theorem hexDigits_eq {start : Nat} (hdigits : ∀ b ∈ digits, hexValue b ≠ none) (hc : hexValue c = none)
    (h : Spells mem (pos + start) (digits ++ c :: rest)) (hfuel : digits.length < fuel) :
    hexDigits (fun k => mem (pos + k)) fuel start value count =
      .ok (digits.foldl (fun value b => value * 16 + (hexValue b).getD 0) value, count + digits.length) := by
  induction digits generalizing start fuel value count with
  | nil =>
      obtain ⟨fuel, rfl⟩ := Nat.exists_eq_add_one.mpr hfuel.pos
      have hbyte : mem (pos + start) = c := h.first
      rw [hexDigits, hbyte, hc]
      rfl
  | cons b digits ih =>
      obtain ⟨hb, hdigits⟩ := List.forall_mem_cons.mp hdigits
      obtain ⟨fuel, rfl⟩ := Nat.exists_eq_add_one.mpr hfuel.pos
      have hbyte : mem (pos + start) = b := Spells.first h
      have hnext : Spells mem (pos + (start + 1 : Nat)) (digits ++ c :: rest) := by
        have hright := Spells.right (w := [b]) h
        rwa [List.length_singleton, add_assoc, ← Nat.cast_add] at hright
      obtain ⟨digit, hdigit⟩ := Option.ne_none_iff_exists'.mp hb
      rw [hexDigits, hbyte, hdigit]
      show hexDigits _ fuel (start + 1) (value * 16 + digit) (count + 1) = _
      rw [ih hdigits hnext (Nat.lt_of_succ_lt_succ hfuel), List.foldl_cons, hdigit, List.length_cons]
      congr 2
      omega

theorem sscanfHex_digits (hne : digits ≠ []) (hdigits : ∀ b ∈ digits, hexValue b ≠ none)
    (hc : hexValue c = none ∧ c ≠ 120 ∧ c ≠ 88) (h : Spells mem pos (digits ++ c :: rest)) (hfuel : digits.length + 1 < fuel)
    (hsmall : hexNumber digits < 2 ^ 31) : sscanfHex (fun k => mem (pos + k)) fuel 0 = .ok (some (hexNumber digits)) := by
  obtain ⟨b, digits, rfl⟩ := List.exists_cons_of_ne_nil hne
  obtain ⟨fuel, rfl⟩ := Nat.exists_eq_add_one.mpr hfuel.pos
  have hbyte : mem (pos + (0 : Nat)) = b := by
    rw [Nat.cast_zero, add_zero]
    exact h.first
  have hfirst : ∀ b : Byte, hexValue b ≠ none → isSpace b = false ∧ b ≠ 45 ∧ b ≠ 43 ∧ b ≠ 120 ∧ b ≠ 88 := by decide
  obtain ⟨hspace, hminus, hplus, -, -⟩ := hfirst b (hdigits b List.mem_cons_self)
  -- what follows a first zero is a digit, or the end of the number
  have hprefix : ¬(b = 48 ∧ (mem (pos + (0 + 1 : Nat)) = 120 ∨ mem (pos + (0 + 1 : Nat)) = 88)) := by
    have hsecond : Spells mem (pos + (0 + 1 : Nat)) (digits ++ c :: rest) := Spells.right (w := [b]) h
    rintro ⟨-, hx⟩
    cases digits with
    | nil =>
        rw [hsecond.first] at hx
        rcases hx with hx | hx
        · exact hc.2.1 hx
        · exact hc.2.2 hx
    | cons b' digits =>
        obtain ⟨-, -, -, h120, h88⟩ := hfirst b' (hdigits b' (List.mem_cons_of_mem _ List.mem_cons_self))
        rw [Spells.first hsecond] at hx
        rcases hx with hx | hx
        · exact h120 hx
        · exact h88 hx
  have hstart : Spells mem (pos + (0 : Nat)) (b :: digits ++ c :: rest) := by
    rw [Nat.cast_zero, add_zero]
    exact h
  have hvalue : ((min (hexNumber (b :: digits)) (2 ^ 32 - 1) : Nat) : Int).bmod (2 ^ 32) = hexNumber (b :: digits) := by
    rw [Nat.min_eq_left (by omega), Int.bmod_eq_of_le (by omega) (by omega)]
  rw [sscanfHex]
  simp only [hbyte]
  rw [hspace, if_neg Bool.false_ne_true]
  simp only [hbyte, hminus, hplus, decide_false, or_self, if_false]
  rw [if_neg hprefix, hexDigits_eq hdigits hc.1 hstart (by omega), Run.ok_bind]
  show Except.ok (if 0 + (b :: digits).length = 0 then none else some _) = _
  rw [if_neg (by rw [List.length_cons]; omega)]
  show Except.ok (some (((min (hexNumber (b :: digits)) (2 ^ 32 - 1) : Nat) : Int).bmod (2 ^ 32))) = _
  rw [hvalue]

end Size

end BeagleCache
