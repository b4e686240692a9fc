import BeagleCache.HttpTokens
import BeagleCache.StoredHeader

/-! The lines that `formWriteHeader` writes, and what `parseHTTPHeader` stores for each of them. A number, a date and the
directives of Cache-Control are each read token by token. -/

namespace BeagleCache

open Run

/-! ## Numbers -/

section Numbers

variable {mem : Int → Byte} {pos : Int} {text rest : Bytes} {c : Byte} {value n : Nat}

/-- The text of a number: `atoi` reads it back, whatever stands behind it. -/
structure Numeral (text : Bytes) (value : Int) : Prop where
  ne_nil : text ≠ []
  chars : ∀ b ∈ text, IsChar b
  atoi : ∀ {mem : Int → Byte} {pos : Int} {c : Byte} {rest : Bytes}, Spells mem pos (text ++ c :: rest) → ¬ IsDigit c →
    atoi32 (fun k : Nat => mem (pos + k)) httpBufSize 0 = .ok value

theorem length_decimal_le (hn : 0 < n) (hvalue : value < 10 ^ n) : (decimal value).length ≤ n := by
  rw [decimal_eq_toDigits, List.length_map]
  exact (Nat.length_toDigits_le_iff (by decide) hn).mpr hvalue

theorem Spells.digits {b : Bytes} {fuel : Nat} (h : Spells mem pos (b ++ (decimal value ++ c :: rest)))
    (hc : ¬ IsDigit c) (hvalue : value < 10 ^ 10) (hfuel : 10 < fuel) :
    digits (fun k : Nat => mem (pos + k)) fuel b.length 0 = .ok value := by
  have hlength := length_decimal_le (by decide) hvalue
  have hholds := h.holds
  rw [← List.append_assoc] at hholds
  apply hholds.digits_decimal _ hc (by omega)
  simp only [List.length_append, List.length_cons]
  omega

theorem atoi32_of_digit {buffer : Nat → Byte} {fuel pos : Nat} (hdigit : IsDigit (buffer pos)) :
    atoi32 buffer (fuel + 1) pos = do
      let value ← digits buffer fuel pos 0
      return (min value (2 ^ 31 - 1) : Nat) := by
  have hkind : ∀ b : Byte, IsDigit b → isSpace b = false ∧ b ≠ 45 ∧ b ≠ 43 := by
    unfold IsDigit
    decide
  obtain ⟨hspace, hminus, hplus⟩ := hkind _ hdigit
  rw [atoi32, hspace, if_neg Bool.false_ne_true, if_neg hminus]
  simp only [if_neg hplus]

theorem atoi32_of_minus {buffer : Nat → Byte} {fuel pos : Nat} (hminus : buffer pos = 45) :
    atoi32 buffer (fuel + 1) pos = do
      let value ← digits buffer fuel (pos + 1) 0
      return -(min value (2 ^ 31) : Nat) := by
  rw [atoi32, hminus]
  rfl

theorem isDigit_decimal_first {buffer : Nat → Byte} (h : Shows buffer n (decimal value ++ rest)) (hn : 0 < n) : IsDigit (buffer 0) := by
  obtain ⟨b, tail, htext⟩ := List.exists_cons_of_ne_nil (decimal_ne_nil value)
  have hbyte : buffer 0 = b := h.byte hn (by rw [htext]; rfl)
  rw [hbyte]
  apply isDigit_of_mem_decimal
  rw [htext]
  exact List.mem_cons_self

theorem numeral_decimal (hvalue : value < 2 ^ 31) : Numeral (decimal value) value := by
  refine ⟨decimal_ne_nil value, fun b hb => isChar_of_isDigit (isDigit_of_mem_decimal hb), ?_⟩
  intro mem pos c rest h hc
  have hfirst : IsDigit (mem (pos + (0 : Nat))) := by
    apply isDigit_decimal_first h.holds
    simp only [List.length_append, List.length_cons]
    omega
  have hdigits : digits (fun k : Nat => mem (pos + k)) 8192 0 0 = .ok value :=
    Spells.digits (b := []) h hc (by omega) (by decide)
  rw [httpBufSize, atoi32_of_digit hfirst, hdigits, ok_bind, pure_eq_ok, min_eq_left (by omega)]

theorem numeral_twoDigits (hvalue : value < 2 ^ 31) : Numeral (twoDigits value) value := by
  rw [twoDigits]
  split
  · have hnumeral := numeral_decimal hvalue
    refine ⟨List.cons_ne_nil _ _, ?_, ?_⟩
    · intro b hb
      rcases List.mem_cons.mp hb with rfl | hb
      · decide
      · exact hnumeral.chars b hb
    · intro mem pos c rest h hc
      have hzero : mem (pos + (0 : Nat)) = 48 := (Option.some.inj (h 0 (Nat.succ_pos _))).symm
      have hfirst : IsDigit (mem (pos + (0 : Nat))) := by
        rw [hzero]
        unfold IsDigit
        decide
      have hdigits : digits (fun k : Nat => mem (pos + k)) 8191 1 0 = .ok value :=
        Spells.digits (b := [48]) h hc (by omega) (by decide)
      have hskip : digits (fun k : Nat => mem (pos + k)) 8192 0 0 = digits (fun k : Nat => mem (pos + k)) 8191 1 0 := by
        rw [digits, hzero]
        rfl
      rw [httpBufSize, atoi32_of_digit hfirst, hskip, hdigits, ok_bind, pure_eq_ok, min_eq_left (by omega)]
  · exact numeral_decimal hvalue

theorem numeral_intText {value : Int} (hlow : -2 ^ 31 ≤ value) (hhigh : value < 2 ^ 31) : Numeral (intText value) value := by
  rw [intText]
  split
  · rename_i hneg
    refine ⟨List.cons_ne_nil _ _, ?_, ?_⟩
    · intro b hb
      rcases List.mem_cons.mp hb with rfl | hb
      · decide
      · exact isChar_of_isDigit (isDigit_of_mem_decimal hb)
    · intro mem pos c rest h hc
      have hminus : mem (pos + (0 : Nat)) = 45 := (Option.some.inj (h 0 (Nat.succ_pos _))).symm
      have hdigits : digits (fun k : Nat => mem (pos + k)) 8192 1 0 = .ok value.natAbs :=
        Spells.digits (b := [45]) h hc (by omega) (by decide)
      rw [httpBufSize, atoi32_of_minus hminus, hdigits, ok_bind, pure_eq_ok, min_eq_left (by omega)]
      congr 1
      omega
  · rename_i hpos
    have hnumeral := @numeral_decimal value.natAbs (by omega)
    rwa [Int.natAbs_of_nonneg (by omega)] at hnumeral

end Numbers

/-! ## A line of the header -/

/-- What is known of a stored response. -/
@[ext]
structure Metadata where
  code : Int
  con_len : Int
  cc : Option CacheControlResponse
  expires_value : Int
  last_modified : Int
  response_time : Int
  request_time : Int
  deriving DecidableEq

def HttpResponse.metadata (r : HttpResponse) : Metadata :=
  ⟨r.code, r.con_len, r.cc, r.expires_value, r.last_modified, r.response_time, r.request_time⟩

/-- What a header function leaves: the metadata, and the lines behind its own. -/
structure Stored (stop top : Int) (r r' : HttpResponse) (l' : Lex) (f : Metadata → Metadata) (rest : Bytes) : Prop where
  metadata : r'.metadata = f r.metadata
  status : r.status ≠ .badResponse → r'.status ≠ .badResponse
  stage : r'.stage = r.stage
  last : l'.last = top
  spells : Spells l'.mem (stop - rest.length) rest

/-- A line of the header that stands for `f`. -/
structure Says [Daylight] (line : Bytes) (f : Metadata → Metadata) : Prop where
  first : ∃ b tail, line = b :: tail ∧ IsChar b
  text : LineText line
  parse : ∀ {fuel : Nat} {stop top : Int} {r : HttpResponse} {l : Lex} {c : Byte} {rest : Bytes},
    l.Ready fuel stop top .init (line ++ (crlf ++ c :: rest)) → StartsLine c →
    ∃ r' l', parseHTTPHeader fuel r l = .ok (0, r', l') ∧ Stored stop top r r' l' f (c :: rest)

section Headers

variable {fuel : Nat} {stop top : Int} {r : HttpResponse} {l : Lex} {b c : Byte} {name w line rest tail : Bytes} {start : Start}

theorem Lex.Ready.behind {t : Bytes} (h : l.Ready fuel stop top start (t ++ rest)) : Spells l.mem (stop - rest.length) rest := by
  have hends := h.ends
  rw [List.length_append, Nat.cast_add] at hends
  have hpos : stop - rest.length = l.buf + l.processed + t.length := by omega
  rw [hpos]
  exact h.spells.right

theorem Spells.startsWith {mem : Int → Byte} {pos : Int} {text : Bytes} (h : Spells mem pos w) (hlen : text.length ≤ w.length) :
    startsWith mem pos text = decide (w.take text.length = text) := by
  have hsplit : Spells mem pos (w.take text.length ++ w.drop text.length) := by
    rw [List.take_append_drop]
    exact h
  have hmap := hsplit.map_range
  rw [List.length_take, min_eq_left hlen] at hmap
  rw [BeagleCache.startsWith, hmap]

theorem endsGap_of_isChar (h : IsChar b) : EndsGap b := by
  revert b
  decide

theorem not_isDigit_of_not_isChar (h : ¬ IsChar b) : ¬ IsDigit b := fun hb => h (isChar_of_isDigit hb)

theorem parseHTTPHeader_name [Daylight] (h : l.Ready fuel stop top .init (name ++ 58 :: rest)) (hne : name ≠ [])
    (hname : ∀ b ∈ name, IsChar b) (hlen : 3 ≤ rest.length) (hahead : rest.take 3 ≠ [32, 13, 10]) :
    ∃ l', l'.Ready fuel stop top .init (58 :: rest) ∧ parseHTTPHeader fuel r l = do
      let result ← (headerFunction name).call fuel r l'
      if result.1 = -1 then return (-1, result.2.1.bad, result.2.2) else return (0, result.2) := by
  obtain ⟨l', hread⟩ := h.word hne hname (by decide)
  have hready := hread.ready h
  have hname : l'.tokenBytes = name := by
    have htoklen : l'.toklen = name.length := hread.on.toklen.trans (Nat.zero_add _)
    rw [Lex.tokenBytes, htoklen]
    exact (hread.word h).map_range
  have hnot : ¬ l'.ahead [58, 32, 13, 10] := by
    rw [Lex.ahead, hready.spells.startsWith (by simp only [List.length_cons, List.length_nil]; omega)]
    simpa using hahead
  refine ⟨l', hready, ?_⟩
  rw [parseHTTPHeader, hread.run, ok_bind, if_neg nofun, if_neg (not_not.mpr hread.on.tokenType), if_neg hnot, hname]

theorem Says.of_call [Daylight] {f : Metadata → Metadata} (hne : name ≠ []) (hname : ∀ b ∈ name, IsChar b)
    (htext : LineText (name ++ 58 :: w))
    (hahead : ∀ tail, (w ++ (crlf ++ tail)).take 3 ≠ [32, 13, 10])
    (hcall : ∀ {fuel : Nat} {stop top : Int} {r : HttpResponse} {l : Lex} {c : Byte} {rest : Bytes},
      l.Ready fuel stop top .init (58 :: (w ++ (crlf ++ c :: rest))) → StartsLine c →
      ∃ r' l', (headerFunction name).call fuel r l = .ok (0, r', l') ∧ Stored stop top r r' l' f (c :: rest)) :
    Says (name ++ 58 :: w) f := by
  refine ⟨?_, htext, ?_⟩
  · obtain ⟨b, tail, rfl⟩ := List.exists_cons_of_ne_nil hne
    exact ⟨b, tail ++ 58 :: w, rfl, hname b List.mem_cons_self⟩
  · intro fuel stop top r l c rest h hc
    rw [List.append_assoc, List.cons_append] at h
    have hlen : 3 ≤ (w ++ (crlf ++ c :: rest)).length := by
      simp only [List.length_append, List.length_cons, crlf]
      omega
    obtain ⟨l₁, hready, hparse⟩ := @parseHTTPHeader_name fuel stop top r l name _ _ h hne hname hlen (hahead _)
    obtain ⟨r', l', hresult, hstored⟩ := @hcall fuel stop top r l₁ c rest hready hc
    refine ⟨r', l', ?_, hstored⟩
    rw [hparse, hresult, ok_bind, if_neg (by decide : (0 : Int) ≠ -1)]
    rfl

theorem lineText_of_plain (h : ∀ b ∈ line, b ≠ 13 ∧ b ≠ 10 ∧ b ≠ 255) : LineText line := by
  induction line with
  | nil => exact .nil
  | cons b line ih =>
      obtain ⟨hcr, hlf, heof⟩ := h b List.mem_cons_self
      exact .byte hcr hlf heof (ih fun b hb => h b (List.mem_cons_of_mem _ hb))

theorem plain_of_isChar (h : IsChar b) : b ≠ 13 ∧ b ≠ 10 ∧ b ≠ 255 := by
  revert b
  decide

theorem headerColon_value {next : HttpResponse → Lex → HeaderResult} (h : l.Ready fuel stop top .init (58 :: 32 :: b :: rest))
    (hb : EndsGap b) : ∃ l', l'.Ready fuel stop top .init (b :: rest) ∧ headerColon fuel r l next = next r l' := by
  obtain ⟨l₁, hcolon⟩ := h.sign (rfl : signType (present 58) = some .colon)
  have hready := hcolon.ready h
  obtain ⟨l₂, hspace⟩ := @Lex.Ready.spaces l₁ rest b fuel 0 stop top hready hb
  refine ⟨l₂, hspace.ready hready, ?_⟩
  rw [headerColon, hcolon.eat rfl, ok_bind, if_neg (by decide : (0 : Int) ≠ -1), hspace.eat rfl, ok_bind,
    if_neg (by decide : (0 : Int) ≠ -1)]

theorem tokenHeader_word {set : HttpResponse → Lex → Run HttpResponse} (h : l.Ready fuel stop top .init (58 :: 32 :: (w ++ c :: rest)))
    (hne : w ≠ []) (hw : ∀ b ∈ w, IsChar b) (hc : ¬ IsChar c) :
    ∃ l', l'.Ready fuel stop top .init (c :: rest) ∧ Spells l'.mem l'.token (w ++ c :: rest) ∧ tokenHeader set fuel r l = do
      let r ← set r l'
      return (0, r, l') := by
  obtain ⟨b, tail, rfl⟩ := List.exists_cons_of_ne_nil hne
  obtain ⟨l₁, hready, hcolon⟩ := @headerColon_value fuel stop top r l b _ _ h (endsGap_of_isChar (hw b List.mem_cons_self))
  obtain ⟨l', hword⟩ := hready.word hne hw hc
  refine ⟨l', hword.ready hready, hword.word hready, ?_⟩
  rw [tokenHeader, hcolon, hword.run, ok_bind, if_neg nofun]

theorem not_isChar_creturn : ¬ IsChar 13 := by decide

theorem value_ahead (hb : b ≠ 13) (tail : Bytes) : (32 :: b :: w ++ (crlf ++ tail)).take 3 ≠ [32, 13, 10] := by
  intro heq
  rw [List.cons_append, List.cons_append, List.take_succ_cons, List.take_succ_cons] at heq
  injection heq with _ heq
  injection heq with heq _
  exact hb heq

theorem lineText_value (hname : ∀ b ∈ name, IsChar b) (hw : ∀ b ∈ w, IsChar b) : LineText (name ++ 58 :: 32 :: w) := by
  apply lineText_of_plain
  intro b hb
  simp only [List.mem_append, List.mem_cons] at hb
  rcases hb with hb | rfl | rfl | hb
  · exact plain_of_isChar (hname b hb)
  · decide
  · decide
  · exact plain_of_isChar (hw b hb)

/-- A header with a word that is stored by `set`. -/
theorem says_word [Daylight] {set : HttpResponse → Lex → Run HttpResponse} {f : Metadata → Metadata} {function : HeaderFunction}
    (hne : name ≠ []) (hname : ∀ b ∈ name, IsChar b) (hfunction : headerFunction name = function)
    (hcall : ∀ fuel r l, function.call fuel r l = tokenHeader set fuel r l)
    (hwne : w ≠ []) (hw : ∀ b ∈ w, IsChar b)
    (hset : ∀ r l tail, Spells l.mem l.token (w ++ 13 :: tail) →
      ∃ r', set r l = .ok r' ∧ r'.metadata = f r.metadata ∧ r'.status = r.status ∧ r'.stage = r.stage) :
    Says (name ++ 58 :: 32 :: w) f := by
  have hahead : ∀ tail, (32 :: w ++ (crlf ++ tail)).take 3 ≠ [32, 13, 10] := by
    obtain ⟨b, tail, rfl⟩ := List.exists_cons_of_ne_nil hwne
    exact value_ahead (plain_of_isChar (hw b List.mem_cons_self)).1
  refine Says.of_call hne hname (lineText_value hname hw) hahead ?_
  intro fuel stop top r l c rest h _
  obtain ⟨l', hready, hspells, htoken⟩ := @tokenHeader_word fuel stop top r l 13 w _ set h hwne hw not_isChar_creturn
  obtain ⟨r', hr', hmetadata, hstatus, hstage⟩ := hset r l' _ hspells
  refine ⟨r', l', ?_, hmetadata, fun hgood => hstatus ▸ hgood, hstage, hready.last, ?_⟩
  · rw [hfunction, hcall, htoken, hr']
    rfl
  · exact Lex.Ready.behind (t := [13, 10]) hready

/-- The family of headers with a number. -/
theorem says_number [Daylight] {set : Int → HttpResponse → HttpResponse} {f : Int → Metadata → Metadata} {value : Int}
    {function : HeaderFunction} (hne : name ≠ []) (hname : ∀ b ∈ name, IsChar b) (hfunction : headerFunction name = function)
    (hcall : ∀ fuel r l, function.call fuel r l = tokenHeader (fun r l => do
      let value ← l.atoiToken
      return set value r) fuel r l)
    (hset : ∀ r, (set value r).metadata = f value r.metadata ∧ (set value r).status = r.status ∧ (set value r).stage = r.stage)
    (hnumeral : Numeral w value) : Says (name ++ 58 :: 32 :: w) (f value) := by
  refine says_word hne hname hfunction hcall hnumeral.ne_nil hnumeral.chars ?_
  intro r l tail hspells
  have hatoi : l.atoiToken = .ok value := hnumeral.atoi hspells (by unfold IsDigit; decide)
  refine ⟨set value r, ?_, hset r⟩
  rw [hatoi]
  rfl

theorem isChar_name {text : String} (h : (ascii text).all fun b => present b = .char) : ∀ b ∈ ascii text, IsChar b := by
  intro b hb
  exact of_decide_eq_true (List.all_eq_true.mp h b hb)

theorem says_age [Daylight] {value : Int} (hlow : -2 ^ 31 ≤ value) (hhigh : value < 2 ^ 31) :
    Says (ascii "Age" ++ 58 :: 32 :: intText value) id := by
  have hfunction : headerFunction (ascii "Age") = .age := by decide
  exact @says_number _ _ _ (fun value r => { r with age_value := value }) (fun _ => id) value .age (by decide)
    (isChar_name (by decide)) hfunction (fun _ _ _ => rfl) (fun _ => ⟨rfl, rfl, rfl⟩) (numeral_intText hlow hhigh)

theorem says_contentLength [Daylight] {value : Int} (hlow : -2 ^ 31 ≤ value) (hhigh : value < 2 ^ 31) :
    Says (ascii "Content-Length" ++ 58 :: 32 :: intText value) fun m => { m with con_len := value } := by
  have hfunction : headerFunction (ascii "Content-Length") = .contentLength := by decide
  exact @says_number _ _ _ (fun value r => { r with con_len := value }) (fun value m => { m with con_len := value })
    value .contentLength (by decide)
    (isChar_name (by decide)) hfunction (fun _ _ _ => rfl) (fun _ => ⟨rfl, rfl, rfl⟩) (numeral_intText hlow hhigh)

theorem says_responseTime [Daylight] {value : Int} (hlow : -2 ^ 31 ≤ value) (hhigh : value < 2 ^ 31) :
    Says (ascii "Response-Time" ++ 58 :: 32 :: intText value) fun m => { m with response_time := value } := by
  have hfunction : headerFunction (ascii "Response-Time") = .responseTime := by decide
  exact @says_number _ _ _ (fun value r => { r with response_time := value }) (fun value m => { m with response_time := value })
    value .responseTime (by decide)
    (isChar_name (by decide)) hfunction (fun _ _ _ => rfl) (fun _ => ⟨rfl, rfl, rfl⟩) (numeral_intText hlow hhigh)

theorem says_requestTime [Daylight] {value : Int} (hlow : -2 ^ 31 ≤ value) (hhigh : value < 2 ^ 31) :
    Says (ascii "Request-Time" ++ 58 :: 32 :: intText value) fun m => { m with request_time := value } := by
  have hfunction : headerFunction (ascii "Request-Time") = .requestTime := by decide
  exact @says_number _ _ _ (fun value r => { r with request_time := value }) (fun value m => { m with request_time := value })
    value .requestTime (by decide)
    (isChar_name (by decide)) hfunction (fun _ _ _ => rfl) (fun _ => ⟨rfl, rfl, rfl⟩) (numeral_intText hlow hhigh)

theorem says_chunked [Daylight] : Says (ascii "Transfer-Encoding" ++ 58 :: 32 :: ascii "chunked") id := by
  have hfunction : headerFunction (ascii "Transfer-Encoding") = .te := by decide
  have hcall : ∀ fuel r l, HeaderFunction.call .te fuel r l = tokenHeader (fun r l => return { r with te := some l.token }) fuel r l :=
    fun _ _ _ => rfl
  refine says_word (by decide) (isChar_name (by decide)) hfunction hcall (by decide) (isChar_name (by decide)) ?_
  exact fun r l _ _ => ⟨{ r with te := some l.token }, rfl, rfl, rfl, rfl⟩

end Headers

/-! ## Dates -/

section Dates

variable {header : DateHeader} {fuel n : Nat} {stop top : Int} {r : HttpResponse} {l : Lex} {b c : Byte} {w rest : Bytes} {value : Int}

theorem dateToken_word (h : l.Ready fuel stop top .init (w ++ c :: rest)) (hne : w ≠ []) (hw : ∀ b ∈ w, IsChar b)
    (hc : ¬ IsChar c) :
    ∃ l', l'.Ready fuel stop top .init (c :: rest) ∧ Spells l'.mem l'.token (w ++ c :: rest) ∧ l'.toklen = w.length ∧
      ∀ next, dateToken fuel l next = next l' := by
  obtain ⟨l', hread⟩ := h.word hne hw hc
  refine ⟨l', hread.ready h, hread.word h, hread.on.toklen.trans (Nat.zero_add _), ?_⟩
  intro next
  rw [dateToken, hread.run, ok_bind, if_neg nofun]

theorem dateToken_number (h : l.Ready fuel stop top .init (w ++ c :: rest)) (hw : Numeral w value) (hc : ¬ IsChar c) :
    ∃ l', l'.Ready fuel stop top .init (c :: rest) ∧ l'.atoiToken = .ok value ∧ ∀ next, dateToken fuel l next = next l' := by
  obtain ⟨l', hready, hspells, -, htoken⟩ := dateToken_word h hw.ne_nil hw.chars hc
  exact ⟨l', hready, hw.atoi hspells (not_isDigit_of_not_isChar hc), htoken⟩

theorem dateColon_colon (h : l.Ready fuel stop top .init (58 :: rest)) :
    ∃ l', l'.Ready fuel stop top .init rest ∧ ∀ next, dateColon fuel l next = next l' := by
  obtain ⟨l', hread⟩ := h.sign (rfl : signType (present 58) = some .colon)
  refine ⟨l', hread.ready h, ?_⟩
  intro next
  rw [dateColon, hread.eat rfl, ok_bind, if_neg (by decide : (0 : Int) ≠ -1)]

theorem skipSpace_spaces (h : l.Ready fuel stop top .init (32 :: (List.replicate n 32 ++ (w ++ rest)))) (hne : w ≠ [])
    (hw : ∀ b ∈ w, IsChar b) :
    ∃ l', l'.Ready fuel stop top .init (w ++ rest) ∧ skipSpace fuel l none = .ok l' := by
  obtain ⟨b, tail, rfl⟩ := List.exists_cons_of_ne_nil hne
  obtain ⟨l', hread⟩ := h.spaces (endsGap_of_isChar (hw b List.mem_cons_self))
  refine ⟨l', hread.ready h, ?_⟩
  rw [skipSpace, hread.eat rfl]
  rfl

theorem parseTime_text {hh mm ss : Bytes} {hour min sec : Int} (hhour : Numeral hh hour) (hmin : Numeral mm min)
    (hsec : Numeral ss sec) (h : l.Ready fuel stop top .init (hh ++ 58 :: (mm ++ 58 :: (ss ++ c :: rest)))) (hc : ¬ IsChar c) :
    ∃ l', l'.Ready fuel stop top .init (c :: rest) ∧ ∀ next, parseTime fuel l next = next hour min sec l' := by
  obtain ⟨l₁, hready₁, hatoi₁, htoken₁⟩ := dateToken_number h hhour (by decide)
  obtain ⟨l₂, hready₂, hcolon₂⟩ := dateColon_colon hready₁
  obtain ⟨l₃, hready₃, hatoi₃, htoken₃⟩ := dateToken_number hready₂ hmin (by decide)
  obtain ⟨l₄, hready₄, hcolon₄⟩ := dateColon_colon hready₃
  obtain ⟨l₅, hready₅, hatoi₅, htoken₅⟩ := dateToken_number hready₄ hsec hc
  refine ⟨l₅, hready₅, ?_⟩
  intro next
  rw [parseTime, htoken₁, hatoi₁, ok_bind, hcolon₂, htoken₃, hatoi₃, ok_bind, hcolon₄, htoken₅, hatoi₅, ok_bind]

/-- A date as `asctime` writes it, with the month that `months` takes `mon` for. -/
theorem parseDate_text [Daylight] {day mon dd hh mm ss yyyy : Bytes} {month mday hour min sec year : Int} (hday : day ≠ [])
    (hdayc : ∀ b ∈ day, IsChar b) (hmon : mon.length = 3) (hmonc : ∀ b ∈ mon, IsChar b)
    (hmonths : ∀ {l : Lex} {tail : Bytes}, Spells l.mem l.token (mon ++ 32 :: tail) → months l = month)
    (hdd : Numeral dd mday) (hhour : Numeral hh hour) (hmin : Numeral mm min) (hsec : Numeral ss sec) (hyear : Numeral yyyy year)
    (h : l.Ready fuel stop top .init (day ++ 32 :: (mon ++ 32 :: (List.replicate n 32 ++ (dd ++ 32 :: (hh ++ 58 :: (mm ++ 58 ::
      (ss ++ 32 :: (yyyy ++ c :: rest)))))))))
    (hc : ¬ IsChar c) :
    ∃ l', l'.Ready fuel stop top .init (c :: rest) ∧
      parseDate header fuel l = .ok (0, some (mktime ⟨mday, month, year - 1900, hour, min, sec, Daylight.tm_isdst header⟩), l') := by
  have hmonne : mon ≠ [] := List.ne_nil_of_length_pos (by omega)
  -- the first space is missing: the word is put back
  obtain ⟨l₀, hread₀⟩ := h.word hday hdayc (by decide)
  obtain ⟨l₁, heat₁, hready₁⟩ := hread₀.eat_word h none (by decide : TokenType.token ≠ .sp)
  have hskip₁ : skipSpace fuel l none = .ok l₁ := by
    rw [skipSpace, heat₁]
    rfl
  obtain ⟨l₂, hready₂, -, -, htoken₂⟩ := dateToken_word hready₁ hday hdayc (by decide)
  obtain ⟨b, tail, hmoncons⟩ := List.exists_cons_of_ne_nil hmonne
  have hgap : EndsGap b := endsGap_of_isChar (hmonc b (hmoncons ▸ List.mem_cons_self))
  obtain ⟨l₃, hread₃⟩ := @Lex.Ready.spaces l₂ _ b fuel 0 stop top (by rw [hmoncons] at hready₂; exact hready₂) hgap
  have hready₃ := hread₃.ready (w := [32]) hready₂
  have htoken₃ : ∀ next, dateToken fuel l₂ next = next l₃ := by
    intro next
    rw [dateToken, hread₃.run, ok_bind, if_neg nofun]
  have hcomma : l₃.tokenType ≠ .comma := by
    rw [hread₃.on.tokenType]
    decide
  obtain ⟨l₄, hready₄, hspells₄, hlen₄, htoken₄⟩ := dateToken_word hready₃ hmonne hmonc (by decide)
  rw [hmon] at hlen₄
  -- the date with the month first
  obtain ⟨l₅, hready₅, hskip₅⟩ := skipSpace_spaces hready₄ hdd.ne_nil hdd.chars
  obtain ⟨l₆, hready₆, hatoi₆, htoken₆⟩ := dateToken_number hready₅ hdd (by decide)
  obtain ⟨l₇, hready₇, hskip₇⟩ := @skipSpace_spaces fuel 0 stop top l₆ _ _ hready₆ hhour.ne_nil hhour.chars
  obtain ⟨l₈, hready₈, htime₈⟩ := parseTime_text hhour hmin hsec hready₇ (by decide)
  obtain ⟨l₉, hready₉, hskip₉⟩ := @skipSpace_spaces fuel 0 stop top l₈ _ _ hready₈ hyear.ne_nil hyear.chars
  obtain ⟨l', hready, hatoi, htoken⟩ := dateToken_number hready₉ hyear hc
  refine ⟨l', hready, ?_⟩
  rw [parseDate, hskip₁, ok_bind, htoken₂, htoken₃, if_neg hcomma, ok_bind]
  beta_reduce
  rw [htoken₄, hlen₄, if_neg (by decide), if_pos rfl]
  rw [parseDate2, hmonths hspells₄, hskip₅, ok_bind, htoken₆, hatoi₆, ok_bind, hskip₇, ok_bind, htime₈, hskip₉,
    ok_bind, htoken, hatoi, ok_bind]
  rfl

/-- The month that the name of a month is taken for. -/
def readMonth (month : Nat) : Nat := if month = 5 ∨ month = 6 then 0 else month

theorem Spells.letter {k : Nat} (h : Spells l.mem l.token w) (hb : w[k]? = some b) :
    l.letter k = if 65 ≤ b.toNat ∧ b.toNat ≤ 90 then b + 32 else b := by
  rw [Lex.letter, h.byte hb]

theorem months_name {month : Nat} {tail : Bytes} (hmonth : month < 12)
    (h : Spells l.mem l.token (monthNames.getD month [] ++ 32 :: tail)) : months l = readMonth month := by
  interval_cases month
  all_goals
    have h0 := h.letter (k := 0) rfl
    have h1 := h.letter (k := 1) rfl
    have h2 := h.letter (k := 2) rfl
    have h3 := h.letter (k := 3) rfl
    rw [months, h0, h1, h2, h3]
    rfl

/-- The date that a printed date is taken for, in one of the headers. -/
def readDate [Daylight] (header : DateHeader) (t : Int) : Int :=
  mktime { (gmtime t).1 with tm_mon := readMonth (gmtime t).1.tm_mon.toNat, tm_isdst := Daylight.tm_isdst header }

theorem threeWide_eq {n : Nat} (hn : n < 100) : threeWide n = 32 :: (List.replicate (2 - (decimal n).length) 32 ++ decimal n) := by
  have hlength := @length_decimal_le n 2 (by decide) hn
  have hwidth : 3 - (decimal n).length = 2 - (decimal n).length + 1 := by omega
  change List.replicate (3 - (decimal n).length) 32 ++ decimal n = _
  rw [hwidth, List.replicate_succ]
  rfl

theorem daysBeforeMonth_nonneg (year : Int) (month : Nat) : 0 ≤ daysBeforeMonth year month := by
  apply List.sum_nonneg
  intro length hlength
  have hmem := List.mem_of_mem_take hlength
  simp only [monthLengths, List.mem_cons, List.not_mem_nil, or_false] at hmem
  split at hmem <;> omega

theorem DateOf.year_lt {t : Int} {tm : Tm} {month : Nat} (h : DateOf t tm month) (hmax : t < 2 ^ 31) :
    tm.tm_year + 1900 < 2 ^ 31 := by
  have hdays := h.days
  have hmday := h.mday
  have hmonth := daysBeforeMonth_nonneg (tm.tm_year + 1900) month
  rw [daysBeforeYear] at hdays
  omega

theorem isChar_dayNames : ∀ k < 7, dayNames.getD k [] ≠ [] ∧ ∀ b ∈ dayNames.getD k [], IsChar b := by decide

theorem isChar_monthNames : ∀ k < 12, (monthNames.getD k []).length = 3 ∧ ∀ b ∈ monthNames.getD k [], IsChar b := by decide

theorem numeral_toNat {value : Int} (hlow : 0 ≤ value) (hhigh : value < 2 ^ 31) : Numeral (decimal value.toNat) value := by
  have hnumeral := @numeral_decimal value.toNat (by omega)
  rwa [Int.toNat_of_nonneg hlow] at hnumeral

theorem numeral_two {value : Int} (hlow : 0 ≤ value) (hhigh : value < 2 ^ 31) : Numeral (twoDigits value.toNat) value := by
  have hnumeral := @numeral_twoDigits value.toNat (by omega)
  rwa [Int.toNat_of_nonneg hlow] at hnumeral

theorem asctime_append {tm : Tm × Nat} (hmday : tm.1.tm_mday.toNat < 100) (tail : Bytes) : asctime tm ++ tail =
    dayNames.getD tm.2 [] ++ 32 :: (monthNames.getD tm.1.tm_mon.toNat [] ++
      32 :: (List.replicate (2 - (decimal tm.1.tm_mday.toNat).length) 32 ++ (decimal tm.1.tm_mday.toNat ++
        32 :: (twoDigits tm.1.tm_hour.toNat ++ 58 :: (twoDigits tm.1.tm_min.toNat ++ 58 :: (twoDigits tm.1.tm_sec.toNat ++
          32 :: (decimal (tm.1.tm_year + 1900).toNat ++ tail))))))) := by
  rw [asctime, threeWide_eq hmday]
  simp only [List.append_assoc, List.cons_append, List.nil_append]
  rfl

theorem gmtime_week (t : Int) : (gmtime t).2 < 7 := by
  change ((t / 86400 + 4) % 7).toNat < 7
  omega

theorem asctime_first (t : Int) : ∃ b tail, asctime (gmtime t) = b :: tail ∧ IsChar b := by
  obtain ⟨hne, hchars⟩ := isChar_dayNames _ (gmtime_week t)
  obtain ⟨b, tail, hday⟩ := List.exists_cons_of_ne_nil hne
  have hfirst : IsChar b := hchars b (hday ▸ List.mem_cons_self)
  simp only [asctime, hday, List.append_assoc, List.cons_append]
  exact ⟨b, _, rfl, hfirst⟩

theorem parseDate_asctime [Daylight] {t : Int} (ht : 0 ≤ t) (hmax : t < 2 ^ 31)
    (h : l.Ready fuel stop top .init (asctime (gmtime t) ++ c :: rest)) (hc : ¬ IsChar c) :
    ∃ l', l'.Ready fuel stop top .init (c :: rest) ∧ parseDate header fuel l = .ok (0, some (readDate header t), l') := by
  obtain ⟨month, hdate⟩ := gmtime_date ht
  have hmon := hdate.mon
  have hmday := hdate.mday
  have hhour := hdate.hour
  have hmin := hdate.min
  have hsec := hdate.sec
  have hyear := hdate.year
  have hyearlt := hdate.year_lt hmax
  have hlt := hdate.mon_lt
  obtain ⟨hday, hdayc⟩ := isChar_dayNames _ (gmtime_week t)
  obtain ⟨hmonlen, hmonc⟩ := isChar_monthNames _ hlt
  have hmonth : (gmtime t).1.tm_mon.toNat = month := by omega
  rw [asctime_append (by omega), hmonth] at h
  obtain ⟨l', hready, hparse⟩ := parseDate_text hday hdayc hmonlen hmonc (months_name hlt)
    (numeral_toNat (by omega) (by omega)) (numeral_two hhour.1 (by omega)) (numeral_two hmin.1 (by omega))
    (numeral_two hsec.1 (by omega)) (numeral_toNat (by omega) hyearlt) h hc
  refine ⟨l', hready, ?_⟩
  rw [hparse, readDate, hmonth, Int.add_sub_cancel]

theorem plain_asctime {t : Int} (ht : 0 ≤ t) : ∀ b ∈ asctime (gmtime t), b ≠ 13 ∧ b ≠ 10 ∧ b ≠ 255 := by
  obtain ⟨month, hdate⟩ := gmtime_date ht
  have hmon := hdate.mon
  have hmday := hdate.mday
  have hlt := hdate.mon_lt
  have hmonth : (gmtime t).1.tm_mon.toNat = month := by omega
  have hdigits : ∀ {n : Nat} {b : Byte}, b ∈ decimal n → b ≠ 13 ∧ b ≠ 10 ∧ b ≠ 255 := fun hb =>
    plain_of_isChar (isChar_of_isDigit (isDigit_of_mem_decimal hb))
  have htwo : ∀ {n : Nat} {b : Byte}, b ∈ twoDigits n → b ≠ 13 ∧ b ≠ 10 ∧ b ≠ 255 := by
    intro n b hb
    rw [twoDigits] at hb
    split at hb
    · rcases List.mem_cons.mp hb with rfl | hb
      · decide
      · exact hdigits hb
    · exact hdigits hb
  intro b hb
  rw [← List.append_nil (asctime _), asctime_append (by omega), hmonth] at hb
  simp only [List.mem_append, List.mem_cons, List.mem_replicate, List.not_mem_nil, or_false] at hb
  rcases hb with hb | rfl | hb | rfl | ⟨-, rfl⟩ | hb | rfl | hb | rfl | hb | rfl | hb | rfl | hb
  · exact plain_of_isChar ((isChar_dayNames _ (gmtime_week t)).2 b hb)
  · decide
  · exact plain_of_isChar ((isChar_monthNames _ hlt).2 b hb)
  · decide
  · decide
  · exact hdigits hb
  · decide
  · exact htwo hb
  · decide
  · exact htwo hb
  · decide
  · exact htwo hb
  · decide
  · exact hdigits hb

/-- The family of headers with a date. -/
theorem says_date [Daylight] {name : Bytes} {set : HttpResponse → Option Int → HttpResponse} {badStatus : HttpResponse → HttpResponse}
    {f : Int → Metadata → Metadata} {function : HeaderFunction} {t : Int} (hne : name ≠ []) (hname : ∀ b ∈ name, IsChar b)
    (hfunction : headerFunction name = function) (hcall : ∀ fuel r l, function.call fuel r l = dateHeader header set badStatus fuel r l)
    (hset : ∀ r value, (set r (some value)).metadata = f value r.metadata ∧ (set r (some value)).status = r.status ∧
      (set r (some value)).stage = r.stage)
    (ht : 0 ≤ t) (hmax : t < 2 ^ 31) : Says (name ++ 58 :: 32 :: (asctime (gmtime t) ++ ascii " GMT")) (f (readDate header t)) := by
  have hplain := plain_asctime ht
  obtain ⟨b, tail, hcons, hb⟩ := asctime_first t
  have hb13 : b ≠ 13 := (hplain b (hcons ▸ List.mem_cons_self)).1
  refine Says.of_call hne hname ?_ ?_ ?_
  · apply lineText_of_plain
    intro b hb
    simp only [List.mem_append, List.mem_cons] at hb
    rcases hb with hb | rfl | rfl | hb | hb
    · exact plain_of_isChar (hname b hb)
    · decide
    · decide
    · exact hplain b hb
    · revert b
      decide
  · rw [hcons]
    exact value_ahead hb13
  · intro fuel stop top r l c rest h _
    rw [List.cons_append, List.append_assoc, hcons, List.cons_append] at h
    obtain ⟨l₁, hready, hcolon⟩ := @headerColon_value fuel stop top r l b _ _ h (endsGap_of_isChar hb)
    rw [← List.cons_append, ← hcons] at hready
    obtain ⟨l', hready', hparse⟩ := parseDate_asctime ht hmax hready (by decide)
    obtain ⟨hmetadata, hstatus, hstage⟩ := hset r (readDate header t)
    refine ⟨set r (some (readDate header t)), l', ?_, hmetadata, fun hgood => hstatus ▸ hgood, hstage, hready'.last, ?_⟩
    · rw [hfunction, hcall, dateHeader, hcolon, hparse, ok_bind, if_neg (by decide : (0 : Int) ≠ -1)]
      rfl
    · exact Lex.Ready.behind (t := ascii " GMT" ++ crlf) hready'

theorem says_dateHeader [Daylight] {t : Int} (ht : 0 ≤ t) (hmax : t < 2 ^ 31) :
    Says (ascii "Date" ++ 58 :: 32 :: (asctime (gmtime t) ++ ascii " GMT")) fun m => { m with response_time := readDate .date t } := by
  have hfunction : headerFunction (ascii "Date") = .date := by decide
  have hcall : ∀ fuel r l, HeaderFunction.call .date fuel r l = dateHeader .date (fun r date => { r with
      date_value := date.getD r.date_value
      response_time := date.getD r.date_value }) HttpResponse.bad fuel r l := fun _ _ _ => rfl
  exact @says_date _ _ _ _ _ (fun value m => { m with response_time := value }) _ t (by decide) (isChar_name (by decide)) hfunction hcall
    (fun _ _ => ⟨rfl, rfl, rfl⟩) ht hmax

theorem says_expires [Daylight] {t : Int} (ht : 0 ≤ t) (hmax : t < 2 ^ 31) :
    Says (ascii "Expires" ++ 58 :: 32 :: (asctime (gmtime t) ++ ascii " GMT")) fun m =>
      { m with expires_value := readDate .expires t } := by
  have hfunction : headerFunction (ascii "Expires") = .expires := by decide
  have hcall : ∀ fuel r l, HeaderFunction.call .expires fuel r l =
      dateHeader .expires (fun r date => { r with expires_value := date.getD r.expires_value }) HttpResponse.bad fuel r l :=
        fun _ _ _ => rfl
  exact @says_date _ _ _ _ _ (fun value m => { m with expires_value := value }) _ t (by decide) (isChar_name (by decide)) hfunction hcall
    (fun _ _ => ⟨rfl, rfl, rfl⟩) ht hmax

theorem says_lastModified [Daylight] {t : Int} (ht : 0 ≤ t) (hmax : t < 2 ^ 31) :
    Says (ascii "Last-Modified" ++ 58 :: 32 :: (asctime (gmtime t) ++ ascii " GMT")) fun m =>
      { m with last_modified := readDate .lastModified t } := by
  have hfunction : headerFunction (ascii "Last-Modified") = .lastModified := by decide
  have hcall : ∀ fuel r l, HeaderFunction.call .lastModified fuel r l =
      dateHeader .lastModified (fun r date => { r with last_modified := date.getD r.last_modified }) id fuel r l := fun _ _ _ => rfl
  exact @says_date _ _ _ _ _ (fun value m => { m with last_modified := value }) _ t (by decide) (isChar_name (by decide)) hfunction hcall
    (fun _ _ => ⟨rfl, rfl, rfl⟩) ht hmax

end Dates

/-! ## Cache-Control -/

section CacheControl

variable {fuel rounds : Nat} {stop top : Int} {r : HttpResponse} {l : Lex} {b c : Byte} {name w text rest : Bytes}
  {set : CacheControlResponse → CacheControlResponse}

/-- The text of a directive: the loop stores it in one round. -/
structure Directs (text : Bytes) (set : CacheControlResponse → CacheControlResponse) : Prop where
  first : ∃ b tail, text = b :: tail ∧ IsChar b
  plain : ∀ b ∈ text, b ≠ 13 ∧ b ≠ 10 ∧ b ≠ 255
  loop : ∀ {fuel rounds : Nat} {stop top : Int} {r : HttpResponse} {l : Lex} {c : Byte} {rest : Bytes},
    l.Ready fuel stop top .init (text ++ c :: rest) → ¬ IsChar c →
    ∃ l', l'.Ready fuel stop top .init (c :: rest) ∧
      cacheControlLoop fuel (rounds + 1) r l = cacheControlLoop fuel rounds (r.setCC set) l'

theorem cacheControlLoop_word {directive : Directive} (h : l.Ready fuel stop top .init (name ++ c :: rest)) (hne : name ≠ [])
    (hname : ∀ b ∈ name, IsChar b) (hc : ¬ IsChar c) (hlookup : ccTab.lookup name = some directive) :
    ∃ l', l'.Ready fuel stop top .init (c :: rest) ∧
      (∀ set, directive.flag = some set →
        cacheControlLoop fuel (rounds + 1) r l = cacheControlLoop fuel rounds (r.setCC set) l') ∧
      ∀ field, directive.flag = none → directive.field = some field →
        cacheControlLoop fuel (rounds + 1) r l = directiveValue fuel r l' field (cacheControlLoop fuel rounds) := by
  obtain ⟨l', hread⟩ := h.word hne hname hc
  have htype : l'.tokenType = .token := hread.on.tokenType
  have hbytes : l'.tokenBytes = name := by
    have htoklen : l'.toklen = name.length := hread.on.toklen.trans (Nat.zero_add _)
    rw [Lex.tokenBytes, htoklen]
    exact (hread.word h).map_range
  refine ⟨l', hread.ready h, ?_, ?_⟩
  · intro set hflag
    rw [cacheControlLoop, hread.run, ok_bind, if_neg nofun]
    simp only [htype, reduceCtorEq, or_self, if_false, hbytes, hlookup, hflag]
  · intro field hflag hfield
    rw [cacheControlLoop, hread.run, ok_bind, if_neg nofun]
    simp only [htype, reduceCtorEq, or_self, if_false, hbytes, hlookup, hflag, hfield]

theorem directs_flag {directive : Directive} (hne : name ≠ []) (hname : ∀ b ∈ name, IsChar b)
    (hlookup : ccTab.lookup name = some directive) (hflag : directive.flag = some set) : Directs name set := by
  refine ⟨?_, fun b hb => plain_of_isChar (hname b hb), ?_⟩
  · obtain ⟨b, tail, rfl⟩ := List.exists_cons_of_ne_nil hne
    exact ⟨b, tail, rfl, hname b List.mem_cons_self⟩
  · intro fuel rounds stop top r l c rest h hc
    obtain ⟨l', hready, hloop, -⟩ := @cacheControlLoop_word fuel rounds stop top r l c name rest directive h hne hname hc hlookup
    exact ⟨l', hready, hloop set hflag⟩

theorem directs_value {directive : Directive} {field : Int → CacheControlResponse → CacheControlResponse} {value : Int}
    (hne : name ≠ []) (hname : ∀ b ∈ name, IsChar b) (hlookup : ccTab.lookup name = some directive) (hflag : directive.flag = none)
    (hfield : directive.field = some field) (hnumeral : Numeral w value) : Directs (name ++ 61 :: w) (field value) := by
  refine ⟨?_, ?_, ?_⟩
  · obtain ⟨b, tail, rfl⟩ := List.exists_cons_of_ne_nil hne
    exact ⟨b, tail ++ 61 :: w, rfl, hname b List.mem_cons_self⟩
  · intro b hb
    simp only [List.mem_append, List.mem_cons] at hb
    rcases hb with hb | rfl | hb
    · exact plain_of_isChar (hname b hb)
    · decide
    · exact plain_of_isChar (hnumeral.chars b hb)
  · intro fuel rounds stop top r l c rest h hc
    rw [List.append_assoc, List.cons_append] at h
    obtain ⟨l₁, hready₁, -, hloop⟩ := @cacheControlLoop_word fuel rounds stop top r l 61 name _ directive h hne hname (by decide) hlookup
    obtain ⟨l₂, hsign⟩ := hready₁.sign (rfl : signType (present 61) = some .equals)
    have hready₂ := hsign.ready (w := [61]) hready₁
    obtain ⟨l', hread⟩ := hready₂.word hnumeral.ne_nil hnumeral.chars hc
    have hatoi : l'.atoiToken = .ok value := hnumeral.atoi (hread.word hready₂) (not_isDigit_of_not_isChar hc)
    refine ⟨l', hread.ready hready₂, ?_⟩
    rw [hloop field hflag hfield, directiveValue, hsign.run, ok_bind, if_neg nofun, if_neg (not_not.mpr hsign.on.tokenType),
      hread.run, ok_bind,
      if_neg nofun, if_neg (not_not.mpr hread.on.tokenType), hatoi, ok_bind]

theorem cacheControlLoop_skip {type : TokenType} {l' : Lex} (hread : l.Reads fuel w type .init l') (htype : type = .comma ∨ type = .sp) :
    cacheControlLoop fuel (rounds + 1) r l = cacheControlLoop fuel rounds r l' := by
  have htoken : l'.tokenType = .lws ∨ l'.tokenType = .comma ∨ l'.tokenType = .sp := by
    rw [hread.on.tokenType]
    exact .inr htype
  rw [cacheControlLoop, hread.run, ok_bind, if_neg nofun, if_pos htoken]

/-- What the directives that are left make of the cache control. -/
def applyDirectives (directives : List (Bytes × (CacheControlResponse → CacheControlResponse))) (cc : CacheControlResponse) :
    CacheControlResponse :=
  directives.foldl (fun cc directive => directive.2 cc) cc

theorem exists_stop (directives : List (Bytes × (CacheControlResponse → CacheControlResponse))) (rest : Bytes) :
    ∃ b tail, (directives.flatMap fun directive => 44 :: directive.1) ++ (crlf ++ rest) = b :: tail ∧ ¬ IsChar b := by
  cases directives with
  | nil => exact ⟨13, _, rfl, by decide⟩
  | cons directive directives => exact ⟨44, _, rfl, by decide⟩

theorem cacheControlLoop_rest {directives : List (Bytes × (CacheControlResponse → CacheControlResponse))} {cc : CacheControlResponse}
    (hall : ∀ directive ∈ directives, Directs directive.1 directive.2)
    (h : l.Ready fuel stop top .init ((directives.flatMap fun directive => 44 :: directive.1) ++ (crlf ++ c :: rest)))
    (hc : StartsLine c) (hrounds : 2 * directives.length < rounds) (hcc : r.cc = some cc) :
    ∃ l', Spells l'.mem (stop - (c :: rest).length) (c :: rest) ∧ l'.last = top ∧ cacheControlLoop fuel rounds r l =
      .ok (0, { r with cc := some (applyDirectives directives cc), status := .comeBack }, l') := by
  induction directives generalizing l r cc rounds with
  | nil =>
      obtain ⟨rounds, rfl⟩ := Nat.exists_eq_add_one.mpr hrounds.pos
      obtain ⟨l', hread⟩ := h.line_end hc
      have hready := hread.ready h
      have htype : l'.tokenType = .crlf := hread.on.tokenType
      have hspells := Lex.Ready.behind (t := []) hready
      refine ⟨{ l' with state := .none, start := .line }, hspells, hready.last, ?_⟩
      rw [cacheControlLoop, hread.run, ok_bind, if_neg nofun]
      simp only [htype, reduceCtorEq, or_self, if_false, if_true]
      cases r
      cases hcc
      rfl
  | cons directive directives ih =>
      rw [List.length_cons] at hrounds
      obtain ⟨rounds, rfl⟩ : ∃ less, rounds = less + 1 + 1 := ⟨rounds - 2, by omega⟩
      rw [List.flatMap_cons, List.append_assoc, List.cons_append] at h
      obtain ⟨l₁, hcomma⟩ := h.sign (rfl : signType (present 44) = some .comma)
      have hready₁ := hcomma.ready (w := [44]) h
      have hdirect := hall directive List.mem_cons_self
      obtain ⟨b, tail, htail, hb⟩ := exists_stop directives (c :: rest)
      rw [htail] at hready₁
      obtain ⟨l₂, hready₂, hloop⟩ := @Directs.loop _ _ hdirect fuel rounds stop top r l₁ b tail hready₁ hb
      rw [← htail] at hready₂
      have hcc' : (r.setCC directive.2).cc = some (directive.2 cc) := by
        rw [HttpResponse.setCC, hcc]
        rfl
      obtain ⟨l', hspells, hlast, hresult⟩ := ih (fun d hd => hall d (List.mem_cons_of_mem _ hd)) hready₂
        (by omega : 2 * directives.length < rounds) hcc'
      refine ⟨l', hspells, hlast, ?_⟩
      rw [cacheControlLoop_skip hcomma (.inl rfl), hloop, hresult]
      rfl

theorem two_mul_length_le {directives : List (Bytes × (CacheControlResponse → CacheControlResponse))}
    (hall : ∀ directive ∈ directives, Directs directive.1 directive.2) :
    2 * directives.length ≤ (directives.flatMap fun directive => 44 :: directive.1).length := by
  induction directives with
  | nil => exact Nat.zero_le _
  | cons directive directives ih =>
      obtain ⟨b, tail, htext, -⟩ := (hall directive List.mem_cons_self).first
      have hrest := ih fun d hd => hall d (List.mem_cons_of_mem _ hd)
      rw [List.flatMap_cons, List.length_append, htext]
      simp only [List.length_cons]
      omega

theorem headerFunction_cacheControl : headerFunction (ascii "Cache-Control") = .cacheControl := by decide

theorem says_noDirectives [Daylight] : Says (ascii "Cache-Control" ++ [58]) fun m => { m with cc := some absentCacheControl } := by
  refine Says.of_call (by decide) (isChar_name (by decide)) ?_ ?_ ?_
  · exact lineText_of_plain (by decide)
  · intro tail heq
    cases heq
  · intro fuel stop top r l c rest h hc
    have hfuel := h.enough
    obtain ⟨l₁, hcolon⟩ := h.sign (rfl : signType (present 58) = some .colon)
    have hready := hcolon.ready (w := [58]) h
    obtain ⟨l', hspells, hlast, hloop⟩ := @cacheControlLoop_rest fuel fuel stop top { r with cc := some absentCacheControl } l₁ c rest
      [] absentCacheControl nofun hready hc (by rw [List.length_nil]; omega) rfl
    refine ⟨{ r with cc := some absentCacheControl, status := .comeBack }, l', ?_, rfl, fun _ => nofun, rfl, hlast, hspells⟩
    rw [headerFunction_cacheControl]
    change parseResponseCacheControl fuel r l = _
    rw [parseResponseCacheControl, hcolon.eat rfl, ok_bind, if_neg (by decide : (0 : Int) ≠ -1)]
    exact hloop

theorem says_directives [Daylight] {directive : Bytes × (CacheControlResponse → CacheControlResponse)}
    {directives : List (Bytes × (CacheControlResponse → CacheControlResponse))}
    (hall : ∀ d ∈ directive :: directives, Directs d.1 d.2) :
    Says (ascii "Cache-Control" ++ 58 :: 32 :: (directive.1 ++ directives.flatMap fun directive => 44 :: directive.1))
      fun m => { m with cc := some (applyDirectives (directive :: directives) absentCacheControl) } := by
  have hdirect := hall directive List.mem_cons_self
  obtain ⟨b, tail, htext, hb⟩ := hdirect.first
  refine Says.of_call (by decide) (isChar_name (by decide)) ?_ ?_ ?_
  · apply lineText_of_plain
    intro b hb
    simp only [List.mem_append, List.mem_cons, List.mem_flatMap] at hb
    rcases hb with hb | rfl | rfl | hb | ⟨d, hd, rfl | hb⟩
    · exact plain_of_isChar (isChar_name (by decide) b hb)
    · decide
    · decide
    · exact hdirect.plain b hb
    · decide
    · exact (hall d (List.mem_cons_of_mem _ hd)).plain b hb
  · rw [htext]
    exact value_ahead (plain_of_isChar hb).1
  · intro fuel stop top r l c rest h hc
    rw [List.cons_append, List.append_assoc] at h
    have hlength := two_mul_length_le fun d hd => hall d (List.mem_cons_of_mem _ hd)
    have hfuel := h.enough
    simp only [List.length_cons, List.length_append] at hfuel
    obtain ⟨l₁, hcolon⟩ := h.sign (rfl : signType (present 58) = some .colon)
    have hready₁ := hcolon.ready (w := [58]) h
    have hready₁' := hready₁
    rw [htext, List.cons_append] at hready₁'
    obtain ⟨l₂, hspace⟩ := @Lex.Ready.spaces l₁ _ b fuel 0 stop top hready₁' (endsGap_of_isChar hb)
    have hready₂ := hspace.ready (w := [32]) hready₁
    obtain ⟨b', tail', htail, hb'⟩ := exists_stop directives (c :: rest)
    rw [htail] at hready₂
    obtain ⟨rounds, rfl⟩ : ∃ less, fuel = less + 1 + 1 := ⟨fuel - 2, by omega⟩
    obtain ⟨l₃, hready₃, hloop₃⟩ := @Directs.loop _ _ hdirect (rounds + 1 + 1) rounds stop top
      { r with cc := some absentCacheControl } l₂ b' tail' hready₂ hb'
    rw [← htail] at hready₃
    obtain ⟨l', hspells, hlast, hloop⟩ := cacheControlLoop_rest (fun d hd => hall d (List.mem_cons_of_mem _ hd)) hready₃ hc
      (by omega : 2 * directives.length < rounds)
      (rfl : (HttpResponse.setCC { r with cc := some absentCacheControl } directive.2).cc = some (directive.2 absentCacheControl))
    refine ⟨{ r with cc := some (applyDirectives (directive :: directives) absentCacheControl), status := .comeBack }, l', ?_, rfl,
      fun _ => nofun, rfl, hlast, hspells⟩
    rw [headerFunction_cacheControl]
    change parseResponseCacheControl (rounds + 1 + 1) r l = _
    rw [parseResponseCacheControl, hcolon.eat rfl, ok_bind, if_neg (by decide : (0 : Int) ≠ -1),
      cacheControlLoop_skip hspace (.inr rfl), hloop₃]
    exact hloop

end CacheControl

end BeagleCache
