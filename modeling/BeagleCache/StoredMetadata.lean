import BeagleCache.StoredLines

/-! A response is stored with the header that `formWriteHeader` writes, and read back with `parseResponse`. What is known of it
afterwards is compared with what was known before. -/

namespace BeagleCache

open Run

/-! ## Headers that were kept -/

section Kept

variable {fuel i : Nat} {stop top src : Int} {r : HttpResponse} {l : Lex} {b c : Byte} {mem : Int → Byte}
  {name line w rest dest : Bytes}

/-- A header that the parser does not take apart: of a name it does not know, a content type, or with an empty value. -/
structure KeptLine (line : Bytes) : Prop where
  text : LineText line
  parts : ∃ name w, line = name ++ w ∧ name ≠ [] ∧ (∀ b ∈ name, IsChar b) ∧ (∀ b, w.head? = some b → ¬ IsChar b) ∧
    (headerFunction name = .unknown ∨ headerFunction name = .contentType ∨ w = [58, 32])

theorem says_kept [Daylight] (h : KeptLine line) : Says line id := by
  obtain ⟨name, w, rfl, hne, hname, hw, hkind⟩ := h.parts
  refine ⟨?_, h.text, ?_⟩
  · obtain ⟨b, tail, rfl⟩ := List.exists_cons_of_ne_nil hne
    exact ⟨b, tail ++ w, rfl, hname b List.mem_cons_self⟩
  · intro fuel stop top r l c rest hready _
    rw [List.append_assoc] at hready
    have hstop : ∃ b tail, w ++ (crlf ++ c :: rest) = b :: tail ∧ ¬ IsChar b := by
      cases w with
      | nil => exact ⟨13, _, rfl, not_isChar_creturn⟩
      | cons b w => exact ⟨b, _, rfl, hw b rfl⟩
    obtain ⟨b, tail, htail, hb⟩ := hstop
    rw [htail] at hready
    obtain ⟨l', hread⟩ := hready.word hne hname hb
    have hready' := hread.ready hready
    have hbytes : l'.tokenBytes = name := by
      have htoklen : l'.toklen = name.length := hread.on.toklen.trans (Nat.zero_add _)
      rw [Lex.tokenBytes, htoklen]
      exact (hread.word hready).map_range
    rw [← htail] at hready'
    have hspells : Spells l'.mem (stop - (c :: rest).length) (c :: rest) := by
      rw [← List.append_assoc] at hready'
      exact Lex.Ready.behind (t := w ++ crlf) hready'
    have hkeep : ∀ r', r'.metadata = r.metadata → r'.status = r.status → r'.stage = r.stage →
        Stored stop top r r' l' id (c :: rest) := fun r' hmetadata hstatus hstage =>
      ⟨hmetadata, fun hgood => hstatus ▸ hgood, hstage, hready'.last, hspells⟩
    have hparse : parseHTTPHeader fuel r l = if l'.ahead [58, 32, 13, 10] then .ok (0, parseUnknownResponseHeader r l', l') else do
        let result ← (headerFunction name).call fuel r l'
        if result.1 = -1 then return (-1, result.2.1.bad, result.2.2) else return (0, result.2) := by
      rw [parseHTTPHeader, hread.run, ok_bind, if_neg (fun h => by cases h), if_neg (not_not.mpr hread.on.tokenType), hbytes]
      rfl
    by_cases hahead : l'.ahead [58, 32, 13, 10]
    · refine ⟨parseUnknownResponseHeader r l', l', ?_, hkeep _ rfl rfl rfl⟩
      rw [hparse, if_pos hahead]
    · rcases hkind with hunknown | htype | hempty
      · refine ⟨parseUnknownResponseHeader r l', l', ?_, hkeep _ rfl rfl rfl⟩
        rw [hparse, if_neg hahead, hunknown]
        rfl
      · refine ⟨parseResponseContentType r l', l', ?_, hkeep _ rfl rfl rfl⟩
        rw [hparse, if_neg hahead, htype]
        rfl
      · exfalso
        apply hahead
        rw [hempty] at hready'
        rw [Lex.ahead, hready'.spells.startsWith (by simp [crlf])]
        rfl

theorem hdrCpy_line (hline : LineText line) (h : Spells mem (src + i) (line ++ (crlf ++ c :: rest))) (hc : c ≠ 32 ∧ c ≠ 9)
    (hi : i + line.length ≤ 3000) (hfuel : line.length < fuel) : hdrCpy mem src fuel i dest = .ok (some (dest ++ line)) := by
  induction hline generalizing fuel i dest with
  | nil =>
      obtain ⟨fuel, rfl⟩ := Nat.exists_eq_add_one.mpr hfuel.pos
      have h0 : mem (src + i) = 13 := h.first
      have h1 : mem (src + i + 1) = 10 := h.byte (k := 1) rfl
      have h2 : mem (src + i + 2) = c := h.byte (k := 2) rfl
      rw [hdrCpy, h0, h1, h2]
      simp only
      rw [if_neg (by decide), if_pos trivial, if_neg (not_or.mpr hc), List.append_nil]
  | @byte b line hcr hlf heof _ ih =>
      obtain ⟨fuel, rfl⟩ := Nat.exists_eq_add_one.mpr hfuel.pos
      have h0 : mem (src + i) = b := h.first
      rw [List.length_cons] at hi hfuel
      have hrest : Spells mem (src + (i + 1 : Nat)) (line ++ (crlf ++ c :: rest)) := by
        have hright := Spells.right (w := [b]) h
        rwa [List.length_singleton, add_assoc, ← Nat.cast_add] at hright
      have hcopy := @ih fuel (i + 1) (dest ++ [b]) hrest (by omega) (by omega)
      rw [hdrCpy, h0]
      simp only
      rw [if_pos hcr, if_neg (by omega), hcopy, List.append_assoc]
      rfl
  | @fold b line hb _ ih =>
      obtain ⟨fuel, rfl⟩ := Nat.exists_eq_add_one.mpr hfuel.pos
      have h0 : mem (src + i) = 13 := h.first
      have h1 : mem (src + i + 1) = 10 := h.byte (k := 1) rfl
      have h2 : mem (src + i + 2) = b := h.byte (k := 2) rfl
      simp only [List.length_cons] at hi hfuel
      have hrest : Spells mem (src + (i + 3 : Nat)) (line ++ (crlf ++ c :: rest)) := by
        have hright := Spells.right (w := [13, 10, b]) h
        rwa [add_assoc, ← Nat.cast_add] at hright
      have hcopy := @ih fuel (i + 3) (dest ++ [13, 10, b]) hrest (by omega) (by omega)
      rw [hdrCpy, h0, h1, h2]
      simp only
      rw [if_neg (by decide), if_pos trivial, if_pos hb, hcopy, List.append_assoc]
      rfl

end Kept

/-! ## The lines that are written -/

/-- What a line of the header says. -/
abbrev Line := Bytes × (Metadata → Metadata)

/-- A value of the C type `int`. -/
def FitsInt (n : Int) : Prop := -2 ^ 31 ≤ n ∧ n < 2 ^ 31

instance (n : Int) : Decidable (FitsInt n) := inferInstanceAs (Decidable (_ ∧ _))

/-- The directives that `formDirectives` writes. -/
def writtenDirectives (cc : CacheControlResponse) : List (Bytes × (CacheControlResponse → CacheControlResponse)) :=
  (if cc.ccPrivate then [(ascii "private", fun cc => { cc with ccPrivate := true })] else []) ++
  (if cc.ccPublic then [(ascii "public", fun cc => { cc with ccPublic := true })] else []) ++
  (if 0 < cc.max_age then [(ascii "max-age" ++ 61 :: intText cc.max_age, fun c => { c with max_age := cc.max_age })] else []) ++
  (if 0 < cc.s_maxage then [(ascii "s-maxage" ++ 61 :: intText cc.s_maxage, fun c => { c with s_maxage := cc.s_maxage })] else []) ++
  (if cc.no_cache then [(ascii "no-cache", fun cc => { cc with no_cache := true })] else []) ++
  (if cc.no_store then [(ascii "no-store", fun cc => { cc with no_store := true })] else []) ++
  (if cc.no_transform then [(ascii "no-transform", fun cc => { cc with no_transform := true })] else []) ++
  (if cc.must_revalidate then [(ascii "must-revalidate", fun cc => { cc with must_revalidate := true })] else []) ++
  (if cc.proxy_revalidate then [(ascii "proxy-revalidate", fun cc => { cc with proxy_revalidate := true })] else [])

section Directives

variable {cc : CacheControlResponse} {α β : Type} {p : Prop} [Decidable p]

theorem flatMap_ite {a : α} {f : α → List β} : (if p then [a] else []).flatMap f = if p then f a else [] := by
  split
  · exact List.flatMap_singleton f a
  · rfl

theorem forall_mem_append {P : α → Prop} {as bs : List α} (has : ∀ a ∈ as, P a) (hbs : ∀ a ∈ bs, P a) : ∀ a ∈ as ++ bs, P a := by
  intro a ha
  rcases List.mem_append.mp ha with ha | ha
  · exact has a ha
  · exact hbs a ha

theorem forall_mem_ite {P : α → Prop} {a : α} (h : p → P a) : ∀ b ∈ (if p then [a] else []), P b := by
  intro b hb
  split at hb
  · rename_i hp
    rw [List.mem_singleton.mp hb]
    exact h hp
  · cases hb

theorem formDirectives_eq (cc : CacheControlResponse) :
    formDirectives cc = (writtenDirectives cc).flatMap fun directive => directive.1 ++ [44] := by
  simp only [formDirectives, writtenDirectives, List.flatMap_append, flatMap_ite, List.append_assoc]
  rfl

theorem directs_written (hage : FitsInt cc.max_age) (hshared : FitsInt cc.s_maxage) :
    ∀ directive ∈ writtenDirectives cc, Directs directive.1 directive.2 := by
  have hflag : ∀ {text : String} {directive : Directive} {set : CacheControlResponse → CacheControlResponse},
      (ascii text ≠ []) → ((ascii text).all fun b => present b = .char) → ccTab.lookup (ascii text) = some directive →
      directive.flag = some set → Directs (ascii text) set := fun hne hchars => directs_flag hne (isChar_name hchars)
  repeat' apply forall_mem_append
  all_goals apply forall_mem_ite; intro _
  · exact hflag (by decide) (by decide) (by decide : _ = some Directive.ccPrivate) rfl
  · exact hflag (by decide) (by decide) (by decide : _ = some Directive.ccPublic) rfl
  · exact @directs_value _ _ .maxAge _ _ (by decide) (isChar_name (by decide)) (by decide) rfl rfl
      (numeral_intText hage.1 hage.2)
  · exact @directs_value _ _ .sMaxage _ _ (by decide) (isChar_name (by decide)) (by decide) rfl rfl
      (numeral_intText hshared.1 hshared.2)
  · exact hflag (by decide) (by decide) (by decide : _ = some Directive.noCache) rfl
  · exact hflag (by decide) (by decide) (by decide : _ = some Directive.noStore) rfl
  · exact hflag (by decide) (by decide) (by decide : _ = some Directive.noTransform) rfl
  · exact hflag (by decide) (by decide) (by decide : _ = some Directive.mustRevalidate) rfl
  · exact hflag (by decide) (by decide) (by decide : _ = some Directive.proxyRevalidate) rfl

theorem foldl_ite {f : β → α → β} {a : α} {init : β} :
    (if p then [a] else []).foldl f init = if p then f init a else init := by
  split <;> rfl

/-- What the directives that are written say. -/
def readDirectives (cc : CacheControlResponse) : CacheControlResponse :=
  { cc with
    max_age := if 0 < cc.max_age then cc.max_age else -1
    s_maxage := if 0 < cc.s_maxage then cc.s_maxage else -1 }

theorem applyDirectives_written (cc : CacheControlResponse) :
    applyDirectives (writtenDirectives cc) absentCacheControl = readDirectives cc := by
  simp only [applyDirectives, writtenDirectives, List.foldl_append, foldl_ite]
  ext
  all_goals
    simp only [apply_ite CacheControlResponse.ccPublic, apply_ite CacheControlResponse.ccPrivate,
      apply_ite CacheControlResponse.no_cache, apply_ite CacheControlResponse.no_store,
      apply_ite CacheControlResponse.no_transform, apply_ite CacheControlResponse.must_revalidate,
      apply_ite CacheControlResponse.proxy_revalidate, apply_ite CacheControlResponse.max_age,
      apply_ite CacheControlResponse.s_maxage, ite_self]
    simp [readDirectives, absentCacheControl]

/-- The comma goes from the end of a directive to the start of the next. -/
theorem flatMap_comma (directive : Bytes × (CacheControlResponse → CacheControlResponse))
    (directives : List (Bytes × (CacheControlResponse → CacheControlResponse))) :
    ((directive :: directives).flatMap fun directive => directive.1 ++ [44]) =
      (directive.1 ++ directives.flatMap fun directive => 44 :: directive.1) ++ [44] := by
  induction directives generalizing directive with
  | nil =>
      rw [List.flatMap_cons, List.flatMap_nil, List.flatMap_nil, List.append_nil, List.append_nil]
  | cons next directives ih =>
      rw [List.flatMap_cons, ih next, List.flatMap_cons]
      simp only [List.append_assoc, List.cons_append, List.nil_append]

/-- The line with the directives. -/
def controlLine (cc : CacheControlResponse) : Bytes := (ascii "Cache-Control: " ++ formDirectives cc).dropLast

theorem says_control [Daylight] (hage : FitsInt cc.max_age) (hshared : FitsInt cc.s_maxage) :
    Says (controlLine cc) fun m => { m with cc := some (readDirectives cc) } := by
  have hdirects := directs_written hage hshared
  have hname : ascii "Cache-Control: " = ascii "Cache-Control" ++ [58, 32] := by decide
  rw [← applyDirectives_written, controlLine, formDirectives_eq, hname]
  cases hwritten : writtenDirectives cc with
  | nil =>
      have hline : (ascii "Cache-Control" ++ [58, 32] ++ (List.nil : Bytes)).dropLast = ascii "Cache-Control" ++ [58] := by decide
      rw [List.flatMap_nil, hline]
      exact says_noDirectives
  | cons directive directives =>
      rw [hwritten] at hdirects
      rw [flatMap_comma, ← List.append_assoc, List.dropLast_concat, List.append_assoc]
      exact says_directives hdirects

end Directives

/-! ## The status line -/

section StatusLine

variable {fuel : Nat} {stop top code : Int} {r : HttpResponse} {l : Lex} {c : Byte} {message line rest w : Bytes}

/-- `HTTP/1.0`, the code and the message. -/
def statusLine (code : Int) (message : Bytes) : Bytes := ascii "HTTP/1.0" ++ 32 :: (intText code ++ 32 :: message)

theorem lineText_append (hw : ∀ b ∈ w, b ≠ 13 ∧ b ≠ 10 ∧ b ≠ 255) (hline : LineText line) : LineText (w ++ line) := by
  induction w with
  | nil => exact hline
  | cons b w ih =>
      obtain ⟨hcr, hlf, heof⟩ := hw b List.mem_cons_self
      exact .byte hcr hlf heof (ih fun b hb => hw b (List.mem_cons_of_mem _ hb))

theorem isRaw_of_isChar {b : Byte} (h : IsChar b) : IsRaw b := by
  revert b
  decide

theorem lineText_statusLine (hcode : FitsInt code) (hmessage : LineText message) : LineText (statusLine code message) := by
  have hnumber := (numeral_intText hcode.1 hcode.2).chars
  have hword : LineText (intText code ++ 32 :: message) :=
    lineText_append (fun b hb => plain_of_isChar (hnumber b hb)) (.byte (by decide) (by decide) (by decide) hmessage)
  exact lineText_append (by decide) (.byte (by decide) (by decide) (by decide) hword)

/-- The message is the rest of the line; its end is marked over the carriage return. -/
theorem parseMessage_line (h : l.Ready fuel stop top .raw (message ++ (crlf ++ c :: rest))) (hmessage : LineText message)
    (hc : StartsLine c) :
    ∃ r' l', parseMessage fuel r l = .ok (0, r', l') ∧ r'.metadata = r.metadata ∧ r'.status = .goodResponseLine ∧
      l'.last = top ∧ Spells l'.mem (stop - (c :: rest).length) (c :: rest) := by
  have hheader : Lex.Ready fuel stop top .header { l with state := .none, start := .header } (message ++ (crlf ++ c :: rest)) :=
    ⟨rfl, rfl, h.spells, h.ends, h.fits, h.last, h.cursor, h.fuel⟩
  obtain ⟨l', hread⟩ := hheader.first_line hmessage hc
  rw [← List.append_assoc] at hheader
  have hready := hread.ready hheader
  have hbehind := Lex.Ready.behind (t := []) hready
  refine ⟨{ r with message := l'.token, status := .goodResponseLine },
    { l' with state := .none, start := .line, mem := Function.update l'.mem (l'.token + l'.toklen - 2) 0 }, ?_, rfl, rfl, hready.last, ?_⟩
  · rw [parseMessage, hread.run, ok_bind, if_neg nofun]
    rfl
  · apply hbehind.congr
    intro pos hpos
    have hends := hready.ends
    have htoken : l'.token = l.buf + l.processed := hread.on.token
    have htoklen : l'.toklen = (message ++ crlf).length := hread.on.toklen.trans (Nat.zero_add _)
    have hprocessed : l'.processed = l.processed + (message ++ crlf).length := hread.on.processed
    have hbuf : l'.buf = l.buf := hread.on.buf
    exact Function.update_of_ne (by omega) _ _

theorem parseResponseLine_status (hcode : FitsInt code) (hmessage : LineText message) (hc : StartsLine c)
    (h : l.Ready fuel stop top .raw (statusLine code message ++ (crlf ++ c :: rest))) :
    ∃ r' l', parseResponseLine fuel r l = .ok (0, r', l') ∧ r'.metadata = { r.metadata with code := code } ∧
      r'.status = .goodResponseLine ∧ l'.last = top ∧ Spells l'.mem (stop - (c :: rest).length) (c :: rest) := by
  have hnumeral := numeral_intText hcode.1 hcode.2
  rw [statusLine, List.append_assoc, List.cons_append, List.append_assoc, List.cons_append] at h
  obtain ⟨l₁, hread₁⟩ := h.raw_word (by decide) (by decide)
  have hready₁ := hread₁.ready h
  have hspells₁ := hread₁.word h
  have hversion : responseVersion l₁ = some (1, 0) := by
    have hnew : startsWith l₁.mem l₁.token (ascii "HTTP/1.1") = false := by
      rw [hspells₁.left.startsWith (by decide)]
      decide
    have hold : startsWith l₁.mem l₁.token (ascii "HTTP/1.0") = true := by
      rw [hspells₁.left.startsWith (by decide)]
      decide
    rw [responseVersion, hnew, hold]
    rfl
  obtain ⟨l₂, hread₂⟩ := hready₁.raw_space
  have hready₂ := hread₂.ready (w := [32]) hready₁
  obtain ⟨l₃, hread₃⟩ := hready₂.raw_word hnumeral.ne_nil fun b hb => isRaw_of_isChar (hnumeral.chars b hb)
  have hready₃ := hread₃.ready hready₂
  have hatoi : l₃.atoiToken = .ok code := hnumeral.atoi (hread₃.word hready₂) (by unfold IsDigit; decide)
  obtain ⟨l₄, hread₄⟩ := hready₃.raw_space
  have hready₄ := hread₄.ready (w := [32]) hready₃
  obtain ⟨r', l', hparse, hmetadata, hstatus, hlast, hspells⟩ :=
    @parseMessage_line fuel stop top { r with majVersion := 1, minVersion := 0, code := code } l₄ c message rest hready₄ hmessage hc
  refine ⟨r', l', ?_, hmetadata, hstatus, hlast, hspells⟩
  rw [parseResponseLine, hread₁.run, ok_bind, if_neg nofun, hversion]
  simp only
  rw [hread₂.eat rfl, ok_bind, if_neg (by decide : (0 : Int) ≠ -1), hread₃.run, ok_bind, if_neg nofun,
    if_neg (not_not.mpr hread₃.on.tokenType), hatoi, ok_bind, hread₄.eat rfl, ok_bind,
    if_neg (by decide : (0 : Int) ≠ -1)]
  exact hparse

end StatusLine

/-! ## The whole header -/

section Header

variable {fuel rounds : Nat} {stop top code : Int} {r : HttpResponse} {l l' sub : Lex} {b c : Byte} {message line rest w : Bytes}
  {start : Start} {stream : Bool} {f : Metadata → Metadata}

theorem Lex.Reads.enter (hread : l.Reads fuel w .token .line l') (h : l.Ready fuel stop top start (w ++ rest)) (next : Start) :
    (l'.enter next).Ready fuel stop top next (w ++ rest) := by
  have htoken : l'.token = l.buf + l.processed := hread.on.token
  have hlast : l'.last = l.last := hread.on.last
  have hends := h.ends
  have hfits := h.fits
  have hcursor := h.cursor
  refine ⟨rfl, rfl, ?_, ?_, ?_, hlast.trans h.last, le_rfl, h.fuel⟩
  · change Spells l'.mem (l'.token + 0) (w ++ rest)
    rw [add_zero]
    exact hread.word h
  · change l'.token + 0 + (w ++ rest).length = stop
    omega
  · change 0 + ((w ++ rest).length : Int) ≤ l'.last + 1
    omega

theorem Lex.Ready.resume (h : l.Ready fuel stop top start rest) (hlast : sub.last = top)
    (hspells : Spells sub.mem (stop - rest.length) rest) : (l.resume sub).Ready fuel stop top .line rest := by
  have hends := h.ends
  have hpos : stop - rest.length = l.buf + l.processed := by omega
  refine ⟨rfl, rfl, ?_, hends, ?_, hlast, h.cursor, h.fuel⟩
  · change Spells sub.mem (l.buf + l.processed) rest
    rw [← hpos]
    exact hspells
  · change l.processed + (rest.length : Int) ≤ sub.last + 1
    rw [hlast, ← h.last]
    exact h.fits

theorem startsLine_of_isChar (h : IsChar b) : StartsLine b := by
  revert b
  decide

theorem responseLoop_status [Daylight] (hcode : FitsInt code) (hmessage : LineText message) (hc : StartsLine c)
    (h : l.Ready fuel stop top .header (statusLine code message ++ (crlf ++ c :: rest))) (hstage : r.stage = .responseLine) :
    ∃ r' l', l'.Ready fuel stop top .line (c :: rest) ∧ r'.metadata = { r.metadata with code := code } ∧ r'.stage = .httpHeader ∧
      r'.status ≠ .badResponse ∧ responseLoop fuel (rounds + 1) stream r l = responseLoop fuel rounds stream r' l' := by
  obtain ⟨l₁, hread⟩ := h.first_line (lineText_statusLine hcode hmessage) hc
  rw [← List.append_assoc] at h
  have hready := hread.ready h
  have henter := hread.enter h .raw
  rw [List.append_assoc] at henter
  obtain ⟨r', sub, hparse, hmetadata, hstatus, hlast, hspells⟩ :=
    @parseResponseLine_status fuel stop top code { r with start := l.start, state := l.state } (l₁.enter .raw) c message rest hcode
      hmessage hc henter
  have hgood : ¬ (r'.status = .badResponse ∨ (0 : Int) = -1) := by
    rw [hstatus]
    decide
  have htype : l₁.tokenType ≠ .bufend := by
    rw [hread.on.tokenType]
    decide
  refine ⟨{ r' with stage := .httpHeader }, l₁.resume sub, hready.resume hlast hspells, hmetadata, rfl, ?_, ?_⟩
  · change r'.status ≠ .badResponse
    rw [hstatus]
    decide
  · rw [hstage] at hparse
    rw [responseLoop, hread.run]
    simp only [ok_bind, hstage]
    rw [if_neg nofun, if_neg htype, hparse]
    simp only [ok_bind]
    rw [if_neg hgood]

theorem responseLoop_line [Daylight] (hline : Says line f) (hc : StartsLine c)
    (h : l.Ready fuel stop top .line (line ++ (crlf ++ c :: rest)))
    (hstage : r.stage = .httpHeader) (hstatus : r.status ≠ .badResponse) :
    ∃ r' l', l'.Ready fuel stop top .line (c :: rest) ∧ r'.metadata = f r.metadata ∧ r'.stage = .httpHeader ∧
      r'.status ≠ .badResponse ∧ responseLoop fuel (rounds + 1) stream r l = responseLoop fuel rounds stream r' l' := by
  obtain ⟨b, tail, rfl, hb⟩ := hline.first
  have hcr : present b ≠ .creturn := by
    rw [hb]
    decide
  obtain ⟨l₁, hread⟩ := h.next_line hcr hline.text hc
  rw [← List.append_assoc] at h
  have hready := hread.ready h
  have henter := hread.enter h .init
  rw [List.append_assoc] at henter
  obtain ⟨r', sub, hparse, hstored⟩ := @Says.parse _ _ _ hline fuel stop top { r with start := l.start, state := l.state }
    _ c rest henter hc
  have hgood : ¬ (r'.status = .badResponse ∨ (0 : Int) = -1) := not_or.mpr ⟨hstored.status hstatus, by decide⟩
  have hend : l₁.tokenType ≠ .bufend := by
    rw [hread.on.tokenType]
    decide
  have hcrlf : l₁.tokenType ≠ .crlf := by
    rw [hread.on.tokenType]
    decide
  refine ⟨r', l₁.resume sub, hready.resume hstored.last hstored.spells, hstored.metadata, hstored.stage.trans hstage,
    hstored.status hstatus, ?_⟩
  rw [hstage] at hparse
  rw [responseLoop, hread.run]
  simp only [ok_bind, hstage]
  rw [if_neg nofun, if_neg hend, if_neg hcrlf, hparse]
  simp only [ok_bind]
  rw [if_neg hgood]

/-- The lines of a header, each with its end. -/
def linesText (lines : List Line) : Bytes := lines.flatMap fun line => line.1 ++ crlf

/-- What a list of lines says. -/
def applyLines (lines : List Line) (m : Metadata) : Metadata := lines.foldl (fun m line => line.2 m) m

theorem linesText_first [Daylight] {lines : List Line} (hall : ∀ line ∈ lines, Says line.1 line.2) (rest : Bytes) :
    ∃ c tail, linesText lines ++ (crlf ++ rest) = c :: tail ∧ StartsLine c := by
  cases lines with
  | nil => exact ⟨13, _, rfl, by decide⟩
  | cons line lines =>
      obtain ⟨b, tail, hline, hb⟩ := (hall line List.mem_cons_self).first
      rw [linesText, List.flatMap_cons, hline]
      exact ⟨b, _, rfl, startsLine_of_isChar hb⟩

/-- The rounds that read the lines of the header, up to the empty line. -/
theorem responseLoop_lines [Daylight] {lines : List Line} (hall : ∀ line ∈ lines, Says line.1 line.2)
    (h : l.Ready fuel stop top .line (linesText lines ++ (crlf ++ rest))) (hstage : r.stage = .httpHeader)
    (hstatus : r.status ≠ .badResponse) :
    ∃ r' l', l'.Ready fuel stop top .line (crlf ++ rest) ∧ r'.metadata = applyLines lines r.metadata ∧ r'.stage = .httpHeader ∧
      responseLoop fuel (rounds + lines.length) stream r l = responseLoop fuel rounds stream r' l' := by
  induction lines generalizing r l with
  | nil => exact ⟨r, l, h, rfl, hstage, rfl⟩
  | cons line lines ih =>
      have hall' : ∀ line ∈ lines, Says line.1 line.2 := fun line hline => hall line (List.mem_cons_of_mem _ hline)
      obtain ⟨c, tail, htail, hc⟩ := linesText_first hall' rest
      have hready : l.Ready fuel stop top .line (line.1 ++ (crlf ++ c :: tail)) := by
        rw [← htail]
        simpa only [linesText, List.flatMap_cons, List.append_assoc] using h
      obtain ⟨r₁, l₁, hready₁, hmetadata₁, hstage₁, hstatus₁, hround⟩ :=
        @responseLoop_line fuel (rounds + lines.length) stop top r l c line.1 tail stream line.2 _ (hall line List.mem_cons_self) hc
          hready hstage hstatus
      rw [← htail] at hready₁
      obtain ⟨r', l', hready', hmetadata, hstage', hrounds⟩ := ih hall' hready₁ hstage₁ hstatus₁
      refine ⟨r', l', hready', ?_, hstage', ?_⟩
      · rw [hmetadata, hmetadata₁]
        rfl
      · rw [List.length_cons, ← Nat.add_assoc, hround, hrounds]

theorem endOfHeaders_clen (hlen : 0 ≤ r.con_len) :
    (endOfHeaders stream r l).2 = { l with state := .none, start := .body } ∧ (endOfHeaders stream r l).1.metadata = r.metadata ∧
      (endOfHeaders stream r l).1.stage = .entityFetch ∧ (endOfHeaders stream r l).1.etype = .clen := by
  cases stream with
  | false => simp [endOfHeaders, entityType, hlen, HttpResponse.metadata]
  | true => simp [endOfHeaders, entityType, hlen, HttpResponse.metadata, HttpResponse.addBlock]

theorem responseLoop_clen [Daylight] (hinside : ¬ l.last < l.processed) (hstart : l.start = .body) (hfuel : 0 < fuel)
    (hstage : r.stage = .entityFetch) (hetype : r.etype = .clen) :
    ∃ r', responseLoop fuel (rounds + 1) false r l = .ok (0, r') ∧ r'.metadata = r.metadata := by
  have htoken : getNextToken fuel l = .ok (.ok, { l.fresh with tokenType := .body }) := by
    obtain ⟨fuel, rfl⟩ := Nat.exists_eq_add_one.mpr hfuel
    have hbody : l.fresh.start = .body := hstart
    have hbefore : ¬ l.fresh.last < l.fresh.processed := hinside
    have hstep : lexStep l.fresh = .found l.fresh .body := by rw [lexStep, if_neg hbefore, hbody]
    change lexLoop (fuel + 1) l.fresh = _
    rw [lexLoop, hstep]
    rfl
  rw [responseLoop, htoken]
  simp only [ok_bind, hstage]
  rw [if_neg (fun h => by cases h), if_neg (fun h => by cases h), if_neg Bool.false_ne_true, entityStage]
  simp only [hetype, ok_bind, clenEntity]
  rw [if_neg (not_not.mpr rfl)]
  split
  · rename_i heq
    split at heq
    · cases heq
      exact ⟨_, rfl, rfl⟩
    · cases heq
      exact ⟨_, rfl, rfl⟩
  · rename_i heq
    split at heq <;> cases heq

theorem responseLoop_blank [Daylight] (h : l.Ready fuel stop top .line (crlf ++ b :: rest)) (hstage : r.stage = .httpHeader)
    (hlen : 0 ≤ r.con_len) :
    ∃ r', responseLoop fuel (rounds + 2) stream r l = .ok (0, r') ∧ r'.metadata = r.metadata := by
  obtain ⟨l₁, hread⟩ := h.blank
  have hready := hread.ready h
  have hfuel := hready.enough
  have hend : l₁.tokenType ≠ .bufend := by
    rw [hread.on.tokenType]
    decide
  have hblank : responseLoop fuel (rounds + 2) stream r l =
      responseLoop fuel (rounds + 1) false (endOfHeaders stream { r with start := l.start, state := l.state } l₁).1
        (endOfHeaders stream { r with start := l.start, state := l.state } l₁).2 := by
    rw [responseLoop, hread.run]
    simp only [ok_bind, hstage]
    rw [if_neg nofun, if_neg hend, if_pos hread.on.tokenType]
  obtain ⟨hlex, hmetadata, hstage', hetype⟩ :=
    @endOfHeaders_clen { r with start := l.start, state := l.state } l₁ stream hlen
  rw [hblank, hlex]
  obtain ⟨r', hresult, hsame⟩ := @responseLoop_clen fuel rounds _ { l₁ with state := .none, start := .body } _ hready.sees.inside rfl
    (by omega) hstage' hetype
  exact ⟨r', hresult, hsame.trans hmetadata⟩

end Header

/-! ## The round trip -/

/-- A header that was kept, in the memory of the response: a line of at most 3000 bytes. -/
structure KeptAt (mem : Int → Byte) (src : Int) (line : Bytes) : Prop where
  kept : KeptLine line
  short : line.length ≤ 3000
  spells : ∃ c, Spells mem src (line ++ (crlf ++ [c])) ∧ c ≠ 32 ∧ c ≠ 9

/-- A response of known length as `parseResponse` leaves it, all of whose lines ended with a carriage return and a line feed. -/
structure Storable (r : HttpResponse) (message : Bytes) (kept : List Bytes) : Prop where
  method : r.method ≠ .waproxGet
  etype : r.etype = .clen
  text : cString r.mem httpBufSize r.message = .ok message
  line : LineText message
  headers : List.Forall₂ (KeptAt r.mem) r.headers kept
  code : FitsInt r.code
  con_len : 0 ≤ r.con_len ∧ r.con_len < 2 ^ 31
  age_value : FitsInt r.age_value
  control : ∀ cc, r.cc = some cc → FitsInt cc.max_age ∧ FitsInt cc.s_maxage
  expires_value : r.expires_value < 2 ^ 31
  last_modified : r.last_modified < 2 ^ 31
  response_time : FitsInt r.response_time
  request_time : FitsInt r.request_time

/-- A date that is written where it is known. -/
def dateLines [Daylight] (header : DateHeader) (name : String) (t : Int) (f : Int → Metadata → Metadata) : List Line :=
  if 0 < t then [(ascii name ++ 58 :: 32 :: (asctime (gmtime t) ++ ascii " GMT"), f (readDate header t))] else []

/-- The lines that `formSendHeader` writes before those that were kept. -/
def knownLines [Daylight] (r : HttpResponse) (now : Int) : List Line :=
  (if 0 < r.age_value then [(ascii "Age" ++ 58 :: 32 :: intText r.age_value, id)] else []) ++
  [(ascii "Content-Length" ++ 58 :: 32 :: intText r.con_len, fun m => { m with con_len := r.con_len })] ++
  (r.cc.toList.map fun cc => (controlLine cc, fun m => { m with cc := some (readDirectives cc) })) ++
  (if r.method = .waproxPut ∧ 0 ≤ r.con_len then
    [(ascii "Content-Length" ++ 58 :: 32 :: intText r.con_len, fun m => { m with con_len := r.con_len })] else []) ++
  [(ascii "Date" ++ 58 :: 32 :: (asctime (gmtime now) ++ ascii " GMT"), fun m => { m with response_time := readDate .date now })] ++
  dateLines .expires "Expires" r.expires_value (fun t m => { m with expires_value := t }) ++
  dateLines .lastModified "Last-Modified" r.last_modified (fun t m => { m with last_modified := t }) ++
  (if r.te.isSome then [(ascii "Transfer-Encoding" ++ 58 :: 32 :: ascii "chunked", id)] else [])

/-- The lines of the header that is stored with a response, behind the status line. -/
def storedLines [Daylight] (r : HttpResponse) (kept : List Bytes) (now : Int) : List Line :=
  knownLines r now ++ (kept.map fun line => (line, id)) ++
  [(ascii "Response-Time" ++ 58 :: 32 :: intText r.response_time, fun m => { m with response_time := r.response_time })] ++
  [(ascii "Request-Time" ++ 58 :: 32 :: intText r.request_time, fun m => { m with request_time := r.request_time })]

section RoundTrip

variable {r : HttpResponse} {message : Bytes} {kept : List Bytes} {now : Int}

theorem formKept_eq {mem : Int → Byte} {headers : List Int} (h : List.Forall₂ (KeptAt mem) headers kept) :
    formKept mem headers = .ok (linesText (kept.map fun line => (line, id))) := by
  induction h with
  | nil => rfl
  | @cons src line headers kept hkept _ ih =>
      obtain ⟨c, hspells, hspace, htab⟩ := hkept.spells
      have hstart : Spells mem (src + (0 : Nat)) (line ++ (crlf ++ [c])) := by
        rw [Nat.cast_zero, add_zero]
        exact hspells
      have hshort := hkept.short
      have hcopy := @hdrCpy_line (2 * httpBufSize) 0 src c mem line [] [] hkept.kept.text hstart ⟨hspace, htab⟩ (by omega)
        (by rw [httpBufSize]; omega)
      rw [formKept, hcopy, ok_bind, ih, ok_bind]
      rfl

theorem keptLine_of_mem {mem : Int → Byte} {headers : List Int} (h : List.Forall₂ (KeptAt mem) headers kept) :
    ∀ line ∈ kept, KeptLine line := by
  induction h with
  | nil => exact nofun
  | cons hkept _ ih => exact List.forall_mem_cons.mpr ⟨hkept.kept, ih⟩

theorem linesText_append (as bs : List Line) : linesText (as ++ bs) = linesText as ++ linesText bs := List.flatMap_append

theorem linesText_ite {p : Prop} [Decidable p] {line : Line} :
    linesText (if p then [line] else []) = if p then line.1 ++ crlf else [] := by
  rw [linesText, flatMap_ite]

@[simp] theorem linesText_nil : linesText [] = [] := rfl

theorem linesText_cons (line : Line) (lines : List Line) : linesText (line :: lines) = line.1 ++ crlf ++ linesText lines :=
  List.flatMap_cons

theorem linesText_single (line : Line) : linesText [line] = line.1 ++ crlf := List.flatMap_singleton _ _

theorem formDate_eq [Daylight] {name label : String} (header : DateHeader) (t : Int) (f : Int → Metadata → Metadata)
    (hname : ascii name = ascii label ++ [58, 32]) :
    formDate name t = linesText (dateLines header label t f) := by
  rw [formDate, dateLines, linesText_ite, hname]
  simp only [List.append_assoc, List.cons_append, List.nil_append]

theorem formKnown_eq [Daylight] (hclen : r.etype ≠ .conn) (now : Int) : formKnown r now = linesText (knownLines r now) := by
  have hcontrol : r.cc.elim [] formCacheControl =
      linesText (r.cc.toList.map fun cc => (controlLine cc, fun m => { m with cc := some (readDirectives cc) })) := by
    cases r.cc with
    | none => rfl
    | some cc =>
        simp only [Option.toList_some, List.map_cons, List.map_nil, linesText_single]
        rfl
  have hage : ascii "Age: " = ascii "Age" ++ [58, 32] := by decide
  have hlength : ascii "Content-Length: " = ascii "Content-Length" ++ [58, 32] := by decide
  have hdate : ascii "Date: " = ascii "Date" ++ [58, 32] := by decide
  have hchunked : ascii "Transfer-Encoding: chunked" = ascii "Transfer-Encoding" ++ 58 :: 32 :: ascii "chunked" := by decide
  simp only [knownLines, linesText_append, linesText_ite, linesText_single, ← hcontrol]
  rw [← formDate_eq .expires r.expires_value _ (by decide : ascii "Expires: " = _),
    ← formDate_eq .lastModified r.last_modified _ (by decide : ascii "Last-Modified: " = _), formKnown, if_neg hclen, hage, hlength,
      hdate, hchunked]
  simp only [List.append_assoc, List.cons_append, List.nil_append]
  cases r.cc <;> rfl

theorem formWriteHeader_eq [Daylight] (h : Storable r message kept) (now : Int) :
    formWriteHeader r now = .ok (statusLine r.code message ++ (crlf ++ (linesText (storedLines r kept now) ++ crlf))) := by
  have hclen : r.etype ≠ .conn := by
    rw [h.etype]
    decide
  have hstatus : formResponseLine r message = statusLine r.code message ++ crlf := by
    rw [formResponseLine, if_neg h.method, statusLine]
    simp only [List.append_assoc, List.cons_append]
    rfl
  have hresponse : ascii "Response-Time: " = ascii "Response-Time" ++ [58, 32] := by decide
  have hrequest : ascii "Request-Time: " = ascii "Request-Time" ++ [58, 32] := by decide
  rw [formWriteHeader, formSendHeader, h.text, ok_bind, if_neg h.method, formKept_eq h.headers, ok_bind, pure_eq_ok,
    ok_bind, hstatus, formKnown_eq hclen]
  rw [List.take_left' (by simp only [List.length_append, crlf, List.length_cons, List.length_nil]; omega), hresponse, hrequest, storedLines]
  simp only [linesText_append, linesText_cons, linesText_nil, List.append_assoc, List.cons_append, List.nil_append, pure_eq_ok]

theorem says_stored [Daylight] (h : Storable r message kept) (hnow : 0 ≤ now) (hmax : now < 2 ^ 31) :
    ∀ line ∈ storedLines r kept now, Says line.1 line.2 := by
  have hlen : Says (ascii "Content-Length" ++ 58 :: 32 :: intText r.con_len) fun m => { m with con_len := r.con_len } :=
    says_contentLength (by have := h.con_len; omega) h.con_len.2
  have hsingle : ∀ {line : Line}, Says line.1 line.2 → ∀ l ∈ [line], Says l.1 l.2 := by
    intro line hline l hl
    rw [List.mem_singleton.mp hl]
    exact hline
  refine forall_mem_append (forall_mem_append (forall_mem_append ?_ ?_) ?_) ?_
  · repeat' apply forall_mem_append
    · exact forall_mem_ite fun _ => says_age h.age_value.1 h.age_value.2
    · exact hsingle hlen
    · intro line hline
      obtain ⟨cc, hcc, rfl⟩ := List.mem_map.mp hline
      obtain ⟨hage, hshared⟩ := h.control cc (Option.mem_toList.mp hcc)
      exact says_control hage hshared
    · exact forall_mem_ite fun _ => hlen
    · exact hsingle (says_dateHeader hnow hmax)
    · exact forall_mem_ite fun hpos => says_expires (by omega) h.expires_value
    · exact forall_mem_ite fun hpos => says_lastModified (by omega) h.last_modified
    · exact forall_mem_ite fun _ => says_chunked
  · intro line hline
    obtain ⟨text, htext, rfl⟩ := List.mem_map.mp hline
    exact says_kept (keptLine_of_mem h.headers text htext)
  · exact hsingle (says_responseTime h.response_time.1 h.response_time.2)
  · exact hsingle (says_requestTime h.request_time.1 h.request_time.2)

/-- What is known of a response that was stored. -/
def readBack [Daylight] (r : HttpResponse) : Metadata where
  code := r.code
  con_len := r.con_len
  cc := r.cc.map readDirectives
  expires_value := if 0 < r.expires_value then readDate .expires r.expires_value else -1
  last_modified := if 0 < r.last_modified then readDate .lastModified r.last_modified else -1
  response_time := r.response_time
  request_time := r.request_time

theorem applyLines_append (as bs : List Line) (m : Metadata) : applyLines (as ++ bs) m = applyLines bs (applyLines as m) :=
  List.foldl_append

theorem applyLines_single (line : Line) (m : Metadata) : applyLines [line] m = line.2 m := rfl

theorem applyLines_ite {p : Prop} [Decidable p] {line : Line} {m : Metadata} :
    applyLines (if p then [line] else []) m = if p then line.2 m else m := foldl_ite

theorem applyLines_kept (kept : List Bytes) (m : Metadata) : applyLines (kept.map fun line => (line, id)) m = m := by
  induction kept with
  | nil => rfl
  | cons line kept ih => exact ih

theorem applyLines_stored [Daylight] (r : HttpResponse) (kept : List Bytes) (now : Int) (m : Metadata) (hcc : m.cc = none)
    (hexpires : m.expires_value = -1) (hmodified : m.last_modified = -1) (hcode : m.code = r.code) :
    applyLines (storedLines r kept now) m = readBack r := by
  have hcontrol : ∀ m : Metadata, m.cc = none →
      applyLines (r.cc.toList.map fun cc => (controlLine cc, fun m => { m with cc := some (readDirectives cc) })) m =
        { m with cc := r.cc.map readDirectives } := by
    intro m hm
    cases r.cc with
    | none =>
        cases m
        cases hm
        rfl
    | some cc => rfl
  simp only [storedLines, knownLines, applyLines_append, applyLines_kept, applyLines_single, dateLines, applyLines_ite, id_eq]
  rw [hcontrol _ (by simp only [hcc, ite_self])]
  ext
  all_goals
    simp only [apply_ite Metadata.code, apply_ite Metadata.con_len, apply_ite Metadata.cc, apply_ite Metadata.expires_value,
      apply_ite Metadata.last_modified, apply_ite Metadata.response_time, apply_ite Metadata.request_time, ite_self, readBack, hcode,
      hexpires, hmodified]

theorem length_le_linesText (lines : List Line) : lines.length ≤ (linesText lines).length := by
  induction lines with
  | nil => exact le_rfl
  | cons line lines ih =>
      rw [linesText_cons, List.length_append, List.length_append, List.length_cons, crlf, List.length_cons]
      omega

theorem spells_block (mem : Int → Byte) (text : Bytes) :
    Spells (Function.update (copyBytes mem 0 text) text.length 255) 0 (text ++ [255]) := by
  intro k hk
  rw [List.length_append, List.length_singleton] at hk
  rw [zero_add]
  rcases Nat.lt_or_eq_of_le (Nat.le_of_lt_succ hk) with hlt | heq
  · rw [List.getElem?_append_left hlt, Function.update_of_ne (by omega), copyBytes, if_pos (by omega), List.getD_eq_getElem?_getD,
      sub_zero, Int.toNat_natCast, List.getElem?_eq_getElem hlt]
    rfl
  · subst heq
    rw [List.getElem?_append_right le_rfl, Nat.sub_self, Function.update_self]
    rfl

theorem isFull_init (memory : HttpResponse) (method : HttpMethod) (time : Int) : (initHTTPResponse memory method time).isFull = false :=
  rfl

/-- What `parseResponse` makes of the header that was stored. -/
theorem parseResponse_stored [Daylight] (h : Storable r message kept) (hnow : 0 ≤ now) (hmax : now < 2 ^ 31) (memory : HttpResponse)
    (method : HttpMethod) (time : Int) {fuel : Nat} {text : Bytes}
    (htext : text = statusLine r.code message ++ (crlf ++ (linesText (storedLines r kept now) ++ crlf)))
    (hfuel : text.length + 4 ≤ fuel) :
    ∃ r', parseResponse fuel (.given text) (initHTTPResponse memory method time) = .ok (0, r') ∧ r'.metadata = readBack r := by
  have hall := says_stored h hnow hmax
  have hlines := length_le_linesText (storedLines r kept now)
  have hlength : text.length = (statusLine r.code message).length + (2 + ((linesText (storedLines r kept now)).length + 2)) := by
    simp only [htext, List.length_append, crlf, List.length_cons, List.length_nil]
  obtain ⟨c, tail, htail, hc⟩ := linesText_first hall [255]
  -- the buffer with the block in it
  have hready : Lex.Ready fuel (text.length + 1) text.length .header
      ((initHTTPResponse memory method time).startLex (copyBytes memory.mem 0 text) 0 text.length)
      (statusLine r.code message ++ (crlf ++ c :: tail)) := by
    have htext' : statusLine r.code message ++ (crlf ++ c :: tail) = text ++ [255] := by
      rw [← htail, htext]
      simp only [List.append_assoc]
    have hmem : (initHTTPResponse memory method time).startLex (copyBytes memory.mem 0 text) 0 text.length =
        { (initHTTPResponse memory method time).startLex (copyBytes memory.mem 0 text) 0 text.length with
          mem := Function.update (copyBytes memory.mem 0 text) text.length 255 } := by
      rw [HttpResponse.startLex, if_neg (by omega), zero_add]
    rw [htext', hmem]
    refine ⟨rfl, rfl, spells_block memory.mem text, ?_, ?_, rfl, le_rfl, by omega⟩
    · change (0 : Int) + 0 + (text ++ [255]).length = text.length + 1
      rw [List.length_append, List.length_singleton]
      omega
    · change (0 : Int) + (text ++ [255]).length ≤ text.length + 1
      rw [List.length_append, List.length_singleton]
      omega
  have hblock : parseResponse fuel (.given text) (initHTTPResponse memory method time) =
      responseLoop fuel fuel true
        { initHTTPResponse memory method time with used := text.length, unWritten := text.length, rewind := 0 }
        ((initHTTPResponse memory method time).startLex (copyBytes memory.mem 0 text) 0 text.length) := by
    have hrewind : max (initHTTPResponse memory method time).rewind 0 = 0 := rfl
    have hused : (initHTTPResponse memory method time).used = 0 := rfl
    have hwritten : (initHTTPResponse memory method time).unWritten = 0 := rfl
    have hmem : (initHTTPResponse memory method time).mem = memory.mem := rfl
    rw [parseResponse, if_neg (by rw [isFull_init]; decide)]
    simp only [parseBlock, hrewind, hused, hwritten, hmem, sub_zero, add_zero, zero_add]
  rw [hblock]
  obtain ⟨rounds, rfl⟩ : ∃ rounds, fuel = rounds + 2 + (storedLines r kept now).length + 1 :=
    ⟨fuel - 3 - (storedLines r kept now).length, by omega⟩
  obtain ⟨r₁, l₁, hready₁, hmetadata₁, hstage₁, hstatus₁, hround⟩ := responseLoop_status h.code h.line hc hready
    (rfl : HttpResponse.stage { initHTTPResponse memory method time with used := text.length, unWritten := text.length, rewind := 0 } =
      .responseLine)
  rw [← htail] at hready₁
  obtain ⟨r₂, l₂, hready₂, hmetadata₂, hstage₂, hrounds⟩ := responseLoop_lines hall hready₁ hstage₁ hstatus₁
  have hback : r₂.metadata = readBack r := by
    rw [hmetadata₂, hmetadata₁]
    exact applyLines_stored r kept now _ rfl rfl rfl rfl
  have hlen : 0 ≤ r₂.con_len := by
    change 0 ≤ r₂.metadata.con_len
    rw [hback]
    exact h.con_len.1
  obtain ⟨r', hresult, hsame⟩ := responseLoop_blank hready₂ hstage₂ hlen
  refine ⟨r', ?_, hsame.trans hback⟩
  rw [hround, hrounds, hresult]

/-! ## What is read back -/

/-- A date that is read back: it is unknown, or a date after the first second of 1970 that is not in June or July, and that `mktime` does
not move for the `tm_isdst` it finds. -/
def DateKept [Daylight] (header : DateHeader) (t : Int) : Prop :=
  t = -1 ∨ (0 < t ∧ (gmtime t).1.tm_mon ≠ 5 ∧ (gmtime t).1.tm_mon ≠ 6) ∧ (Daylight.tm_isdst header ≤ 0 ∨ Daylight.moved t = t)

/-- An age that is read back. -/
def AgeKept (age : Int) : Prop := age = -1 ∨ 0 < age

instance [Daylight] (header : DateHeader) (t : Int) : Decidable (DateKept header t) := inferInstanceAs (Decidable (_ ∨ _))

instance (age : Int) : Decidable (AgeKept age) := inferInstanceAs (Decidable (_ ∨ _))

theorem daysBeforeMonth_readMonth (year : Int) {month : Nat} (hmonth : month < 12) :
    daysBeforeMonth year (readMonth month) ≤ daysBeforeMonth year month ∧
      daysBeforeMonth year month ≤ daysBeforeMonth year (readMonth month) + 366 ∧
      (daysBeforeMonth year (readMonth month) = daysBeforeMonth year month ↔ ¬ (month = 5 ∨ month = 6)) := by
  by_cases hsummer : month = 5 ∨ month = 6
  · have hjanuary : daysBeforeMonth year 0 = 0 := rfl
    have hjune : daysBeforeMonth year 5 = if isLeap year then 152 else 151 := by
      rw [daysBeforeMonth, monthLengths]
      split <;> rfl
    have hjuly : daysBeforeMonth year 6 = if isLeap year then 182 else 181 := by
      rw [daysBeforeMonth, monthLengths]
      split <;> rfl
    rw [readMonth, if_pos hsummer, hjanuary]
    rcases hsummer with rfl | rfl
    · rw [hjune]
      split <;> decide
    · rw [hjuly]
      split <;> decide
  · rw [readMonth, if_neg hsummer]
    exact ⟨le_rfl, by omega, iff_of_true rfl hsummer⟩

/-- A date is read back but where its month is June or July, which are taken for January, or where `mktime` moves it. -/
theorem readDate_eq_iff [Daylight] {header : DateHeader} {t : Int} (ht : 0 < t) (hmax : t < 2 ^ 31) :
    readDate header t = t ↔
      ((gmtime t).1.tm_mon ≠ 5 ∧ (gmtime t).1.tm_mon ≠ 6) ∧ (Daylight.tm_isdst header ≤ 0 ∨ Daylight.moved t = t) := by
  obtain ⟨month, hdate⟩ := gmtime_date (by omega : 0 ≤ t)
  have hmon := hdate.mon
  have hmonth : (gmtime t).1.tm_mon.toNat = month := by omega
  obtain ⟨hle, hlow, hsame⟩ := daysBeforeMonth_readMonth ((gmtime t).1.tm_year + 1900) hdate.mon_lt
  have hread := hdate.mktime_month (Daylight.tm_isdst header) (by omega) hmax hle hlow
  have hmonths : ((gmtime t).1.tm_mon ≠ 5 ∧ (gmtime t).1.tm_mon ≠ 6) ↔ ¬ (month = 5 ∨ month = 6) := by omega
  rw [readDate, hmonth, hread, hmonths, ← hsame]
  generalize daysBeforeMonth ((gmtime t).1.tm_year + 1900) month = days at hle hlow ⊢
  generalize daysBeforeMonth ((gmtime t).1.tm_year + 1900) (readMonth month) = days' at hle hlow ⊢
  by_cases hsame : days' = days
  · rw [hsame, sub_self, zero_mul, sub_zero]
    split <;> omega
  · -- a date of January is not moved to June
    have hnear := Daylight.moved_near (t - (days - days') * 86400)
    rw [abs_lt] at hnear
    split <;> omega

theorem readDate_iff [Daylight] {header : DateHeader} {t : Int} (hmax : t < 2 ^ 31) :
    (if 0 < t then readDate header t else -1) = t ↔ DateKept header t := by
  rw [DateKept]
  split
  · rename_i hpos
    rw [readDate_eq_iff hpos hmax]
    omega
  · omega

theorem readDirectives_eq_iff {cc : CacheControlResponse} :
    readDirectives cc = cc ↔ AgeKept cc.max_age ∧ AgeKept cc.s_maxage := by
  rw [CacheControlResponse.ext_iff]
  simp only [readDirectives, AgeKept, true_and]
  constructor
  · rintro ⟨hage, hshared⟩
    split at hage <;> split at hshared <;> omega
  · rintro ⟨hage, hshared⟩
    constructor
    · split <;> omega
    · split <;> omega

/-- What is lost of a response: ages of zero, dates of zero, the months June and July, and dates that `mktime` moves. -/
structure Recoverable [Daylight] (r : HttpResponse) : Prop where
  control : ∀ cc, r.cc = some cc → AgeKept cc.max_age ∧ AgeKept cc.s_maxage
  expires_value : DateKept .expires r.expires_value
  last_modified : DateKept .lastModified r.last_modified

theorem readBack_eq_iff [Daylight] (h : Storable r message kept) : readBack r = r.metadata ↔ Recoverable r := by
  have hcontrol : r.cc.map readDirectives = r.cc ↔ ∀ cc, r.cc = some cc → AgeKept cc.max_age ∧ AgeKept cc.s_maxage := by
    cases r.cc with
    | none => simp
    | some cc => simp [readDirectives_eq_iff]
  rw [Metadata.ext_iff]
  simp only [readBack, HttpResponse.metadata, true_and, and_true]
  rw [hcontrol, readDate_iff h.expires_value, readDate_iff h.last_modified]
  constructor
  · rintro ⟨hcc, hexpires, hmodified⟩
    exact ⟨hcc, hexpires, hmodified⟩
  · intro hr
    exact ⟨hr.control, hr.expires_value, hr.last_modified⟩

end RoundTrip

/-! ## A response on which it succeeds, and one on which it fails -/

/-- A message and a header, as they are in the buffer of a response. -/
def sampleBytes : Bytes := ascii "OK" ++ 0 :: ascii "Server: origin" ++ crlf ++ crlf

def sampleMem (pos : Int) : Byte := sampleBytes.getD pos.toNat 0

/-- A response with one header that was kept. -/
def sampleResponse (max_age expires_value : Int) : HttpResponse where
  mem := sampleMem
  stage := .entityFetch
  start := .body
  state := .none
  rewind := 0
  len := 0
  method := .get
  status := .entityComplete
  unWritten := 0
  toSend := []
  toWrite := []
  block := 1
  downloaded := 0
  used := 0
  majVersion := 1
  minVersion := 1
  code := 200
  message := 0
  contentType := none
  headers := [3]
  cc := some { absentCacheControl with ccPublic := true, max_age := max_age }
  last_modified := 950000000
  age_value := -1
  date_value := 1000000000
  expires_value := expires_value
  response_time := 1000000000
  request_time := 999999999
  conn := none
  pconn := none
  con_len := 5
  te := none
  entityLen := -1
  rcvd := 5
  etype := .clen

theorem storable_sample {max_age expires_value : Int} (hage : FitsInt max_age) (hexpires : expires_value < 2 ^ 31) :
    Storable (sampleResponse max_age expires_value) (ascii "OK") [ascii "Server: origin"] := by
  have hmessage : cString sampleMem httpBufSize 0 = .ok (ascii "OK") := by decide
  have hkept : KeptAt sampleMem 3 (ascii "Server: origin") := by
    refine ⟨⟨lineText_of_plain (by decide), ?_⟩, by decide, 13, ?_, by decide, by decide⟩
    · exact ⟨ascii "Server", ascii ": origin", by decide, by decide, by decide, by decide, .inl (by decide)⟩
    · unfold Spells
      decide
  have hcontrol : ∀ cc, (sampleResponse max_age expires_value).cc = some cc → FitsInt cc.max_age ∧ FitsInt cc.s_maxage := by
    rintro cc ⟨rfl⟩
    exact ⟨hage, (by decide : FitsInt (-1))⟩
  exact ⟨(by decide : HttpMethod.get ≠ .waproxGet), rfl, hmessage, lineText_of_plain (by decide), .cons hkept .nil,
    (by decide : FitsInt 200), (by decide : (0 : Int) ≤ 5 ∧ (5 : Int) < 2 ^ 31), (by decide : FitsInt (-1)), hcontrol, hexpires,
    (by decide : (950000000 : Int) < 2 ^ 31), (by decide : FitsInt 1000000000), (by decide : FitsInt 999999999)⟩

/-- The stack holds zeros, but where the date of `Last-Modified` is read; the library ignores `tm_isdst`. -/
abbrev sampleDaylight : Daylight where
  tm_isdst header := if header = .lastModified then 1 else 0
  moved seconds := seconds
  moved_near seconds := .inr (by rw [sub_self, abs_zero]; decide)

end BeagleCache
