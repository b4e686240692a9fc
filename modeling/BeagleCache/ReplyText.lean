import BeagleCache.DiskCache

/-! What `strchr` and `atoi` find in a buffer whose first bytes are those of a known text. -/

namespace BeagleCache

variable {buffer : Nat → Byte} {text : Bytes} {c : Byte} {fuel pos p n : Nat}

theorem strchr_found (hp : buffer p = c) (hle : pos ≤ p) (hfuel : p < pos + fuel)
    (hno : ∀ k, pos ≤ k → k < p → buffer k ≠ c ∧ buffer k ≠ 0) : strchr buffer c fuel pos = .ok (some p) := by
  induction fuel generalizing pos with
  | zero => omega
  | succ fuel ih =>
      rw [strchr]
      rcases Nat.eq_or_lt_of_le hle with rfl | hlt
      · rw [if_pos hp]
      · obtain ⟨hc, hzero⟩ := hno pos le_rfl hlt
        rw [if_neg hc, if_neg hzero]
        exact ih hlt (by omega) fun k hk => hno k (by omega)

/-- A zero byte ends the search. -/
theorem strchr_missing (hc : c ≠ 0) (hp : buffer p = 0) (hle : pos ≤ p) (hfuel : p < pos + fuel)
    (hno : ∀ k, pos ≤ k → k < p → buffer k ≠ c) : strchr buffer c fuel pos = .ok none := by
  induction fuel generalizing pos with
  | zero => omega
  | succ fuel ih =>
      rw [strchr]
      rcases Nat.eq_or_lt_of_le hle with rfl | hlt
      · rw [if_neg (hp ▸ hc.symm), if_pos hp]
      · rw [if_neg (hno pos le_rfl hlt)]
        split
        · rfl
        · exact ih hlt (by omega) fun k hk => hno k (by omega)

/-- The first `n` bytes of the buffer are those of the text. -/
def Shows (buffer : Nat → Byte) (n : Nat) (text : Bytes) : Prop := ∀ k < n, text[k]? = some (buffer k)

namespace Shows

theorem byte (h : Shows buffer n text) (hk : p < n) (hb : text[p]? = some c) : buffer p = c := by
  rw [h p hk] at hb
  exact Option.some.inj hb

/-- The bytes of a part of the text that was read. -/
theorem mem_part {before part after : Bytes} (h : Shows buffer n (before ++ part ++ after)) (hp : p < n)
    (hfrom : before.length ≤ p) (hto : p < before.length + part.length) : buffer p ∈ part := by
  have hbyte := h p hp
  rw [List.getElem?_append_left (by rw [List.length_append]; exact hto), List.getElem?_append_right hfrom] at hbyte
  exact List.mem_of_getElem? hbyte

/-- The text has a character after a part that has none of it. -/
theorem strchr_part (fuel : Nat) {before part after : Bytes} (h : Shows buffer n (before ++ part ++ c :: after))
    (hn : before.length + part.length < n) (hfuel : part.length < fuel) (hpart : ∀ b ∈ part, b ≠ c ∧ b ≠ 0) :
    strchr buffer c fuel before.length = .ok (some (before.length + part.length)) := by
  apply strchr_found
  · apply h.byte hn
    rw [List.getElem?_append_right (by rw [List.length_append]), List.length_append, Nat.sub_self]
    rfl
  · omega
  · omega
  · intro k hfrom hto
    exact hpart _ (h.mem_part (by omega) hfrom hto)

/-- The rest of a text that was read whole. -/
theorem map_range {before body : Bytes} (h : Shows buffer (before.length + body.length) (before ++ body)) :
    ((List.range body.length).map fun k => buffer (before.length + k)) = body := by
  apply List.ext_getElem
  · rw [List.length_map, List.length_range]
  · intro k _ hk
    have hbyte := h (before.length + k) (by omega)
    rw [List.getElem?_append_right (by omega), Nat.add_sub_cancel_left, List.getElem?_eq_getElem hk] at hbyte
    rw [List.getElem_map, List.getElem_range]
    exact (Option.some.inj hbyte).symm

end Shows

/-- A decimal digit. -/
def IsDigit (b : Byte) : Prop := 48 ≤ b.toNat ∧ b.toNat ≤ 57

/-- The digits of a number, `%d`. -/
def decimal (n : Nat) : Bytes := ascii (toString n)

theorem decimal_eq_toDigits (n : Nat) : decimal n = (Nat.toDigits 10 n).map fun c => BitVec.ofNat 8 c.toNat := by
  rw [decimal, ascii, Nat.toString_eq_ofList_toDigits, String.toList_ofList]

theorem toNat_of_isDigit {c : Char} (hc : c.isDigit) :
    48 ≤ c.toNat ∧ c.toNat ≤ 57 ∧ (BitVec.ofNat 8 c.toNat : Byte).toNat = c.toNat := by
  have hrange : 48 ≤ c.toNat ∧ c.toNat ≤ 57 := by
    simpa [Char.isDigit, UInt32.le_iff_toNat_le] using hc
  refine ⟨hrange.1, hrange.2, ?_⟩
  rw [BitVec.toNat_ofNat]
  omega

theorem isDigit_of_mem_decimal {b : Byte} (hb : b ∈ decimal n) : IsDigit b := by
  rw [decimal_eq_toDigits] at hb
  obtain ⟨c, hc, rfl⟩ := List.mem_map.mp hb
  obtain ⟨hlow, hhigh, heq⟩ := toNat_of_isDigit (Nat.isDigit_of_mem_toDigits (by decide) (by decide) hc)
  rw [IsDigit, heq]
  exact ⟨hlow, hhigh⟩

theorem IsDigit.ne {b : Byte} (h : IsDigit b) (hc : ¬ IsDigit c) : b ≠ c := fun heq => hc (heq ▸ h)

/-- The number that a text of digits starts. -/
theorem digits_of_chars {chars : List Char} {value : Nat} (hchars : ∀ c ∈ chars, c.isDigit)
    (hbytes : ∀ k < chars.length, (chars.map fun c => BitVec.ofNat 8 c.toNat)[k]? = some (buffer (pos + k)))
    (hend : ¬ IsDigit (buffer (pos + chars.length))) (hfuel : chars.length < fuel) :
    digits buffer fuel pos value = .ok (Nat.ofDigitChars 10 chars value) := by
  induction chars generalizing fuel pos value with
  | nil =>
      obtain ⟨fuel, rfl⟩ := Nat.exists_eq_add_of_lt hfuel
      rw [List.length_nil, Nat.zero_add, digits]
      exact if_neg hend
  | cons c chars ih =>
      obtain ⟨fuel, rfl⟩ := Nat.exists_eq_add_of_lt hfuel
      obtain ⟨hlow, hhigh, heq⟩ := toNat_of_isDigit (hchars c List.mem_cons_self)
      have hb : buffer pos = BitVec.ofNat 8 c.toNat := (Option.some.inj (hbytes 0 (Nat.succ_pos _))).symm
      rw [List.length_cons] at hend
      rw [List.length_cons, digits, hb, heq, if_pos ⟨hlow, hhigh⟩, Nat.ofDigitChars_cons, Nat.mul_comm 10]
      apply ih (fun c hc => hchars c (List.mem_cons_of_mem _ hc))
      · intro k hk
        rw [Nat.add_assoc, Nat.add_comm 1]
        exact hbytes (k + 1) (Nat.succ_lt_succ hk)
      · rwa [Nat.add_assoc, Nat.add_comm 1]
      · omega

/-- A number in the text, with another character behind it. -/
theorem Shows.digits_decimal {before after : Bytes} {value : Nat} (h : Shows buffer n (before ++ decimal value ++ c :: after))
    (hn : before.length + (decimal value).length < n) (hc : ¬ IsDigit c) (hfuel : (decimal value).length < fuel) :
    digits buffer fuel before.length 0 = .ok value := by
  have hlength : (decimal value).length = (Nat.toDigits 10 value).length := by rw [decimal_eq_toDigits, List.length_map]
  have hend : buffer (before.length + (decimal value).length) = c := by
    apply h.byte hn
    rw [List.getElem?_append_right (by rw [List.length_append]), List.length_append, Nat.sub_self]
    rfl
  have hdigits : digits buffer fuel before.length 0 = .ok (Nat.ofDigitChars 10 (Nat.toDigits 10 value) 0) := by
    apply digits_of_chars
    · exact fun c hc => Nat.isDigit_of_mem_toDigits (by decide) (by decide) hc
    · intro k hk
      rw [← decimal_eq_toDigits, ← h (before.length + k) (by omega)]
      rw [List.getElem?_append_left (by rw [List.length_append]; omega), List.getElem?_append_right (by omega),
        Nat.add_sub_cancel_left]
    · rw [← hlength, hend]
      exact hc
    · omega
  rw [hdigits, Nat.ofDigitChars_ten_toDigits]

theorem atoi_digits {value : Nat} (hdigit : IsDigit (buffer pos)) (hdigits : digits buffer fuel pos 0 = .ok value)
    (hvalue : value < 2 ^ 31) : atoi buffer (fuel + 1) pos = .ok (value : Int) := by
  obtain ⟨hlow, hhigh⟩ := hdigit
  have hspace : isSpace (buffer pos) = false := by
    have hne : buffer pos ≠ 32 := by
      intro heq
      rw [heq] at hlow
      exact absurd hlow (by decide)
    simp only [isSpace, hne, false_or, decide_eq_false_iff_not]
    omega
  have hsign : ∀ b : Byte, b.toNat < 48 → buffer pos ≠ b := by
    intro b hb heq
    rw [heq] at hlow
    omega
  rw [atoi, hspace, if_neg Bool.false_ne_true, if_neg (hsign 45 (by decide))]
  simp only [if_neg (hsign 43 (by decide)), hdigits, Run.ok_bind, Run.pure_eq_ok]
  have hmin : min value (2 ^ 63 - 1) = value := by omega
  rw [hmin, Int.bmod_eq_of_le_mul_two (by omega) (by omega)]

theorem atoi_space (hspace : buffer pos = 32) : atoi buffer (fuel + 1) pos = atoi buffer fuel (pos + 1) := by
  rw [atoi, hspace]
  exact if_pos rfl

theorem decimal_ne_nil (value : Nat) : decimal value ≠ [] := by
  rw [decimal_eq_toDigits]
  simp [Nat.toDigits_ne_nil]

/-- `atoi` reads a number of the text back. -/
theorem Shows.atoi_decimal (fuel : Nat) {before after : Bytes} {value : Nat}
    (h : Shows buffer n (before ++ decimal value ++ c :: after)) (hn : before.length + (decimal value).length < n)
    (hc : ¬ IsDigit c) (hvalue : value < 2 ^ 31) (hfuel : (decimal value).length + 1 < fuel) :
    atoi buffer fuel before.length = .ok (value : Int) := by
  obtain ⟨fuel, rfl⟩ := Nat.exists_eq_add_of_lt hfuel
  have hpos := List.length_pos_iff.mpr (decimal_ne_nil value)
  have hfirst : IsDigit (buffer before.length) := isDigit_of_mem_decimal (h.mem_part (by omega) le_rfl (by omega))
  exact atoi_digits hfirst (h.digits_decimal hn hc (by omega)) hvalue

end BeagleCache
