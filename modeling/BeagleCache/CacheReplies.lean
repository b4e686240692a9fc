import BeagleCache.ReplyText

/-! The replies of the disk cache and what `ProcessCacheResponse` makes of the part of one that was read. It searches with
`strchr`, which is not bounded by what was read: bytes of earlier replies lie behind it. -/

namespace BeagleCache

open Transition Run

/-- What the disk cache answers to a request. -/
inductive CacheResult
  | stored
  | found (body : Bytes)
  | notFound
  deriving DecidableEq

/-- A reply, with the protocol version it is written with. -/
structure CacheAnswer where
  major : Nat
  minor : Nat
  result : CacheResult
  deriving DecidableEq

namespace CacheAnswer

/-- `HTTP/x.y`. -/
def protocol (a : CacheAnswer) : Bytes := ascii "HTTP/" ++ decimal a.major ++ ascii "." ++ decimal a.minor

/-- The status line up to its newline. -/
def statusPart (a : CacheAnswer) (code : Nat) (reason : String) : Bytes :=
  a.protocol ++ [32] ++ decimal code ++ [32] ++ ascii reason ++ [13]

/-- The line of the length up to its newline. -/
def lengthPart (length : Nat) : Bytes := ascii "Content-Length:" ++ [32] ++ decimal length ++ [13]

/-- The lines that `ProcessCacheResponse` searches for. -/
def header (a : CacheAnswer) : Bytes :=
  match a.result with
  | .stored => a.statusPart 302 "OK" ++ [10]
  | .found body => a.statusPart 302 "OK" ++ [10] ++ lengthPart body.length ++ [10]
  | .notFound => a.statusPart 400 "NOT FOUND" ++ [10]

/-- The reply. -/
def text (a : CacheAnswer) : Bytes :=
  a.header ++ match a.result with
  | .found body => [13, 10] ++ body
  | _ => []

/-- What the handlers are to be told. -/
def reply (a : CacheAnswer) : CacheReply :=
  match a.result with
  | .stored => .hit []
  | .found body => .hit body
  | .notFound => .miss

/-- The request asks for such a reply: a get request has the length of the chunk it asks for. -/
def Answers (a : CacheAnswer) (request : CacheRequest) : Prop :=
  match a.result with
  | .stored => request.method = .put
  | .found body => request.method = .get ∧ request.length = body.length
  | .notFound => request.method = .get ∨ request.method = .peek

end CacheAnswer

/-- Behind the `n` bytes that were read there is no newline before the next zero byte. -/
def StaleEnds (buffer : Nat → Byte) (n : Nat) : Prop :=
  ∃ p, n ≤ p ∧ p < recvBufsize ∧ buffer p = 0 ∧ ∀ k, n ≤ k → k < p → buffer k ≠ 10

section Parse

variable {a : CacheAnswer} {buffer : Nat → Byte} {n code : Nat} {reason : String} {after : Bytes} {request : CacheRequest}

/-- A character, and the zero byte, do not occur. -/
def Free (c : Byte) (bytes : Bytes) : Prop := ∀ b ∈ bytes, b ≠ c ∧ b ≠ 0

instance (c : Byte) (bytes : Bytes) : Decidable (Free c bytes) := inferInstanceAs (Decidable (∀ b ∈ bytes, b ≠ c ∧ b ≠ 0))

theorem Free.append {c : Byte} {x y : Bytes} (hx : Free c x) (hy : Free c y) : Free c (x ++ y) := by
  intro b hb
  rcases List.mem_append.mp hb with hb | hb
  · exact hx b hb
  · exact hy b hb

theorem free_decimal {c : Byte} (hc : ¬ IsDigit c) (k : Nat) : Free c (decimal k) := by
  intro b hb
  have hdigit := isDigit_of_mem_decimal hb
  exact ⟨hdigit.ne hc, hdigit.ne (by simp [IsDigit])⟩

theorem free_protocol {c : Byte} (hc : ¬ IsDigit c) (hname : Free c (ascii "HTTP/")) (hdot : Free c (ascii ".")) :
    Free c a.protocol :=
  ((hname.append (free_decimal hc _)).append hdot).append (free_decimal hc _)

theorem not_isDigit_newline : ¬ IsDigit 10 := by simp [IsDigit]

theorem not_isDigit_space : ¬ IsDigit 32 := by simp [IsDigit]

theorem free_statusPart (hreason : Free 10 (ascii reason)) : Free 10 (a.statusPart code reason) := by
  have hprotocol : Free 10 a.protocol := free_protocol not_isDigit_newline (by decide) (by decide)
  have hspace : Free 10 [32] := by decide
  exact ((((hprotocol.append hspace).append (free_decimal not_isDigit_newline code)).append hspace).append hreason).append
    (by decide)

theorem free_lengthPart (length : Nat) : Free 10 (CacheAnswer.lengthPart length) := by
  have hname : Free 10 (ascii "Content-Length:") := by decide
  exact ((hname.append (by decide)).append (free_decimal not_isDigit_newline length)).append (by decide)

theorem decimal_length_pos (k : Nat) : 0 < (decimal k).length := List.length_pos_iff.mpr (decimal_ne_nil k)

theorem protocol_length (a : CacheAnswer) : 8 ≤ a.protocol.length := by
  have hname : (ascii "HTTP/").length = 5 := by decide
  have hdot : (ascii ".").length = 1 := by decide
  have hmajor := decimal_length_pos a.major
  have hminor := decimal_length_pos a.minor
  simp only [CacheAnswer.protocol, List.length_append, hname, hdot]
  omega

theorem statusPart_length (a : CacheAnswer) (code : Nat) (reason : String) :
    (a.statusPart code reason).length = a.protocol.length + (decimal code).length + (ascii reason).length + 3 := by
  simp only [CacheAnswer.statusPart, List.length_append, List.length_singleton]
  omega

theorem lengthPart_length (length : Nat) : (CacheAnswer.lengthPart length).length = (decimal length).length + 17 := by
  have hname : (ascii "Content-Length:").length = 15 := by decide
  simp only [CacheAnswer.lengthPart, List.length_append, List.length_singleton, hname]
  omega

theorem parse_statusPart (h : Shows buffer n (a.statusPart code reason ++ 10 :: after))
    (hn : (a.statusPart code reason).length < n) (hle : n ≤ recvBufsize) (hreason : Free 10 (ascii reason)) (hcode : code < 2 ^ 31) :
    strchr buffer 10 recvBufsize 0 = .ok (some (a.statusPart code reason).length) ∧
    strchr buffer 32 recvBufsize 0 = .ok (some a.protocol.length) ∧
    atoi buffer (recvBufsize - (a.protocol.length + 1)) (a.protocol.length + 1) = .ok (code : Int) ∧ 12 ≤ n := by
  have hlength := statusPart_length a code reason
  have hprotocol := protocol_length a
  have hdigits := decimal_length_pos code
  refine ⟨?_, ?_, ?_, by omega⟩
  · have hline : Shows buffer n ([] ++ a.statusPart code reason ++ 10 :: after) := h
    have hfound := hline.strchr_part recvBufsize (by simpa using hn) (by omega) (free_statusPart hreason)
    simpa using hfound
  · have hword : Shows buffer n ([] ++ a.protocol ++ 32 :: (decimal code ++ [32] ++ ascii reason ++ [13] ++ 10 :: after)) := by
      simpa [CacheAnswer.statusPart] using h
    have hfound := hword.strchr_part recvBufsize (by simpa using (by omega : a.protocol.length < n)) (by omega)
      (free_protocol not_isDigit_space (by decide) (by decide))
    simpa using hfound
  · have hnumber : Shows buffer n (a.protocol ++ [32] ++ decimal code ++ 32 :: (ascii reason ++ [13] ++ 10 :: after)) := by
      simpa [CacheAnswer.statusPart] using h
    have hparsed := hnumber.atoi_decimal (recvBufsize - (a.protocol.length + 1)) (by simp; omega) not_isDigit_space hcode
      (by omega)
    simpa using hparsed

/-- No newline is found where only bytes without one were read and none is left behind them. -/
theorem strchr_unread {before part after : Bytes} (h : Shows buffer n (before ++ part ++ after)) (hfrom : before.length ≤ n)
    (hto : n ≤ before.length + part.length) (hpart : Free 10 part) (hstale : StaleEnds buffer n) :
    strchr buffer 10 (recvBufsize - before.length) before.length = .ok none := by
  obtain ⟨p, hle, hp, hzero, hno⟩ := hstale
  apply strchr_missing (by decide) hzero (hfrom.trans hle) (by omega)
  intro k hk hkp
  by_cases hread : k < n
  · exact (hpart _ (h.mem_part hread hk (by omega))).1
  · exact hno k (by omega) hkp

/-- Of an unfinished status line nothing is told. -/
theorem parse_unread_status (h : Shows buffer n (a.statusPart code reason ++ 10 :: after)) (hpos : 0 < n)
    (hn : n ≤ (a.statusPart code reason).length) (hreason : Free 10 (ascii reason)) (hstale : StaleEnds buffer n) :
    parseCacheResponse buffer n request = .ok .more := by
  have hline : Shows buffer n ([] ++ a.statusPart code reason ++ 10 :: after) := h
  have hnone := strchr_unread hline (Nat.zero_le _) (by simpa using hn) (free_statusPart hreason) hstale
  have hlen : (0 : Int) < n := by exact_mod_cast hpos
  rw [parseCacheResponse, check_of hlen, ok_bind]
  rw [List.length_nil, Nat.sub_zero] at hnone
  rw [hnone]
  rfl

theorem parse_lengthPart {length : Nat}
    (h : Shows buffer n (a.statusPart code reason ++ [10] ++ CacheAnswer.lengthPart length ++ 10 :: after))
    (hn : (a.statusPart code reason ++ [10] ++ CacheAnswer.lengthPart length).length < n) (hle : n ≤ recvBufsize)
    (hlength : length < 2 ^ 31) :
    strchr buffer 10 (recvBufsize - ((a.statusPart code reason).length + 1)) ((a.statusPart code reason).length + 1) =
      .ok (some (a.statusPart code reason ++ [10] ++ CacheAnswer.lengthPart length).length) ∧
    atoi buffer (recvBufsize - ((a.statusPart code reason).length + 16)) ((a.statusPart code reason).length + 16) = .ok (length : Int) ∧
    24 ≤ n := by
  have hpart := lengthPart_length length
  have hstatus := statusPart_length a code reason
  have hprotocol := protocol_length a
  have hname : (ascii "Content-Length:").length = 15 := by decide
  simp only [List.length_append, List.length_singleton] at hn ⊢
  refine ⟨?_, ?_, by omega⟩
  · have hfound := h.strchr_part (recvBufsize - ((a.statusPart code reason).length + 1)) (by simpa using hn) (by omega)
      (free_lengthPart length)
    simpa using hfound
  · have hspace : buffer ((a.statusPart code reason).length + 16) = 32 := by
      apply h.byte (by omega)
      simp [CacheAnswer.lengthPart, List.getElem?_append, hname]
    have hnumber : Shows buffer n (a.statusPart code reason ++ [10] ++ ascii "Content-Length:" ++ [32] ++ decimal length ++
        13 :: 10 :: after) := by
      simpa [CacheAnswer.lengthPart] using h
    obtain ⟨fuel, hfuel⟩ : ∃ fuel, recvBufsize - ((a.statusPart code reason).length + 16) = fuel + 1 :=
      ⟨recvBufsize - ((a.statusPart code reason).length + 17), by omega⟩
    have hparsed := hnumber.atoi_decimal fuel (by simp [hname]; omega) (by simp [IsDigit]) hlength (by omega)
    rw [hfuel, atoi_space hspace]
    simpa [hname, Nat.add_assoc] using hparsed

theorem parse_unread (hanswers : a.Answers request) (h : Shows buffer n a.text) (hpos : 0 < n) (hn : n < a.header.length)
    (hle : n ≤ recvBufsize) (hstale : StaleEnds buffer n) : parseCacheResponse buffer n request = .ok .more := by
  have hok : Free 10 (ascii "OK") := by decide
  cases hresult : a.result with
  | stored =>
      simp only [CacheAnswer.text, CacheAnswer.header, hresult, List.append_assoc] at h hn
      rw [List.length_append, List.length_singleton] at hn
      exact parse_unread_status h hpos (Nat.le_of_lt_succ hn) hok hstale
  | notFound =>
      simp only [CacheAnswer.text, CacheAnswer.header, hresult, List.append_assoc] at h hn
      rw [List.length_append, List.length_singleton] at hn
      exact parse_unread_status h hpos (Nat.le_of_lt_succ hn) (by decide) hstale
  | found body =>
      simp only [CacheAnswer.Answers, hresult] at hanswers
      simp only [CacheAnswer.text, CacheAnswer.header, hresult] at h hn
      by_cases hstatus : n ≤ (a.statusPart 302 "OK").length
      · have hline : Shows buffer n
            (a.statusPart 302 "OK" ++ 10 :: (CacheAnswer.lengthPart body.length ++ [10] ++ ([13, 10] ++ body))) := by
          simpa using h
        exact parse_unread_status hline hpos hstatus hok hstale
      · have hline : Shows buffer n
            (a.statusPart 302 "OK" ++ 10 :: (CacheAnswer.lengthPart body.length ++ [10] ++ ([13, 10] ++ body))) := by
          simpa using h
        obtain ⟨hnewline, hspace, hnumber, htwelve⟩ := parse_statusPart hline (by omega) hle hok (by decide)
        have hunread : Shows buffer n
            (a.statusPart 302 "OK" ++ [10] ++ CacheAnswer.lengthPart body.length ++ ([10] ++ ([13, 10] ++ body))) := by
          simpa using h
        simp only [List.length_append, List.length_singleton] at hn
        have hnone := strchr_unread hunread (by simp; omega) (by simp; omega) (free_lengthPart body.length) hstale
        rw [List.length_append, List.length_singleton] at hnone
        have hlen : (0 : Int) < n := by exact_mod_cast hpos
        have htwelve' : (12 : Int) ≤ n := by exact_mod_cast htwelve
        have hcode : ((302 : Nat) : Int) = 302 := rfl
        rw [parseCacheResponse, check_of hlen, ok_bind, hnewline, ok_bind]
        simp only [hspace, ok_bind, check_of htwelve', hnumber, hcode, if_pos, hanswers.1, hnone]
        rfl

theorem recvBufsize_lt : recvBufsize < 2 ^ 31 := by decide

/-- Once they were read, `ProcessCacheResponse` waits for the rest of the reply, and then tells what the reply says. -/
theorem parse_read (hanswers : a.Answers request) (h : Shows buffer n a.text) (hn : a.header.length ≤ n)
    (hle : n ≤ a.text.length) (hfits : a.text.length ≤ recvBufsize) :
    parseCacheResponse buffer n request = .ok (if n < a.text.length then .more else a.reply) := by
  have hok : Free 10 (ascii "OK") := by decide
  have hheader : 0 < a.header.length := by
    rw [CacheAnswer.header]
    split <;> simp
  have hlen : (0 : Int) < n := by omega
  have hcode : ((302 : Nat) : Int) = 302 := rfl
  cases hresult : a.result with
  | stored =>
      simp only [CacheAnswer.Answers, hresult] at hanswers
      simp only [CacheAnswer.text, CacheAnswer.header, hresult, List.append_nil] at h hn hle hfits ⊢
      rw [List.length_append, List.length_singleton] at hn
      obtain ⟨hnewline, hspace, hnumber, htwelve⟩ := parse_statusPart h (by omega) (by omega) hok (by decide)
      have htwelve' : (12 : Int) ≤ n := by exact_mod_cast htwelve
      rw [parseCacheResponse, check_of hlen, ok_bind, hnewline, ok_bind]
      simp only [hspace, ok_bind, check_of htwelve', hnumber, hcode, if_pos, hanswers]
      rw [if_neg (by rw [List.length_append, List.length_singleton]; omega)]
      simp only [CacheAnswer.reply, hresult]
      rfl
  | notFound =>
      simp only [CacheAnswer.Answers, hresult] at hanswers
      simp only [CacheAnswer.text, CacheAnswer.header, hresult, List.append_nil] at h hn hle hfits ⊢
      rw [List.length_append, List.length_singleton] at hn
      obtain ⟨hnewline, hspace, hnumber, htwelve⟩ := parse_statusPart h (by omega) (by omega) (by decide) (by decide)
      have htwelve' : (12 : Int) ≤ n := by exact_mod_cast htwelve
      have hmiss : ¬ ((400 : Nat) : Int) = 302 := by decide
      have hcode' : ((400 : Nat) : Int) = 400 := rfl
      rw [parseCacheResponse, check_of hlen, ok_bind, hnewline, ok_bind]
      simp only [hspace, ok_bind, check_of htwelve', hnumber, if_neg hmiss, if_pos hcode']
      rw [if_neg (by rw [List.length_append, List.length_singleton]; omega)]
      simp only [CacheAnswer.reply, hresult]
      rcases hanswers with hmethod | hmethod
      · rw [hmethod]
        rfl
      · rw [hmethod]
        rfl
  | found body =>
      simp only [CacheAnswer.Answers, hresult] at hanswers
      simp only [CacheAnswer.text, CacheAnswer.header, hresult] at h hn hle hfits ⊢
      obtain ⟨hmethod, hlength⟩ := hanswers
      have hstatus : Shows buffer n
          (a.statusPart 302 "OK" ++ 10 :: (CacheAnswer.lengthPart body.length ++ [10] ++ ([13, 10] ++ body))) := by
        simpa using h
      have hline : Shows buffer n (a.statusPart 302 "OK" ++ [10] ++ CacheAnswer.lengthPart body.length ++ 10 :: ([13, 10] ++ body)) := by
        simpa using h
      have hbody : body.length < 2 ^ 31 := by
        have hsmall := recvBufsize_lt
        simp only [List.length_append] at hfits
        omega
      have hread : (a.statusPart 302 "OK" ++ [10] ++ CacheAnswer.lengthPart body.length).length < n := by
        rw [List.length_append, List.length_singleton] at hn
        exact hn
      obtain ⟨hnewline, hspace, hnumber, htwelve⟩ := parse_statusPart hstatus
        (by simp only [List.length_append, List.length_singleton] at hread; omega) (hle.trans hfits) hok (by decide)
      obtain ⟨hnewline', hnumber', htwentyfour⟩ := parse_lengthPart hline hread (hle.trans hfits) hbody
      have htwelve' : (12 : Int) ≤ n := by exact_mod_cast htwelve
      have htwentyfour' : (24 : Int) ≤ n := by exact_mod_cast htwentyfour
      rw [parseCacheResponse, check_of hlen, ok_bind, hnewline, ok_bind]
      simp only [hspace, ok_bind, check_of htwelve', hnumber, hcode, if_pos, hmethod, hnewline', check_of htwentyfour',
        hnumber', check_of hlength.symm]
      generalize hhead : a.statusPart 302 "OK" ++ [10] ++ CacheAnswer.lengthPart body.length = head at h hle ⊢
      have htext : (head ++ [10] ++ ([13, 10] ++ body)).length = head.length + 1 + 2 + body.length := by
        simp only [List.length_append, List.length_cons, List.length_nil]
        omega
      rw [htext] at hle ⊢
      by_cases hmore : n < head.length + 1 + 2 + body.length
      · rw [if_pos (by omega), if_pos hmore]
        rfl
      · have hall : (body.length : Int) + (head.length + 1 + 2 : Nat) = n := by omega
        have hwhole : Shows buffer ((head ++ [10] ++ [13, 10]).length + body.length) (head ++ [10] ++ [13, 10] ++ body) := by
          have hn' : (head ++ [10] ++ [13, 10]).length + body.length = n := by
            simp only [List.length_append, List.length_cons, List.length_nil]
            omega
          rw [hn', List.append_assoc _ _ body]
          exact h
        have hbytes := hwhole.map_range
        rw [List.length_append, List.length_append] at hbytes
        rw [if_neg (by omega), if_neg hmore, check_of hall, ok_bind, Int.toNat_natCast]
        simp only [CacheAnswer.reply, hresult]
        exact congrArg (fun block => Except.ok (CacheReply.hit block)) hbytes

end Parse

end BeagleCache
