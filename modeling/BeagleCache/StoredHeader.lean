import BeagleCache.HttpParse

/-! The header that HashCache writes, `formSendHeader` and `formWriteHeader` of `proxy.c`: to a client, and in front of an object
on disk. -/

namespace BeagleCache

/-- A number with `%d`. -/
def intText (n : Int) : Bytes := if n < 0 then 45 :: ascii (toString n.natAbs) else ascii (toString n.natAbs)

/-- The C string at `pos`. -/
def cString (mem : Int → Byte) : Nat → Int → Run Bytes
  | 0, _ => .error .overrun
  | fuel + 1, pos => if mem pos = 0 then .ok [] else do
      let rest ← cString mem fuel (pos + 1)
      return mem pos :: rest

/-- `hdrCpy`: a header with the lines that continue it, or nothing where it is too long. -/
def hdrCpy (mem : Int → Byte) (src : Int) : Nat → Nat → Bytes → Run (Option Bytes)
  | 0, _, _ => .error .overrun
  | fuel + 1, i, dest =>
      let c := mem (src + i)
      if c ≠ 13 then
        if 3000 < i then .ok none else hdrCpy mem src fuel (i + 1) (dest ++ [c])
      else if mem (src + i + 1) = 10 then
        let next := mem (src + i + 2)
        if next = 32 ∨ next = 9 then hdrCpy mem src fuel (i + 3) (dest ++ [c, 10, next]) else .ok (some dest)
      else hdrCpy mem src fuel (i + 1) (dest ++ [c])

/-- `formResponseLine`. -/
def formResponseLine (r : HttpResponse) (message : Bytes) : Bytes :=
  if r.method = .waproxGet then
    ascii "HTTP/" ++ intText r.majVersion ++ ascii "." ++ intText r.minVersion ++ ascii " " ++ intText r.code ++ ascii " " ++
      message ++ crlf
  else ascii "HTTP/1.0 " ++ intText r.code ++ ascii " " ++ message ++ crlf

/-- The directives, each with a comma behind it. -/
def formDirectives (cc : CacheControlResponse) : Bytes :=
  (if cc.ccPrivate then ascii "private," else []) ++
  (if cc.ccPublic then ascii "public," else []) ++
  (if 0 < cc.max_age then ascii "max-age=" ++ intText cc.max_age ++ ascii "," else []) ++
  (if 0 < cc.s_maxage then ascii "s-maxage=" ++ intText cc.s_maxage ++ ascii "," else []) ++
  (if cc.no_cache then ascii "no-cache," else []) ++
  (if cc.no_store then ascii "no-store," else []) ++
  (if cc.no_transform then ascii "no-transform," else []) ++
  (if cc.must_revalidate then ascii "must-revalidate," else []) ++
  (if cc.proxy_revalidate then ascii "proxy-revalidate," else [])

/-- The header with the directives, `genBufferLen -= 1` over the last comma or, where there is none, the space. -/
def formCacheControl (cc : CacheControlResponse) : Bytes := (ascii "Cache-Control: " ++ formDirectives cc).dropLast ++ crlf

/-- A header with a date, where it is known. -/
def formDate (name : String) (t : Int) : Bytes := if 0 < t then ascii name ++ asctime (gmtime t) ++ ascii " GMT" ++ crlf else []

/-- The headers that were kept. Of one that is too long only its end is written. -/
def formKept (mem : Int → Byte) : List Int → Run Bytes
  | [] => .ok []
  | src :: headers => do
      let copied ← hdrCpy mem src (2 * httpBufSize) 0 []
      let rest ← formKept mem headers
      return copied.getD [] ++ crlf ++ rest

/-- The headers `formSendHeader` writes before those that were kept, at the time `now`. -/
def formKnown (r : HttpResponse) (now : Int) : Bytes :=
  (if 0 < r.age_value then ascii "Age: " ++ intText r.age_value ++ crlf else []) ++
  (if r.etype = .conn then ascii "Connection: close" ++ crlf else ascii "Content-Length: " ++ intText r.con_len ++ crlf) ++
  (match r.cc with
    | some cc => formCacheControl cc
    | none => []) ++
  (if r.method = .waproxPut ∧ 0 ≤ r.con_len then ascii "Content-Length: " ++ intText r.con_len ++ crlf else []) ++
  (ascii "Date: " ++ asctime (gmtime now) ++ ascii " GMT" ++ crlf) ++
  formDate "Expires: " r.expires_value ++
  formDate "Last-Modified: " r.last_modified ++
  (if r.te.isSome then ascii "Transfer-Encoding: chunked" ++ crlf else [])

/-- `formSendHeader`. -/
def formSendHeader (r : HttpResponse) (now : Int) : Run Bytes := do
  let message ← cString r.mem httpBufSize r.message
  if r.method = .waproxGet then
    return formResponseLine r message ++
      (if 0 ≤ r.con_len then ascii "Content-Length: " ++ intText r.con_len ++ crlf else []) ++ crlf
  else do
    let kept ← formKept r.mem r.headers
    return formResponseLine r message ++ formKnown r now ++ kept ++ crlf

/-- `formWriteHeader`: two more headers before the empty line. -/
def formWriteHeader (r : HttpResponse) (now : Int) : Run Bytes := do
  let text ← formSendHeader r now
  return text.take (text.length - 2) ++ (ascii "Response-Time: " ++ intText r.response_time ++ crlf) ++
    (ascii "Request-Time: " ++ intText r.request_time ++ crlf) ++ crlf

end BeagleCache
