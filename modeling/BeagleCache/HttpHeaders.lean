import BeagleCache.HttpLex
import BeagleCache.HttpTime

/-! The headers of a response, `httpHeaders.c`. Each function is called with the tokenizer behind the name of its header; it
reads as many tokens as it needs and stores what they say in the response. -/

namespace BeagleCache

inductive HttpMethod
  | get
  | head
  | post
  | put
  | waproxGet
  | waproxPut
  deriving DecidableEq

inductive HttpStatus
  | badRequest
  | comeBack
  | entityIncomplete
  | entityComplete
  | badResponse
  | closed
  | goodResponseLine
  | buffFull
  deriving DecidableEq

inductive HttpStage
  | responseLine
  | httpHeader
  | entityFetch
  deriving DecidableEq

/-- How the end of the entity is found. It is not set before the headers are complete. -/
inductive EntityType
  | unset
  | clen
  | chun
  | conn
  deriving DecidableEq

/-- The `cache_control_response`. The flags are `PRESENT` or `ABSENT`. -/
@[ext]
structure CacheControlResponse where
  ccPublic : Bool
  ccPrivate : Bool
  no_cache : Bool
  no_store : Bool
  no_transform : Bool
  must_revalidate : Bool
  proxy_revalidate : Bool
  max_age : Int
  s_maxage : Int
  deriving DecidableEq

/-- A `bufBlock`. -/
structure BufBlock where
  buf : Int
  rstart : Int
  wstart : Int
  last : Int
  deriving DecidableEq

/-- An `httpResponse`. Pointers into its buffer are places in `mem`. -/
structure HttpResponse where
  mem : Int → Byte
  stage : HttpStage
  start : Start
  state : LexState
  rewind : Int
  len : Int
  method : HttpMethod
  status : HttpStatus
  unWritten : Int
  toSend : List BufBlock
  toWrite : List BufBlock
  block : Int
  downloaded : Int
  used : Int
  majVersion : Int
  minVersion : Int
  code : Int
  message : Int
  contentType : Option Int
  headers : List Int
  cc : Option CacheControlResponse
  last_modified : Int
  age_value : Int
  date_value : Int
  expires_value : Int
  response_time : Int
  request_time : Int
  conn : Option Int
  pconn : Option Int
  con_len : Int
  te : Option Int
  entityLen : Int
  rcvd : Int
  etype : EntityType

/-- `HTTP_BLOCK_SIZE + 1`, the size of the buffer of a response. -/
def httpBufSize : Nat := 8193

/-- `atoi` where a `long` has 32 bits. -/
def atoi32 (buffer : Nat → Byte) : Nat → Nat → Run Int
  | 0, _ => .error .overrun
  | fuel + 1, pos =>
      if isSpace (buffer pos) then atoi32 buffer fuel (pos + 1)
      else if buffer pos = 45 then do
        let value ← digits buffer fuel (pos + 1) 0
        return -(min value (2 ^ 31) : Nat)
      else do
        let start := if buffer pos = 43 then pos + 1 else pos
        let value ← digits buffer fuel start 0
        return (min value (2 ^ 31 - 1) : Nat)

/-- `atoi( token )`. -/
def Lex.atoiToken (l : Lex) : Run Int := atoi32 (fun k => l.mem (l.token + k)) httpBufSize 0

/-- The letter at place `k` of the token, in lower case. -/
def Lex.letter (l : Lex) (k : Nat) : Byte :=
  let b := l.mem (l.token + k)
  if 65 ≤ b.toNat ∧ b.toNat ≤ 90 then b + 32 else b

/-- `months`. It looks at the fourth letter of a name that starts with `J`. -/
def months (l : Lex) : Int :=
  if l.letter 0 = 106 then
    if l.letter 3 = 101 then 5 else if l.letter 3 = 117 then 0 else if l.letter 3 = 121 then 6 else 0
  else if l.letter 0 = 102 then 1
  else if l.letter 0 = 109 then
    if l.letter 2 = 114 then 2 else if l.letter 2 = 121 then 4 else 2
  else if l.letter 0 = 97 then
    if l.letter 1 = 112 then 3 else if l.letter 1 = 117 then 7 else 3
  else if l.letter 0 = 115 then 8
  else if l.letter 0 = 111 then 9
  else if l.letter 0 = 110 then 10
  else if l.letter 0 = 100 then 11
  else 0

/-- The next token of a date, or `-1`. -/
def dateToken (fuel : Nat) (l : Lex) (next : Lex → Run (Int × Option Int × Lex)) : Run (Int × Option Int × Lex) := do
  let r ← getNextToken fuel l
  if r.1 = .fail then return (-1, none, r.2) else next r.2

/-- The colon in a time, or `-1`. -/
def dateColon (fuel : Nat) (l : Lex) (next : Lex → Run (Int × Option Int × Lex)) : Run (Int × Option Int × Lex) := do
  let r ← eat fuel l .colon (some 1)
  if r.1 = -1 then return (-1, none, r.2) else next r.2

/-- `eat( SP, len )` with its result ignored. -/
def skipSpace (fuel : Nat) (l : Lex) (len : Option Nat) : Run Lex := do
  let r ← eat fuel l .sp len
  return r.2

/-- The hour, the minutes and the seconds. -/
def parseTime (fuel : Nat) (l : Lex) (next : Int → Int → Int → Lex → Run (Int × Option Int × Lex)) :
    Run (Int × Option Int × Lex) :=
  dateToken fuel l fun l => do
    let tm_hour ← l.atoiToken
    dateColon fuel l fun l => dateToken fuel l fun l => do
      let tm_min ← l.atoiToken
      dateColon fuel l fun l => dateToken fuel l fun l => do
        let tm_sec ← l.atoiToken
        next tm_hour tm_min tm_sec l

/-- A comma before the month: the status of the token behind it is not looked at. -/
def skipComma (fuel : Nat) (l : Lex) : Run Lex :=
  if l.tokenType = .comma then do
    let l ← skipSpace fuel l none
    let r ← getNextToken fuel l
    return r.2
  else .ok l

section Dates

variable [Daylight]

/-- The date with the day of the month first: `06 Nov 1994 08:49:37`. -/
def parseDate1 (header : DateHeader) (fuel : Nat) (l : Lex) : Run (Int × Option Int × Lex) := do
  let tm_mday ← l.atoiToken
  let l ← skipSpace fuel l none
  dateToken fuel l fun l => do
    let l ← skipComma fuel l
    let tm_mon := months l
    let l ← skipSpace fuel l none
    dateToken fuel l fun l => do
      let tm_year ← l.atoiToken
      let l ← skipSpace fuel l none
      parseTime fuel l fun tm_hour tm_min tm_sec l =>
        return (0, some (mktime ⟨tm_mday, tm_mon, tm_year - 1900, tm_hour, tm_min, tm_sec, Daylight.tm_isdst header⟩), l)

/-- The date with the month first: `Nov  6 08:49:37 1994`. -/
def parseDate2 (header : DateHeader) (fuel : Nat) (l : Lex) : Run (Int × Option Int × Lex) := do
  let tm_mon := months l
  let l ← skipSpace fuel l none
  dateToken fuel l fun l => do
    let tm_mday ← l.atoiToken
    let l ← skipSpace fuel l none
    parseTime fuel l fun tm_hour tm_min tm_sec l => do
      let l ← skipSpace fuel l none
      dateToken fuel l fun l => do
        let tm_year ← l.atoiToken
        return (0, some (mktime ⟨tm_mday, tm_mon, tm_year - 1900, tm_hour, tm_min, tm_sec, Daylight.tm_isdst header⟩), l)

/-- `parseDate`. The third token decides which of the forms it is; the date is left as it was where it is neither. No form sets
`tm_isdst`. -/
def parseDate (header : DateHeader) (fuel : Nat) (l : Lex) : Run (Int × Option Int × Lex) := do
  let l ← skipSpace fuel l none
  dateToken fuel l fun l => dateToken fuel l fun l => do
    let l ← if l.tokenType = .comma then skipSpace fuel l (some 1) else .ok l
    dateToken fuel l fun l =>
      if l.toklen = 2 then parseDate1 header fuel l
      else if l.toklen = 3 then parseDate2 header fuel l
      else return (0, none, l)

end Dates

/-- What a header function does with the response. -/
abbrev HeaderResult := Run (Int × HttpResponse × Lex)

def HttpResponse.bad (r : HttpResponse) : HttpResponse := { r with status := .badResponse }

/-- The colon of a header, and the space behind it: a missing space is noted in the status, and what follows is read all the
same. -/
def headerColon (fuel : Nat) (r : HttpResponse) (l : Lex) (next : HttpResponse → Lex → HeaderResult) : HeaderResult := do
  let colon ← eat fuel l .colon (some 1)
  if colon.1 = -1 then return (-1, r.bad, colon.2)
  else do
    let space ← eat fuel colon.2 .sp none
    next (if space.1 = -1 then r.bad else r) space.2

/-- The family of headers with one token behind colon and space. -/
def tokenHeader (set : HttpResponse → Lex → Run HttpResponse) (fuel : Nat) (r : HttpResponse) (l : Lex) : HeaderResult :=
  headerColon fuel r l fun r l => do
    let token ← getNextToken fuel l
    if token.1 = .fail then return (-1, r.bad, token.2)
    else do
      let r ← set r token.2
      return (0, r, token.2)

def parseResponseAge : Nat → HttpResponse → Lex → HeaderResult := tokenHeader fun r l => do
  let value ← l.atoiToken
  return { r with age_value := value }

def parseResponseContentLength : Nat → HttpResponse → Lex → HeaderResult := tokenHeader fun r l => do
  let value ← l.atoiToken
  return { r with con_len := value }

def parseResponseResponseTime : Nat → HttpResponse → Lex → HeaderResult := tokenHeader fun r l => do
  let value ← l.atoiToken
  return { r with response_time := value }

def parseResponseRequestTime : Nat → HttpResponse → Lex → HeaderResult := tokenHeader fun r l => do
  let value ← l.atoiToken
  return { r with request_time := value }

def parseResponseConnection : Nat → HttpResponse → Lex → HeaderResult :=
  tokenHeader fun r l => return { r with conn := some l.token }

def parseResponseProxyConnection : Nat → HttpResponse → Lex → HeaderResult :=
  tokenHeader fun r l => return { r with pconn := some l.token }

def parseResponseTE : Nat → HttpResponse → Lex → HeaderResult :=
  tokenHeader fun r l => return { r with te := some l.token }

/-- The family of headers with a date behind colon and space; `badStatus` is what a date that cannot be read makes of the status. -/
def dateHeader [Daylight] (header : DateHeader) (set : HttpResponse → Option Int → HttpResponse)
    (badStatus : HttpResponse → HttpResponse) (fuel : Nat) (r : HttpResponse) (l : Lex) : HeaderResult :=
  headerColon fuel r l fun r l => do
    let date ← parseDate header fuel l
    let r := set r date.2.1
    if date.1 = -1 then return (-1, badStatus r, date.2.2) else return (0, r, date.2.2)

def parseResponseExpires [Daylight] : Nat → HttpResponse → Lex → HeaderResult :=
  dateHeader .expires (fun r date => { r with expires_value := date.getD r.expires_value }) HttpResponse.bad

/-- `parseResponseDate`, which sets the time of the response too. -/
def parseResponseDate [Daylight] : Nat → HttpResponse → Lex → HeaderResult :=
  dateHeader .date (fun r date => { r with
    date_value := date.getD r.date_value
    response_time := date.getD r.date_value }) HttpResponse.bad

/-- `parseResponseLM`. It leaves the status alone. -/
def parseResponseLM [Daylight] : Nat → HttpResponse → Lex → HeaderResult :=
  dateHeader .lastModified (fun r date => { r with last_modified := date.getD r.last_modified }) id

/-- `addToTail( headers, 0, buf )`: the header is kept as it is. -/
def parseUnknownResponseHeader (r : HttpResponse) (l : Lex) : HttpResponse := { r with headers := r.headers ++ [l.buf] }

def parseResponseContentType (r : HttpResponse) (l : Lex) : HttpResponse :=
  parseUnknownResponseHeader { r with contentType := some l.buf } l

/-! ## Cache-Control -/

inductive Directive
  | noCache
  | noStore
  | maxAge
  | maxStale
  | minFresh
  | noTransform
  | onlyIfCached
  | ccPublic
  | ccPrivate
  | mustRevalidate
  | proxyRevalidate
  | sMaxage
  deriving DecidableEq

/-- `ccTab`. -/
def ccTab : List (Bytes × Directive) :=
  [(ascii "no-cache", .noCache), (ascii "no-store", .noStore), (ascii "max-age", .maxAge), (ascii "max-stale", .maxStale),
    (ascii "min-fresh", .minFresh), (ascii "no-transform", .noTransform), (ascii "only-if-cached", .onlyIfCached),
    (ascii "public", .ccPublic), (ascii "private", .ccPrivate), (ascii "must-revalidate", .mustRevalidate),
    (ascii "proxy-revalidate", .proxyRevalidate), (ascii "s-maxage", .sMaxage)]

/-- The bytes of the token. -/
def Lex.tokenBytes (l : Lex) : Bytes := (List.range l.toklen).map fun k : Nat => l.mem (l.token + k)

def absentCacheControl : CacheControlResponse where
  ccPublic := false
  ccPrivate := false
  no_cache := false
  no_store := false
  no_transform := false
  must_revalidate := false
  proxy_revalidate := false
  max_age := -1
  s_maxage := -1

def HttpResponse.setCC (r : HttpResponse) (f : CacheControlResponse → CacheControlResponse) : HttpResponse :=
  { r with cc := r.cc.map f }

/-- The flag of a directive that has no value. -/
def Directive.flag : Directive → Option (CacheControlResponse → CacheControlResponse)
  | .ccPublic => some fun cc => { cc with ccPublic := true }
  | .ccPrivate => some fun cc => { cc with ccPrivate := true }
  | .noCache => some fun cc => { cc with no_cache := true }
  | .noStore => some fun cc => { cc with no_store := true }
  | .noTransform => some fun cc => { cc with no_transform := true }
  | .mustRevalidate => some fun cc => { cc with must_revalidate := true }
  | .proxyRevalidate => some fun cc => { cc with proxy_revalidate := true }
  | _ => none

/-- The field of a directive that has a value. -/
def Directive.field : Directive → Option (Int → CacheControlResponse → CacheControlResponse)
  | .maxAge => some fun value cc => { cc with max_age := value }
  | .sMaxage => some fun value cc => { cc with s_maxage := value }
  | _ => none

/-- The equals sign and the value of a directive. -/
def directiveValue (fuel : Nat) (r : HttpResponse) (l : Lex) (set : Int → CacheControlResponse → CacheControlResponse)
    (next : HttpResponse → Lex → HeaderResult) : HeaderResult := do
  let sign ← getNextToken fuel l
  if sign.1 = .fail then return (-1, r, sign.2)
  else if sign.2.tokenType ≠ .equals then return (0, r.bad, sign.2)
  else do
    let value ← getNextToken fuel sign.2
    if value.1 = .fail then return (-1, r, value.2)
    else if value.2.tokenType ≠ .token then return (0, r.bad, value.2)
    else do
      let number ← value.2.atoiToken
      next (r.setCC (set number)) value.2

/-- The loop of `parseResponseCacheControl`; the first number is the fuel of the tokenizer. -/
def cacheControlLoop (fuel : Nat) : Nat → HttpResponse → Lex → HeaderResult
  | 0, _, _ => .error .hang
  | rounds + 1, r, l => do
      let token ← getNextToken fuel l
      if token.1 = .fail then return (-1, r.bad, token.2)
      else if token.2.tokenType = .lws ∨ token.2.tokenType = .comma ∨ token.2.tokenType = .sp then
        cacheControlLoop fuel rounds r token.2
      else if token.2.tokenType = .crlf then
        return (0, { r with status := .comeBack }, { token.2 with state := .none, start := .line })
      else match ccTab.lookup token.2.tokenBytes with
      | none => cacheControlLoop fuel rounds r token.2
      | some directive =>
          match directive.flag, directive.field with
          | some set, _ => cacheControlLoop fuel rounds (r.setCC set) token.2
          | none, some set => directiveValue fuel r token.2 set (cacheControlLoop fuel rounds)
          | none, none => cacheControlLoop fuel rounds r token.2

/-- `parseResponseCacheControl`. -/
def parseResponseCacheControl (fuel : Nat) (r : HttpResponse) (l : Lex) : HeaderResult := do
  let r := { r with cc := some absentCacheControl }
  let colon ← eat fuel l .colon (some 1)
  if colon.1 = -1 then return (0, r.bad, colon.2)
  else cacheControlLoop fuel fuel r colon.2

end BeagleCache
