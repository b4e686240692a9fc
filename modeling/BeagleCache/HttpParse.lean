import BeagleCache.HttpHeaders
import BeagleCache.LogAllocator

/-! `parseResponse` of `http.c`: the status line, the headers and the entity of a response, as far as they were read. A token
that was not read to its end is read again with what comes next. -/

namespace BeagleCache

open Hcfs (httpActBlockSize addlHeadSize)

variable [Daylight]

/-- `strncmp( name, text, n ) == 0`, where the text has `n` bytes. -/
def startsWith (mem : Int → Byte) (name : Int) (text : Bytes) : Bool :=
  (List.range text.length).map (fun k : Nat => mem (name + k)) = text

/-- The version a status line starts with. -/
def responseVersion (l : Lex) : Option (Int × Int) :=
  if startsWith l.mem l.token (ascii "HTTP/1.1") then some (1, 1)
  else if startsWith l.mem l.token (ascii "HTTP/1.0") then some (1, 0)
  else if startsWith l.mem l.token (ascii "HTTP/0.9") then some (0, 9)
  else none

/-- The end of `parseResponseLine`: the rest of the line is the message. -/
def parseMessage (fuel : Nat) (r : HttpResponse) (l : Lex) : HeaderResult := do
  let token ← getNextToken fuel { l with state := .none, start := .header }
  let l := { token.2 with state := .none, start := .line }
  if token.1 = .fail then return (-1, r.bad, l)
  else return (0, { r with message := l.token, status := .goodResponseLine },
    { l with mem := Function.update l.mem (l.token + l.toklen - 2) 0 })

/-- `parseResponseLine`. -/
def parseResponseLine (fuel : Nat) (r : HttpResponse) (l : Lex) : HeaderResult := do
  let version ← getNextToken fuel l
  if version.1 = .fail then return (-1, r.bad, version.2)
  else match responseVersion version.2 with
  | none => return (0, r.bad, version.2)
  | some (majVersion, minVersion) => do
      let r := { r with majVersion := majVersion, minVersion := minVersion }
      let space ← eat fuel version.2 .sp (some 1)
      if space.1 = -1 then return (0, r.bad, space.2)
      else do
        let code ← getNextToken fuel space.2
        if code.1 = .fail then return (-1, r.bad, code.2)
        else if code.2.tokenType ≠ .token then return (0, r.bad, code.2)
        else do
          let value ← code.2.atoiToken
          let r := { r with code := value }
          let space ← eat fuel code.2 .sp (some 1)
          if space.1 = -1 then return (0, r.bad, space.2) else parseMessage fuel r space.2

/-- The functions of `responseHeaderFunctions`. -/
inductive HeaderFunction
  | cacheControl
  | age
  | connection
  | contentLength
  | contentType
  | date
  | expires
  | lastModified
  | te
  | responseTime
  | requestTime
  | proxyConnection
  | unknown
  deriving DecidableEq

/-- `hTab` with `responseHeaderFunctions`. All other names of the table have the function for unknown headers, which does what is
done with a name that is not in the table. -/
def responseHeaderTable : List (Bytes × HeaderFunction) :=
  [(ascii "Cache-Control", .cacheControl), (ascii "Age", .age), (ascii "Connection", .connection),
    (ascii "Content-Length", .contentLength), (ascii "Content-length", .contentLength), (ascii "Content-Type", .contentType),
    (ascii "Date", .date), (ascii "Expires", .expires), (ascii "Last-Modified", .lastModified),
    (ascii "Transfer-Encoding", .te), (ascii "Response-Time", .responseTime), (ascii "Request-Time", .requestTime),
    (ascii "Proxy-Connection", .proxyConnection)]

def headerFunction (name : Bytes) : HeaderFunction := (responseHeaderTable.lookup name).getD .unknown

/-- The call through `responseHeaderFunctions`. -/
def HeaderFunction.call : HeaderFunction → Nat → HttpResponse → Lex → HeaderResult
  | .cacheControl, fuel, r, l => parseResponseCacheControl fuel r l
  | .age, fuel, r, l => parseResponseAge fuel r l
  | .connection, fuel, r, l => parseResponseConnection fuel r l
  | .contentLength, fuel, r, l => parseResponseContentLength fuel r l
  | .contentType, _, r, l => .ok (0, parseResponseContentType r l, l)
  | .date, fuel, r, l => parseResponseDate fuel r l
  | .expires, fuel, r, l => parseResponseExpires fuel r l
  | .lastModified, fuel, r, l => parseResponseLM fuel r l
  | .te, fuel, r, l => parseResponseTE fuel r l
  | .responseTime, fuel, r, l => parseResponseResponseTime fuel r l
  | .requestTime, fuel, r, l => parseResponseRequestTime fuel r l
  | .proxyConnection, fuel, r, l => parseResponseProxyConnection fuel r l
  | .unknown, _, r, l => .ok (0, parseUnknownResponseHeader r l, l)

/-- The bytes from the cursor on. -/
def Lex.ahead (l : Lex) (text : Bytes) : Bool := startsWith l.mem (l.buf + l.processed) text

/-- `parseHTTPHeader` of a response. A header with an empty value is kept as it is. -/
def parseHTTPHeader (fuel : Nat) (r : HttpResponse) (l : Lex) : HeaderResult := do
  let name ← getNextToken fuel l
  if name.1 = .fail then return (-1, r.bad, name.2)
  else if name.2.tokenType ≠ .token then return (0, r.bad, name.2)
  else if name.2.ahead [58, 32, 13, 10] then return (0, parseUnknownResponseHeader r name.2, name.2)
  else do
    let result ← (headerFunction name.2.tokenBytes).call fuel r name.2
    if result.1 = -1 then return (-1, result.2.1.bad, result.2.2) else return (0, result.2)

/-! ## The entity -/

/-- The value of a hexadecimal digit. -/
def hexValue (b : Byte) : Option Nat :=
  if 48 ≤ b.toNat ∧ b.toNat ≤ 57 then some (b.toNat - 48)
  else if 97 ≤ b.toNat ∧ b.toNat ≤ 102 then some (b.toNat - 87)
  else if 65 ≤ b.toNat ∧ b.toNat ≤ 70 then some (b.toNat - 55)
  else none

/-- The hexadecimal digits from `pos` on, with the value and the number of those before. -/
def hexDigits (buffer : Nat → Byte) : Nat → Nat → Nat → Nat → Run (Nat × Nat)
  | 0, _, _, _ => .error .overrun
  | fuel + 1, pos, value, count =>
      match hexValue (buffer pos) with
      | some digit => hexDigits buffer fuel (pos + 1) (value * 16 + digit) (count + 1)
      | none => .ok (value, count)

/-- `sscanf( text, "%x", &value )`: the `int` that is stored, if any is. -/
def sscanfHex (buffer : Nat → Byte) : Nat → Nat → Run (Option Int)
  | 0, _ => .error .overrun
  | fuel + 1, pos =>
      if isSpace (buffer pos) then sscanfHex buffer fuel (pos + 1)
      else do
        let negative : Bool := buffer pos = 45
        let pos := if buffer pos = 45 ∨ buffer pos = 43 then pos + 1 else pos
        let pos := if buffer pos = 48 ∧ (buffer (pos + 1) = 120 ∨ buffer (pos + 1) = 88) then pos + 2 else pos
        let digits ← hexDigits buffer fuel pos 0 0
        let value : Int := (min digits.1 (2 ^ 32 - 1) : Nat)
        return if digits.2 = 0 then none else some ((if negative then -value else value).bmod (2 ^ 32))

/-- The loop over the trailer, behind the last chunk: `false` where a token is bad. -/
def trailerLoop (fuel : Nat) : Nat → Lex → Run (Bool × Lex)
  | 0, _ => .error .hang
  | rounds + 1, l => do
      let token ← getNextToken fuel { l with start := .line }
      if token.1 = .fail then return (false, token.2)
      else if token.2.tokenType = .crlf then return (true, token.2)
      else trailerLoop fuel rounds token.2

/-- `return` from `parseResponse`. -/
def HttpResponse.leave (r : HttpResponse) (l : Lex) (status : Int) : Int × HttpResponse := (status, { r with mem := l.mem })

/-- The block that was read is one of the entity, from `rstart` on. -/
def HttpResponse.addBlock (r : HttpResponse) (l : Lex) (rstart : Int) : HttpResponse :=
  let block : BufBlock := ⟨l.buf, rstart, rstart, l.last⟩
  { r with
    toSend := r.toSend ++ [block]
    toWrite := r.toWrite ++ [block]
    downloaded := r.downloaded + (l.last - rstart) }

/-- The kind of entity that the headers announce. -/
def entityType (r : HttpResponse) (mem : Int → Byte) : EntityType :=
  if 0 ≤ r.con_len then .clen
  else if r.conn.any (startsWith mem · (ascii "close")) then .conn
  else if r.te.any (startsWith mem · (ascii "chunked")) then .chun
  else .conn

/-- The empty line behind the headers. -/
def endOfHeaders (stream : Bool) (r : HttpResponse) (l : Lex) : HttpResponse × Lex :=
  let r := if stream then r.addBlock l l.processed else r
  let etype := entityType r l.mem
  ({ r with status := .entityIncomplete, stage := .entityFetch, etype := etype, entityLen := -1, rcvd := 0 },
    { l with state := .none, start := if etype = .chun then .lineend else .body })

/-- A line of the message with the tokenizer set to it. -/
def Lex.enter (l : Lex) (start : Start) : Lex := { l with buf := l.token, start := start, state := .none, processed := 0 }

/-- Back from a line. -/
def Lex.resume (l sub : Lex) : Lex := { sub with buf := l.buf, processed := l.processed, state := .none, start := .line }

/-- What a token of the entity comes to: `parseResponse` returns, or goes on. -/
inductive EntityStep
  | ret (status : Int) (r : HttpResponse) (l : Lex)
  | again (r : HttpResponse) (l : Lex)

/-- The entity, where it ends with the connection. -/
def connEntity (r : HttpResponse) (l : Lex) : EntityStep :=
  if l.tokenType ≠ .body then .ret 0 r.bad l
  else .ret 0 { r with rcvd := r.rcvd + (l.last - l.processed), status := .entityIncomplete } l

/-- The entity, where its length is known. -/
def clenEntity (r : HttpResponse) (l : Lex) : EntityStep :=
  if l.tokenType ≠ .body then .ret 0 r.bad l
  else if r.con_len - r.rcvd ≤ l.last - l.processed then .ret 0 { r with rcvd := r.con_len, status := .entityComplete } l
  else .ret 0 { r with rcvd := r.rcvd + (l.last - l.processed), state := .none, start := .body } l

/-- The bytes of a chunk, as far as they were read. -/
def chunkData (r : HttpResponse) (l : Lex) : EntityStep :=
  let total := l.last - l.processed
  if total < r.entityLen - r.rcvd then .ret 0 { r with rcvd := r.rcvd + total, start := .body, state := .none } l
  else .again { r with entityLen := -1 }
    { l with start := .lineend, state := .none, processed := l.processed + (2 + r.entityLen - r.rcvd) }

/-- A chunked entity. -/
def chunEntity (fuel : Nat) (r : HttpResponse) (l : Lex) : Run EntityStep :=
  if r.entityLen = -1 then do
    let value ← sscanfHex (fun k => l.mem (l.token + k)) httpBufSize 0
    let r := { r with entityLen := value.getD r.entityLen, rcvd := 0 }
    let l := { l with start := .body, state := .none }
    if r.entityLen = 0 then do
      let r := { r with status := .entityComplete }
      let trailer ← trailerLoop fuel fuel l
      if trailer.1 then return .ret 0 { r with rewind := trailer.2.last - trailer.2.processed } trailer.2
      else return .ret (-1) r trailer.2
    else return chunkData r l
  else .ok (chunkData r l)

/-- A token of the entity. -/
def entityStage (fuel : Nat) (r : HttpResponse) (l : Lex) : Run EntityStep :=
  match r.etype with
  | .conn => .ok (connEntity r l)
  | .clen => .ok (clenEntity r l)
  | .chun => chunEntity fuel r l
  | .unset => .ok (if l.tokenType = .crlf then .ret 0 { r with status := .entityComplete } l else .again r l)

/-- The loop of `parseResponse`; `stream` as long as the block that was read is none of the entity. -/
def responseLoop (fuel : Nat) : Nat → Bool → HttpResponse → Lex → Run (Int × HttpResponse)
  | 0, _, _, _ => .error .hang
  | rounds + 1, stream, r, l => do
      let r := { r with start := l.start, state := l.state }
      let token ← getNextToken fuel l
      let l := token.2
      if token.1 = .fail then return r.bad.leave l (-1)
      else if l.tokenType = .bufend then
        return { r with rewind := l.toklen, status := .comeBack, len := l.last }.leave l 0
      else match r.stage with
      | .responseLine => do
          let result ← parseResponseLine fuel r (l.enter .raw)
          let l := l.resume result.2.2
          if result.2.1.status = .badResponse ∨ result.1 = -1 then return result.2.1.bad.leave l 0
          else responseLoop fuel rounds stream { result.2.1 with stage := .httpHeader } l
      | .httpHeader =>
          if l.tokenType = .crlf then
            let next := endOfHeaders stream r l
            responseLoop fuel rounds false next.1 next.2
          else do
            let result ← parseHTTPHeader fuel r (l.enter .init)
            let l := l.resume result.2.2
            if result.2.1.status = .badResponse ∨ result.1 = -1 then return result.2.1.bad.leave l 0
            else responseLoop fuel rounds stream result.2.1 l
      | .entityFetch => do
          let r := if stream then r.addBlock l 0 else r
          let step ← entityStage fuel r l
          match step with
          | .ret status r l => return r.leave l status
          | .again r l => responseLoop fuel rounds false r l

/-! ## The buffer -/

/-- What `read` returns, at the end of the stream no bytes; or the block of an object that is given to `parseResponse`. -/
inductive HttpInput
  | data (bytes : Bytes)
  | eagain
  | error
  | given (extBuf : Bytes)

/-- The bytes go into the buffer at `pos`. -/
def copyBytes (mem : Int → Byte) (pos : Int) (bytes : Bytes) : Int → Byte := fun k =>
  if pos ≤ k ∧ k < pos + bytes.length then bytes.getD (k - pos).toNat 0 else mem k

/-- The room a `read` has. -/
def HttpResponse.room (r : HttpResponse) : Int :=
  if r.block = 1 then httpActBlockSize - addlHeadSize - r.used else httpActBlockSize - r.used

/-- The buffer is full. -/
def HttpResponse.isFull (r : HttpResponse) : Bool :=
  (r.block = 1 ∧ httpActBlockSize - addlHeadSize ≤ r.used) ∨ (1 < r.block ∧ httpActBlockSize ≤ r.used)

/-- A block is in the buffer from `buf` to `buf + last`; the end is marked. -/
def HttpResponse.startLex (r : HttpResponse) (mem : Int → Byte) (buf last : Int) : Lex where
  mem := if last = -1 then mem else Function.update mem (buf + last) 255
  buf := buf
  last := last
  processed := 0
  start := r.start
  state := r.state
  token := 0
  toklen := 0
  tokenType := .lws

/-- The connection is closed. -/
def closedResponse (r : HttpResponse) (l : Lex) : Int × HttpResponse :=
  if r.etype = .conn then
    if r.stage = .responseLine then r.bad.leave l (-1) else { r with status := .entityComplete }.leave l 0
  else r.bad.leave l (-1)

/-- The bytes `bytes` are behind those that are to be read again, and are parsed. `counted` is what `used` grows by. -/
def parseBlock (fuel : Nat) (r : HttpResponse) (bytes : Bytes) (counted : Int) : Run (Int × HttpResponse) :=
  let rewind := max r.rewind 0
  let buf := r.used - rewind
  let last := bytes.length + rewind
  let l := r.startLex (copyBytes r.mem r.used bytes) buf last
  responseLoop fuel fuel true { r with used := r.used + counted, unWritten := r.unWritten + last, rewind := 0 } l

/-- A `read` that returns no bytes, `got` of `0` or `-1`. -/
def parseNothing (r : HttpResponse) (got : Int) : Int × HttpResponse :=
  let rewind := max r.rewind 0
  let last := got + rewind
  let l := r.startLex r.mem (r.used - rewind) last
  closedResponse { r with used := r.used + last, unWritten := r.unWritten + last, rewind := 0 } l

/-- `parseResponse`. After a rewind `used` grows by all that is in the block, and not by what was read. -/
def parseResponse (fuel : Nat) (input : HttpInput) (r : HttpResponse) : Run (Int × HttpResponse) :=
  if r.isFull then .ok (0, { r with status := .buffFull })
  else match input with
  | .given extBuf => parseBlock fuel r extBuf extBuf.length
  | .data bytes =>
      let bytes := bytes.take r.room.toNat
      if bytes = [] then .ok (parseNothing r 0) else parseBlock fuel r bytes (bytes.length + max r.rewind 0)
  | .eagain =>
      if 0 < r.rewind then .ok (0, { r with rewind := 0, status := .comeBack, used := r.used + (-1 + r.rewind) + 1 })
      else .ok (0, { r with status := .comeBack })
  | .error => .ok (parseNothing r (-1))

/-- `initHTTPResponse` on memory that `malloc` returned. -/
def initHTTPResponse (memory : HttpResponse) (method : HttpMethod) (now : Int) : HttpResponse :=
  { memory with
    rcvd := 0
    entityLen := -1
    contentType := none
    used := 0
    request_time := now
    len := 0
    rewind := -1
    start := .header
    state := .none
    status := .badResponse
    headers := []
    stage := .responseLine
    toSend := []
    toWrite := []
    method := method
    unWritten := 0
    con_len := -1
    te := none
    conn := none
    downloaded := 0
    block := 1
    cc := none
    age_value := -1
    last_modified := -1
    expires_value := -1 }

end BeagleCache
