import BeagleCache.DiskCache

/-! The tokenizer of HashCache, `getNextToken` of `http.c`. It is a machine with two levels, `start` and `state`, over a buffer
that it writes to: separators become zero bytes, so that tokens end as C strings. The end of the data is marked by the byte
`0xFF`, which is `EOF` as a `char`. -/

namespace BeagleCache

/-- What kind of text is read. -/
inductive Start
  | init
  | header
  | raw
  | line
  | entity
  | lineend
  | body
  deriving DecidableEq

/-- Where in a token the machine is. -/
inductive LexState
  | none
  | token
  | sp
  | lws
  | cr
  | lf
  deriving DecidableEq

inductive TokenType
  | token
  | crlf
  | sp
  | lws
  | bufend
  | error
  | body
  | colon
  | semicolon
  | quote
  | equals
  | comma
  deriving DecidableEq

/-- What `getNextToken` returns: `0`, `-1` or `BUFEND`. -/
inductive LexStatus
  | ok
  | fail
  | bufend
  deriving DecidableEq

/-- The globals of the tokenizer. `mem` is the buffer of the request or response, `buf` the place in it where the tokenizer
started, `last` the source's `end`. -/
structure Lex where
  mem : Int → Byte
  buf : Int
  last : Int
  processed : Int
  start : Start
  state : LexState
  token : Int
  toklen : Nat
  tokenType : TokenType

/-- A byte as the machine tells them apart. -/
inductive Present
  | char
  | space
  | tab
  | creturn
  | lfeed
  | colon
  | semicolon
  | quote
  | equals
  | comma
  | eof
  | other
  deriving DecidableEq

/-- `ctrlNames`. -/
def ctrlNames : Bytes := ascii "=\"\\<>/()" ++ [123, 125] ++ ascii ";:@,[]? \t"

/-- `isCtrl`. -/
def isCtrl (b : Byte) : Bool := ctrlNames.contains b

/-- The `present` of a byte. -/
def present (b : Byte) : Present :=
  if 31 < b.toNat ∧ b.toNat < 127 ∧ isCtrl b = false then .char
  else if b = 32 then .space
  else if b = 9 then .tab
  else if b = 13 then .creturn
  else if b = 10 then .lfeed
  else if b = 58 then .colon
  else if b = 59 then .semicolon
  else if b = 34 then .quote
  else if b = 61 then .equals
  else if b = 44 then .comma
  else if b = 255 then .eof
  else .other

def crlf : Bytes := [13, 10]

namespace Lex

/-- The next byte. -/
def here (l : Lex) : Byte := l.mem (l.buf + l.processed)

/-- `toklen++; processed++`. -/
def take (l : Lex) : Lex := { l with toklen := l.toklen + 1, processed := l.processed + 1 }

/-- `buf[ processed ] = '\0'`. -/
def erase (l : Lex) : Lex := { l with mem := Function.update l.mem (l.buf + l.processed) 0 }

def goto (l : Lex) (state : LexState) : Lex := { l with state := state }

end Lex

/-- What one round of the loop does. -/
inductive LexStep
  | again (l : Lex)
  | ret (status : LexStatus) (l : Lex)

/-- `return 0` with a token. -/
def LexStep.found (l : Lex) (tokenType : TokenType) : LexStep := .ret .ok { l with tokenType := tokenType }

/-- `return -1`. -/
def LexStep.bad (l : Lex) : LexStep := .ret .fail { l with tokenType := .error }

/-- A round with `start = INIT`. There is no case for `LWS`. -/
def initStep (l : Lex) : LexStep :=
  match l.state, present l.here with
  | .none, .char => .again (l.take.goto .token)
  | .none, .space => .again (l.erase.take.goto .sp)
  | .none, .tab => .again (l.erase.take.goto .sp)
  | .none, .creturn => .again (l.erase.take.goto .cr)
  | .none, .lfeed => .again (l.erase.take.goto .lf)
  | .none, .colon => .found l.take .colon
  | .none, .semicolon => .found l.take .semicolon
  | .none, .quote => .found l.take .quote
  | .none, .equals => .found l.take .equals
  | .none, .comma => .found l.take .comma
  | .none, _ => .found l .error
  | .token, .char => .again l.take
  | .token, _ => .found (l.goto .none) .token
  | .sp, .space => .again (l.erase.take.goto .sp)
  | .sp, .tab => .again (l.erase.take.goto .sp)
  | .sp, .creturn => .again (l.erase.take.goto .cr)
  | .sp, .lfeed => .again (l.erase.take.goto .lf)
  | .sp, _ => .found (l.goto .none) .sp
  | .cr, .lfeed => .again (l.erase.take.goto .lf)
  | .cr, _ => .bad l
  | .lf, .space => .again (l.erase.take.goto .lws)
  | .lf, .tab => .again (l.erase.take.goto .lws)
  | .lf, _ => .found (l.goto .none) .crlf
  | .lws, _ => .again l

/-- A round with `start = HEADER`: a line, with the lines that continue it. -/
def headerStep (l : Lex) : LexStep :=
  match l.state, present l.here with
  | .none, .eof => .found l .bufend
  | .none, .creturn => .again (l.take.goto .cr)
  | .none, .lfeed => .again (l.take.goto .lf)
  | .none, _ => .again (l.take.goto .token)
  | .token, .eof => .found l .bufend
  | .token, .creturn => .again (l.take.goto .cr)
  | .token, .lfeed => .again (l.take.goto .lf)
  | .token, _ => .again (l.take.goto .token)
  | .cr, .lfeed => .again (l.take.goto .lf)
  | .cr, .eof => .found l .bufend
  | .cr, _ => .found l .error
  | .lf, .space => .again (l.take.goto .token)
  | .lf, .tab => .again (l.take.goto .token)
  | .lf, .eof => .found l .bufend
  | .lf, _ => .found { l with start := .line, state := .none } .token
  | _, _ => .again l

/-- A round with `start = RAW`: words between spaces. -/
def rawStep (l : Lex) : LexStep :=
  match l.state, present l.here with
  | .none, .space => .found (l.erase.take.goto .none) .sp
  | .none, .tab => .bad l
  | .none, _ => .again (l.take.goto .token)
  | .token, .space => .found (l.goto .none) .token
  | .token, .creturn => .found { l with state := .none, start := .init } .token
  | .token, .tab => .bad l
  | .token, _ => .again l.take
  | _, _ => .again l

/-- A round with `start = LINE`: an empty line, or a header. -/
def lineStep (l : Lex) : LexStep :=
  match l.state, present l.here with
  | .none, .creturn => .again (l.take.goto .cr)
  | .none, _ => .again { l with state := .none, start := .header }
  | .cr, .lfeed => .found { l.take with start := .header, state := .none } .crlf
  | .cr, _ => .again { l with state := .none, start := .header }
  | _, _ => .again l

/-- A round with `start = ENTITY`. The case for a line feed is written `LFEED`, which no state is. -/
def entityStep (l : Lex) : LexStep :=
  match l.state, present l.here with
  | .none, .creturn => .again (l.take.goto .cr)
  | .none, .eof => .found (l.goto .none) .body
  | .none, _ => .again l.take
  | .cr, .lfeed => .again (l.take.goto .lf)
  | .cr, .eof => .found (l.goto .none) .bufend
  | .cr, _ => .again l.take
  | _, _ => .again l

/-- A round with `start = LINEEND`: the rest of a line. -/
def lineendStep (l : Lex) : LexStep :=
  match l.state, present l.here with
  | .none, .creturn => .again (l.take.goto .cr)
  | .none, .eof => .found (l.goto .none) .bufend
  | .none, _ => .again l.take
  | .cr, .lfeed => .found (l.take.goto .lf) .token
  | .cr, .eof => .found (l.goto .none) .bufend
  | .cr, _ => .again l.take
  | _, _ => .again l

/-- One round of the loop of `getNextToken`. -/
def lexStep (l : Lex) : LexStep :=
  if l.last < l.processed then .ret .bufend l
  else match l.start with
  | .init => initStep l
  | .header => headerStep l
  | .raw => rawStep l
  | .line => lineStep l
  | .entity => entityStep l
  | .lineend => lineendStep l
  | .body => .found l .body

/-- The loop of `getNextToken`. -/
def lexLoop : Nat → Lex → Run (LexStatus × Lex)
  | 0, _ => .error .hang
  | fuel + 1, l =>
      match lexStep l with
      | .again l => lexLoop fuel l
      | .ret status l => .ok (status, l)

/-- `getNextToken`. -/
def getNextToken (fuel : Nat) (l : Lex) : Run (LexStatus × Lex) :=
  lexLoop fuel { l with toklen := 0, tokenType := .lws, token := l.buf + l.processed }

/-- `eat`, which puts another token back; `len` is the length the token is to have, if any. -/
def eat (fuel : Nat) (l : Lex) (type : TokenType) (len : Option Nat) : Run (Int × Lex) := do
  let r ← getNextToken fuel l
  if r.1 = .fail then return (-1, r.2)
  else if r.2.tokenType ≠ type then
    return (-1, { r.2 with processed := r.2.processed - r.2.toklen, state := l.state, start := l.start })
  else if len.any (· ≠ r.2.toklen) then return (-1, r.2)
  else return (0, r.2)

end BeagleCache
