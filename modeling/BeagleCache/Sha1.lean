import BeagleCache.Bytes

/-! SHA-1 on byte strings (FIPS 180), in a form that can be evaluated. The development takes the hash of
chunks as a parameter; this is the function the program links, for runs on concrete data. -/

namespace BeagleCache

namespace Sha1

/-- The five working variables. -/
structure Hash where
  a : BitVec 32
  b : BitVec 32
  c : BitVec 32
  d : BitVec 32
  e : BitVec 32

/-- The padding: a bit, zeros, and the length in bits as 64-bit number. -/
def pad (m : Bytes) : Bytes :=
  m ++ [0x80#8] ++ List.replicate ((119 - m.length % 64) % 64) 0#8 ++
    (List.range 8).map fun i => BitVec.ofNat 8 ((8 * m.length) >>> (8 * (7 - i)))

def words : Bytes → List (BitVec 32)
  | a :: b :: c :: d :: rest => (a ++ b ++ c ++ d) :: words rest
  | _ => []

/-- The next word of the message schedule from the last 16. -/
def nextWord (ws : List (BitVec 32)) : BitVec 32 :=
  (ws.getD 13 0 ^^^ ws.getD 8 0 ^^^ ws.getD 2 0 ^^^ ws.getD 0 0).rotateLeft 1

def choose (t : Nat) (b c d : BitVec 32) : BitVec 32 :=
  if t < 20 then (b &&& c) ||| (~~~b &&& d)
  else if t < 40 then b ^^^ c ^^^ d
  else if t < 60 then (b &&& c) ||| (b &&& d) ||| (c &&& d)
  else b ^^^ c ^^^ d

def constant (t : Nat) : BitVec 32 :=
  if t < 20 then 0x5A827999 else if t < 40 then 0x6ED9EBA1 else if t < 60 then 0x8F1BBCDC else 0xCA62C1D6

def round (t : Nat) (s : Hash) (w : BitVec 32) : Hash where
  a := s.a.rotateLeft 5 + choose t s.b s.c s.d + s.e + constant t + w
  b := s.a
  c := s.b.rotateLeft 30
  d := s.c
  e := s.d

/-- `n` rounds from round `t` on, `ws` being the next 16 words of the schedule. -/
def rounds : Nat → Nat → Hash → List (BitVec 32) → Hash
  | 0, _, s, _ => s
  | n + 1, t, s, ws => rounds n (t + 1) (round t s (ws.headD 0)) (ws.tail ++ [nextWord ws])

def block (s : Hash) (ws : List (BitVec 32)) : Hash :=
  let r := rounds 80 0 s ws
  ⟨s.a + r.a, s.b + r.b, s.c + r.c, s.d + r.d, s.e + r.e⟩

def blocks : Nat → Hash → List (BitVec 32) → Hash
  | 0, s, _ => s
  | n + 1, s, ws => blocks n (block s (ws.take 16)) (ws.drop 16)

def digest (m : Bytes) : Bytes :=
  let ws := words (pad m)
  let s := blocks (ws.length / 16) ⟨0x67452301, 0xEFCDAB89, 0x98BADCFE, 0x10325476, 0xC3D2E1F0⟩ ws
  htonl s.a ++ htonl s.b ++ htonl s.c ++ htonl s.d ++ htonl s.e

theorem digest_length (m : Bytes) : (digest m).length = 20 := by
  simp [digest]

-- the digest of `abc`
example : digest [0x61, 0x62, 0x63] =
    [0xa9, 0x99, 0x3e, 0x36, 0x47, 0x06, 0x81, 0x6a, 0xba, 0x3e, 0x25, 0x71, 0x78, 0x50, 0xc2, 0x6c, 0x9c, 0xd0, 0xd8,
      0x9d] := by decide +kernel

end Sha1

end BeagleCache
