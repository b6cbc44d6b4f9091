/-!
# Sha256 — the SHA-256 digest of a byte string

The digest of the Secure Hash Standard, on lists of bytes and 32-bit words:

- `padded`   : the message with its padding, a whole number of blocks;
- `Digest`   : the eight words carried from block to block;
- `compress` : one block worked into a digest;
- `digest`   : the 32 bytes of the digest.
-/

namespace SelectionGraph
namespace Sha256

/-! ## Constants -/

/-- The first 32 bits of the fractional parts of the cube roots of the first 64 primes. -/
def roundConstants : List UInt32 :=
  [0x428a2f98, 0x71374491, 0xb5c0fbcf, 0xe9b5dba5, 0x3956c25b, 0x59f111f1, 0x923f82a4, 0xab1c5ed5,
   0xd807aa98, 0x12835b01, 0x243185be, 0x550c7dc3, 0x72be5d74, 0x80deb1fe, 0x9bdc06a7, 0xc19bf174,
   0xe49b69c1, 0xefbe4786, 0x0fc19dc6, 0x240ca1cc, 0x2de92c6f, 0x4a7484aa, 0x5cb0a9dc, 0x76f988da,
   0x983e5152, 0xa831c66d, 0xb00327c8, 0xbf597fc7, 0xc6e00bf3, 0xd5a79147, 0x06ca6351, 0x14292967,
   0x27b70a85, 0x2e1b2138, 0x4d2c6dfc, 0x53380d13, 0x650a7354, 0x766a0abb, 0x81c2c92e, 0x92722c85,
   0xa2bfe8a1, 0xa81a664b, 0xc24b8b70, 0xc76c51a3, 0xd192e819, 0xd6990624, 0xf40e3585, 0x106aa070,
   0x19a4c116, 0x1e376c08, 0x2748774c, 0x34b0bcb5, 0x391c0cb3, 0x4ed8aa4a, 0x5b9cca4f, 0x682e6ff3,
   0x748f82ee, 0x78a5636f, 0x84c87814, 0x8cc70208, 0x90befffa, 0xa4506ceb, 0xbef9a3f7, 0xc67178f2]

/-- The eight words carried from one block to the next. -/
structure Digest where
  (a b c d e f g h : UInt32)
  deriving DecidableEq, Repr

/-- The first 32 bits of the fractional parts of the square roots of the first eight primes. -/
def Digest.initial : Digest :=
  ⟨0x6a09e667, 0xbb67ae85, 0x3c6ef372, 0xa54ff53a, 0x510e527f, 0x9b05688c, 0x1f83d9ab, 0x5be0cd19⟩

/-! ## Padding -/

/-- The bytes of a word, most significant first. -/
def wordBytes (w : UInt32) : List UInt8 :=
  [(w >>> 24).toUInt8, (w >>> 16).toUInt8, (w >>> 8).toUInt8, w.toUInt8]

/-- The message, one bit, as many zero bits as fill a block up to its last eight bytes, and the
message's length in bits in those. -/
def padded (message : List UInt8) : List UInt8 :=
  let bits := 8 * message.length
  message ++ [0x80] ++ List.replicate ((119 - message.length % 64) % 64) 0
    ++ wordBytes (bits / 0x100000000).toUInt32 ++ wordBytes bits.toUInt32

/-- Groups bytes into words, most significant byte first. -/
def words : List UInt8 → List UInt32
  | p :: q :: r :: s :: rest =>
      (p.toUInt32 <<< 24 ||| q.toUInt32 <<< 16 ||| r.toUInt32 <<< 8 ||| s.toUInt32) :: words rest
  | _ => []

/-! ## Rounds -/

def rotateRight (w n : UInt32) : UInt32 :=
  w >>> n ||| w <<< (32 - n)

/-- The word that follows sixteen words of the message schedule. -/
def nextWord (window : List UInt32) : UInt32 :=
  match window with
  | w0 :: w1 :: _ :: _ :: _ :: _ :: _ :: _ :: _ :: w9 :: _ :: _ :: _ :: _ :: w14 :: _ =>
      (rotateRight w14 17 ^^^ rotateRight w14 19 ^^^ w14 >>> 10) + w9
        + (rotateRight w1 7 ^^^ rotateRight w1 18 ^^^ w1 >>> 3) + w0
  | _ => 0

/-- One round with round constant `k` and schedule word `w`. -/
def Digest.round (s : Digest) (k w : UInt32) : Digest :=
  let choice := (s.e &&& s.f) ^^^ (~~~s.e &&& s.g)
  let majority := (s.a &&& s.b) ^^^ (s.a &&& s.c) ^^^ (s.b &&& s.c)
  let t1 := s.h + (rotateRight s.e 6 ^^^ rotateRight s.e 11 ^^^ rotateRight s.e 25) + choice + k + w
  let t2 := (rotateRight s.a 2 ^^^ rotateRight s.a 13 ^^^ rotateRight s.a 22) + majority
  ⟨t1 + t2, s.a, s.b, s.c, s.d + t1, s.e, s.f, s.g⟩

/-- Runs one round per constant; `window` holds the next sixteen words of the schedule. -/
def rounds (s : Digest) (window : List UInt32) : List UInt32 → Digest
  | [] => s
  | k :: ks => rounds (s.round k (window.headD 0)) (window.tail ++ [nextWord window]) ks

def Digest.add (s t : Digest) : Digest :=
  ⟨s.a + t.a, s.b + t.b, s.c + t.c, s.d + t.d, s.e + t.e, s.f + t.f, s.g + t.g, s.h + t.h⟩

def compress (s : Digest) (block : List UInt32) : Digest :=
  s.add (rounds s block roundConstants)

/-- Works all blocks of a message into a digest, sixteen words at a time. -/
def compressAll (s : Digest) (ws : List UInt32) : Digest :=
  if ws.isEmpty then s else compressAll (compress s (ws.take 16)) (ws.drop 16)
termination_by ws.length
decreasing_by
  cases ws with
  | nil => simp_all
  | cons w rest => simp only [List.length_drop, List.length_cons]; omega

/-! ## The digest -/

def Digest.bytes (s : Digest) : List UInt8 :=
  [s.a, s.b, s.c, s.d, s.e, s.f, s.g, s.h].flatMap wordBytes

def digest (message : List UInt8) : List UInt8 :=
  (compressAll Digest.initial (words (padded message))).bytes

end Sha256
end SelectionGraph
