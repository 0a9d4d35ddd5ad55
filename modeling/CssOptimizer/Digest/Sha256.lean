/-!
# SHA-256

The digest of a text: its UTF-8 bytes are padded to blocks of 64 bytes, and each block is mixed
into eight words.

* `pad`           the bytes with a one bit, zeros and the length in bits behind them;
* `compress`      mix one block of sixteen words into the digest;
* `sha256`        the eight words of the digest of a list of bytes;
* `hexDigest`   the digest of a text as 64 lower-case hexadecimal digits.
-/

set_option linter.unusedVariables false

namespace CssOptimizer.Digest

/-! ## padding -/

/-- a number as eight bytes, the highest first -/
def lengthBytes (n : Nat) : List UInt8 :=
  [56, 48, 40, 32, 24, 16, 8, 0].map fun shift => UInt8.ofNat (n >>> shift)

def pad (bytes : List UInt8) : List UInt8 :=
  bytes ++ 0x80 :: (List.replicate ((119 - bytes.length % 64) % 64) 0 ++
    lengthBytes (8 * bytes.length))

/-- four bytes as a word, the highest first; a last group that is not full is left out -/
def wordsOf : List UInt8 → List UInt32
  | a :: b :: c :: d :: rest =>
    (a.toUInt32 <<< 24 ||| b.toUInt32 <<< 16 ||| c.toUInt32 <<< 8 ||| d.toUInt32) :: wordsOf rest
  | _ => []

/-! ## mixing -/

def rotateRight (x n : UInt32) : UInt32 := x >>> n ||| x <<< (32 - n)

/-- the eight words of a digest -/
structure State where
  a : UInt32
  b : UInt32
  c : UInt32
  d : UInt32
  e : UInt32
  f : UInt32
  g : UInt32
  h : UInt32
  deriving DecidableEq

/-- the digest before the first block -/
def initial : State :=
  ⟨0x6a09e667, 0xbb67ae85, 0x3c6ef372, 0xa54ff53a, 0x510e527f, 0x9b05688c, 0x1f83d9ab, 0x5be0cd19⟩

/-- the constants of the 64 rounds -/
def roundConstants : List UInt32 := [
  0x428a2f98, 0x71374491, 0xb5c0fbcf, 0xe9b5dba5, 0x3956c25b, 0x59f111f1, 0x923f82a4, 0xab1c5ed5,
  0xd807aa98, 0x12835b01, 0x243185be, 0x550c7dc3, 0x72be5d74, 0x80deb1fe, 0x9bdc06a7, 0xc19bf174,
  0xe49b69c1, 0xefbe4786, 0x0fc19dc6, 0x240ca1cc, 0x2de92c6f, 0x4a7484aa, 0x5cb0a9dc, 0x76f988da,
  0x983e5152, 0xa831c66d, 0xb00327c8, 0xbf597fc7, 0xc6e00bf3, 0xd5a79147, 0x06ca6351, 0x14292967,
  0x27b70a85, 0x2e1b2138, 0x4d2c6dfc, 0x53380d13, 0x650a7354, 0x766a0abb, 0x81c2c92e, 0x92722c85,
  0xa2bfe8a1, 0xa81a664b, 0xc24b8b70, 0xc76c51a3, 0xd192e819, 0xd6990624, 0xf40e3585, 0x106aa070,
  0x19a4c116, 0x1e376c08, 0x2748774c, 0x34b0bcb5, 0x391c0cb3, 0x4ed8aa4a, 0x5b9cca4f, 0x682e6ff3,
  0x748f82ee, 0x78a5636f, 0x84c87814, 0x8cc70208, 0x90befffa, 0xa4506ceb, 0xbef9a3f7, 0xc67178f2]

/-- one round with a constant and a word of the schedule -/
def round (s : State) (constant word : UInt32) : State :=
  let s1 := rotateRight s.e 6 ^^^ rotateRight s.e 11 ^^^ rotateRight s.e 25
  let choice := (s.e &&& s.f) ^^^ ((s.e ^^^ 0xffffffff) &&& s.g)
  let t1 := s.h + s1 + choice + constant + word
  let s0 := rotateRight s.a 2 ^^^ rotateRight s.a 13 ^^^ rotateRight s.a 22
  let majority := (s.a &&& s.b) ^^^ (s.a &&& s.c) ^^^ (s.b &&& s.c)
  ⟨t1 + (s0 + majority), s.a, s.b, s.c, s.d + t1, s.e, s.f, s.g⟩

/-- the schedule one word further: sixteen words are kept, the oldest first -/
def slide (window : List UInt32) : List UInt32 :=
  let at' (i : Nat) : UInt32 := window.getD i 0
  let s0 := rotateRight (at' 1) 7 ^^^ rotateRight (at' 1) 18 ^^^ at' 1 >>> 3
  let s1 := rotateRight (at' 14) 17 ^^^ rotateRight (at' 14) 19 ^^^ at' 14 >>> 10
  window.tail ++ [at' 0 + s0 + at' 9 + s1]

/-- all rounds over a block of sixteen words -/
def rounds : List UInt32 → State → List UInt32 → State
  | [], s, _ => s
  | constant :: constants, s, window =>
    rounds constants (round s constant (window.headD 0)) (slide window)

def compress (s : State) (block : List UInt32) : State :=
  let t := rounds roundConstants s block
  ⟨s.a + t.a, s.b + t.b, s.c + t.c, s.d + t.d, s.e + t.e, s.f + t.f, s.g + t.g, s.h + t.h⟩

/-- mix the words of all blocks into the digest -/
def compressAll (s : State) (words : List UInt32) : State :=
  if h : words = [] then s else compressAll (compress s (words.take 16)) (words.drop 16)
termination_by words.length
decreasing_by
  have := List.length_pos_iff.mpr h
  simp only [List.length_drop]
  omega

def sha256 (bytes : List UInt8) : State := compressAll initial (wordsOf (pad bytes))

/-! ## texts -/

def State.words (s : State) : List UInt32 := [s.a, s.b, s.c, s.d, s.e, s.f, s.g, s.h]

/-- a hexadecimal digit in lower case -/
def hexDigit (n : Nat) : Char := Nat.digitChar (n % 16)

/-- a word as eight hexadecimal digits -/
def hexWord (w : UInt32) : List Char :=
  [28, 24, 20, 16, 12, 8, 4, 0].map fun shift => hexDigit (w.toNat >>> shift)

def hexDigest (text : String) : String :=
  String.ofList ((sha256 text.toUTF8.toList).words.flatMap hexWord)

/-- a digest has 64 digits -/
theorem length_hexDigest (text : String) : (hexDigest text).length = 64 := by
  simp [hexDigest, State.words, hexWord]

end CssOptimizer.Digest
