import BlockSieve.Text.Utf8

/-!
Checksums of files: the SHA-256 digest of the bytes, in hexadecimal. The
message is padded to whole blocks of 64 bytes; each block is spread over 64
words, which 64 rounds mix into a state of eight words.
-/

namespace BlockSieve.Digest

/-- The state of the digest: eight words. -/
structure State where
  a : UInt32
  b : UInt32
  c : UInt32
  d : UInt32
  e : UInt32
  f : UInt32
  g : UInt32
  h : UInt32

namespace State

/-- The state before the first block: the first bits of the fractional parts of the square roots of
the first eight primes. -/
def initial : State :=
  ⟨0x6a09e667, 0xbb67ae85, 0x3c6ef372, 0xa54ff53a, 0x510e527f, 0x9b05688c, 0x1f83d9ab, 0x5be0cd19⟩

/-- Adds two states word by word. -/
def add (s t : State) : State :=
  ⟨s.a + t.a, s.b + t.b, s.c + t.c, s.d + t.d, s.e + t.e, s.f + t.f, s.g + t.g, s.h + t.h⟩

/-- The words of a state, in order. -/
def words (s : State) : List UInt32 := [s.a, s.b, s.c, s.d, s.e, s.f, s.g, s.h]

end State

/-- One constant a round: the first bits of the fractional parts of the cube roots of the first 64
primes. -/
def roundConstants : List UInt32 :=
  [0x428a2f98, 0x71374491, 0xb5c0fbcf, 0xe9b5dba5, 0x3956c25b, 0x59f111f1, 0x923f82a4, 0xab1c5ed5,
    0xd807aa98, 0x12835b01, 0x243185be, 0x550c7dc3, 0x72be5d74, 0x80deb1fe, 0x9bdc06a7, 0xc19bf174,
    0xe49b69c1, 0xefbe4786, 0x0fc19dc6, 0x240ca1cc, 0x2de92c6f, 0x4a7484aa, 0x5cb0a9dc, 0x76f988da,
    0x983e5152, 0xa831c66d, 0xb00327c8, 0xbf597fc7, 0xc6e00bf3, 0xd5a79147, 0x06ca6351, 0x14292967,
    0x27b70a85, 0x2e1b2138, 0x4d2c6dfc, 0x53380d13, 0x650a7354, 0x766a0abb, 0x81c2c92e, 0x92722c85,
    0xa2bfe8a1, 0xa81a664b, 0xc24b8b70, 0xc76c51a3, 0xd192e819, 0xd6990624, 0xf40e3585, 0x106aa070,
    0x19a4c116, 0x1e376c08, 0x2748774c, 0x34b0bcb5, 0x391c0cb3, 0x4ed8aa4a, 0x5b9cca4f, 0x682e6ff3,
    0x748f82ee, 0x78a5636f, 0x84c87814, 0x8cc70208, 0x90befffa, 0xa4506ceb, 0xbef9a3f7, 0xc67178f2]

/-- A word turned to the right. -/
def rotate (w : UInt32) (n : UInt32) : UInt32 := (w >>> n) ||| (w <<< (32 - n))

/-- The word of four bytes, the most significant first. -/
def wordOf (bytes : Bytes) : UInt32 :=
  bytes.foldl (fun w b => (w <<< 8) ||| b.toUInt32) 0

/-- The bytes of a number, the most significant first. -/
def bytesOf : Nat → Nat → Bytes
  | 0, _ => []
  | k + 1, n => bytesOf k (n / 256) ++ [UInt8.ofNat n]

/-- Cuts `n` pieces of the given length off a list. -/
def pieces {α : Type} (length : Nat) : Nat → List α → List (List α)
  | 0, _ => []
  | n + 1, l => l.take length :: pieces length n (l.drop length)

/-- A message with a one bit, as many zeros as fill the last block, and its length in bits. -/
def pad (message : Bytes) : Bytes :=
  let zeros := (119 - message.length % 64) % 64
  message ++ 0x80 :: (List.replicate zeros 0 ++ bytesOf 8 (8 * message.length))

/-- The next word of a schedule, from the words so far, the latest first. -/
def nextWord (latest : List UInt32) : UInt32 :=
  let w (i : Nat) : UInt32 := latest.getD (i - 1) 0
  let s₀ := rotate (w 15) 7 ^^^ rotate (w 15) 18 ^^^ (w 15 >>> 3)
  let s₁ := rotate (w 2) 17 ^^^ rotate (w 2) 19 ^^^ (w 2 >>> 10)
  w 16 + s₀ + w 7 + s₁

/-- Adds `n` words to a schedule whose latest word stands first. -/
def extendSchedule : Nat → List UInt32 → List UInt32
  | 0, latest => latest
  | n + 1, latest => extendSchedule n (nextWord latest :: latest)

/-- The 64 words of a block. -/
def schedule (block : Bytes) : List UInt32 :=
  (extendSchedule 48 ((pieces 4 16 block).map wordOf).reverse).reverse

/-- One round with its constant and its word. -/
def round (s : State) (kw : UInt32 × UInt32) : State :=
  let mixE := rotate s.e 6 ^^^ rotate s.e 11 ^^^ rotate s.e 25
  let choice := (s.e &&& s.f) ^^^ (~~~s.e &&& s.g)
  let t₁ := s.h + mixE + choice + kw.1 + kw.2
  let mixA := rotate s.a 2 ^^^ rotate s.a 13 ^^^ rotate s.a 22
  let majority := (s.a &&& s.b) ^^^ (s.a &&& s.c) ^^^ (s.b &&& s.c)
  ⟨t₁ + mixA + majority, s.a, s.b, s.c, s.d + t₁, s.e, s.f, s.g⟩

/-- Mixes a block into the state. -/
def absorb (s : State) (block : Bytes) : State :=
  s.add ((roundConstants.zip (schedule block)).foldl round s)

/-- The digest of a message. -/
def sha256 (message : Bytes) : Bytes :=
  let padded := pad message
  let state := (pieces 64 (padded.length / 64) padded).foldl absorb State.initial
  state.words.flatMap fun w => bytesOf 4 w.toNat

/-- A byte as two hexadecimal digits. -/
def hexByte (b : UInt8) : Text :=
  [Nat.digitChar (b.toNat / 16), Nat.digitChar (b.toNat % 16)]

/-- Bytes in hexadecimal. -/
def hex (bytes : Bytes) : Text := bytes.flatMap hexByte

/-- The checksum of a file's bytes: the name of the digest, then its value in hexadecimal. -/
def checksum (bytes : Bytes) : Text := "sha256:".toList ++ hex (sha256 bytes)

end BlockSieve.Digest
