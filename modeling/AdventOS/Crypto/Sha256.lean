import Mathlib

/-!
# SHA-256

`sha256` of `libcrypto/sha256.c` in one call: `sha256_init`, one `sha256_update` of
the whole message and `sha256_final`. With an empty buffer `sha256_update` compresses
every whole block straight from its input and keeps the rest, which is what
`compressBlocks` and `List.drop` do here. The schedule `w` is kept as a list with the
newest word first, so `w[i - k]` is element `k - 1` of it.
-/
namespace AdventOS.Crypto

/-- sha256.c:15-32 -/
def sha256K : List UInt32 := [
  0x428a2f98, 0x71374491, 0xb5c0fbcf, 0xe9b5dba5, 0x3956c25b, 0x59f111f1, 0x923f82a4, 0xab1c5ed5,
  0xd807aa98, 0x12835b01, 0x243185be, 0x550c7dc3, 0x72be5d74, 0x80deb1fe, 0x9bdc06a7, 0xc19bf174,
  0xe49b69c1, 0xefbe4786, 0x0fc19dc6, 0x240ca1cc, 0x2de92c6f, 0x4a7484aa, 0x5cb0a9dc, 0x76f988da,
  0x983e5152, 0xa831c66d, 0xb00327c8, 0xbf597fc7, 0xc6e00bf3, 0xd5a79147, 0x06ca6351, 0x14292967,
  0x27b70a85, 0x2e1b2138, 0x4d2c6dfc, 0x53380d13, 0x650a7354, 0x766a0abb, 0x81c2c92e, 0x92722c85,
  0xa2bfe8a1, 0xa81a664b, 0xc24b8b70, 0xc76c51a3, 0xd192e819, 0xd6990624, 0xf40e3585, 0x106aa070,
  0x19a4c116, 0x1e376c08, 0x2748774c, 0x34b0bcb5, 0x391c0cb3, 0x4ed8aa4a, 0x5b9cca4f, 0x682e6ff3,
  0x748f82ee, 0x78a5636f, 0x84c87814, 0x8cc70208, 0x90befffa, 0xa4506ceb, 0xbef9a3f7, 0xc67178f2]

def rotr (x : UInt32) (n : UInt32) : UInt32 := (x >>> n) ||| (x <<< (32 - n))

/-- The eight words of the state. -/
structure ShaState where
  a : UInt32
  b : UInt32
  c : UInt32
  d : UInt32
  e : UInt32
  f : UInt32
  g : UInt32
  h : UInt32

/-- sha256.c:71-83 -/
def sha256Init : ShaState :=
  ⟨0x6a09e667, 0xbb67ae85, 0x3c6ef372, 0xa54ff53a, 0x510e527f, 0x9b05688c, 0x1f83d9ab, 0x5be0cd19⟩

def wordBe (block : List UInt8) (i : Nat) : UInt32 :=
  ((block.getD i 0).toUInt32 <<< 24) ||| ((block.getD (i + 1) 0).toUInt32 <<< 16) |||
    ((block.getD (i + 2) 0).toUInt32 <<< 8) ||| (block.getD (i + 3) 0).toUInt32

/-- One more word of the schedule.
sha256.c:47-51 -/
def scheduleStep (w : List UInt32) : List UInt32 :=
  let w15 := w.getD 14 0
  let w2 := w.getD 1 0
  let s0 := rotr w15 7 ^^^ rotr w15 18 ^^^ (w15 >>> 3)
  let s1 := rotr w2 17 ^^^ rotr w2 19 ^^^ (w2 >>> 10)
  (w.getD 15 0 + s0 + w.getD 6 0 + s1) :: w

def extend : Nat → List UInt32 → List UInt32
  | 0, w => w
  | n + 1, w => extend n (scheduleStep w)

/-- The 64 words of the schedule, `w[0]` first.
sha256.c:39-51 -/
def schedule (block : List UInt8) : List UInt32 :=
  (extend 48 ((List.range 16).map fun i => wordBe block (4 * i)).reverse).reverse

/-- sha256.c:56-64 -/
def shaRound (s : ShaState) (k w : UInt32) : ShaState :=
  let s1 := rotr s.e 6 ^^^ rotr s.e 11 ^^^ rotr s.e 25
  let ch := (s.e &&& s.f) ^^^ (~~~s.e &&& s.g)
  let t1 := s.h + s1 + ch + k + w
  let s0 := rotr s.a 2 ^^^ rotr s.a 13 ^^^ rotr s.a 22
  let mj := (s.a &&& s.b) ^^^ (s.a &&& s.c) ^^^ (s.b &&& s.c)
  let t2 := s0 + mj
  ⟨t1 + t2, s.a, s.b, s.c, s.d + t1, s.e, s.f, s.g⟩

def shaRounds : ShaState → List UInt32 → List UInt32 → ShaState
  | s, k :: ks, w :: ws => shaRounds (shaRound s k w) ks ws
  | s, _, _ => s

/-- sha256.c:37-69 -/
def sha256Compress (s : ShaState) (block : List UInt8) : ShaState :=
  let t := shaRounds s sha256K (schedule block)
  ⟨s.a + t.a, s.b + t.b, s.c + t.c, s.d + t.d, s.e + t.e, s.f + t.f, s.g + t.g, s.h + t.h⟩

/-- sha256.c:106-109 -/
def compressBlocks : Nat → ShaState → List UInt8 → ShaState
  | 0, s, _ => s
  | n + 1, s, data => compressBlocks n (sha256Compress s (data.take 64)) (data.drop 64)

def bitCountBe (bits : UInt64) : List UInt8 :=
  (List.range 8).map fun i => (bits >>> UInt64.ofNat (56 - i * 8)).toUInt8

def padTo (n : Nat) (buf : List UInt8) : List UInt8 := buf ++ List.replicate (n - buf.length) 0

/-- sha256.c:115-130 -/
def sha256Final (s : ShaState) (count : Nat) (buf : List UInt8) : ShaState :=
  let bits := UInt64.ofNat count * 8
  let buf := buf ++ [0x80]
  if buf.length > 56 then
    sha256Compress (sha256Compress s (padTo 64 buf)) (padTo 56 [] ++ bitCountBe bits)
  else sha256Compress s (padTo 56 buf ++ bitCountBe bits)

def bytesOfWord (x : UInt32) : List UInt8 :=
  [(x >>> 24).toUInt8, (x >>> 16).toUInt8, (x >>> 8).toUInt8, x.toUInt8]

/-- sha256.c:132-137 -/
def ShaState.bytes (s : ShaState) : List UInt8 :=
  bytesOfWord s.a ++ bytesOfWord s.b ++ bytesOfWord s.c ++ bytesOfWord s.d ++
    bytesOfWord s.e ++ bytesOfWord s.f ++ bytesOfWord s.g ++ bytesOfWord s.h

/-- sha256.c:140-145 -/
def sha256 (data : List UInt8) : List UInt8 :=
  let blocks := data.length / 64
  let s := compressBlocks blocks sha256Init data
  (sha256Final s data.length (data.drop (64 * blocks))).bytes

@[simp] theorem length_sha256 (data : List UInt8) : (sha256 data).length = 32 := rfl

/-- The test vector of the source for "abc". -/
example : sha256 [0x61, 0x62, 0x63] = [
    0xba, 0x78, 0x16, 0xbf, 0x8f, 0x01, 0xcf, 0xea, 0x41, 0x41, 0x40, 0xde, 0x5d, 0xae, 0x22, 0x23,
    0xb0, 0x03, 0x61, 0xa3, 0x96, 0x17, 0x7a, 0x9c, 0xb4, 0x10, 0xff, 0x61, 0xf2, 0x00, 0x15,
    0xad] := by
  decide +kernel

end AdventOS.Crypto
