import AdventOS.Core.Blocks
import AdventOS.Crypto.BignumValue
import AdventOS.Crypto.Sha256

/-!
# Hashing a message as it arrives

`sha256_init`, `sha256_update` and `sha256_final` keep a state, a count of bytes and a partial
block; SHA-512 does the same with words of 64 bits, blocks of 128 bytes and a count in two halves.
A chunk carries the bound that its `size_t` length has, and a schedule is a list with the newest
word first, as for SHA-256.

`Sha256.digest` and `Sha512.digest` chain the compression function over the message with the
padding of FIPS 180-4: a one bit, zeros, and the number of bits in 64 or 128 bits.

* `Sha256.At.update`, `Sha512.At.update`: what one chunk keeps.
* `streaming_digest`.
-/
namespace AdventOS.Crypto
open List

open AdventOS.Blocks

/-! ## The compression of SHA-512 -/

/-- sha512.c:21-42 -/
def sha512K : List UInt64 := [
  0x428a2f98d728ae22, 0x7137449123ef65cd, 0xb5c0fbcfec4d3b2f, 0xe9b5dba58189dbbc,
  0x3956c25bf348b538, 0x59f111f1b605d019, 0x923f82a4af194f9b, 0xab1c5ed5da6d8118,
  0xd807aa98a3030242, 0x12835b0145706fbe, 0x243185be4ee4b28c, 0x550c7dc3d5ffb4e2,
  0x72be5d74f27b896f, 0x80deb1fe3b1696b1, 0x9bdc06a725c71235, 0xc19bf174cf692694,
  0xe49b69c19ef14ad2, 0xefbe4786384f25e3, 0x0fc19dc68b8cd5b5, 0x240ca1cc77ac9c65,
  0x2de92c6f592b0275, 0x4a7484aa6ea6e483, 0x5cb0a9dcbd41fbd4, 0x76f988da831153b5,
  0x983e5152ee66dfab, 0xa831c66d2db43210, 0xb00327c898fb213f, 0xbf597fc7beef0ee4,
  0xc6e00bf33da88fc2, 0xd5a79147930aa725, 0x06ca6351e003826f, 0x142929670a0e6e70,
  0x27b70a8546d22ffc, 0x2e1b21385c26c926, 0x4d2c6dfc5ac42aed, 0x53380d139d95b3df,
  0x650a73548baf63de, 0x766a0abb3c77b2a8, 0x81c2c92e47edaee6, 0x92722c851482353b,
  0xa2bfe8a14cf10364, 0xa81a664bbc423001, 0xc24b8b70d0f89791, 0xc76c51a30654be30,
  0xd192e819d6ef5218, 0xd69906245565a910, 0xf40e35855771202a, 0x106aa07032bbd1b8,
  0x19a4c116b8d2d0c8, 0x1e376c085141ab53, 0x2748774cdf8eeb99, 0x34b0bcb5e19b48a8,
  0x391c0cb3c5c95a63, 0x4ed8aa4ae3418acb, 0x5b9cca4f7763e373, 0x682e6ff3d6b2b8a3,
  0x748f82ee5defb2fc, 0x78a5636f43172f60, 0x84c87814a1f0ab72, 0x8cc702081a6439ec,
  0x90befffa23631e28, 0xa4506cebde82bde9, 0xbef9a3f7b2c67915, 0xc67178f2e372532b,
  0xca273eceea26619c, 0xd186b8c721c0c207, 0xeada7dd6cde0eb1e, 0xf57d4f7fee6ed178,
  0x06f067aa72176fba, 0x0a637dc5a2c898a6, 0x113f9804bef90dae, 0x1b710b35131c471b,
  0x28db77f523047d84, 0x32caab7b40c72493, 0x3c9ebe0a15c9bebc, 0x431d67c49c100d4c,
  0x4cc5d4becb3e42b6, 0x597f299cfc657e2a, 0x5fcb6fab3ad6faec, 0x6c44198c4a475817]

def rotr64 (x : UInt64) (n : UInt64) : UInt64 := (x >>> n) ||| (x <<< (64 - n))

structure Sha512State where
  a : UInt64
  b : UInt64
  c : UInt64
  d : UInt64
  e : UInt64
  f : UInt64
  g : UInt64
  h : UInt64

/-- sha512.c:83-95 -/
def sha512Init : Sha512State :=
  ⟨0x6a09e667f3bcc908, 0xbb67ae8584caa73b, 0x3c6ef372fe94f82b, 0xa54ff53a5f1d36f1,
    0x510e527fade682d1, 0x9b05688c2b3e6c1f, 0x1f83d9abfb41bd6b, 0x5be0cd19137e2179⟩

def wordBe64 (block : List UInt8) (i : Nat) : UInt64 :=
  (List.range 8).foldl (fun x j => (x <<< 8) ||| (block.getD (i + j) 0).toUInt64) 0

/-- sha512.c:56-60 -/
def scheduleStep64 (w : List UInt64) : List UInt64 :=
  let w15 := w.getD 14 0
  let w2 := w.getD 1 0
  let s0 := rotr64 w15 1 ^^^ rotr64 w15 8 ^^^ (w15 >>> 7)
  let s1 := rotr64 w2 19 ^^^ rotr64 w2 61 ^^^ (w2 >>> 6)
  (w.getD 15 0 + s0 + w.getD 6 0 + s1) :: w

def extend64 : Nat → List UInt64 → List UInt64
  | 0, w => w
  | n + 1, w => extend64 n (scheduleStep64 w)

/-- sha512.c:48-60 -/
def schedule64 (block : List UInt8) : List UInt64 :=
  (extend64 64 ((List.range 16).map fun i => wordBe64 block (8 * i)).reverse).reverse

/-- sha512.c:65-74 -/
def sha512Round (s : Sha512State) (k w : UInt64) : Sha512State :=
  let s1 := rotr64 s.e 14 ^^^ rotr64 s.e 18 ^^^ rotr64 s.e 41
  let ch := (s.e &&& s.f) ^^^ (~~~s.e &&& s.g)
  let t1 := s.h + s1 + ch + k + w
  let s0 := rotr64 s.a 28 ^^^ rotr64 s.a 34 ^^^ rotr64 s.a 39
  let mj := (s.a &&& s.b) ^^^ (s.a &&& s.c) ^^^ (s.b &&& s.c)
  let t2 := s0 + mj
  ⟨t1 + t2, s.a, s.b, s.c, s.d + t1, s.e, s.f, s.g⟩

/-- sha512.c:46-78 -/
def sha512Compress (s : Sha512State) (block : List UInt8) : Sha512State :=
  let t := (sha512K.zip (schedule64 block)).foldl (fun t kw => sha512Round t kw.1 kw.2) s
  ⟨s.a + t.a, s.b + t.b, s.c + t.c, s.d + t.d, s.e + t.e, s.f + t.f, s.g + t.g, s.h + t.h⟩

/-- sha512.c:153-162 -/
def Sha512State.bytes (s : Sha512State) : List UInt8 :=
  [s.a, s.b, s.c, s.d, s.e, s.f, s.g, s.h].flatMap bitCountBe

/-! ## The contexts -/

/-- What one call of update is given: its length is a `size_t`. -/
structure Chunk where
  data : List UInt8
  size_t : data.length < 2 ^ 32

/-- crypto.h:22-27 -/
structure Sha256 where
  state : ShaState
  count : UInt64
  buf : List UInt8

/-- sha512.h:6-11 -/
structure Sha512 where
  state : Sha512State
  count0 : UInt64
  count1 : UInt64
  buf : List UInt8

namespace Sha256

/-- sha256.c:71-83 -/
def init : Sha256 := ⟨sha256Init, 0, []⟩

/-- sha256.c:85-113 -/
def update (s : Sha256) (c : Chunk) : Sha256 :=
  let r := absorb sha256Compress 64 s.state s.buf c.data
  ⟨r.1, s.count + UInt64.ofNat c.data.length, r.2⟩

/-- sha256.c:115-138 -/
def final (s : Sha256) : List UInt8 := (sha256Final s.state s.count.toNat s.buf).bytes

end Sha256

namespace Sha512

/-- sha512.c:81-96 -/
def init : Sha512 := ⟨sha512Init, 0, 0, []⟩

/-- sha512.c:98-105, 107-131 -/
def update (s : Sha512) (c : Chunk) : Sha512 :=
  let r := absorb sha512Compress 128 s.state s.buf c.data
  let low := s.count0 + UInt64.ofNat c.data.length
  ⟨r.1, low, if low < s.count0 then s.count1 + 1 else s.count1, r.2⟩

/-- sha512.c:133-163 -/
def final (s : Sha512) : List UInt8 :=
  let bitsLo := s.count0 <<< 3
  let bitsHi := (s.count1 <<< 3) ||| (s.count0 >>> 61)
  (finish sha512Compress 128 0 0x80 (bitCountBe bitsHi ++ bitCountBe bitsLo) s.state s.buf).bytes

end Sha512

/-- sha512.c:165-170 -/
def sha512 (c : Chunk) : List UInt8 := (Sha512.init.update c).final

/-! ## FIPS 180-4 -/

/-- The number `x` in `n` bytes, the most significant first. -/
def bytesBe (x n : Nat) : List UInt8 := (List.range n).map (byteBe x n)

/-- The digest of the padded message. -/
def Sha256.digest (m : List UInt8) : List UInt8 :=
  (wholeBlocks sha256Compress 64 sha256Init (padded 64 0 0x80 (bytesBe (8 * m.length) 8) m)).bytes

def Sha512.digest (m : List UInt8) : List UInt8 :=
  (wholeBlocks sha512Compress 128 sha512Init
    (padded 128 0 0x80 (bytesBe (8 * m.length) 16) m)).bytes

/-! ## The count of bits -/

variable {x n k : Nat}

theorem mod_div_mod_byte (h : k + 8 ≤ n) : x % 2 ^ n / 2 ^ k % 2 ^ 8 = x / 2 ^ k % 2 ^ 8 := by
  obtain ⟨m, rfl⟩ := Nat.exists_eq_add_of_le h
  rw [show k + 8 + m = k + (8 + m) by omega, pow_add, Nat.mod_mul_right_div_self, pow_add,
    Nat.mod_mul_right_mod]

theorem bitCountBe_eq (w : UInt64) (h : w.toNat = x % 2 ^ 64) : bitCountBe w = bytesBe x 8 := by
  apply map_congr_left
  intro i hi
  have hi := mem_range.mp hi
  rw [← UInt8.toNat_inj, UInt64.toNat_toUInt8, UInt64.toNat_shiftRight, byteBe, UInt8.toNat_ofNat',
    UInt64.toNat_ofNat', h, Nat.shiftRight_eq_div_pow,
    show (56 - i * 8) % 2 ^ 64 % 64 = 8 * (8 - 1 - i) by omega]
  exact mod_div_mod_byte (by omega)

theorem length_bytesBe (x n : Nat) : (bytesBe x n).length = n := by simp [bytesBe]

theorem bytesBe_append (x : Nat) : bytesBe (x / 2 ^ 64) 8 ++ bytesBe x 8 = bytesBe x 16 := by
  unfold bytesBe
  rw [show (16 : Nat) = 8 + 8 from rfl, range_add, map_append, map_map]
  congr 1
  apply map_congr_left
  intro i hi
  have hi := mem_range.mp hi
  rw [byteBe, byteBe, Nat.div_div_eq_div_mul, ← pow_add]
  congr 3
  omega

/-! ## SHA-256 -/

theorem chew_eq_compressBlocks : ∀ (n : Nat) (s : ShaState) (l : List UInt8),
    compressBlocks n s l = chew sha256Compress 64 n s l
  | 0, _, _ => rfl
  | n + 1, _, _ => chew_eq_compressBlocks n _ _

namespace Sha256

/-- Where the context stands after the message `m`. -/
structure At (m : List UInt8) (s : Sha256) : Prop where
  state : s.state = wholeBlocks sha256Compress 64 sha256Init m
  buf : s.buf = leftover 64 m
  count : s.count.toNat = m.length % 2 ^ 64

variable {m : List UInt8} {s : Sha256}

theorem At.update (h : At m s) (c : Chunk) : At (m ++ c.data) (s.update c) := by
  have hlen : s.buf.length < 64 := by
    rw [h.buf, length_leftover]
    omega
  have habs := absorb_eq (f := sha256Compress) hlen s.state c.data
  refine ⟨?_, ?_, ?_⟩
  · rw [wholeBlocks_append (by decide), ← h.state, ← h.buf]
    exact congrArg Prod.fst habs
  · rw [leftover_append (by decide), ← h.buf]
    exact congrArg Prod.snd habs
  · show (s.count + .ofNat c.data.length).toNat = _
    rw [UInt64.toNat_add, UInt64.toNat_ofNat', h.count, length_append, ← Nat.add_mod]

theorem At.final (h : At m s) : s.final = digest m := by
  have hbits : (UInt64.ofNat s.count.toNat * 8).toNat = 8 * m.length % 2 ^ 64 := by
    rw [UInt64.ofNat_toNat, UInt64.toNat_mul, h.count, Nat.mod_mul_mod, mul_comm]
    rfl
  have hfin : sha256Final s.state s.count.toNat s.buf =
      finish sha256Compress 64 0 0x80 (bitCountBe (.ofNat s.count.toNat * 8)) s.state s.buf :=
    rfl
  rw [Sha256.final, hfin, bitCountBe_eq _ hbits, h.state, h.buf, finish_eq]
  · rfl
  · rw [length_bytesBe]
    decide

theorem At.updates : ∀ (chunks : List Chunk) {m : List UInt8} {s : Sha256}, At m s →
    At (m ++ chunks.flatMap Chunk.data) (chunks.foldl Sha256.update s)
  | [], m, s, h => by simpa using h
  | c :: cs, m, s, h => by
    have ih := At.updates cs (h.update c)
    rwa [append_assoc] at ih

end Sha256

/-! ## SHA-512 -/

namespace Sha512

/-- Where the context stands after the message `m`. -/
structure At (m : List UInt8) (s : Sha512) : Prop where
  state : s.state = wholeBlocks sha512Compress 128 sha512Init m
  buf : s.buf = leftover 128 m
  count : s.count1.toNat * 2 ^ 64 + s.count0.toNat = m.length % 2 ^ 128

variable {m : List UInt8} {s : Sha512}

theorem carry_count {a b n len : Nat} (ha : a < 2 ^ 64) (hn : n < 2 ^ 32)
    (h : b * 2 ^ 64 + a = len % 2 ^ 128) (hlt : (a + n) % 2 ^ 64 < a) :
    (b + 1) % 2 ^ 64 * 2 ^ 64 + (a + n) % 2 ^ 64 = (len + n) % 2 ^ 128 := by
  have hlow : (a + n) % 2 ^ 64 + 2 ^ 64 = a + n := by omega
  have hhigh : (b + 1) % 2 ^ 64 * 2 ^ 64 = (b + 1) * 2 ^ 64 % 2 ^ 128 := by
    rw [show (2 : Nat) ^ 128 = 2 ^ 64 * 2 ^ 64 by norm_num, Nat.mul_mod_mul_right]
  rw [← Nat.mod_add_mod len, ← h, hhigh]
  omega

theorem At.update (h : At m s) (c : Chunk) : At (m ++ c.data) (s.update c) := by
  have hlen : s.buf.length < 128 := by
    rw [h.buf, length_leftover]
    omega
  have habs := absorb_eq (f := sha512Compress) hlen s.state c.data
  refine ⟨?_, ?_, ?_⟩
  · rw [wholeBlocks_append (by decide), ← h.state, ← h.buf]
    exact congrArg Prod.fst habs
  · rw [leftover_append (by decide), ← h.buf]
    exact congrArg Prod.snd habs
  · have hcount := h.count
    have h0 := s.count0.toNat_lt
    have h1 := s.count1.toNat_lt
    have hn := c.size_t
    have hlow : (s.count0 + .ofNat c.data.length).toNat =
        (s.count0.toNat + c.data.length) % 2 ^ 64 := by
      rw [UInt64.toNat_add, UInt64.toNat_ofNat', Nat.add_mod_mod]
    show (if s.count0 + UInt64.ofNat c.data.length < s.count0 then s.count1 + 1
      else s.count1).toNat * 2 ^ 64 + (s.count0 + .ofNat c.data.length).toNat = _
    rw [hlow, length_append]
    split <;> rename_i hlt <;> rw [UInt64.lt_iff_toNat_lt, hlow] at hlt
    · have hc : (s.count1 + 1).toNat = (s.count1.toNat + 1) % 2 ^ 64 := UInt64.toNat_add _ _
      rw [hc]
      exact carry_count h0 hn hcount hlt
    · omega

theorem At.final (h : At m s) : s.final = digest m := by
  have hcount := h.count
  have h0 := s.count0.toNat_lt
  have h1 := s.count1.toNat_lt
  have hlo : (s.count0 <<< 3).toNat = 8 * m.length % 2 ^ 64 := by
    rw [UInt64.toNat_shiftLeft, Nat.shiftLeft_eq]
    show s.count0.toNat * 2 ^ 3 % 2 ^ 64 = _
    omega
  have hhi : ((s.count1 <<< 3) ||| (s.count0 >>> 61)).toNat = 8 * m.length / 2 ^ 64 % 2 ^ 64 := by
    have hcarry : s.count0.toNat / 2 ^ 61 < 2 ^ 3 := by omega
    have hshift : s.count1.toNat <<< 3 % 2 ^ 64 = (s.count1.toNat % 2 ^ 61) <<< 3 := by
      rw [Nat.shiftLeft_eq, Nat.shiftLeft_eq]
      omega
    rw [UInt64.toNat_or, UInt64.toNat_shiftLeft, UInt64.toNat_shiftRight]
    show s.count1.toNat <<< 3 % 2 ^ 64 ||| s.count0.toNat >>> 61 = _
    rw [hshift, Nat.shiftRight_eq_div_pow, ← Nat.shiftLeft_add_eq_or_of_lt hcarry, Nat.shiftLeft_eq]
    omega
  rw [Sha512.final, bitCountBe_eq _ hhi, bitCountBe_eq _ hlo, bytesBe_append, h.state, h.buf, finish_eq]
  · rfl
  · rw [length_bytesBe]
    decide

theorem At.updates : ∀ (chunks : List Chunk) {m : List UInt8} {s : Sha512}, At m s →
    At (m ++ chunks.flatMap Chunk.data) (chunks.foldl Sha512.update s)
  | [], m, s, h => by simpa using h
  | c :: cs, m, s, h => by
    have ih := At.updates cs (h.update c)
    rwa [append_assoc] at ih

end Sha512

/-! ## Any split of the message -/

theorem Sha256.init_at : At [] init := ⟨rfl, rfl, rfl⟩

theorem Sha512.init_at : At [] init := ⟨rfl, rfl, rfl⟩

/-- The function that takes the message in one call. -/
theorem sha256_eq_digest (m : List UInt8) : sha256 m = Sha256.digest m := by
  have h : Sha256.At m ⟨wholeBlocks sha256Compress 64 sha256Init m, .ofNat m.length,
      leftover 64 m⟩ := ⟨rfl, rfl, UInt64.toNat_ofNat'⟩
  rw [← h.final, sha256, chew_eq_compressBlocks]
  show _ = (sha256Final _ (UInt64.ofNat m.length).toNat _).bytes
  unfold sha256Final
  rw [UInt64.ofNat_toNat]
  rfl

/-- However a message is split into chunks, empty ones among them, initialising,
updating with every chunk and finishing gives its digest, which is what the function that takes
the message in one call returns. -/
theorem streaming_digest (chunks : List Chunk) : let m := chunks.flatMap Chunk.data
    (chunks.foldl Sha256.update Sha256.init).final = Sha256.digest m ∧ sha256 m = Sha256.digest m ∧
    (chunks.foldl Sha512.update Sha512.init).final = Sha512.digest m ∧
      ∀ c : Chunk, c.data = m → sha512 c = Sha512.digest m := by
  intro m
  have h512 := Sha512.At.updates chunks Sha512.init_at
  refine ⟨(Sha256.At.updates chunks Sha256.init_at).final, sha256_eq_digest m, h512.final, ?_⟩
  intro c hc
  rw [← hc]
  exact (Sha512.init_at.update c).final

end AdventOS.Crypto
