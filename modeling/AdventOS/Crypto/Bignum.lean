import AdventOS.Core.Checked
import AdventOS.Core.Radix

/-!
# Numbers of 144 limbs

A `bignum` is an array of `BN_MAX_LIMBS` words of 32 bits and the count of those
that are significant. The functions here are the ones RSA and the certificate
parser use, limb by limb, every access to a limb array checked against its 144
elements. A loop that runs over the whole array and stores one value, as in
`bn_zero` and `bn_copy`, is written as the function it stores.

`AdventOS.Crypto.BignumValue` says what each of them computes.
-/
namespace AdventOS.Crypto

open AdventOS.Acc

/-- `BN_MAX_LIMBS`.
bignum.h:34 -/
def bnMaxLimbs : Nat := 144

/-- bignum.h:36-39 -/
structure Bignum where
  v : Nat → UInt32
  n : Nat

/-- The state of a loop over limbs: the array written and what is carried. -/
structure Sweep (C : Type) where
  v : Nat → UInt32
  carry : C

/-- How many of the first limbs remain when leading zeros go. -/
def trimFrom (v : Nat → UInt32) : Nat → Acc Nat
  | 0 => pure 0
  | n + 1 => do
    let top ← load bnMaxLimbs v n
    if top = 0 then trimFrom v n else pure (n + 1)

/-- bignum.c:16-18 -/
def bnTrim (b : Bignum) : Acc Bignum := do
  let n ← trimFrom b.v b.n
  pure { b with n }

/-- bignum.c:20-25 -/
def bnClearHigh (b : Bignum) : Bignum := { b with v := fun i => if b.n ≤ i then 0 else b.v i }

/-- bignum.c:27-30 -/
def bnZero : Bignum := ⟨fun _ => 0, 0⟩

/-- bignum.c:32-35 -/
def bnSetU32 (value : UInt32) : Bignum :=
  if value ≠ 0 then ⟨Function.update bnZero.v 0 value, 1⟩ else bnZero

/-- The inner loop of `bn_from_bytes_be`: a shift to the left by 8.
bignum.c:50-56 -/
def shiftLeft8 (v : Nat → UInt32) : Acc (Nat → UInt32) := do
  let s ← up bnMaxLimbs (⟨v, 0⟩ : Sweep UInt32) fun j s => do
    let x ← load bnMaxLimbs s.v j
    let cur := (x.toUInt64 <<< 8) ||| s.carry.toUInt64
    let v ← store bnMaxLimbs s.v j cur.toUInt32
    pure ⟨v, (cur >>> 32).toUInt32⟩
  pure s.v

/-- The `n` bytes of `buf` from `off`.
bignum.c:46-61 -/
def bnFromBytesBe (buf : Buf) (off n : Nat) : Acc Bignum := do
  let v ← up n bnZero.v fun i v => do
    let v ← shiftLeft8 v
    let c ← buf.read (off + i)
    let x ← load bnMaxLimbs v 0
    store bnMaxLimbs v 0 (x ||| c.toUInt32)
  bnTrim ⟨v, bnMaxLimbs⟩

/-- The inner loop of `bn_to_bytes_be`: a shift to the right by 8.
bignum.c:69-75 -/
def shiftRight8 (v : Nat → UInt32) : Acc (Nat → UInt32) := do
  let s ← down bnMaxLimbs (⟨v, 0⟩ : Sweep UInt32) fun j s => do
    let lo ← load bnMaxLimbs s.v j
    let v ← store bnMaxLimbs s.v j ((lo >>> 8) ||| (s.carry <<< 24))
    pure ⟨v, lo &&& 0xFF⟩
  pure s.v

/-- The bytes written and the number left. -/
structure ByteSweep where
  buf : Nat → UInt8
  t : Nat → UInt32

/-- Into the first `n` of the `size` bytes of `buf`.
bignum.c:63-77 -/
def bnToBytesBe (b : Bignum) (size : Nat) (buf : Nat → UInt8) (n : Nat) : Acc (Nat → UInt8) := do
  let s ← down n (⟨buf, b.v⟩ : ByteSweep) fun i s => do
    let x ← load bnMaxLimbs s.t 0
    let buf ← store size s.buf i (x &&& 0xFF).toUInt8
    let t ← shiftRight8 s.t
    pure ⟨buf, t⟩
  pure s.buf

/-- `while (bits > 0 && !(top & (1u << (bits - 1)))) bits--;` -/
def topBits (top : UInt32) : Nat → Nat
  | 0 => 0
  | bits + 1 => if top &&& (1 <<< UInt32.ofNat bits) = 0 then topBits top bits else bits + 1

/-- bignum.c:79-85 -/
def bnBitLength (b : Bignum) : Acc Nat :=
  if b.n = 0 then pure 0 else do
    let top ← load bnMaxLimbs b.v (b.n - 1)
    pure ((b.n - 1) * 32 + topBits top 32)

/-- bignum.c:87-89 -/
def bnByteLength (b : Bignum) : Acc Nat := do
  let bits ← bnBitLength b
  pure ((bits + 7) / 8)

/-- The limbs below `i`, the highest first. -/
def cmpFrom (a b : Nat → UInt32) : Nat → Acc Ordering
  | 0 => pure .eq
  | i + 1 => do
    let x ← load bnMaxLimbs a i
    let y ← load bnMaxLimbs b i
    if x ≠ y then pure (if y < x then .gt else .lt) else cmpFrom a b i

/-- bignum.c:95-101 -/
def bnCmp (a b : Bignum) : Acc Ordering :=
  if a.n ≠ b.n then pure (if b.n < a.n then .gt else .lt) else cmpFrom a.v b.v a.n

/-- bignum.c:103 -/
def bnIsZero (b : Bignum) : Bool := b.n = 0

/-- bignum.c:105-107 -/
def bnIsOdd (b : Bignum) : Acc Bool :=
  if 0 < b.n then do
    let x ← load bnMaxLimbs b.v 0
    pure (x &&& 1 ≠ 0)
  else pure false

/-- bignum.c:109-114 -/
def bnBitAt (b : Bignum) (bit : Nat) : Acc Bool :=
  if b.n ≤ bit / 32 then pure false else do
    let x ← load bnMaxLimbs b.v (bit / 32)
    pure (((x >>> UInt32.ofNat (bit % 32)) &&& 1) ≠ 0)

/-- bignum.c:120-134 -/
def bnAdd (a b : Bignum) : Acc Bignum := do
  let n := if b.n < a.n then a.n else b.n
  let s ← up n (⟨bnZero.v, 0⟩ : Sweep UInt64) fun i s => do
    let x ← load bnMaxLimbs a.v i
    let y ← load bnMaxLimbs b.v i
    let sum := x.toUInt64 + y.toUInt64 + s.carry
    let v ← store bnMaxLimbs s.v i sum.toUInt32
    pure ⟨v, sum >>> 32⟩
  let r ← (if s.carry ≠ 0 then do
      let v ← store bnMaxLimbs s.v n s.carry.toUInt32
      pure ⟨v, n + 1⟩
    else pure ⟨s.v, n⟩)
  bnTrim (bnClearHigh r)

/-- `none` where the code returns -1 and leaves its result as it was.
bignum.c:136-156 -/
def bnSub (a b : Bignum) : Acc (Option Bignum) := do
  let c ← bnCmp a b
  if c = .lt then pure none else do
    let s ← up a.n (⟨a.v, 0⟩ : Sweep Int) fun i s => do
      let x ← load bnMaxLimbs s.v i
      let y ← load bnMaxLimbs b.v i
      let diff := (x.toNat : Int) - (y.toNat : Int) - s.carry
      let v ← store bnMaxLimbs s.v i (UInt32.ofNat (if diff < 0 then diff + 2 ^ 32 else diff).toNat)
      pure ⟨v, if diff < 0 then 1 else 0⟩
    let r ← bnTrim (bnClearHigh ⟨s.v, a.n⟩)
    pure (some r)

/-- The loop of `bn_lshift1`.
bignum.c:159-164 -/
def shiftLeft1 (v : Nat → UInt32) : Acc (Nat → UInt32) := do
  let s ← up bnMaxLimbs (⟨v, 0⟩ : Sweep UInt32) fun i s => do
    let lo ← load bnMaxLimbs s.v i
    let v ← store bnMaxLimbs s.v i ((lo <<< 1) ||| s.carry)
    pure ⟨v, lo >>> 31⟩
  pure s.v

/-- bignum.c:158-174 -/
def bnLshift1 (b : Bignum) : Acc Bignum := do
  let v ← shiftLeft1 b.v
  let top ← load bnMaxLimbs v (bnMaxLimbs - 1)
  let n ← (if top ≠ 0 then pure bnMaxLimbs else if b.n < bnMaxLimbs then do
      let next ← load bnMaxLimbs v b.n
      pure (if next ≠ 0 then b.n + 1 else b.n)
    else pure b.n)
  bnTrim ⟨v, n⟩

/-- The loop of `bn_rshift1`.
bignum.c:177-182 -/
def shiftRight1 (v : Nat → UInt32) : Acc (Nat → UInt32) := do
  let s ← down bnMaxLimbs (⟨v, 0⟩ : Sweep UInt32) fun i s => do
    let lo ← load bnMaxLimbs s.v i
    let v ← store bnMaxLimbs s.v i ((lo >>> 1) ||| (s.carry <<< 31))
    pure ⟨v, lo &&& 1⟩
  pure s.v

/-- bignum.c:176-184 -/
def bnRshift1 (b : Bignum) : Acc Bignum := do
  let v ← shiftRight1 b.v
  bnTrim ⟨v, b.n⟩

/-- More steps than any loop over the value of a bignum makes. -/
def bnFuel : Nat := 64 * bnMaxLimbs + 2

/-- A number, and how often it has been halved. -/
structure Halved where
  b : Bignum
  s : Nat

/-- `while (!bn_is_odd(&d)) { bn_rshift1(&d); s++; }`. The loops of `bn_gcd` do not count.
bignum.c:459 -/
def dropTwos (b : Bignum) : Acc Halved :=
  repeatWhile (fun h => do
    let odd ← bnIsOdd h.b
    pure !odd) (fun h => do
    let b ← bnRshift1 h.b
    pure ⟨b, h.s + 1⟩) bnFuel ⟨b, 0⟩

/-- One row of `bn_mul`: `a[i]` times every limb of `b`, added at `i`.
bignum.c:200-214 -/
def mulRow (a b : Bignum) (i : Nat) (r : Nat → UInt32) : Acc (Nat → UInt32) := do
  let s ← up (min b.n (bnMaxLimbs - i)) (⟨r, 0⟩ : Sweep UInt64) fun j s => do
    let x ← load bnMaxLimbs a.v i
    let y ← load bnMaxLimbs b.v j
    let z ← load bnMaxLimbs s.v (i + j)
    let prod := x.toUInt64 * y.toUInt64 + z.toUInt64 + s.carry
    let v ← store bnMaxLimbs s.v (i + j) prod.toUInt32
    pure ⟨v, prod >>> 32⟩
  if i + b.n < bnMaxLimbs then do
    let z ← load bnMaxLimbs s.v (i + b.n)
    store bnMaxLimbs s.v (i + b.n) (z.toUInt64 + s.carry).toUInt32
  else pure s.v

/-- bignum.c:193-218 -/
def bnMul (a b : Bignum) : Acc Bignum := do
  let v ← up a.n bnZero.v fun i r => mulRow a b i r
  bnTrim ⟨v, min (a.n + b.n) bnMaxLimbs⟩

/-- Setting the low bit, as `bn_mod` does it.
bignum.c:239-240 -/
def setBit0 (rem : Bignum) : Acc Bignum := do
  let x ← load bnMaxLimbs rem.v 0
  let v ← store bnMaxLimbs rem.v 0 (x ||| 1)
  pure ⟨v, if rem.n = 0 then 1 else rem.n⟩

/-- Setting a higher bit, as `bn_modinv` does it in its quotient.
bignum.c:366-369 -/
def setBitAt (quot : Bignum) (i : Nat) : Acc Bignum := do
  let x ← load bnMaxLimbs quot.v (i / 32)
  let v ← store bnMaxLimbs quot.v (i / 32) (x ||| (1 <<< UInt32.ofNat (i % 32)))
  pure ⟨v, if quot.n ≤ i / 32 then i / 32 + 1 else quot.n⟩

/-- One bit of the long division.
bignum.c:234-246 -/
def modStep (a m : Bignum) (i : Nat) (rem : Bignum) : Acc Bignum := do
  let rem ← bnLshift1 rem
  let bit ← bnBitAt a i
  let rem ← (if bit then setBit0 rem else pure rem)
  let c ← bnCmp rem m
  if c ≠ .lt then do
    let r ← bnSub rem m
    pure (r.getD rem)
  else pure rem

/-- bignum.c:227-249 -/
def bnMod (a m : Bignum) : Acc Bignum := do
  let c ← bnCmp a m
  if c = .lt then pure a else do
    let abits ← bnBitLength a
    let rem ← down abits bnZero fun i rem => modStep a m i rem
    pure (bnClearHigh rem)

/-- bignum.c:251-255 -/
def bnModmul (a b m : Bignum) : Acc Bignum := do
  let prod ← bnMul a b
  bnMod prod m

/-- The two numbers of `bn_modpow`. -/
structure PowState where
  acc : Bignum
  b : Bignum

/-- One bit of the exponent.
bignum.c:270-277 -/
def powStep (exp m : Bignum) (ebits i : Nat) (s : PowState) : Acc PowState := do
  let bit ← bnBitAt exp i
  let acc ← (if bit then bnModmul s.acc s.b m else pure s.acc)
  let b ← (if i + 1 < ebits then bnModmul s.b s.b m else pure s.b)
  pure ⟨acc, b⟩

/-- bignum.c:264-280 -/
def bnModpow (base exp m : Bignum) : Acc Bignum := do
  let b ← bnMod base m
  let ebits ← bnBitLength exp
  let s ← up ebits (⟨bnSetU32 1, b⟩ : PowState) fun i s => powStep exp m ebits i s
  pure s.acc

end AdventOS.Crypto
