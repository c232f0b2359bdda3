import AdventOS.Core.ModPow
import AdventOS.Crypto.BignumPower

/-!
# The primality test

`bn_is_prime`: trial division by the odd primes below 256, then the rounds of Miller and Rabin.
`rand k i` is byte `i` of what the `k`-th call of `rand_bytes` delivers.

A prime stays because its odd part `d` satisfies `a ^ (d * 2 ^ s) = 1`, and squaring reaches one
in a field only from one or from minus one; the loop looks at the powers `a ^ (d * 2 ^ j)` for
`j < s`, which is where that minus one can stand.

* `smallPrimeFilter_ok`: what the three results of the filter say.
* `primeRound_ok`: no round rejects a prime, whatever the bytes.
* `bnIsPrime_ok`: nor does the test, and a number with another small prime factor is rejected.
-/
namespace AdventOS.Crypto
open Function List

open AdventOS.Acc

/-- The table of `small_prime_filter`.
bignum.c:425-430 -/
def smallPrimes : List UInt32 :=
  [3, 5, 7, 11, 13, 17, 19, 23, 29, 31, 37, 41, 43, 47, 53,
    59, 61, 67, 71, 73, 79, 83, 89, 97, 101, 103, 107, 109, 113,
    127, 131, 137, 139, 149, 151, 157, 163, 167, 173, 179, 181,
    191, 193, 197, 199, 211, 223, 227, 229, 233, 239, 241, 251]

/-- The loop of `small_prime_filter` over the rest of the table. -/
def filterFrom (n : Bignum) : List UInt32 → Acc (Option Bool)
  | [] => pure none
  | p :: ps => do
    let c ← bnCmp n (bnSetU32 p)
    if c = .eq then pure (some true) else do
      let r ← bnMod n (bnSetU32 p)
      if bnIsZero r then pure (some false) else filterFrom n ps

/-- `none` where the code returns -1.
bignum.c:424-440 -/
def smallPrimeFilter (n : Bignum) : Acc (Option Bool) := filterFrom n smallPrimes

/-- `bytes` are the bytes `rand_bytes` delivers. Without bits the code writes limb -1.
bignum.c:492-519 -/
def bnRandBits (bytes : Nat → UInt8) (bits : Nat) : Acc Bignum :=
  if bits = 0 then null bnZero else do
    span (bnMaxLimbs * 4) 0 ((bits + 7) / 8)
    let b ← bnFromBytesBe ⟨bytes, bnMaxLimbs * 4⟩ 0 ((bits + 7) / 8)
    let topLimb := (bits - 1) / 32
    let topShift := (bits - 1) % 32
    let v ← (if topLimb < bnMaxLimbs then do
        let x ← load bnMaxLimbs b.v topLimb
        let mask : UInt32 :=
          if topShift = 31 then 0xFFFFFFFF else (1 <<< UInt32.ofNat (topShift + 1)) - 1
        let v ← store bnMaxLimbs b.v topLimb (x &&& mask)
        let v := fun i => if topLimb < i ∧ i < bnMaxLimbs then 0 else v i
        let y ← load bnMaxLimbs v topLimb
        store bnMaxLimbs v topLimb (y ||| (1 <<< UInt32.ofNat topShift))
      else pure b.v)
    let x ← load bnMaxLimbs v 0
    let v ← store bnMaxLimbs v 0 (x ||| 1)
    bnTrim ⟨v, topLimb + 1⟩

/-- A base between 2 and `n - 2`.
bignum.c:463-467 -/
def drawBase (n n1 : Bignum) (bytes : Nat → UInt8) : Acc Bignum := do
  let bits ← bnBitLength n
  let a ← bnRandBits bytes (bits - 1)
  let a := if bnIsZero a then bnSetU32 2 else a
  let c ← bnCmp a (bnSetU32 2)
  let a := if c = .lt then bnSetU32 2 else a
  let c ← bnCmp a n1
  pure (if c ≠ .lt then bnSetU32 2 else a)

/-- Squaring `x` up to `k` times: whether `n - 1` is never reached.
bignum.c:475-481 -/
def neverReaches (n n1 : Bignum) : Nat → Bignum → Acc Bool
  | 0, _ => pure true
  | k + 1, x => do
    let tmp ← bnModmul x x n
    let c ← bnCmp tmp n1
    if c = .eq then pure false else neverReaches n n1 k tmp

/-- One round, true where it goes on to the next.
bignum.c:461-483 -/
def primeRound (n n1 d : Bignum) (s : Nat) (bytes : Nat → UInt8) : Acc Bool := do
  let a ← drawBase n n1 bytes
  let x ← bnModpow a d n
  let c ← bnCmp x (bnSetU32 1)
  let c' ← bnCmp x n1
  if c = .eq ∨ c' = .eq then pure true else do
    let composite ← neverReaches n n1 (s - 1) x
    pure !composite

def primeRounds (n n1 d : Bignum) (s : Nat) : Nat → (Nat → Nat → UInt8) → Acc Bool
  | 0, _ => pure true
  | rounds + 1, rand => do
    let pass ← primeRound n n1 d s (rand 0)
    if pass then primeRounds n n1 d s rounds fun k => rand (k + 1) else pure false

/-- bignum.c:442-486 -/
def bnIsPrime (n : Bignum) (rounds : Int) (rand : Nat → Nat → UInt8) : Acc Bool := do
  let c2 ← bnCmp n (bnSetU32 2)
  if c2 = .lt then pure false else
    if c2 = .eq then pure true else do
      let c3 ← bnCmp n (bnSetU32 3)
      if c3 = .eq then pure true else do
        let odd ← bnIsOdd n
        if !odd then pure false else do
          let filt ← smallPrimeFilter n
          if filt.isSome then pure (filt.getD false) else do
            let n1 ← bnSub n (bnSetU32 1)
            let n1 := n1.getD bnZero
            let h ← dropTwos n1
            primeRounds n n1 h.b h.s rounds.toNat rand

/-! ## Trial division -/

variable {n n1 d : Bignum}

/-- What a result of the filter says about `n`. -/
def Sifted (n : Nat) (ps : List UInt32) (r : Option Bool) : Prop :=
  (r = some true → ∃ p ∈ ps, n = p.toNat) ∧ (r = some false → ∃ p ∈ ps, p.toNat ∣ n ∧ n ≠ p.toNat) ∧
    (r = none → ∀ p ∈ ps, ¬ p.toNat ∣ n)

theorem filterFrom_ok (hn : n.WF) : ∀ ps : List UInt32, (filterFrom n ps).Ok (Sifted n.val ps)
  | [] => Ok.pure ⟨by simp, by simp, by simp⟩
  | p :: ps => by
    have hp := bnSetU32_wf p
    refine Ok.bind (bnCmp_ok hn hp) ?_
    intro c hc
    rw [bnSetU32_val] at hc
    refine Ok.ite ?_ ?_
    · intro heq
      have heq : n.val = p.toNat := compare_eq_iff_eq.mp (hc ▸ heq)
      exact Ok.pure ⟨fun _ => ⟨p, mem_cons_self, heq⟩, by simp, by simp⟩
    · intro hne
      have hne : n.val ≠ p.toNat := mt compare_eq_iff_eq.mpr (hc ▸ hne)
      refine Ok.bind (bnMod_ok hn hp) ?_
      intro r ⟨hr, hrval⟩
      have hdvd : bnIsZero r = true ↔ p.toNat ∣ n.val := by
        rw [bnIsZero_eq hr, decide_eq_true_iff, hrval, bnSetU32_val, Nat.dvd_iff_mod_eq_zero]
      refine Ok.ite ?_ ?_
      · intro h0
        exact Ok.pure ⟨by simp, fun _ => ⟨p, mem_cons_self, hdvd.mp h0, hne⟩, by simp⟩
      · intro h0
        refine (filterFrom_ok hn ps).mono ?_
        intro f ⟨htrue, hfalse, hnone⟩
        refine ⟨?_, ?_, ?_⟩
        · intro h
          obtain ⟨q, hq, hnq⟩ := htrue h
          exact ⟨q, mem_cons_of_mem p hq, hnq⟩
        · intro h
          obtain ⟨q, hq, hnq⟩ := hfalse h
          exact ⟨q, mem_cons_of_mem p hq, hnq⟩
        · intro h q hq
          rcases mem_cons.mp hq with rfl | hq
          · exact mt hdvd.mpr h0
          · exact hnone h q hq

theorem smallPrimeFilter_ok (hn : n.WF) : (smallPrimeFilter n).Ok (Sifted n.val smallPrimes) :=
  filterFrom_ok hn smallPrimes

theorem prime_of_mem_smallPrimes : ∀ p ∈ smallPrimes, p.toNat.Prime := by
  simp only [smallPrimes, forall_mem_cons, UInt32.reduceToNat]
  norm_num

theorem mem_smallPrimes_of_prime {q : Nat} (hq : q.Prime) (h2 : q ≠ 2) (hle : q ≤ 251) :
    ∃ p ∈ smallPrimes, p.toNat = q := by
  have hall : ∀ q ∈ range 252, q < 3 ∨ (∃ p ∈ smallPrimes, p.toNat = q) ∨
      ∃ k ∈ [2, 3, 5, 7, 11, 13], k ∣ q ∧ k ≠ q := by
    decide +kernel
  have hqlt := hq.two_le
  rcases hall q (mem_range.mpr (by omega)) with h | h | ⟨k, hk, hdvd, hne⟩
  · omega
  · exact h
  · rcases (Nat.dvd_prime hq).mp hdvd with h1 | h1
    · rw [h1] at hk
      exact absurd hk (by decide)
    · exact absurd h1 hne

/-! ## One round -/

variable {bytes : Nat → UInt8} {s : Nat}

theorem bnRandBits_ok {bits : Nat} (hpos : 0 < bits) (hle : bits ≤ 32 * bnMaxLimbs) :
    (bnRandBits bytes bits).Ok Bignum.WF := by
  have hmax : (bits + 7) / 8 ≤ bnMaxLimbs * 4 := by omega
  have htop : (bits - 1) / 32 < bnMaxLimbs := by omega
  unfold bnRandBits
  rw [if_neg (by omega)]
  refine Ok.bind (ok_span (by omega)) ?_
  intro _ _
  refine Ok.bind (bnFromBytesBe_ok (show 0 + (bits + 7) / 8 ≤ bnMaxLimbs * 4 by omega)) ?_
  intro b ⟨hb, _⟩
  have hble := hb.le
  refine Ok.bind (P := fun v => ∀ i, (bits - 1) / 32 < i → v i = 0) ?_ ?_
  · rw [if_pos htop]
    refine Ok.bind (load_ok htop) ?_
    intro x _
    refine Ok.bind (store_ok htop) ?_
    intro v hv
    refine Ok.bind (load_ok htop) ?_
    intro y _
    refine (store_ok htop).mono ?_
    intro w hw i hi
    rw [hw, update_apply, if_neg (by omega)]
    by_cases hmid : i < bnMaxLimbs
    · exact if_pos ⟨hi, hmid⟩
    · rw [if_neg (by omega), hv, update_apply, if_neg (by omega)]
      exact hb.zero i (by omega)
  · intro v hv
    refine Ok.bind (load_ok (by decide)) ?_
    intro x _
    refine Ok.bind (store_ok (by decide)) ?_
    intro w hw
    refine (bnTrim_ok (b := ⟨w, (bits - 1) / 32 + 1⟩) htop ?_).mono fun c hc => hc.1
    intro i hi
    have hi : (bits - 1) / 32 + 1 ≤ i := hi
    show w i = 0
    rw [hw, update_apply, if_neg (by omega)]
    exact hv i (by omega)

theorem two_of {a : Bignum} {P : Prop} [Decidable P] (ha : a.WF) :
    (if P then bnSetU32 2 else a).WF := by
  split
  · exact bnSetU32_wf 2
  · exact ha

theorem drawBase_ok (hn : n.WF) (hn1 : n1.WF) (hval : n1.val = n.val - 1) (hbig : 3 < n.val) :
    (drawBase n n1 bytes).Ok fun a => a.WF ∧ 2 ≤ a.val ∧ a.val < n1.val := by
  have htwo : (bnSetU32 2).val = 2 := bnSetU32_val 2
  have hsize := n.size_le
  have hsize2 : 1 < Nat.size n.val := Nat.lt_size.mpr (by omega)
  refine Ok.bind (bnBitLength_ok hn) ?_
  intro bits hbits
  refine Ok.bind (bnRandBits_ok (by omega) (by omega)) ?_
  intro a ha
  have ha := two_of (P := bnIsZero a = true) ha
  generalize (if bnIsZero a then bnSetU32 2 else a) = a' at ha ⊢
  refine Ok.bind (bnCmp_ok ha (bnSetU32_wf 2)) ?_
  intro c hc
  rw [htwo] at hc
  have ha2 := two_of (P := c = .lt) ha
  have hge : 2 ≤ (if c = .lt then bnSetU32 2 else a').val := by
    split
    · exact htwo.ge
    · rename_i hlt
      exact not_lt.mp (mt compare_lt_iff_lt.mpr (hc ▸ hlt))
  generalize (if c = .lt then bnSetU32 2 else a') = b at ha2 hge ⊢
  refine Ok.bind (bnCmp_ok ha2 hn1) ?_
  intro c' hc'
  refine Ok.pure ⟨two_of ha2, ?_⟩
  split
  · rw [htwo]
    omega
  · rename_i hlt
    exact ⟨hge, compare_lt_iff_lt.mp (hc' ▸ not_not.mp hlt)⟩

section Prime

-- the prime has a name of its own: `ZMod` would look into the limbs of `n.val`
variable {p : Nat} (hp : p.Prime) (hhalf : p < halfLimit) (hn : n.WF) (hnp : n.val = p)
  (hn1 : n1.WF) (hval : n1.val = p - 1)

theorem cast_eq_neg_one_iff (hp : p.Prime) {c : Nat} (hc : c < p) :
    (c : ZMod p) = -1 ↔ c = p - 1 := by
  have hneg : (-1 : ZMod p) = ((p - 1 : Nat) : ZMod p) := by
    rw [Nat.cast_sub hp.one_le, ZMod.natCast_self, zero_sub, Nat.cast_one]
  have hpos := hp.pos
  rw [hneg, ZMod.natCast_eq_natCast_iff', Nat.mod_eq_of_lt hc, Nat.mod_eq_of_lt (by omega)]

include hp hhalf hn hnp hn1 hval in
theorem neverReaches_ok {k : Nat} {x : Bignum} (hx : x.WF) (hlt : x.val < p)
    (h : ∃ j, 0 < j ∧ j ≤ k ∧ (x.val : ZMod p) ^ 2 ^ j = -1) :
    (neverReaches n n1 k x).Ok (· = false) := by
  induction k generalizing x with
  | zero =>
    obtain ⟨j, h0, hj, _⟩ := h
    omega
  | succ k ih =>
    obtain ⟨j, h0, hj, hneg⟩ := h
    refine Ok.bind (bnModmul_ok hx hx hn) ?_
    intro t ⟨ht, htval⟩
    rw [Nat.mod_eq_of_lt (mul_lt_limit (hlt.trans hhalf) (hlt.trans hhalf)), hnp] at htval
    have htlt : t.val < p := htval ▸ Nat.mod_lt _ hp.pos
    have hcast : (t.val : ZMod p) = (x.val : ZMod p) ^ 2 := by
      rw [htval, ZMod.natCast_mod, Nat.cast_mul, pow_two]
    refine Ok.bind (bnCmp_ok ht hn1) ?_
    intro c hc
    refine Ok.ite (fun _ => Ok.pure rfl) ?_
    intro hne
    have hne : t.val ≠ n1.val := mt compare_eq_iff_eq.mpr (hc ▸ hne)
    obtain ⟨i, rfl⟩ := Nat.exists_eq_succ_of_ne_zero h0.ne'
    rw [Nat.succ_eq_add_one, pow_succ', pow_mul, ← hcast] at hneg
    refine ih ht htlt ⟨i, ?_, by omega, hneg⟩
    -- the first square is not minus one
    by_contra hi
    obtain rfl : i = 0 := by omega
    rw [pow_zero, pow_one, cast_eq_neg_one_iff hp htlt, ← hval] at hneg
    exact hne hneg

include hp hhalf hn hnp hn1 hval in
theorem primeRound_ok (hbig : 3 < p) (hd : d.WF) (hds : n1.val = d.val * 2 ^ s) :
    (primeRound n n1 d s bytes).Ok (· = true) := by
  have := Fact.mk hp
  refine Ok.bind (drawBase_ok hn hn1 (hval.trans (by rw [hnp])) (hnp ▸ hbig)) ?_
  intro a ⟨ha, h2, halt⟩
  refine Ok.bind (bnModpow_ok ha hd hn) ?_
  intro x ⟨hx, hxval⟩
  rw [hnp, powMod_small hp.one_lt hhalf] at hxval
  have hxlt : x.val < p := hxval ▸ Nat.mod_lt _ hp.pos
  have hcast : (x.val : ZMod p) = (a.val : ZMod p) ^ d.val := by
    rw [hxval, ZMod.natCast_mod, Nat.cast_pow]
  have ha0 : (a.val : ZMod p) ≠ 0 := by
    rw [Ne, ZMod.natCast_eq_zero_iff]
    exact Nat.not_dvd_of_pos_of_lt (by omega) (by omega)
  have hone : (x.val : ZMod p) ^ 2 ^ s = 1 := by
    rw [hcast, ← pow_mul, ← hds, hval]
    exact ZMod.pow_card_sub_one_eq_one ha0
  refine Ok.bind (bnCmp_ok hx (bnSetU32_wf 1)) ?_
  intro c hc
  refine Ok.bind (bnCmp_ok hx hn1) ?_
  intro c' hc'
  refine Ok.ite (fun _ => Ok.pure rfl) ?_
  intro hne
  rw [hc, hc', compare_eq_iff_eq, compare_eq_iff_eq, bnSetU32_val, UInt32.toNat_one,
    not_or, hval] at hne
  have hpass : ∃ j, 0 < j ∧ j ≤ s - 1 ∧ (x.val : ZMod p) ^ 2 ^ j = -1 := by
    rcases eq_one_or_passes_neg_one hone with h1 | ⟨j, hj, hneg⟩
    · rw [← Nat.cast_one, ZMod.natCast_eq_natCast_iff', Nat.mod_eq_of_lt hxlt,
        Nat.mod_eq_of_lt hp.one_lt] at h1
      exact absurd h1 hne.1
    · refine ⟨j, pos_of_ne_zero ?_, by omega, hneg⟩
      rintro rfl
      rw [pow_zero, pow_one, cast_eq_neg_one_iff hp hxlt] at hneg
      exact hne.2 hneg
  refine Ok.bind (neverReaches_ok hp hhalf hn hnp hn1 hval hx hxlt hpass) ?_
  intro composite hcomp
  rw [hcomp]
  exact Ok.pure rfl

include hp hhalf hn hnp hn1 hval in
theorem primeRounds_ok (hbig : 3 < p) (hd : d.WF) (hds : n1.val = d.val * 2 ^ s) :
    ∀ (rounds : Nat) (rand : Nat → Nat → UInt8), (primeRounds n n1 d s rounds rand).Ok (· = true)
  | 0, _ => Ok.pure rfl
  | rounds + 1, rand => by
    refine Ok.bind (primeRound_ok hp hhalf hn hnp hn1 hval hbig hd hds) ?_
    intro pass hpass
    rw [if_pos hpass]
    exact primeRounds_ok hbig hd hds rounds _

end Prime

/-! ## The test -/

/-- Up to the rounds: what is left is odd, above 3 and without a prime factor of the table. -/
theorem bnIsPrime_cases (hn : n.WF) (rounds : Int) (rand : Nat → Nat → UInt8)
    {Q : Bool → Prop} (hsmall : n.val < 2 → Q false) (h2 : n.val = 2 → Q true)
    (h3 : n.val = 3 → Q true) (heven : 2 < n.val → n.val % 2 = 0 → Q false)
    (hprime : n.val.Prime → Q true)
    (hfactor : ∀ p, p.Prime → p ∣ n.val → n.val ≠ p → Q false)
    (hrounds : 3 < n.val → n.val % 2 = 1 → (∀ p ∈ smallPrimes, ¬ p.toNat ∣ n.val) →
      ∀ (n1 d : Bignum) (s : Nat), n1.WF → d.WF → n1.val = n.val - 1 → n1.val = d.val * 2 ^ s →
        (primeRounds n n1 d s rounds.toNat rand).Ok Q) :
    (bnIsPrime n rounds rand).Ok Q := by
  have hone : (bnSetU32 1).val = 1 := bnSetU32_val 1
  have htwo : (bnSetU32 2).val = 2 := bnSetU32_val 2
  have hthree : (bnSetU32 3).val = 3 := bnSetU32_val 3
  refine Ok.bind (bnCmp_ok hn (bnSetU32_wf 2)) ?_
  intro c hc
  rw [htwo] at hc
  refine Ok.ite (fun h => Ok.pure (hsmall (compare_lt_iff_lt.mp (hc ▸ h)))) ?_
  intro hge
  have hge : ¬ n.val < 2 := mt compare_lt_iff_lt.mpr (hc ▸ hge)
  refine Ok.ite (fun h => Ok.pure (h2 (compare_eq_iff_eq.mp (hc ▸ h)))) ?_
  intro hne2
  have hne2 : n.val ≠ 2 := mt compare_eq_iff_eq.mpr (hc ▸ hne2)
  refine Ok.bind (bnCmp_ok hn (bnSetU32_wf 3)) ?_
  intro c' hc'
  rw [hthree] at hc'
  refine Ok.ite (fun h => Ok.pure (h3 (compare_eq_iff_eq.mp (hc' ▸ h)))) ?_
  intro hne3
  have hne3 : n.val ≠ 3 := mt compare_eq_iff_eq.mpr (hc' ▸ hne3)
  refine Ok.bind (bnIsOdd_ok hn) ?_
  intro odd hodd
  refine Ok.ite ?_ ?_
  · intro h
    rw [Bool.not_eq_true', ← Bool.not_eq_true, hodd] at h
    exact Ok.pure (heven (by omega) (by omega))
  · intro h
    rw [Bool.not_eq_true', Bool.not_eq_false, hodd] at h
    refine Ok.bind (smallPrimeFilter_ok hn) ?_
    intro filt ⟨htrue, hfalse, hnone⟩
    refine Ok.ite ?_ ?_
    · intro hsome
      refine Ok.pure ?_
      obtain ⟨b, rfl⟩ := Option.isSome_iff_exists.mp hsome
      cases b with
      | true =>
        obtain ⟨p, hp, heq⟩ := htrue rfl
        exact hprime (heq ▸ prime_of_mem_smallPrimes p hp)
      | false =>
        obtain ⟨p, hp, hdvd, hne⟩ := hfalse rfl
        exact hfactor _ (prime_of_mem_smallPrimes p hp) hdvd hne
    · intro hsome
      refine Ok.bind (bnSub_of_le hn (bnSetU32_wf 1) (by omega)) ?_
      intro r ⟨n1, hr, hn1, hn1val⟩
      rw [hone] at hn1val
      rw [hr, Option.getD_some]
      refine Ok.bind (dropTwos_ok hn1 (by omega)) ?_
      intro t ⟨ht, _, hts⟩
      exact hrounds (by omega) h (hnone (Option.not_isSome_iff_eq_none.mp hsome)) n1 t.b t.s hn1 ht
        hn1val hts

/-- The test accepts every prime of half the limbs, whatever the number of rounds and
the random bytes, and rejects every number that has another prime factor below 256. -/
theorem bnIsPrime_ok (n : Bignum) (hn : n.WF) (rounds : Int) (rand : Nat → Nat → UInt8) :
    (n.n ≤ bnMaxLimbs / 2 → n.val.Prime → (bnIsPrime n rounds rand).Ok (· = true)) ∧
      (1 < n.val → (∃ q, q.Prime ∧ q ≤ 251 ∧ q ∣ n.val ∧ q ≠ n.val) →
        (bnIsPrime n rounds rand).Ok (· = false)) := by
  constructor
  · intro hlimbs hp
    have hfactor : ∀ q, q.Prime → q ∣ n.val → n.val = q := by
      intro q hq hdvd
      exact ((Nat.prime_dvd_prime_iff_eq hq hp).mp hdvd).symm
    refine bnIsPrime_cases hn rounds rand ?_ (fun _ => rfl) (fun _ => rfl) ?_ (fun _ => rfl) ?_ ?_
    · intro h
      exact absurd hp.two_le (by omega)
    · intro h2 heven
      exact absurd (hfactor 2 Nat.prime_two (Nat.dvd_of_mod_eq_zero heven)) (by omega)
    · intro q hq hdvd hne
      exact absurd (hfactor q hq hdvd) hne
    · intro hbig _ _ n1 d s hn1 hd hval hds
      exact primeRounds_ok hp (hn.lt_halfLimit hlimbs) hn rfl hn1 hval hbig hd hds _ rand
  · rintro hgt ⟨q, hq, hle, hdvd, hne⟩
    have hcomp : ¬ n.val.Prime := fun hp => hne ((Nat.prime_dvd_prime_iff_eq hq hp).mp hdvd)
    refine bnIsPrime_cases hn rounds rand (fun _ => rfl) ?_ ?_ (fun _ _ => rfl) ?_
      (fun _ _ _ _ => rfl) ?_
    · intro h
      exact absurd (h ▸ Nat.prime_two) hcomp
    · intro h
      exact absurd (h ▸ Nat.prime_three) hcomp
    · intro hp
      exact absurd hp hcomp
    · intro _ hodd hnone
      have hq2 : q ≠ 2 := by
        rintro rfl
        omega
      obtain ⟨p, hp, heq⟩ := mem_smallPrimes_of_prime hq hq2 hle
      exact absurd (heq ▸ hdvd) (hnone p hp)

theorem bnIsPrime_ok_small : (bnIsPrime (bnSetU32 257) 40 fun _ _ => 0xFF).Ok (· = true) ∧
    (bnIsPrime (bnSetU32 253) 40 fun _ _ => 0xFF).Ok (· = false) := by
  refine ⟨(bnIsPrime_ok (bnSetU32 257) (bnSetU32_wf 257) 40 _).1 (by decide) ?_,
    (bnIsPrime_ok (bnSetU32 253) (bnSetU32_wf 253) 40 _).2 ?_ ⟨11, ?_⟩⟩
  · rw [bnSetU32_val]
    exact (by norm_num : Nat.Prime 257)
  · rw [bnSetU32_val]
    decide
  · rw [bnSetU32_val]
    exact ⟨by norm_num, by decide, by decide, by decide⟩

end AdventOS.Crypto
