import AdventOS.Crypto.BignumValue

/-!
# Powers

`bn_modpow` squares and multiplies products that are cut to 144 limbs. `powMod` is what it
computes, and `Fits x e m` says that no product on the way is cut.

* `bnModpow_ok`: the power by squaring of cut products.
* `powMod_eq`, `powMod_small`: under `Fits`, and so for every modulus of half the limbs, that is
  the power.
-/
namespace AdventOS.Crypto

open AdventOS.Acc

variable {e i k m x : Nat}

/-! ## Cut products -/

/-- The repeated squares of `x` modulo `m`, each square truncated to the limbs. -/
def squares (x m : Nat) : Nat → Nat
  | 0 => x % m
  | i + 1 => squares x m i * squares x m i % bnLimit % m

/-- The product of the squares at the first `i` bits of `e`, each product truncated. -/
def powBits (x e m : Nat) : Nat → Nat
  | 0 => 1
  | i + 1 =>
    if e.testBit i then powBits x e m i * squares x m i % bnLimit % m else powBits x e m i

/-- The power as `bn_modpow` computes it. -/
def powMod (x e m : Nat) : Nat := powBits x e m (Nat.size e)

theorem powStep_ok {e m : Bignum} {s : PowState} (he : e.WF) (hm : m.WF)
    (hacc : s.acc.WF) (hb : s.b.WF) :
    (powStep e m k i s).Ok fun t => t.acc.WF ∧ t.b.WF ∧
      t.acc.val = (if e.val.testBit i then s.acc.val * s.b.val % bnLimit % m.val else s.acc.val) ∧
      (i + 1 < k → t.b.val = s.b.val * s.b.val % bnLimit % m.val) := by
  refine Ok.bind (bnBitAt_ok he i) ?_
  intro bit hbit
  refine Ok.bind (P := fun c => c.WF ∧ c.val =
    if e.val.testBit i then s.acc.val * s.b.val % bnLimit % m.val else s.acc.val) ?_ ?_
  · rw [← hbit]
    refine Ok.ite ?_ ?_
    · intro h
      rw [if_pos h]
      exact bnModmul_ok hacc hb hm
    · intro h
      rw [if_neg h]
      exact Ok.pure ⟨hacc, rfl⟩
  · intro acc ⟨hwf, hval⟩
    refine Ok.bind (P := fun c => c.WF ∧ (i + 1 < k →
      c.val = s.b.val * s.b.val % bnLimit % m.val)) ?_ ?_
    · refine Ok.ite ?_ ?_
      · intro _
        exact (bnModmul_ok hb hb hm).mono fun r hr => ⟨hr.1, fun _ => hr.2⟩
      · intro hk
        exact Ok.pure ⟨hb, fun h => absurd h hk⟩
    · intro r ⟨hr, hrval⟩
      exact Ok.pure ⟨hwf, hr, hval, hrval⟩

theorem bnModpow_ok {x e m : Bignum} (hx : x.WF) (he : e.WF) (hm : m.WF) :
    (bnModpow x e m).Ok fun r => r.WF ∧ r.val = powMod x.val e.val m.val := by
  refine Ok.bind (bnMod_ok hx hm) ?_
  intro b ⟨hb, hbval⟩
  refine Ok.bind (bnBitLength_ok he) ?_
  intro k hk
  refine Ok.bind (up_ok (fun i s => s.acc.WF ∧ s.b.WF ∧
    s.acc.val = powBits x.val e.val m.val i ∧ (i < k → s.b.val = squares x.val m.val i))
    ⟨bnSetU32_wf 1, hb, bnSetU32_val 1, fun _ => hbval⟩ ?_) ?_
  · intro i s hi ⟨hacc, hs, hval, hsq⟩
    refine (powStep_ok he hm hacc hs).mono ?_
    intro t ⟨htacc, ht, htval, htsq⟩
    rw [hval, hsq hi] at htval
    rw [hsq hi] at htsq
    exact ⟨htacc, ht, htval, htsq⟩
  · intro s ⟨hacc, _, hval, _⟩
    refine Ok.pure ⟨hacc, ?_⟩
    rw [hval, hk]
    rfl

/-! ## Products that fit -/

/-- No product of the repeated squaring of `x` modulo `m` reaches `2 ^ 4608`. -/
def Fits (x e m : Nat) : Prop := ∀ i,
  (i + 1 < Nat.size e → x ^ 2 ^ i % m * (x ^ 2 ^ i % m) < bnLimit) ∧
    (e.testBit i = true → x ^ (e % 2 ^ i) % m * (x ^ 2 ^ i % m) < bnLimit)

/-- `2 ^ 2304`: numbers below it have products below `2 ^ 4608`. -/
def halfLimit : Nat := 2 ^ (16 * bnMaxLimbs)

theorem halfLimit_mul : halfLimit * halfLimit = bnLimit := by
  rw [halfLimit, bnLimit, show 32 * bnMaxLimbs = 16 * bnMaxLimbs + 16 * bnMaxLimbs by omega,
    pow_add]

theorem mul_lt_limit {y : Nat} (hx : x < halfLimit) (hy : y < halfLimit) : x * y < bnLimit := by
  rw [← halfLimit_mul]
  exact Nat.mul_lt_mul'' hx hy

theorem fits_of_small (hm : 0 < m) (hsmall : m ≤ halfLimit) : Fits x e m := by
  have hlt : ∀ a, a % m < halfLimit := fun a => (Nat.mod_lt a hm).trans_le hsmall
  exact fun i => ⟨fun _ => mul_lt_limit (hlt _) (hlt _), fun _ => mul_lt_limit (hlt _) (hlt _)⟩

theorem squares_eq (h : Fits x e m) : ∀ {i : Nat}, i < Nat.size e → squares x m i = x ^ 2 ^ i % m
  | 0, _ => by rw [squares, pow_zero, pow_one]
  | i + 1, hi => by
    rw [squares, squares_eq h (by omega), Nat.mod_eq_of_lt ((h i).1 hi), ← Nat.mul_mod, ← pow_add,
      pow_succ, Nat.mul_two]

theorem powBits_eq (hm : 1 < m) (h : Fits x e m) : ∀ {i : Nat}, i ≤ Nat.size e →
    powBits x e m i = x ^ (e % 2 ^ i) % m
  | 0, _ => by rw [powBits, pow_zero, Nat.mod_one, pow_zero, Nat.mod_eq_of_lt hm]
  | i + 1, hi => by
    have hdigit : e % 2 ^ (i + 1) = e % 2 ^ i + 2 ^ i * (e.testBit i).toNat := by
      rw [Nat.mod_pow_succ, Nat.toNat_testBit]
    rw [powBits, powBits_eq hm h (by omega), squares_eq h (by omega), hdigit]
    by_cases hbit : e.testBit i = true
    · rw [if_pos hbit, Nat.mod_eq_of_lt ((h i).2 hbit), ← Nat.mul_mod, ← pow_add, hbit,
        Bool.toNat_true, mul_one]
    · rw [if_neg hbit, Bool.eq_false_iff.mpr hbit, Bool.toNat_false, mul_zero, add_zero]

/-- What `bn_modpow` computes is the power, as long as the products fit. -/
theorem powMod_eq (hm : 1 < m) (h : Fits x e m) : powMod x e m = x ^ e % m := by
  rw [powMod, powBits_eq hm h le_rfl, Nat.mod_eq_of_lt (Nat.lt_size_self e)]

theorem Bignum.WF.lt_halfLimit {a : Bignum} (ha : a.WF) (h : a.n ≤ bnMaxLimbs / 2) :
    a.val < halfLimit := by
  refine ha.val_lt_pow.trans_le ?_
  rw [← pow_mul, halfLimit]
  exact Nat.pow_le_pow_right (by omega) (by simp only [bnMaxLimbs] at h ⊢; omega)

theorem powMod_small {x e m : Nat} (hm : 1 < m) (hsmall : m < halfLimit) :
    powMod x e m = x ^ e % m := powMod_eq hm (fits_of_small (by omega) (le_of_lt hsmall))

end AdventOS.Crypto
