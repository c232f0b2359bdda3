import AdventOS.Crypto.BignumValue

/-!
# Greatest common divisors and inverses

`bn_gcd` by Stein's halving and subtracting, and `bn_modinv` by Euclid's algorithm on numbers
with a sign, each quotient by long division. A loop runs on fuel, and one that has not ended
when it is used up counts as a fault, so that `Acc.Ok` says the loops end.

* `bnGcd_ok`: the greatest common divisor, of any two numbers.
* `EuclidState.Inv`: the invariant of Euclid's loop. The two coefficients have opposite signs,
  and weighed with the remainders they make up `m`; so no product on the way is cut.
* `bnModinv_ok`: the inverse below `m`, exactly when there is one.
-/
namespace AdventOS.Crypto
open Option

open AdventOS.Acc

/-- The two numbers of `bn_gcd`. -/
structure GcdState where
  x : Bignum
  y : Bignum
  shift : Nat

/-- bignum.c:299-303 -/
def commonTwos (a b : Bignum) : Acc GcdState :=
  repeatWhile (fun t => do
    let ox ← bnIsOdd t.x
    let oy ← bnIsOdd t.y
    pure (!ox && !oy)) (fun t => do
    let x ← bnRshift1 t.x
    let y ← bnRshift1 t.y
    pure ⟨x, y, t.shift + 1⟩) bnFuel ⟨a, b, 0⟩

/-- `x - y` in place of `x`, halved while even.
bignum.c:311-312 -/
def subHalve (x y : Bignum) : Acc Halved := do
  let r ← bnSub x y
  dropTwos (r.getD x)

/-- The body of Stein's loop.
bignum.c:310-316 -/
def steinStep (t : GcdState) : Acc GcdState := do
  let c ← bnCmp t.x t.y
  if c = .gt then do
    let h ← subHalve t.x t.y
    pure { t with x := h.b }
  else do
    let h ← subHalve t.y t.x
    pure { t with y := h.b }

/-- bignum.c:288-320 -/
def bnGcd (a b : Bignum) : Acc Bignum :=
  if bnIsZero a then pure b else
    if bnIsZero b then pure a else do
      let t ← commonTwos a b
      let hx ← dropTwos t.x
      let hy ← dropTwos t.y
      let u ← repeatWhile (fun t => do
        let c ← bnCmp t.x t.y
        pure (c ≠ .eq)) steinStep bnFuel ⟨hx.b, hy.b, t.shift⟩
      up u.shift u.x fun _ r => bnLshift1 r

/-- A number with a sign. -/
structure Signed where
  b : Bignum
  neg : Bool

/-- bignum.c:328-346 -/
def bnSignedAdd (a b : Signed) : Acc Signed :=
  if a.neg = b.neg then do
    let r ← bnAdd a.b b.b
    pure ⟨r, a.neg⟩
  else do
    let c ← bnCmp a.b b.b
    if c = .eq then pure ⟨bnZero, false⟩
    else if c = .gt then do
      let r ← bnSub a.b b.b
      pure ⟨r.getD bnZero, a.neg⟩
    else do
      let r ← bnSub b.b a.b
      pure ⟨r.getD bnZero, b.neg⟩

/-- The two numbers of the long division. -/
structure DivState where
  quot : Bignum
  rem : Bignum

/-- One bit of the long division.
bignum.c:361-371 -/
def divStep (a m : Bignum) (i : Nat) (s : DivState) : Acc DivState := do
  let rem ← bnLshift1 s.rem
  let bit ← bnBitAt a i
  let rem ← (if bit then setBit0 rem else pure rem)
  let c ← bnCmp rem m
  if c ≠ .lt then do
    let r ← bnSub rem m
    let quot ← setBitAt s.quot i
    pure ⟨quot, r.getD rem⟩
  else pure ⟨s.quot, rem⟩

structure EuclidState where
  oldR : Bignum
  rr : Bignum
  oldS : Signed
  s : Signed

/-- The body of Euclid's loop.
bignum.c:354-393 -/
def euclidStep (t : EuclidState) : Acc EuclidState := do
  let abits ← bnBitLength t.oldR
  let d ← down abits (⟨bnZero, bnZero⟩ : DivState) fun i d => divStep t.oldR t.rr i d
  let prod ← bnMul d.quot t.rr
  let newR ← bnSub t.oldR prod
  let prod ← bnMul d.quot t.s.b
  let newS ← bnSignedAdd ⟨prod, !t.s.neg⟩ t.oldS
  pure ⟨t.rr, newR.getD bnZero, t.s, newS⟩

/-- `none` where the code returns -1.
bignum.c:348-416 -/
def bnModinv (a m : Bignum) : Acc (Option Bignum) := do
  let t ← repeatWhile (fun t => pure !(bnIsZero t.rr)) euclidStep bnFuel
    ⟨a, m, ⟨bnSetU32 1, false⟩, ⟨bnSetU32 0, false⟩⟩
  let c ← bnCmp t.oldR (bnSetU32 1)
  if c ≠ .eq then pure none
  else if t.oldS.neg then do
    let tmp2 ← bnMod t.oldS.b m
    let r ← bnSub m tmp2
    pure (some (r.getD bnZero))
  else do
    let r ← bnMod t.oldS.b m
    pure (some r)

/-! ## Halving and the greatest common divisor -/

theorem coprime_two_pow {n s : Nat} (h : n % 2 = 1) : Nat.Coprime (2 ^ s) n :=
  Nat.Coprime.pow_left s (Nat.coprime_two_left.mpr (Nat.odd_iff.mpr h))

theorem gcd_odd_parts {x y s t : Nat} (hx : x % 2 = 1) (hy : y % 2 = 1)
    (h : x * 2 ^ s % 2 = 1 ∨ y * 2 ^ t % 2 = 1) :
    Nat.gcd (x * 2 ^ s) (y * 2 ^ t) = Nat.gcd x y := by
  rcases h with h | h
  · rw [Nat.Coprime.gcd_mul_right_cancel_right _ (coprime_two_pow h),
      Nat.Coprime.gcd_mul_right_cancel _ (coprime_two_pow hy)]
  · rw [Nat.Coprime.gcd_mul_right_cancel _ (coprime_two_pow h),
      Nat.Coprime.gcd_mul_right_cancel_right _ (coprime_two_pow hx)]

theorem gcd_sub_odd {x y z s : Nat} (hy : y % 2 = 1) (hle : y ≤ x) (h : x - y = z * 2 ^ s) :
    Nat.gcd z y = Nat.gcd x y := by
  rw [← Nat.gcd_sub_self_left hle, h, Nat.Coprime.gcd_mul_right_cancel _ (coprime_two_pow hy)]

variable {a b m : Bignum}

theorem commonTwos_ok (ha : a.WF) (hb : b.WF) (ha0 : 0 < a.val) :
    (commonTwos a b).Ok fun t => t.x.WF ∧ t.y.WF ∧ (t.x.val % 2 = 1 ∨ t.y.val % 2 = 1) ∧
      a.val = t.x.val * 2 ^ t.shift ∧ b.val = t.y.val * 2 ^ t.shift := by
  refine (repeatWhile_ok (P := fun t => t.x.WF ∧ t.y.WF ∧ 0 < t.x.val ∧
    a.val = t.x.val * 2 ^ t.shift ∧ b.val = t.y.val * 2 ^ t.shift)
    (C := fun t => t.x.val % 2 = 0 ∧ t.y.val % 2 = 0) (fun t => Nat.size t.x.val) ?_ ?_
    ⟨ha, hb, ha0, by rw [pow_zero, Nat.mul_one], by rw [pow_zero, Nat.mul_one]⟩ ?_).mono ?_
  · intro t ⟨hx, hy, _⟩
    refine Ok.bind (bnIsOdd_ok hx) ?_
    intro ox hox
    refine Ok.bind (bnIsOdd_ok hy) ?_
    intro oy hoy
    refine Ok.pure ?_
    rw [Bool.and_eq_true, Bool.not_eq_true', Bool.not_eq_true', ← Bool.not_eq_true,
      ← Bool.not_eq_true, hox, hoy]
    omega
  · intro t ⟨hx, hy, h0, hax, hby⟩ ⟨hex, hey⟩
    refine Ok.bind (bnRshift1_ok hx) ?_
    intro x ⟨hx', hxval⟩
    refine Ok.bind (bnRshift1_ok hy) ?_
    intro y ⟨hy', hyval⟩
    have hx2 : t.x.val = x.val * 2 := by omega
    have hy2 : t.y.val = y.val * 2 := by omega
    have hsize := size_lt_of_double_le h0 (show 2 * x.val ≤ t.x.val by omega)
    refine Ok.pure ⟨⟨hx', hy', show 0 < x.val by omega, ?_, ?_⟩, hsize⟩
    · rw [hax, hx2, pow_succ', Nat.mul_assoc]
    · rw [hby, hy2, pow_succ', Nat.mul_assoc]
  · have hsize := a.size_le
    show Nat.size a.val < 64 * bnMaxLimbs + 2
    omega
  · intro t ⟨⟨hx, hy, _, hax, hby⟩, hodd⟩
    exact ⟨hx, hy, by omega, hax, hby⟩

/-- What Stein's loop keeps: two odd numbers with the same divisor `g`. -/
def GcdState.Inv (g shift : Nat) (t : GcdState) : Prop :=
  t.x.WF ∧ t.y.WF ∧ t.x.val % 2 = 1 ∧ t.y.val % 2 = 1 ∧ Nat.gcd t.x.val t.y.val = g ∧
    t.shift = shift

theorem double_le_of_odd_part {d z s : Nat} (heven : d % 2 = 0) (hz : z % 2 = 1)
    (h : d = z * 2 ^ s) : 2 * z ≤ d := by
  cases s with
  | zero =>
    rw [pow_zero, Nat.mul_one] at h
    omega
  | succ s =>
    have hle := Nat.le_mul_of_pos_right (z * 2) (Nat.two_pow_pos s)
    rw [pow_succ', ← Nat.mul_assoc] at h
    omega

theorem subHalve_ok {x y : Bignum} (hx : x.WF) (hy : y.WF) (hxodd : x.val % 2 = 1)
    (hyodd : y.val % 2 = 1) (hlt : y.val < x.val) :
    (subHalve x y).Ok fun h => h.b.WF ∧ h.b.val % 2 = 1 ∧
      Nat.gcd h.b.val y.val = Nat.gcd x.val y.val ∧ Nat.size h.b.val < Nat.size x.val := by
  refine Ok.bind (bnSub_of_le hx hy (Nat.le_of_lt hlt)) ?_
  intro r ⟨d, hr, hd, hdval⟩
  rw [hr, getD_some]
  refine (dropTwos_ok hd (by omega)).mono ?_
  intro z ⟨hz, hzodd, hzval⟩
  have hhalf := double_le_of_odd_part (show d.val % 2 = 0 by omega) hzodd hzval
  exact ⟨hz, hzodd, gcd_sub_odd hyodd (Nat.le_of_lt hlt) (hdval.symm.trans hzval),
    size_lt_of_double_le (by omega) (by omega)⟩

theorem steinStep_ok {g shift : Nat} {t : GcdState} (h : t.Inv g shift) (hne : t.x.val ≠ t.y.val) :
    (steinStep t).Ok fun u => u.Inv g shift ∧
      Nat.size u.x.val + Nat.size u.y.val < Nat.size t.x.val + Nat.size t.y.val := by
  obtain ⟨hx, hy, hxodd, hyodd, hg, hshift⟩ := h
  refine Ok.bind (bnCmp_ok hx hy) ?_
  intro c hc
  refine Ok.ite ?_ ?_
  · intro hgt
    refine Ok.bind (subHalve_ok hx hy hxodd hyodd (compare_gt_iff_gt.mp (hc ▸ hgt))) ?_
    intro z ⟨hz, hzodd, hzg, hsize⟩
    exact Ok.pure ⟨⟨hz, hy, hzodd, hyodd, hzg.trans hg, hshift⟩, Nat.add_lt_add_right hsize _⟩
  · intro hle
    have hle : ¬ t.y.val < t.x.val := mt compare_gt_iff_gt.mpr (hc ▸ hle)
    refine Ok.bind (subHalve_ok hy hx hyodd hxodd (by omega)) ?_
    intro z ⟨hz, hzodd, hzg, hsize⟩
    refine Ok.pure ⟨⟨hx, hz, hxodd, hzodd, ?_, hshift⟩, Nat.add_lt_add_left hsize _⟩
    exact (Nat.gcd_comm _ _).trans (hzg.trans ((Nat.gcd_comm _ _).trans hg))

theorem bnGcd_ok (ha : a.WF) (hb : b.WF) :
    (bnGcd a b).Ok fun r => r.WF ∧ r.val = Nat.gcd a.val b.val := by
  unfold bnGcd
  rw [bnIsZero_eq ha, bnIsZero_eq hb]
  refine Ok.ite ?_ ?_
  · intro h0
    rw [of_decide_eq_true h0, Nat.gcd_zero_left]
    exact Ok.pure ⟨hb, rfl⟩
  · intro ha0
    have ha0 : a.val ≠ 0 := fun h => ha0 (decide_eq_true h)
    refine Ok.ite ?_ ?_
    · intro h0
      rw [of_decide_eq_true h0, Nat.gcd_zero_right]
      exact Ok.pure ⟨ha, rfl⟩
    · intro hb0
      have hb0 : b.val ≠ 0 := fun h => hb0 (decide_eq_true h)
      refine Ok.bind (commonTwos_ok ha hb (Nat.pos_of_ne_zero ha0)) ?_
      intro t ⟨hx, hy, hodd, hat, hbt⟩
      have hx0 : t.x.val ≠ 0 := fun h => ha0 (by rw [hat, h, Nat.zero_mul])
      have hy0 : t.y.val ≠ 0 := fun h => hb0 (by rw [hbt, h, Nat.zero_mul])
      refine Ok.bind (dropTwos_ok hx (Nat.pos_of_ne_zero hx0)) ?_
      intro p ⟨hp, hpodd, hpval⟩
      refine Ok.bind (dropTwos_ok hy (Nat.pos_of_ne_zero hy0)) ?_
      intro q ⟨hq, hqodd, hqval⟩
      rw [hpval, hqval] at hodd
      have hgcd : Nat.gcd a.val b.val = Nat.gcd p.b.val q.b.val * 2 ^ t.shift := by
        rw [hat, hbt, Nat.gcd_mul_right, hpval, hqval, gcd_odd_parts hpodd hqodd hodd]
      refine Ok.bind (repeatWhile_ok (P := GcdState.Inv (Nat.gcd p.b.val q.b.val) t.shift)
        (C := fun u => u.x.val ≠ u.y.val) (fun u => Nat.size u.x.val + Nat.size u.y.val) ?_
        (fun u hu hne => steinStep_ok hu hne) ⟨hp, hq, hpodd, hqodd, rfl, rfl⟩ ?_) ?_
      · intro u hu
        refine Ok.bind (bnCmp_ok hu.1 hu.2.1) ?_
        intro c hc
        refine Ok.pure ?_
        rw [decide_eq_true_iff, hc, Ne, compare_eq_iff_eq]
      · have h1 := p.b.size_le
        have h2 := q.b.size_le
        show Nat.size p.b.val + Nat.size q.b.val < 64 * bnMaxLimbs + 2
        omega
      · intro u ⟨⟨hux, _, _, _, hg, hshift⟩, heq⟩
        rw [← not_not.mp heq, Nat.gcd_self] at hg
        rw [hshift, hgcd]
        refine up_ok (fun i (r : Bignum) => r.WF ∧ r.val = Nat.gcd p.b.val q.b.val * 2 ^ i)
          ⟨hux, by rw [hg, pow_zero, Nat.mul_one]⟩ ?_
        intro i r hi ⟨hr, hrval⟩
        refine (bnLshift1_ok hr).mono ?_
        intro c ⟨hc, hcval⟩
        have hle : Nat.gcd p.b.val q.b.val * 2 ^ (i + 1) ≤ a.val :=
          (Nat.mul_le_mul_left _ (Nat.pow_le_pow_right (by omega) hi)).trans
            (hgcd ▸ Nat.gcd_le_left _ (Nat.pos_of_ne_zero ha0))
        refine ⟨hc, ?_⟩
        rw [hcval, hrval, Nat.mul_assoc, ← pow_succ, Nat.mod_eq_of_lt (hle.trans_lt a.val_lt)]

/-! ## Long division -/

theorem div_mod_double {y m b : Nat} (hm : 0 < m) (hb : b < 2) :
    (y * 2 + b) / m = y / m * 2 + (if m ≤ y % m * 2 + b then 1 else 0) ∧
      (y * 2 + b) % m = if m ≤ y % m * 2 + b then y % m * 2 + b - m else y % m * 2 + b := by
  have hy := Nat.div_add_mod y m
  have hlt := Nat.mod_lt y hm
  rw [Nat.div_mod_unique hm]
  generalize y / m = q at *
  generalize y % m = r at *
  split
  · have hmul : m * (q * 2 + 1) = m * q * 2 + m := by ring
    rw [hmul]
    omega
  · have hmul : m * (q * 2 + 0) = m * q * 2 := by ring
    rw [hmul]
    omega

theorem divStep_ok {i : Nat} {d : DivState} (ha : a.WF) (hm : m.WF) (h0 : 0 < m.val)
    (hi : i < 32 * bnMaxLimbs) (hq : d.quot.WF) (hr : d.rem.WF)
    (hqval : d.quot.val = a.val / 2 ^ (i + 1) / m.val * 2 ^ (i + 1))
    (hrval : d.rem.val = a.val / 2 ^ (i + 1) % m.val) :
    (divStep a m i d).Ok fun e => e.quot.WF ∧ e.rem.WF ∧
      e.quot.val = a.val / 2 ^ i / m.val * 2 ^ i ∧ e.rem.val = a.val / 2 ^ i % m.val := by
  have hfit := rem_double_lt a.val_lt i m.val
  obtain ⟨hdiv, hmod⟩ := div_mod_double (y := a.val / 2 ^ (i + 1)) h0
    (Bool.toNat_lt (a.val.testBit i))
  rw [← hrval] at hfit hdiv hmod
  rw [← div_next_bit] at hdiv hmod
  refine Ok.bind (bnLshift1_ok hr) ?_
  intro s ⟨hs, hsval⟩
  rw [Nat.mod_eq_of_lt (Nat.lt_of_le_of_lt (Nat.le_add_right _ _) hfit)] at hsval
  refine Ok.bind (bnBitAt_ok ha i) ?_
  intro bit hbit
  refine Ok.bind (bitIn_ok hs (by omega) bit) ?_
  intro c ⟨hc, hcval⟩
  rw [hsval, hbit] at hcval
  rw [← hcval] at hdiv hmod
  refine Ok.bind (bnCmp_ok hc hm) ?_
  intro o ho
  refine Ok.ite ?_ ?_
  · intro hge
    have hge : m.val ≤ c.val := not_lt.mp (mt compare_lt_iff_lt.mpr (ho ▸ hge))
    rw [if_pos hge] at hdiv hmod
    refine Ok.bind (bnSub_of_le hc hm hge) ?_
    intro r ⟨t, hrt, ht, htval⟩
    refine Ok.bind (setBitAt_ok hq hi (by rw [hqval, Nat.mul_mod_left])) ?_
    intro q ⟨hq', hq'val⟩
    rw [hrt, getD_some]
    refine Ok.pure ⟨hq', ht, ?_, htval.trans hmod.symm⟩
    rw [hq'val, hqval, hdiv, pow_succ]
    ring
  · intro hlt
    have hlt : c.val < m.val := compare_lt_iff_lt.mp (ho ▸ not_not.mp hlt)
    rw [if_neg (Nat.not_le.mpr hlt)] at hdiv hmod
    refine Ok.pure ⟨hq, hc, ?_, hmod.symm⟩
    rw [hqval, hdiv, pow_succ]
    ring

theorem longDiv_ok {k : Nat} (ha : a.WF) (hm : m.WF) (h0 : 0 < m.val) (hk : k = Nat.size a.val) :
    (down k (⟨bnZero, bnZero⟩ : DivState) fun i d => divStep a m i d).Ok fun d =>
      d.quot.WF ∧ d.quot.val = a.val / m.val := by
  have hsize := a.size_le
  have htop : a.val / 2 ^ k = 0 := Nat.div_eq_of_lt (hk ▸ Nat.lt_size_self a.val)
  refine (down_ok (fun i (d : DivState) => d.quot.WF ∧ d.rem.WF ∧
    d.quot.val = a.val / 2 ^ i / m.val * 2 ^ i ∧ d.rem.val = a.val / 2 ^ i % m.val)
    ⟨bnZero_wf, bnZero_wf, ?_, ?_⟩ ?_).mono ?_
  · rw [htop, Nat.zero_div, Nat.zero_mul, bnZero_val]
  · rw [htop, Nat.zero_mod, bnZero_val]
  · intro i d hi ⟨hq, hr, hqval, hrval⟩
    exact divStep_ok ha hm h0 (by omega) hq hr hqval hrval
  · intro d ⟨hq, _, hqval, _⟩
    rw [pow_zero, Nat.div_one, Nat.mul_one] at hqval
    exact ⟨hq, hqval⟩

/-! ## Numbers with a sign -/

def Signed.int (x : Signed) : Int := if x.neg then -(x.b.val : Int) else x.b.val

theorem Signed.natAbs_int (x : Signed) : x.int.natAbs = x.b.val := by
  unfold Signed.int
  split <;> omega

theorem Signed.int_pos (b : Bignum) : (Signed.mk b false).int = b.val :=
  if_neg Bool.false_ne_true

theorem Signed.int_neg (b : Bignum) : (Signed.mk b true).int = -b.val := if_pos rfl

theorem Signed.int_not (b : Bignum) (neg : Bool) :
    (Signed.mk b (!neg)).int = -(Signed.mk b neg).int := by
  cases neg with
  | false => exact (Signed.int_neg b).trans (congrArg _ (Signed.int_pos b).symm)
  | true => rw [Signed.int_neg, neg_neg, Bool.not_true, Signed.int_pos]

theorem bnSignedAdd_ok {x y : Signed} (hx : x.b.WF) (hy : y.b.WF)
    (hfit : x.b.val + y.b.val < bnLimit) :
    (bnSignedAdd x y).Ok fun r => r.b.WF ∧ r.int = x.int + y.int := by
  obtain ⟨b, neg⟩ := x
  obtain ⟨c, neg'⟩ := y
  refine Ok.ite ?_ ?_
  · intro heq
    obtain rfl : neg = neg' := heq
    refine Ok.bind (bnAdd_ok hx hy hfit) ?_
    intro r ⟨hr, hrval⟩
    refine Ok.pure ⟨hr, ?_⟩
    simp only [Signed.int] at hrval ⊢
    split <;> omega
  · intro hne
    obtain rfl : neg' = !neg := by
      cases neg <;> cases neg' <;> simp_all
    have hsum : (Signed.mk b neg).int + (Signed.mk c !neg).int =
        if neg then (c.val : Int) - b.val else b.val - c.val := by
      rw [Signed.int_not]
      simp only [Signed.int]
      split <;> omega
    rw [hsum]
    refine Ok.bind (bnCmp_ok hx hy) ?_
    intro o ho
    refine Ok.ite ?_ ?_
    · intro h
      have h : b.val = c.val := compare_eq_iff_eq.mp (ho ▸ h)
      refine Ok.pure ⟨bnZero_wf, ?_⟩
      rw [Signed.int_pos, bnZero_val, Nat.cast_zero, h, sub_self, ite_self]
    · intro hne
      refine Ok.ite ?_ ?_
      · intro h
        have h : c.val < b.val := compare_gt_iff_gt.mp (ho ▸ h)
        refine Ok.bind (bnSub_of_le hx hy (Nat.le_of_lt h)) ?_
        intro r ⟨d, hr, hd, hdval⟩
        rw [hr, getD_some]
        refine Ok.pure ⟨hd, ?_⟩
        simp only [Signed.int] at hdval ⊢
        split <;> omega
      · intro h
        have h : ¬ c.val < b.val := mt compare_gt_iff_gt.mpr (ho ▸ h)
        refine Ok.bind (bnSub_of_le hy hx (not_lt.mp h)) ?_
        intro r ⟨d, hr, hd, hdval⟩
        rw [hr, getD_some]
        refine Ok.pure ⟨hd, ?_⟩
        rw [Signed.int_not]
        simp only [Signed.int] at hdval ⊢
        split <;> omega

/-! ## Euclid's loop -/

/-- What the loop keeps: the divisor, the two congruences, coefficients of opposite signs, and
their weighted sum. -/
structure EuclidState.Inv (a m : Nat) (t : EuclidState) : Prop where
  oldR : t.oldR.WF
  rr : t.rr.WF
  oldS : t.oldS.b.WF
  s : t.s.b.WF
  gcd : Nat.gcd t.oldR.val t.rr.val = Nat.gcd a m
  oldCongr : (m : Int) ∣ t.oldS.int * a - t.oldR.val
  congr : (m : Int) ∣ t.s.int * a - t.rr.val
  opposite : t.oldS.int * t.s.int ≤ 0
  weight : t.s.b.val * t.oldR.val + t.oldS.b.val * t.rr.val = m

theorem natAbs_sub_mul {x y : Int} (q : Nat) (h : x * y ≤ 0) :
    (x - q * y).natAbs = x.natAbs + q * y.natAbs := by
  have hq : (0 : Int) ≤ q := Int.natCast_nonneg q
  have hmul : q * y.natAbs = ((q : Int) * y).natAbs := by rw [Int.natAbs_mul, Int.natAbs_natCast]
  rw [hmul]
  rcases mul_nonpos_iff.mp h with ⟨hx, hy⟩ | ⟨hx, hy⟩
  · have := mul_nonpos_of_nonneg_of_nonpos hq hy
    omega
  · have := mul_nonneg hq hy
    omega

theorem two_mul_mod_le {x y : Nat} (h0 : 0 < y) (hle : y ≤ x) : 2 * (x % y) ≤ x := by
  have hdiv := Nat.div_add_mod x y
  have hlt := Nat.mod_lt x h0
  have hq := Nat.le_mul_of_pos_right y (Nat.div_pos hle h0)
  omega

/-- How many more steps there can be: the first one may only swap the two numbers. -/
def EuclidState.measure (t : EuclidState) : Nat :=
  Nat.size t.oldR.val + Nat.size t.rr.val + if t.oldR.val < t.rr.val then 1 else 0

theorem measure_step {x y : Nat} (h0 : 0 < y) :
    Nat.size y + Nat.size (x % y) + (if y < x % y then 1 else 0) <
      Nat.size x + Nat.size y + if x < y then 1 else 0 := by
  have hlt := Nat.mod_lt x h0
  rw [if_neg (by omega)]
  split
  · rename_i h
    rw [Nat.mod_eq_of_lt h]
    omega
  · have hsize := size_lt_of_double_le (show 0 < x by omega) (two_mul_mod_le h0 (by omega))
    omega

theorem euclidStep_ok {m : Nat} {t : EuclidState} (h : t.Inv a.val m) (hm : m < bnLimit)
    (h0 : 0 < t.rr.val) :
    (euclidStep t).Ok fun u => u.Inv a.val m ∧ u.measure < t.measure := by
  have hdiv := Nat.div_add_mod t.oldR.val t.rr.val
  have hweight := h.weight
  -- the new coefficient, weighed with `rr`, is at most `m`
  have hnew : (t.oldR.val / t.rr.val * t.s.b.val + t.oldS.b.val) * t.rr.val ≤ m := by
    have hle := Nat.mul_le_mul_left t.s.b.val (Nat.mul_div_le t.oldR.val t.rr.val)
    calc (t.oldR.val / t.rr.val * t.s.b.val + t.oldS.b.val) * t.rr.val
        = t.s.b.val * (t.rr.val * (t.oldR.val / t.rr.val)) + t.oldS.b.val * t.rr.val := by ring
      _ ≤ m := by omega
  have hfit := (Nat.le_mul_of_pos_right _ h0).trans hnew
  have hprod : t.oldR.val / t.rr.val * t.rr.val ≤ t.oldR.val := Nat.div_mul_le_self _ _
  refine Ok.bind (bnBitLength_ok h.oldR) ?_
  intro k hk
  refine Ok.bind (longDiv_ok h.oldR h.rr h0 hk) ?_
  intro d ⟨hq, hqval⟩
  refine Ok.bind (bnMul_ok hq h.rr) ?_
  intro p ⟨hp, hpval⟩
  rw [hqval, Nat.mod_eq_of_lt (hprod.trans_lt t.oldR.val_lt)] at hpval
  refine Ok.bind (bnSub_of_le h.oldR hp (by omega)) ?_
  intro r ⟨n, hr, hn, hnval⟩
  have hnmod : n.val = t.oldR.val % t.rr.val := by
    rw [Nat.mul_comm] at hpval
    omega
  refine Ok.bind (bnMul_ok hq h.s) ?_
  intro c ⟨hc, hcval⟩
  rw [hqval, Nat.mod_eq_of_lt (by omega)] at hcval
  refine Ok.bind (bnSignedAdd_ok (x := ⟨c, !t.s.neg⟩) hc h.oldS ?_) ?_
  · show c.val + t.oldS.b.val < bnLimit
    omega
  · intro s ⟨hs, hsval⟩
    have hprodint : (Signed.mk c t.s.neg).int = (t.oldR.val / t.rr.val : Nat) * t.s.int := by
      unfold Signed.int
      rw [hcval]
      push_cast
      split <;> ring
    rw [Signed.int_not, hprodint, neg_add_eq_sub] at hsval
    rw [hr, getD_some]
    refine Ok.pure ⟨⟨h.rr, hn, h.s, hs, ?_, h.congr, ?_, ?_, ?_⟩, ?_⟩
    · rw [← h.gcd, hnmod, Nat.gcd_comm, ← Nat.gcd_rec, Nat.gcd_comm]
    · have hcomb := (h.oldCongr).sub ((h.congr).mul_left (t.oldR.val / t.rr.val : Nat))
      have hint : (t.oldR.val : Int) =
          t.rr.val * (t.oldR.val / t.rr.val : Nat) + n.val := by
        rw [hnmod]
        exact_mod_cast hdiv.symm
      rw [hint] at hcomb
      rw [hsval, show (t.oldS.int - (t.oldR.val / t.rr.val : Nat) * t.s.int) * (a.val : Int) - n.val =
        t.oldS.int * a.val - (t.rr.val * (t.oldR.val / t.rr.val : Nat) + n.val) -
          (t.oldR.val / t.rr.val : Nat) * (t.s.int * a.val - t.rr.val) by ring]
      exact hcomb
    · have hq0 : (0 : Int) ≤ (t.oldR.val / t.rr.val : Nat) := Int.natCast_nonneg _
      have hsq := mul_nonneg hq0 (mul_self_nonneg t.s.int)
      have hopp := h.opposite
      rw [hsval]
      linarith
    · have habs : s.b.val = t.oldS.b.val + t.oldR.val / t.rr.val * t.s.b.val := by
        rw [← s.natAbs_int, hsval, natAbs_sub_mul _ h.opposite, Signed.natAbs_int,
          Signed.natAbs_int]
      rw [habs, ← hweight, hnmod]
      conv_rhs => rw [← hdiv]
      ring
    · show Nat.size t.rr.val + Nat.size n.val + (if t.rr.val < n.val then 1 else 0) < _
      rw [hnmod]
      exact measure_step h0

/-- The coefficient, brought below `m`, is the inverse. -/
theorem inverse_ok {s : Signed} (hs : s.b.WF) (hm : m.WF) (h1 : 1 < m.val)
    (hcongr : (m.val : Int) ∣ s.int * a.val - 1) :
    (if s.neg then do
        let tmp2 ← bnMod s.b m
        let r ← bnSub m tmp2
        pure (some (r.getD bnZero))
      else do
        let r ← bnMod s.b m
        pure (some r)).Ok fun r => ∃ x, r = some x ∧ x.WF ∧ x.val < m.val ∧
          a.val * x.val ≡ 1 [MOD m.val] := by
  have hmod := Nat.div_add_mod s.b.val m.val
  have hrange := Nat.mod_lt s.b.val (show 0 < m.val by omega)
  generalize s.b.val / m.val = q at hmod
  have hcong : ∀ {x : Nat}, (m.val : Int) ∣ x * a.val - 1 → a.val * x ≡ 1 [MOD m.val] := by
    intro x hx
    rw [Nat.ModEq.comm, Nat.modEq_iff_dvd]
    rwa [mul_comm]
  unfold Signed.int at hcongr
  rw [← hmod] at hcongr
  refine Ok.ite ?_ ?_
  · intro hneg
    rw [if_pos hneg] at hcongr
    refine Ok.bind (bnMod_ok hs hm) ?_
    intro u ⟨hu, huval⟩
    rw [← huval] at hcongr hrange
    refine Ok.bind (bnSub_of_le hm hu (by omega)) ?_
    intro r ⟨x, hr, hx, hxval⟩
    rw [hr, getD_some]
    have hxint : (x.val : Int) = m.val - u.val := by omega
    have hdvd : (m.val : Int) ∣ x.val * a.val - 1 := by
      have h := hcongr.add (dvd_mul_right (m.val : Int) ((1 + q) * a.val))
      push_cast at h
      rw [hxint, show ((m.val : Int) - u.val) * a.val - 1 =
        -((m.val : Int) * q + u.val) * a.val - 1 + m.val * ((1 + q) * a.val) by ring]
      exact h
    refine Ok.pure ⟨x, rfl, hx, ?_, hcong hdvd⟩
    -- the difference is `m` itself only if `m` divides one
    by_contra hge
    rw [show x.val = m.val by omega] at hdvd
    have hone : (m.val : Int) ∣ 1 := (dvd_sub_right (dvd_mul_right _ _)).mp hdvd
    have := Int.le_of_dvd one_pos hone
    omega
  · intro hpos
    rw [if_neg hpos] at hcongr
    refine Ok.bind (bnMod_ok hs hm) ?_
    intro x ⟨hx, hxval⟩
    rw [← hxval] at hcongr hrange
    refine Ok.pure ⟨x, rfl, hx, hrange, hcong ?_⟩
    have h := hcongr.sub (dvd_mul_right (m.val : Int) (q * a.val))
    push_cast at h
    rw [show (x.val : Int) * a.val - 1 =
      ((m.val : Int) * q + x.val) * a.val - 1 - m.val * (q * a.val) by ring]
    exact h

/-- The one number below `m` that inverts `a`. -/
def IsInverse (a m : Nat) (x : Bignum) : Prop :=
  x.WF ∧ x.val < m ∧ a * x.val ≡ 1 [MOD m] ∧ ∀ y, y < m → a * y ≡ 1 [MOD m] → y = x.val

theorem bnModinv_ok (ha : a.WF) (hm : m.WF) (h1 : 1 < m.val) :
    (bnModinv a m).Ok fun r => (r.isSome = true ↔ Nat.Coprime a.val m.val) ∧
      ∀ x, r = some x → IsInverse a.val m.val x := by
  have hone : (bnSetU32 1).val = 1 := bnSetU32_val 1
  have hzero : (bnSetU32 0).val = 0 := bnSetU32_val 0
  refine Ok.bind (repeatWhile_ok (P := EuclidState.Inv a.val m.val) (C := fun t => 0 < t.rr.val)
    EuclidState.measure ?_ (fun t ht h0 => euclidStep_ok ht m.val_lt h0)
    ⟨ha, hm, bnSetU32_wf 1, bnSetU32_wf 0, rfl, ?_, ?_, ?_, ?_⟩ ?_) ?_
  · intro t ht
    refine Ok.pure ?_
    rw [bnIsZero_eq ht.rr, Bool.not_eq_true', decide_eq_false_iff_not]
    omega
  · rw [Signed.int_pos, hone, Nat.cast_one, one_mul, sub_self]
    exact dvd_zero _
  · rw [Signed.int_pos, hzero, Nat.cast_zero, zero_mul, zero_sub]
    exact (dvd_refl _).neg_right
  · rw [Signed.int_pos, Signed.int_pos, hzero, Nat.cast_zero, mul_zero]
  · rw [hone, hzero, Nat.zero_mul, Nat.one_mul, Nat.zero_add]
  · have ha := a.size_le
    have hm := m.size_le
    unfold EuclidState.measure bnFuel
    dsimp only
    split <;> omega
  · intro t ⟨ht, h0⟩
    have hg := ht.gcd
    rw [Nat.eq_zero_of_not_pos h0, Nat.gcd_zero_right] at hg
    refine Ok.bind (bnCmp_ok ht.oldR (bnSetU32_wf 1)) ?_
    intro c hc
    rw [hone, hg] at hc
    refine Ok.ite ?_ ?_
    · intro hne
      have hne : ¬ Nat.Coprime a.val m.val := mt compare_eq_iff_eq.mpr (hc ▸ hne)
      exact Ok.pure ⟨iff_of_false Bool.false_ne_true hne, by simp⟩
    · intro heq
      have hcop : Nat.Coprime a.val m.val := compare_eq_iff_eq.mp (hc ▸ not_not.mp heq)
      have hcongr := ht.oldCongr
      rw [hg, hcop, Nat.cast_one] at hcongr
      refine (inverse_ok ht.oldS hm h1 hcongr).mono ?_
      rintro r ⟨x, rfl, hx, hlt, hinv⟩
      refine ⟨iff_of_true rfl hcop, ?_⟩
      intro x' hx'
      obtain rfl := Option.some.inj hx'
      refine ⟨hx, hlt, hinv, ?_⟩
      intro y hy hyinv
      exact Nat.ModEq.eq_of_lt_of_lt (Nat.ModEq.cancel_left_of_coprime
        (Nat.Coprime.symm hcop) (hyinv.trans hinv.symm)) hy hlt

/-- For any two numbers the loops end without an access outside the arrays; the
one function yields the greatest common divisor, and the other the inverse below `m` exactly when
there is one. -/
theorem gcd_inverse_ok (a m : Bignum) (ha : a.WF) (hm : m.WF) (h1 : 1 < m.val) :
    ((bnGcd a m).Ok fun r => r.WF ∧ r.val = Nat.gcd a.val m.val) ∧
      (bnModinv a m).Ok fun r => (r.isSome = true ↔ Nat.Coprime a.val m.val) ∧
        ∀ x, r = some x → IsInverse a.val m.val x :=
  ⟨bnGcd_ok ha hm, bnModinv_ok ha hm h1⟩

theorem gcd_inverse_ok_small :
    ((bnGcd (bnSetU32 3) (bnSetU32 7)).Ok fun r => r.WF ∧
      r.val = Nat.gcd (bnSetU32 3).val (bnSetU32 7).val) ∧
      (bnModinv (bnSetU32 3) (bnSetU32 7)).Ok fun r =>
        (r.isSome = true ↔ Nat.Coprime (bnSetU32 3).val (bnSetU32 7).val) ∧
          ∀ x, r = some x → IsInverse (bnSetU32 3).val (bnSetU32 7).val x :=
  gcd_inverse_ok _ _ (bnSetU32_wf 3) (bnSetU32_wf 7) (by
    rw [bnSetU32_val]
    decide)

end AdventOS.Crypto
