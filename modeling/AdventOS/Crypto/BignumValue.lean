import AdventOS.Crypto.Bignum

/-!
# What the bignum functions compute

`Bignum.WF` is the invariant the header names (the significant limbs are at most
144, the others zero, the leading one not zero) and `Bignum.val` the number
meant. Each function has one lemma: on well-formed arguments it stays inside the
arrays, its result is well-formed, and its value is

* `bnFromBytesBe_ok`, `bnToBytesBe_ok`: the bytes' number modulo `2 ^ 4608`, and
  back the low bytes;
* `bnBitLength_ok`, `bnCmp_ok`, `bnBitAt_ok`: `Nat.size`, `compare`, `testBit`;
* `bnAdd_ok`, `bnSub_ok`, `bnLshift1_ok`, `bnRshift1_ok`, `bnMul_ok`: the operation, where a
  sum must fit and a shift to the left and a product are taken modulo `2 ^ 4608`;
* `bnMod_ok`, `bnModmul_ok`: the remainder, and that of a product taken modulo `2 ^ 4608`.
-/
namespace AdventOS.Crypto
open Function

open AdventOS.Acc

/-! ## Words -/

theorem word_shl8 (x c : UInt32) (h : c.toNat < 2 ^ 8) :
    ((x.toUInt64 <<< 8) ||| c.toUInt64).toNat = x.toNat * 2 ^ 8 + c.toNat := by
  have hx := x.toNat_lt
  rw [UInt64.toNat_or, UInt64.toNat_shiftLeft]
  simp only [UInt32.toNat_toUInt64, UInt64.toNat_ofNat]
  rw [show 8 % 2 ^ 64 % 64 = 8 from rfl,
    Nat.mod_eq_of_lt (by simp only [Nat.shiftLeft_eq]; omega),
    ← Nat.shiftLeft_add_eq_or_of_lt h, Nat.shiftLeft_eq]

theorem word_shl1 (x c : UInt32) (h : c.toNat < 2) :
    ((x <<< 1) ||| c).toNat + (x >>> 31).toNat * 2 ^ 32 = x.toNat * 2 + c.toNat := by
  have hmod : x.toNat <<< 1 % 2 ^ 32 = (x.toNat % 2 ^ 31) <<< 1 := by
    rw [Nat.shiftLeft_eq, Nat.shiftLeft_eq]
    omega
  rw [UInt32.toNat_or, UInt32.toNat_shiftLeft, UInt32.toNat_shiftRight]
  simp only [UInt32.toNat_ofNat]
  rw [show 1 % 2 ^ 32 % 32 = 1 from rfl, show 31 % 2 ^ 32 % 32 = 31 from rfl, hmod,
    ← Nat.shiftLeft_add_eq_or_of_lt (by simpa using h), Nat.shiftLeft_eq,
    Nat.shiftRight_eq_div_pow]
  omega

theorem word_shr {k : Nat} (x c : UInt32) (hk : 0 < k ∧ k < 32) (h : c.toNat < 2 ^ k) :
    ((x >>> UInt32.ofNat k) ||| (c <<< UInt32.ofNat (32 - k))).toNat * 2 ^ k + x.toNat % 2 ^ k =
      c.toNat * 2 ^ 32 + x.toNat := by
  have hpow : 2 ^ 32 = 2 ^ k * 2 ^ (32 - k) := by
    rw [← pow_add, Nat.add_sub_cancel' (by omega)]
  have hdiv : x.toNat / 2 ^ k < 2 ^ (32 - k) :=
    Nat.div_lt_of_lt_mul (hpow ▸ x.toNat_lt)
  have hmul : c.toNat * 2 ^ (32 - k) < 2 ^ 32 := by
    rw [hpow]
    exact Nat.mul_lt_mul_of_pos_right h (Nat.two_pow_pos _)
  have hor := Nat.shiftLeft_add_eq_or_of_lt hdiv c.toNat
  rw [Nat.shiftLeft_eq] at hor
  rw [UInt32.toNat_or, UInt32.toNat_shiftLeft, UInt32.toNat_shiftRight, Nat.or_comm,
    UInt32.toNat_ofNat', UInt32.toNat_ofNat', Nat.mod_eq_of_lt (show k < 2 ^ 32 by omega),
    Nat.mod_eq_of_lt (show 32 - k < 2 ^ 32 by omega), Nat.mod_eq_of_lt hk.2,
    Nat.mod_eq_of_lt (show 32 - k < 32 by omega), Nat.shiftLeft_eq, Nat.mod_eq_of_lt hmul,
    Nat.shiftRight_eq_div_pow, ← hor, Nat.add_mul, Nat.mul_assoc, Nat.mul_comm (2 ^ (32 - k)),
    ← hpow, Nat.add_assoc, Nat.div_add_mod']

theorem word_low8 (x : UInt32) : (x &&& 0xFF).toNat = x.toNat % 2 ^ 8 := by
  rw [UInt32.toNat_and]
  exact Nat.and_two_pow_sub_one_eq_mod x.toNat 8

theorem word_low1 (x : UInt32) : (x &&& 1).toNat = x.toNat % 2 ^ 1 := by
  rw [UInt32.toNat_and]
  exact Nat.and_two_pow_sub_one_eq_mod x.toNat 1

theorem mac_lt {x y z c b : Nat} (hx : x < b) (hy : y < b) (hz : z < b) (hc : c < b) :
    x * y + z + c < b * b := by
  nlinarith

theorem word_mac (x y z : UInt32) (c : UInt64) (h : c.toNat < 2 ^ 32) :
    (x.toUInt64 * y.toUInt64 + z.toUInt64 + c).toNat =
      x.toNat * y.toNat + z.toNat + c.toNat := by
  have hb := mac_lt x.toNat_lt y.toNat_lt z.toNat_lt h
  rw [← pow_add] at hb
  simp only [UInt64.toNat_add, UInt64.toNat_mul, UInt32.toNat_toUInt64, Nat.mod_add_mod]
  exact Nat.mod_eq_of_lt hb

theorem word_sum (x y : UInt32) (c : UInt64) (h : c.toNat < 2 ^ 32) :
    (x.toUInt64 + y.toUInt64 + c).toNat = x.toNat + y.toNat + c.toNat := by
  have hx := x.toNat_lt
  have hy := y.toNat_lt
  simp only [UInt64.toNat_add, UInt32.toNat_toUInt64, Nat.mod_add_mod]
  exact Nat.mod_eq_of_lt (by omega)

theorem word_split (c : UInt64) : c.toUInt32.toNat + (c >>> 32).toNat * 2 ^ 32 = c.toNat := by
  simp only [UInt64.toNat_toUInt32, UInt64.toNat_shiftRight, UInt64.toNat_ofNat]
  rw [show 32 % 2 ^ 64 % 64 = 32 from rfl, Nat.shiftRight_eq_div_pow]
  omega

theorem word_high_lt (c : UInt64) : (c >>> 32).toNat < 2 ^ 32 := by
  have h := c.toNat_lt
  have hs := word_split c
  omega

theorem word_high (c : UInt64) : (c >>> 32).toUInt32.toNat = (c >>> 32).toNat := by
  rw [UInt64.toNat_toUInt32, Nat.mod_eq_of_lt (word_high_lt c)]

variable {i k : Nat} {x : UInt32}

theorem word_bit (x : UInt32) (hi : i < 32) :
    decide ((x >>> UInt32.ofNat i) &&& 1 ≠ 0) = x.toNat.testBit i := by
  rw [Nat.testBit_eq_decide_div_mod_eq]
  apply decide_eq_decide.mpr
  rw [← UInt32.toNat_inj.ne, UInt32.toNat_and, UInt32.toNat_shiftRight]
  simp only [UInt32.toNat_ofNat', UInt32.toNat_ofNat]
  rw [Nat.mod_eq_of_lt (show i < 2 ^ 32 by omega), Nat.mod_eq_of_lt hi,
    Nat.shiftRight_eq_div_pow, show 1 % 2 ^ 32 = 1 from rfl, Nat.and_one_is_mod]
  omega

theorem word_mask (x : UInt32) (hi : i < 32) :
    x &&& (1 <<< UInt32.ofNat i) = 0 ↔ x.toNat.testBit i = false := by
  have hlt : 2 ^ i < 2 ^ 32 := Nat.pow_lt_pow_right (by omega) hi
  rw [← UInt32.toNat_inj, UInt32.toNat_and, UInt32.toNat_shiftLeft]
  simp only [UInt32.toNat_ofNat', UInt32.toNat_ofNat]
  rw [Nat.mod_eq_of_lt (show i < 2 ^ 32 by omega), Nat.mod_eq_of_lt hi,
    show 1 % 2 ^ 32 = 1 from rfl, Nat.one_shiftLeft, Nat.mod_eq_of_lt hlt, Nat.and_two_pow]
  cases x.toNat.testBit i <;> simp

/-! ## Values -/

def limbs (v : Nat → UInt32) (n : Nat) : Nat := radix (2 ^ 32) (fun i => (v i).toNat) n

def Bignum.val (b : Bignum) : Nat := limbs b.v bnMaxLimbs

/-- The invariant of bignum.h:13-17 -/
structure Bignum.WF (b : Bignum) : Prop where
  le : b.n ≤ bnMaxLimbs
  zero : ∀ i, b.n ≤ i → b.v i = 0
  top : 0 < b.n → b.v (b.n - 1) ≠ 0

/-- `2 ^ 4608`, one more than the largest number the limbs hold. -/
def bnLimit : Nat := 2 ^ (32 * bnMaxLimbs)

theorem bnLimit_eq : (2 ^ 32) ^ bnMaxLimbs = bnLimit := (pow_mul 2 32 bnMaxLimbs).symm

theorem bnLimit_eq_byte : bnLimit = 2 ^ 8 * 2 ^ (32 * bnMaxLimbs - 8) :=
  (congrArg (2 ^ ·) (by decide : 32 * bnMaxLimbs = 8 + (32 * bnMaxLimbs - 8))).trans (pow_add 2 8 _)

variable {v w : Nat → UInt32} {n m : Nat} {a b c : Bignum}

theorem limbs_succ (v : Nat → UInt32) (n : Nat) :
    limbs v (n + 1) = limbs v n + (v n).toNat * (2 ^ 32) ^ n := radix_succ _ _ n

theorem limbs_lt (v : Nat → UInt32) (n : Nat) : limbs v n < (2 ^ 32) ^ n :=
  radix_lt fun i _ => (v i).toNat_lt

theorem limbs_congr (h : ∀ i, i < n → v i = w i) : limbs v n = limbs w n :=
  radix_congr fun i hi => by rw [h i hi]

theorem limbs_extend (hnm : n ≤ m) (h : ∀ i, n ≤ i → v i = 0) : limbs v m = limbs v n :=
  radix_extend hnm fun i hi _ => by rw [h i hi]; rfl

theorem Bignum.val_lt (b : Bignum) : b.val < bnLimit := bnLimit_eq ▸ limbs_lt b.v bnMaxLimbs

theorem Bignum.WF.val_eq (h : b.WF) : b.val = limbs b.v b.n := limbs_extend h.le h.zero

theorem Bignum.WF.val_lt_pow (h : b.WF) : b.val < (2 ^ 32) ^ b.n := h.val_eq ▸ limbs_lt b.v b.n

theorem Bignum.WF.le_val (h : b.WF) (hn : 0 < b.n) : (2 ^ 32) ^ (b.n - 1) ≤ b.val := by
  obtain ⟨k, hk⟩ := Nat.exists_eq_succ_of_ne_zero hn.ne'
  have htop := h.top hn
  rw [h.val_eq, hk]
  rw [hk] at htop
  apply le_radix_of_top
  intro h0
  exact htop (UInt32.toNat_inj.mp h0)

theorem Bignum.WF.val_eq_zero_iff (h : b.WF) : b.val = 0 ↔ b.n = 0 := by
  constructor
  · intro h0
    by_contra hn
    have hle := h.le_val (Nat.pos_of_ne_zero hn)
    have hpos : 0 < (2 ^ 32) ^ (b.n - 1) := Nat.pow_pos (by omega)
    omega
  · intro hn
    rw [h.val_eq, hn]
    exact radix_zero _ _

theorem bnZero_wf : bnZero.WF := ⟨Nat.zero_le _, fun _ _ => rfl, fun h => absurd h (by simp [bnZero])⟩

@[simp] theorem bnZero_val : bnZero.val = 0 := radix_const_zero _ _

/-! ## Trimming -/

theorem trimFrom_ok (hn : n ≤ bnMaxLimbs) (hz : ∀ i, n ≤ i → v i = 0) :
    (trimFrom v n).Ok fun k => k ≤ n ∧ (∀ i, k ≤ i → v i = 0) ∧ (0 < k → v (k - 1) ≠ 0) := by
  induction n with
  | zero => exact Ok.pure ⟨Nat.le_refl 0, hz, fun h => absurd h (Nat.lt_irrefl 0)⟩
  | succ n ih =>
    refine Ok.bind (load_ok hn) ?_
    intro top htop
    subst htop
    refine Ok.ite ?_ ?_
    · intro h0
      refine (ih (by omega) ?_).mono ?_
      · intro i hi
        by_cases hin : i = n
        · rw [hin, h0]
        · exact hz i (by omega)
      · intro k hk
        exact ⟨by omega, hk.2⟩
    · intro h0
      exact Ok.pure ⟨Nat.le_refl _, hz, fun _ => by simpa using h0⟩

theorem bnTrim_ok (hn : b.n ≤ bnMaxLimbs) (hz : ∀ i, b.n ≤ i → b.v i = 0) :
    (bnTrim b).Ok fun c => c.WF ∧ c.val = b.val := by
  refine Ok.bind (trimFrom_ok hn hz) ?_
  intro k hk
  exact Ok.pure ⟨⟨by show k ≤ _; omega, hk.2.1, hk.2.2⟩, rfl⟩

theorem bnSetU32_wf (x : UInt32) : (bnSetU32 x).WF := by
  unfold bnSetU32
  split
  · rename_i hx
    refine ⟨by simp [bnMaxLimbs], ?_, ?_⟩
    · intro i hi
      simp only at hi
      simp only [update_apply]
      rw [if_neg (by omega)]
      rfl
    · intro _
      simpa using hx
  · exact bnZero_wf

theorem bnSetU32_val (x : UInt32) : (bnSetU32 x).val = x.toNat := by
  unfold bnSetU32
  split
  · show limbs _ (0 + 1 + 143) = _
    rw [limbs_extend (n := 1) (by omega)]
    · rw [limbs_succ]
      simp [limbs]
    · intro i hi
      simp only [update_apply]
      rw [if_neg (by omega)]
      rfl
  · rename_i hx
    have hx : x = 0 := by simpa using hx
    simp [hx]

/-! ## Loops with a carry -/

theorem limbs_update (hn : n ≤ m) (x : UInt32) : limbs (update v m x) n = limbs v n :=
  limbs_congr fun i hi => by rw [update_apply, if_neg (by omega)]

/-- Where a loop over limbs stands after `i` steps, writing from limb `o` on: the
limbs written and the carry make up the first `i` inputs `x`. -/
def SweepAt {C : Type} (o : Nat) (val : C → Nat) (Good : C → Prop) (x : Nat → Nat) (v : Nat → UInt32)
    (c : C) (i : Nat) (s : Sweep C) : Prop :=
  Good s.carry ∧ (∀ k, k < o ∨ o + i ≤ k → s.v k = v k) ∧
    limbs (fun j => s.v (o + j)) i + val s.carry * (2 ^ 32) ^ i = radix (2 ^ 32) x i + val c

theorem up_sweep_ok {C : Type} {body : Nat → Sweep C → Acc (Sweep C)} (o : Nat) (val : C → Nat)
    (Good : C → Prop) (x : Nat → Nat) {c : C} (hc : Good c)
    (hbody : ∀ i s, i < n → (∀ k, o + i ≤ k → s.v k = v k) → Good s.carry →
      (body i s).Ok fun t => Good t.carry ∧ ∃ d : UInt32, t.v = update s.v (o + i) d ∧
        d.toNat + val t.carry * 2 ^ 32 = x i + val s.carry) :
    (up n ⟨v, c⟩ body).Ok (SweepAt o val Good x v c n) := by
  refine up_ok (SweepAt o val Good x v c) ⟨hc, fun _ _ => rfl, by simp [limbs]⟩ ?_
  intro i s hi ⟨hgood, hsame, hval⟩
  refine (hbody i s hi (fun k hk => hsame k (Or.inr hk)) hgood).mono ?_
  intro t ⟨hgood', d, hd, hstep⟩
  refine ⟨hgood', ?_, ?_⟩
  · intro k hk
    rw [hd, update_apply, if_neg (by omega)]
    exact hsame k (by omega)
  · have hlow : limbs (fun j => t.v (o + j)) i = limbs (fun j => s.v (o + j)) i :=
      limbs_congr fun j hj => by rw [hd, update_apply, if_neg (by omega)]
    have hdig : (t.v (o + i)).toNat = d.toNat := by rw [hd, update_self]
    rw [← hlow] at hval
    rw [← hdig] at hstep
    rw [radix_succ, limbs, radix_carry hval hstep]
    ring

theorem limbs_wrap {c t : Nat} (h : limbs w bnMaxLimbs + c * (2 ^ 32) ^ bnMaxLimbs = t) :
    limbs w bnMaxLimbs = t % bnLimit := by
  rw [← h, bnLimit_eq, Nat.add_mul_mod_self_right]
  exact (Nat.mod_eq_of_lt (bnLimit_eq ▸ limbs_lt w bnMaxLimbs)).symm

theorem radix_scale (b : Nat) (x : Nat → Nat) (n k : Nat) :
    radix b (fun i => x i * k) n = radix b x n * k := by
  unfold radix
  rw [Finset.sum_mul]
  apply Finset.sum_congr rfl
  intro i _
  ring

theorem shiftLeft8_ok (v : Nat → UInt32) :
    (shiftLeft8 v).Ok fun w => (∀ i, bnMaxLimbs ≤ i → w i = v i) ∧
      limbs w bnMaxLimbs = limbs v bnMaxLimbs * 2 ^ 8 % bnLimit := by
  refine Ok.bind (up_sweep_ok 0 UInt32.toNat (fun c => c.toNat < 2 ^ 8)
    (fun i => (v i).toNat * 2 ^ 8) (by decide) ?_) ?_
  · intro i s hi hsame hc
    refine Ok.bind (load_ok hi) ?_
    intro x hx
    refine Ok.bind (store_ok hi) ?_
    intro w hw
    rw [hx, hsame i (by omega)] at hw
    rw [hx, hsame i (by omega)]
    have hcur := word_shl8 (v i) s.carry hc
    have hsplit := word_split (((v i).toUInt64 <<< 8) ||| s.carry.toUInt64)
    have hlt := (v i).toNat_lt
    refine Ok.pure ⟨?_, _, by rw [Nat.zero_add]; exact hw, ?_⟩
    · rw [word_high]
      omega
    · rw [word_high]
      omega
  · intro s ⟨_, hsame, hval⟩
    refine Ok.pure ⟨fun i hi => hsame i (by omega), ?_⟩
    simp only [Nat.zero_add] at hval
    rw [limbs_wrap hval, radix_scale, UInt32.toNat_zero, Nat.add_zero, limbs]

/-! ## Bytes -/

/-- The number of the first `n` of the bytes `f`, the first one most significant. -/
def bytesNat (f : Nat → UInt8) : Nat → Nat
  | 0 => 0
  | n + 1 => bytesNat f n * 2 ^ 8 + (f n).toNat

theorem bytesNat_drop_zero {f : Nat → UInt8} (h : f 0 = 0) : ∀ n : Nat,
    bytesNat f (n + 1) = bytesNat (fun i => f (i + 1)) n
  | 0 => by simp [bytesNat, h]
  | n + 1 => by rw [bytesNat, bytesNat_drop_zero h n, bytesNat]

theorem limbs_setAt {d : Nat} (hk : k < n) (h : x.toNat = (v k).toNat + d) :
    limbs (update v k x) n = limbs v n + d * (2 ^ 32) ^ k := by
  induction n with
  | zero => exact absurd hk (Nat.not_lt_zero k)
  | succ n ih =>
    rw [limbs_succ, limbs_succ]
    by_cases hkn : k = n
    · rw [hkn, limbs_update (Nat.le_refl n), update_self, ← hkn, h, Nat.add_mul,
        Nat.add_assoc]
    · rw [ih (by omega), update_apply, if_neg (by omega)]
      omega

theorem limbs_mod_word (hn : 0 < n) : limbs v n % 2 ^ 32 = (v 0).toNat := by
  obtain ⟨k, rfl⟩ := Nat.exists_eq_succ_of_ne_zero hn.ne'
  rw [limbs, radix_head, Nat.add_mul_mod_self_left]
  exact Nat.mod_eq_of_lt (v 0).toNat_lt

theorem word_or_byte (c : UInt8) (h : x.toNat % 2 ^ 8 = 0) :
    (x ||| c.toUInt32).toNat = x.toNat + c.toNat := by
  have hx : x.toNat = (x.toNat / 2 ^ 8) <<< 8 := by
    rw [Nat.shiftLeft_eq]
    omega
  rw [UInt32.toNat_or, UInt8.toNat_toUInt32, hx]
  exact (Nat.shiftLeft_add_eq_or_of_lt c.toNat_lt _).symm

theorem bnFromBytesBe_ok {buf : Buf} {off : Nat} (h : off + n ≤ buf.n) :
    (bnFromBytesBe buf off n).Ok fun b =>
      b.WF ∧ b.val = bytesNat (fun i => buf.mem (off + i)) n % bnLimit := by
  refine Ok.bind (up_ok (fun i v => (∀ k, bnMaxLimbs ≤ k → v k = 0) ∧
    limbs v bnMaxLimbs = bytesNat (fun i => buf.mem (off + i)) i % bnLimit) ⟨fun _ _ => rfl, ?_⟩ ?_)
    ?_
  · rw [bytesNat, Nat.zero_mod]
    exact bnZero_val
  · intro i v hi ⟨hz, hval⟩
    refine Ok.bind (shiftLeft8_ok v) ?_
    intro w ⟨hsame, hw⟩
    refine Ok.bind (P := (· = buf.mem (off + i))) ⟨?_, rfl⟩ ?_
    · rw [Buf.read_safe]
      omega
    intro c hc
    refine Ok.bind (load_ok (by decide)) ?_
    intro x hx
    refine (store_ok (by decide)).mono ?_
    intro u hu
    have hlow : (w 0).toNat % 2 ^ 8 = 0 := by
      rw [← limbs_mod_word (n := bnMaxLimbs) (by decide), hw, Nat.mod_mod_of_dvd _ (by decide),
        bnLimit_eq_byte, Nat.mod_mul_right_mod, Nat.mul_mod_left]
    subst hx
    have hor := word_or_byte c hlow
    refine ⟨?_, ?_⟩
    · intro k hk
      rw [hu, update_apply, if_neg (by simp only [bnMaxLimbs] at hk; omega), hsame k hk]
      exact hz k hk
    · rw [hu, limbs_setAt (by decide) hor, pow_zero, Nat.mul_one, hw, hval, bytesNat, ← hc, Nat.mod_mul_mod,
        bnLimit_eq_byte, shift_in_mod c.toNat_lt]
  · intro v ⟨hz, hval⟩
    refine (bnTrim_ok (Nat.le_refl _) hz).mono ?_
    intro b ⟨hwf, hb⟩
    exact ⟨hwf, hb.trans hval⟩

/-- The limbs from `i` on, as a number. -/
def highLimbs (v : Nat → UInt32) (i : Nat) : Nat := limbs (fun j => v (i + j)) (bnMaxLimbs - i)

theorem highLimbs_step (hi : i < bnMaxLimbs) :
    highLimbs v i = (v i).toNat + 2 ^ 32 * highLimbs v (i + 1) := by
  rw [highLimbs, show bnMaxLimbs - i = (bnMaxLimbs - (i + 1)) + 1 by omega, limbs, radix_head]
  simp only [Nat.add_zero, highLimbs, limbs]
  congr 2
  exact radix_congr fun j _ => by rw [Nat.add_right_comm, Nat.add_assoc]

theorem highLimbs_congr (h : ∀ k, i ≤ k → v k = w k) : highLimbs v i = highLimbs w i :=
  limbs_congr fun j _ => h (i + j) (by omega)

theorem highLimbs_zero (v : Nat → UInt32) : highLimbs v 0 = limbs v bnMaxLimbs :=
  limbs_congr fun i _ => by rw [Nat.zero_add]

theorem down_sweep_ok {body : Nat → Sweep UInt32 → Acc (Sweep UInt32)} {q : Nat} (hq : 0 < q)
    (hbody : ∀ i s, i < bnMaxLimbs → s.v i = v i → s.carry.toNat < q →
      (body i s).Ok fun t => t.carry.toNat < q ∧ ∃ d : UInt32, t.v = update s.v i d ∧
        d.toNat * q + t.carry.toNat = s.carry.toNat * 2 ^ 32 + (v i).toNat) :
    (down bnMaxLimbs ⟨v, 0⟩ body).Ok fun s => (∀ i, bnMaxLimbs ≤ i → s.v i = v i) ∧
      limbs s.v bnMaxLimbs = limbs v bnMaxLimbs / q := by
  refine (down_ok (fun i s => s.carry.toNat < q ∧
    (∀ k, k < i ∨ bnMaxLimbs ≤ k → s.v k = v k) ∧
    highLimbs v i = q * highLimbs s.v i + s.carry.toNat) ⟨hq, fun _ _ => rfl, ?_⟩ ?_).mono ?_
  · rw [highLimbs, Nat.sub_self, limbs, radix_zero]
    rfl
  · intro i s hi ⟨hc, hsame, hval⟩
    refine (hbody i s hi (hsame i (Or.inl (Nat.lt_succ_self i))) hc).mono ?_
    intro t ⟨hc', d, hd, hstep⟩
    refine ⟨hc', ?_, ?_⟩
    · intro k hk
      rw [hd, update_apply, if_neg (by omega)]
      exact hsame k (by omega)
    · have hhigh : highLimbs t.v (i + 1) = highLimbs s.v (i + 1) :=
        highLimbs_congr fun k hk => by rw [hd, update_apply, if_neg (by omega)]
      rw [highLimbs_step hi, highLimbs_step hi, hhigh, hd, update_self]
      exact radix_carry_down hval hstep
  · intro s ⟨hc, hsame, hval⟩
    refine ⟨fun i hi => hsame i (Or.inr hi), ?_⟩
    rw [highLimbs_zero, highLimbs_zero] at hval
    rw [hval, Nat.mul_add_div hq, Nat.div_eq_of_lt hc, Nat.add_zero]

theorem shiftRight8_ok (v : Nat → UInt32) :
    (shiftRight8 v).Ok fun w => limbs w bnMaxLimbs = limbs v bnMaxLimbs / 2 ^ 8 := by
  refine Ok.bind (down_sweep_ok (v := v) (Nat.two_pow_pos 8) ?_) fun s hs => Ok.pure hs.2
  intro i s hi hsame hc
  refine Ok.bind (load_ok hi) ?_
  intro lo hlo
  refine Ok.bind (store_ok hi) ?_
  intro w hw
  rw [hlo, hsame] at hw ⊢
  refine Ok.pure ⟨?_, _, hw, ?_⟩
  · rw [word_low8]
    exact Nat.mod_lt _ (Nat.two_pow_pos 8)
  · rw [word_low8]
    exact word_shr (k := 8) (v i) s.carry (by decide) hc

/-- Byte `i` of the `n` bytes that stand for `x`, the first one most significant. -/
def byteBe (x n i : Nat) : UInt8 := UInt8.ofNat (x / 2 ^ (8 * (n - 1 - i)))

theorem bnToBytesBe_ok {size : Nat} {buf : Nat → UInt8} (b : Bignum) (h : n ≤ size) :
    (bnToBytesBe b size buf n).Ok fun out =>
      (∀ i, i < n → out i = byteBe b.val n i) ∧ ∀ i, n ≤ i → out i = buf i := by
  refine Ok.bind (down_ok (fun i s => i ≤ n ∧ (∀ k, i ≤ k → k < n → s.buf k = byteBe b.val n k) ∧
    (∀ k, k < i ∨ n ≤ k → s.buf k = buf k) ∧
    limbs s.t bnMaxLimbs = b.val / 2 ^ (8 * (n - i)))
    ⟨Nat.le_refl n, fun k h1 h2 => by omega, fun _ _ => rfl, by simp [Bignum.val]⟩ ?_) ?_
  · intro i s hi ⟨_, hdone, hrest, hval⟩
    refine Ok.bind (load_ok (by decide)) ?_
    intro x hx
    refine Ok.bind (store_ok (by omega)) ?_
    intro out hout
    refine Ok.bind (shiftRight8_ok s.t) ?_
    intro t ht
    have hbyte : (x &&& 0xFF).toUInt8 = byteBe b.val n i := by
      rw [← UInt8.toNat_inj, UInt32.toNat_toUInt8, word_low8, hx,
        ← limbs_mod_word (n := bnMaxLimbs) (by decide), hval, byteBe, UInt8.toNat_ofNat',
        show n - (i + 1) = n - 1 - i by omega]
      omega
    refine Ok.pure ⟨by omega, ?_, ?_, ?_⟩
    · intro k h1 h2
      show out k = _
      rw [hout, update_apply]
      by_cases hk : k = i
      · rw [if_pos hk, hbyte, hk]
      · rw [if_neg hk]
        exact hdone k (by omega) h2
    · intro k hk
      show out k = _
      rw [hout, update_apply, if_neg (by omega)]
      exact hrest k (by omega)
    · have hexp : 8 * (n - i) = 8 * (n - (i + 1)) + 8 := by omega
      rw [hexp, pow_add, ← Nat.div_div_eq_div_mul, ← hval]
      exact ht
  · intro s ⟨_, hdone, hrest, _⟩
    exact Ok.pure ⟨fun i hi => hdone i (Nat.zero_le i) hi, fun i hi => hrest i (Or.inr hi)⟩

/-! ## Lengths, comparison and bits -/

theorem topBits_eq (top : UInt32) : ∀ {k : Nat}, k ≤ 32 →
    topBits top k = Nat.size (top.toNat % 2 ^ k)
  | 0, _ => by simp [topBits, Nat.mod_one]
  | k + 1, hk => by
    have hmod : top.toNat % 2 ^ (k + 1) = top.toNat % 2 ^ k + 2 ^ k * (top.toNat / 2 ^ k % 2) :=
      Nat.mod_pow_succ
    have htest := Nat.testBit_eq_decide_div_mod_eq (i := k) (x := top.toNat)
    have hlt : top.toNat % 2 ^ k < 2 ^ k := Nat.mod_lt _ (Nat.two_pow_pos k)
    rw [topBits]
    by_cases hbit : top.toNat.testBit k
    · rw [if_neg (by rw [word_mask top (by omega), hbit]; simp)]
      have hone : top.toNat / 2 ^ k % 2 = 1 := by simpa [hbit] using htest
      rw [hone] at hmod
      apply Nat.le_antisymm
      · exact Nat.lt_size.mpr (by omega)
      · exact Nat.size_le.mpr (Nat.mod_lt _ (Nat.two_pow_pos _))
    · have hbit : top.toNat.testBit k = false := by simpa using hbit
      have hzero : top.toNat / 2 ^ k % 2 = 0 := by
        have : top.toNat / 2 ^ k % 2 ≠ 1 := by simpa [hbit] using htest
        omega
      rw [if_pos ((word_mask top (by omega)).mpr hbit), topBits_eq top (by omega), hmod, hzero,
        Nat.mul_zero, Nat.add_zero]

theorem size_add_mul {l t : Nat} (hl : l < 2 ^ k) (ht : t ≠ 0) :
    Nat.size (l + t * 2 ^ k) = k + Nat.size t := by
  have hpos : 0 < Nat.size t := Nat.size_pos.mpr (Nat.pos_of_ne_zero ht)
  apply Nat.le_antisymm
  · apply Nat.size_le.mpr
    have ht2 : (t + 1) * 2 ^ k ≤ 2 ^ Nat.size t * 2 ^ k :=
      Nat.mul_le_mul_right _ (Nat.lt_size_self t)
    calc l + t * 2 ^ k < 2 ^ k + t * 2 ^ k := by omega
      _ = (t + 1) * 2 ^ k := by ring
      _ ≤ 2 ^ Nat.size t * 2 ^ k := ht2
      _ = 2 ^ (k + Nat.size t) := by ring
  · have hle : 2 ^ (Nat.size t - 1) ≤ t := Nat.lt_size.mp (by omega)
    have hmul := Nat.mul_le_mul_right (2 ^ k) hle
    rw [← pow_add] at hmul
    have : k + Nat.size t - 1 < Nat.size (l + t * 2 ^ k) := by
      apply Nat.lt_size.mpr
      rw [show k + Nat.size t - 1 = Nat.size t - 1 + k by omega]
      omega
    omega

theorem bnBitLength_ok (hb : b.WF) : (bnBitLength b).Ok (· = Nat.size b.val) := by
  refine Ok.ite ?_ ?_
  · intro h0
    refine Ok.pure ?_
    rw [(hb.val_eq_zero_iff).mpr h0, Nat.size_zero]
  · intro h0
    have hle := hb.le
    refine Ok.bind (load_ok (by omega)) ?_
    intro top htop
    refine Ok.pure ?_
    have hne : top.toNat ≠ 0 := by
      intro h
      apply hb.top (by omega)
      rw [← htop]
      exact UInt32.toNat_inj.mp h
    obtain ⟨k, hk⟩ := Nat.exists_eq_succ_of_ne_zero h0
    have hpow : (2 ^ 32) ^ k = 2 ^ (32 * k) := (pow_mul 2 32 k).symm
    have hlow := limbs_lt b.v k
    rw [hk, Nat.succ_sub_one] at htop
    rw [hpow] at hlow
    rw [hb.val_eq, hk, limbs_succ, ← htop, hpow, size_add_mul hlow hne,
      topBits_eq top (Nat.le_refl 32), Nat.mod_eq_of_lt top.toNat_lt]
    simp [Nat.mul_comm]

theorem bnByteLength_ok (hb : b.WF) : (bnByteLength b).Ok (· = (Nat.size b.val + 7) / 8) := by
  refine Ok.bind (bnBitLength_ok hb) ?_
  intro bits hbits
  exact Ok.pure (by rw [hbits])

theorem cmpFrom_ok (hn : n ≤ bnMaxLimbs) : ∀ {i : Nat}, i ≤ n →
    (∀ j, i ≤ j → j < n → v j = w j) →
    (cmpFrom v w i).Ok (· = compare (limbs v n) (limbs w n))
  | 0, _, heq => Ok.pure (by
    rw [limbs_congr fun j hj => heq j (Nat.zero_le j) hj]
    exact (compare_eq_iff_eq.mpr rfl).symm)
  | i + 1, hi, heq => by
    refine Ok.bind (load_ok (by omega)) ?_
    intro x hx
    refine Ok.bind (load_ok (by omega)) ?_
    intro y hy
    subst hx hy
    refine Ok.ite ?_ ?_
    · intro hne
      refine Ok.pure ?_
      have hdigits : ∀ j, i < j → j < n → (v j).toNat = (w j).toNat := by
        intro j h1 h2
        rw [heq j h1 h2]
      by_cases hlt : w i < v i
      · rw [if_pos hlt]
        exact (compare_gt_iff_gt.mpr (radix_lt_of_digit hi (fun j _ => (w j).toNat_lt)
          (UInt32.lt_iff_toNat_lt.mp hlt) fun j h1 h2 => (hdigits j h1 h2).symm)).symm
      · rw [if_neg hlt]
        have hlt : (v i).toNat < (w i).toNat := by
          have := mt UInt32.toNat_inj.mp hne
          have := mt UInt32.lt_iff_toNat_lt.mpr hlt
          omega
        exact (compare_lt_iff_lt.mpr (radix_lt_of_digit hi (fun j _ => (v j).toNat_lt) hlt
          hdigits)).symm
    · intro heqi
      refine cmpFrom_ok hn (by omega) ?_
      intro j h1 h2
      by_cases hj : j = i
      · rw [hj]
        exact not_not.mp heqi
      · exact heq j (by omega) h2

theorem val_lt_of_n_lt (ha : a.WF) (hb : b.WF) (h : a.n < b.n) : a.val < b.val :=
  calc a.val < (2 ^ 32) ^ a.n := ha.val_lt_pow
    _ ≤ (2 ^ 32) ^ (b.n - 1) := Nat.pow_le_pow_right (by omega) (by omega)
    _ ≤ b.val := hb.le_val (by omega)

theorem bnCmp_ok (ha : a.WF) (hb : b.WF) : (bnCmp a b).Ok (· = compare a.val b.val) := by
  refine Ok.ite ?_ ?_
  · intro hne
    refine Ok.pure ?_
    by_cases hlt : b.n < a.n
    · rw [if_pos hlt]
      exact (compare_gt_iff_gt.mpr (val_lt_of_n_lt hb ha hlt)).symm
    · rw [if_neg hlt]
      exact (compare_lt_iff_lt.mpr (val_lt_of_n_lt ha hb (by omega))).symm
  · intro heq
    have heq : a.n = b.n := not_not.mp heq
    rw [ha.val_eq, hb.val_eq, ← heq]
    exact cmpFrom_ok ha.le (Nat.le_refl _) fun j h1 h2 => by omega

theorem bnIsZero_eq (hb : b.WF) : bnIsZero b = decide (b.val = 0) :=
  decide_eq_decide.mpr hb.val_eq_zero_iff.symm

theorem bnIsOdd_ok (hb : b.WF) : (bnIsOdd b).Ok fun c => c = true ↔ b.val % 2 = 1 := by
  refine Ok.ite ?_ ?_
  · intro _
    refine Ok.bind (load_ok (by decide)) ?_
    intro x hx
    refine Ok.pure ?_
    have hlow : b.val % 2 = x.toNat % 2 := by
      rw [hx, ← limbs_mod_word (n := bnMaxLimbs) (by decide), Nat.mod_mod_of_dvd _ (by decide)]
      rfl
    rw [decide_eq_true_iff, ← UInt32.toNat_inj.ne, word_low1, hlow]
    show x.toNat % 2 ≠ 0 ↔ _
    omega
  · intro hn
    refine Ok.pure ?_
    rw [hb.val_eq_zero_iff.mpr (by omega)]
    decide

theorem bnBitAt_ok (hb : b.WF) (bit : Nat) : (bnBitAt b bit).Ok (· = b.val.testBit bit) := by
  refine Ok.ite ?_ ?_
  · intro hn
    refine Ok.pure ?_
    have hlt : b.val < 2 ^ bit :=
      calc b.val < (2 ^ 32) ^ b.n := hb.val_lt_pow
        _ = 2 ^ (32 * b.n) := (pow_mul 2 32 b.n).symm
        _ ≤ 2 ^ bit := Nat.pow_le_pow_right (by omega) (by omega)
    exact (Nat.testBit_lt_two_pow hlt).symm
  · intro hn
    have hle := hb.le
    refine Ok.bind (load_ok (by omega)) ?_
    intro x hx
    refine Ok.pure ?_
    have hlt : bit % 32 < 32 := Nat.mod_lt _ (by decide)
    have hdigit : b.val / (2 ^ 32) ^ (bit / 32) % 2 ^ 32 = (b.v (bit / 32)).toNat :=
      radix_digit (by decide) (fun i _ => (b.v i).toNat_lt) (by omega)
    rw [hx, word_bit _ hlt, ← hdigit, Nat.testBit_mod_two_pow, ← pow_mul, Nat.testBit_div_two_pow,
      decide_eq_true hlt, Bool.true_and, Nat.mod_add_div]

/-! ## Addition, subtraction and the shift by one -/

theorem bnClearHigh_zero (b : Bignum) : ∀ i, b.n ≤ i → (bnClearHigh b).v i = 0 :=
  fun _ hi => if_pos hi

theorem bnClearHigh_val (hn : b.n ≤ bnMaxLimbs) : (bnClearHigh b).val = limbs b.v b.n := by
  rw [Bignum.val, limbs_extend hn (bnClearHigh_zero b)]
  exact limbs_congr fun i hi => if_neg (by omega)

theorem trimResult_ok (hn : n ≤ bnMaxLimbs) :
    (bnTrim (bnClearHigh ⟨v, n⟩)).Ok fun c => c.WF ∧ c.val = limbs v n := by
  refine (bnTrim_ok (b := bnClearHigh ⟨v, n⟩) hn (bnClearHigh_zero ⟨v, n⟩)).mono ?_
  intro c ⟨hwf, hval⟩
  exact ⟨hwf, hval.trans (bnClearHigh_val (b := ⟨v, n⟩) hn)⟩

theorem Bignum.WF.val_eq_of_le (h : b.WF) (hle : b.n ≤ n) : b.val = limbs b.v n :=
  h.val_eq.trans (limbs_extend hle h.zero).symm

theorem radix_pointwise_add (b : Nat) (x y : Nat → Nat) (n : Nat) :
    radix b (fun i => x i + y i) n = radix b x n + radix b y n := by
  unfold radix
  rw [← Finset.sum_add_distrib]
  apply Finset.sum_congr rfl
  intro i _
  ring

theorem bnAdd_ok (ha : a.WF) (hb : b.WF) (hfit : a.val + b.val < bnLimit) :
    (bnAdd a b).Ok fun c => c.WF ∧ c.val = a.val + b.val := by
  have hale := ha.le
  have hble := hb.le
  have hmax : (if b.n < a.n then a.n else b.n) = max a.n b.n := by
    split <;> omega
  unfold bnAdd
  simp only [hmax]
  have hA : a.val = limbs a.v (max a.n b.n) := ha.val_eq_of_le (by omega)
  have hB : b.val = limbs b.v (max a.n b.n) := hb.val_eq_of_le (by omega)
  have hn : max a.n b.n ≤ bnMaxLimbs := by omega
  generalize max a.n b.n = n at hA hB hn
  refine Ok.bind (up_sweep_ok 0 UInt64.toNat (fun c => c.toNat < 2 ^ 32)
    (fun i => (a.v i).toNat + (b.v i).toNat) (Nat.two_pow_pos 32) ?_) ?_
  · intro i s hi _ hc
    refine Ok.bind (load_ok (by omega)) ?_
    intro x hx
    refine Ok.bind (load_ok (by omega)) ?_
    intro y hy
    refine Ok.bind (store_ok (by omega)) ?_
    intro w hw
    subst hx hy
    refine Ok.pure ⟨word_high_lt _, _, by rw [Nat.zero_add]; exact hw, ?_⟩
    rw [word_split, word_sum _ _ _ hc]
  · intro s ⟨hc, _, hval⟩
    simp only [Nat.zero_add] at hval
    rw [radix_pointwise_add, UInt64.toNat_zero, Nat.add_zero] at hval
    have hval : limbs s.v n + s.carry.toNat * (2 ^ 32) ^ n = a.val + b.val := by
      rw [hA, hB]
      exact hval
    have hres : (if s.carry ≠ 0 then do
          let v ← store bnMaxLimbs s.v n s.carry.toUInt32
          pure ⟨v, n + 1⟩
        else (pure ⟨s.v, n⟩ : Acc Bignum)).Ok
        fun r => r.n ≤ bnMaxLimbs ∧ limbs r.v r.n = a.val + b.val := by
      refine Ok.ite ?_ ?_
      · intro hne
        have hpos : 0 < s.carry.toNat :=
          Nat.pos_of_ne_zero fun h => hne (UInt64.toNat_inj.mp h)
        have hlt : n < bnMaxLimbs := by
          by_contra hge
          have hnn : n = bnMaxLimbs := by omega
          have h1 := Nat.mul_le_mul_right ((2 ^ 32) ^ n) hpos
          rw [hnn, bnLimit_eq] at h1 hval
          omega
        refine Ok.bind (store_ok hlt) ?_
        intro w hw
        refine Ok.pure ⟨hlt, ?_⟩
        show limbs w (n + 1) = _
        rw [limbs_succ, hw, limbs_update (Nat.le_refl n), update_self,
          UInt64.toNat_toUInt32, Nat.mod_eq_of_lt hc]
        exact hval
      · intro h0
        refine Ok.pure ⟨hn, ?_⟩
        rw [not_not.mp h0, UInt64.toNat_zero, Nat.zero_mul, Nat.add_zero] at hval
        exact hval
    refine Ok.bind hres ?_
    intro r ⟨hr, hrval⟩
    rw [← hrval]
    exact trimResult_ok hr

theorem borrow_step {x y c diff : Int} (hx : 0 ≤ x ∧ x < 2 ^ 32) (hy : 0 ≤ y ∧ y < 2 ^ 32)
    (hc : 0 ≤ c ∧ c ≤ 1) (hdiff : x - y - c = diff) :
    (0 ≤ (if diff < 0 then (1 : Int) else 0) ∧ (if diff < 0 then (1 : Int) else 0) ≤ 1) ∧
      0 ≤ (if diff < 0 then diff + 2 ^ 32 else diff) ∧
      (if diff < 0 then diff + 2 ^ 32 else diff) < 2 ^ 32 ∧
      (if diff < 0 then diff + 2 ^ 32 else diff) + y + c =
        x + (if diff < 0 then 1 else 0) * 2 ^ 32 := by
  split <;> omega

theorem bnSub_ok (ha : a.WF) (hb : b.WF) :
    (bnSub a b).Ok fun r => (a.val < b.val → r = none) ∧
      (b.val ≤ a.val → ∃ c : Bignum, r = some c ∧ c.WF ∧ c.val = a.val - b.val) := by
  refine Ok.bind (bnCmp_ok ha hb) ?_
  intro o ho
  refine Ok.ite ?_ ?_
  · intro hlt
    have hlt : a.val < b.val := compare_lt_iff_lt.mp (ho ▸ hlt)
    exact Ok.pure ⟨fun _ => rfl, fun hle => by omega⟩
  · intro hge
    have hge : b.val ≤ a.val := by
      by_contra h
      exact hge (ho ▸ compare_lt_iff_lt.mpr (by omega))
    have hn : b.n ≤ a.n := by
      by_contra h
      have := val_lt_of_n_lt ha hb (by omega)
      omega
    have hale := ha.le
    refine Ok.bind (up_ok (fun i s => (0 ≤ s.carry ∧ s.carry ≤ 1) ∧
      (∀ k, i ≤ k → s.v k = a.v k) ∧ (limbs s.v i : Int) + limbs b.v i =
        limbs a.v i + s.carry * (2 ^ 32) ^ i)
      ⟨by simp, fun _ _ => rfl, by simp [limbs]⟩ ?_) ?_
    · intro i s hi ⟨hc, hsame, hval⟩
      refine Ok.bind (load_ok (by omega)) ?_
      intro x hx
      refine Ok.bind (load_ok (by omega)) ?_
      intro y hy
      refine Ok.bind (store_ok (by omega)) ?_
      intro w hw
      rw [hsame i (Nat.le_refl i)] at hx
      subst hx hy
      have hx := (a.v i).toNat_lt
      have hy := (b.v i).toNat_lt
      generalize hdiff : ((a.v i).toNat : Int) - ((b.v i).toNat : Int) - s.carry = diff at hw ⊢
      obtain ⟨hc', hd0, hd1, hstep⟩ := borrow_step (by omega) (by omega) hc hdiff
      refine Ok.pure ⟨hc', ?_, ?_⟩
      · intro k hk
        show w k = _
        rw [hw, update_apply, if_neg (by omega)]
        exact hsame k (by omega)
      · have hd : (((w i).toNat : Nat) : Int) = if diff < 0 then diff + 2 ^ 32 else diff := by
          rw [hw, update_self, UInt32.toNat_ofNat_of_lt' (by simp only [UInt32.size]; omega)]
          exact Int.toNat_of_nonneg hd0
        rw [limbs_succ w, limbs_succ b.v, limbs_succ a.v, Nat.cast_add, Nat.cast_mul, hd, hw,
          limbs_update (Nat.le_refl i)]
        clear hd hw hd0 hd1
        generalize (if diff < 0 then diff + 2 ^ 32 else diff) = d at hstep ⊢
        push_cast
        rw [pow_succ]
        linear_combination hval + (2 ^ 32) ^ i * hstep
    · intro s ⟨hc, _, hval⟩
      refine Ok.bind (trimResult_ok (v := s.v) hale) ?_
      intro c ⟨hwf, hcval⟩
      refine Ok.pure ⟨fun h => by omega, fun _ => ⟨c, rfl, hwf, ?_⟩⟩
      rw [ha.val_eq, hb.val_eq_of_le hn] at hge ⊢
      have hlt := limbs_lt s.v a.n
      have hcarry : s.carry = 0 := by
        by_contra hne
        have h1 : s.carry = 1 := by omega
        rw [h1, one_mul] at hval
        have hnat : limbs s.v a.n + limbs b.v a.n = limbs a.v a.n + (2 ^ 32) ^ a.n := by
          exact_mod_cast hval
        omega
      rw [hcarry, zero_mul, add_zero] at hval
      omega

theorem bnSub_of_le (ha : a.WF) (hb : b.WF) (hle : b.val ≤ a.val) :
    (bnSub a b).Ok fun r => ∃ c : Bignum, r = some c ∧ c.WF ∧ c.val = a.val - b.val :=
  (bnSub_ok ha hb).mono fun _ h => h.2 hle

theorem shiftLeft1_ok (v : Nat → UInt32) :
    (shiftLeft1 v).Ok fun w => (∀ i, bnMaxLimbs ≤ i → w i = v i) ∧
      limbs w bnMaxLimbs = limbs v bnMaxLimbs * 2 % bnLimit := by
  refine Ok.bind (up_sweep_ok 0 UInt32.toNat (fun c => c.toNat < 2)
    (fun i => (v i).toNat * 2) (Nat.two_pos) ?_) ?_
  · intro i s hi hsame hc
    refine Ok.bind (load_ok hi) ?_
    intro x hx
    refine Ok.bind (store_ok hi) ?_
    intro w hw
    rw [hsame i (by omega)] at hx
    subst hx
    have hcur := word_shl1 (v i) s.carry hc
    have hlt := (v i).toNat_lt
    refine Ok.pure ⟨?_, _, by rw [Nat.zero_add]; exact hw, hcur⟩
    rw [UInt32.toNat_shiftRight, UInt32.toNat_ofNat, show 31 % 2 ^ 32 % 32 = 31 from rfl,
      Nat.shiftRight_eq_div_pow]
    omega
  · intro s ⟨_, hsame, hval⟩
    refine Ok.pure ⟨fun i hi => hsame i (by omega), ?_⟩
    simp only [Nat.zero_add] at hval
    rw [limbs_wrap hval, radix_scale, UInt32.toNat_zero, Nat.add_zero, limbs]

theorem val_tail_zero (hk : limbs w bnMaxLimbs < (2 ^ 32) ^ k)
    (hz : ∀ i, bnMaxLimbs ≤ i → w i = 0) (hi : k ≤ i) : w i = 0 := by
  by_cases hlt : i < bnMaxLimbs
  · exact UInt32.toNat_inj.mp (digit_eq_zero_of_lt hk (Nat.two_pow_pos 32) hi hlt)
  · exact hz i (by omega)

theorem bnLshift1_ok (hb : b.WF) :
    (bnLshift1 b).Ok fun c => c.WF ∧ c.val = b.val * 2 % bnLimit := by
  have hle := hb.le
  refine Ok.bind (shiftLeft1_ok b.v) ?_
  intro w ⟨hsame, hw⟩
  have hz : ∀ i, bnMaxLimbs ≤ i → w i = 0 := by
    intro i hi
    rw [hsame i hi]
    exact hb.zero i (by omega)
  have hlt : limbs w bnMaxLimbs < (2 ^ 32) ^ (b.n + 1) := by
    have h1 := hb.val_lt_pow
    have h2 := Nat.mod_le (limbs b.v bnMaxLimbs * 2) bnLimit
    rw [Bignum.val] at h1
    rw [pow_succ]
    omega
  refine Ok.bind (load_ok (by decide)) ?_
  intro top htop
  refine Ok.bind (P := fun n => n ≤ bnMaxLimbs ∧ ∀ i, n ≤ i → w i = 0) ?_ ?_
  · refine Ok.ite (fun _ => Ok.pure ⟨Nat.le_refl _, hz⟩) fun _ => Ok.ite ?_ ?_
    · intro hn
      refine Ok.bind (load_ok hn) ?_
      intro next hnext
      refine Ok.pure ?_
      split
      · exact ⟨hn, fun i hi => val_tail_zero hlt hz hi⟩
      · rename_i h0
        refine ⟨hle, ?_⟩
        intro i hi
        by_cases hin : i = b.n
        · rw [hin, ← hnext]
          exact not_not.mp h0
        · exact val_tail_zero hlt hz (by omega)
    · intro hn
      exact Ok.pure ⟨hle, fun i hi => hz i (by omega)⟩
  · intro n ⟨hn, hnz⟩
    refine (bnTrim_ok (b := ⟨w, n⟩) hn hnz).mono ?_
    intro c ⟨hwf, hval⟩
    exact ⟨hwf, hval.trans hw⟩

theorem shiftRight1_ok (v : Nat → UInt32) :
    (shiftRight1 v).Ok fun w => (∀ i, bnMaxLimbs ≤ i → w i = v i) ∧
      limbs w bnMaxLimbs = limbs v bnMaxLimbs / 2 := by
  refine Ok.bind (down_sweep_ok (v := v) (Nat.two_pow_pos 1) ?_) fun s hs => Ok.pure hs
  intro i s hi hsame hc
  refine Ok.bind (load_ok hi) ?_
  intro lo hlo
  refine Ok.bind (store_ok hi) ?_
  intro w hw
  rw [hlo, hsame] at hw ⊢
  refine Ok.pure ⟨?_, _, hw, ?_⟩
  · rw [word_low1]
    exact Nat.mod_lt _ (Nat.two_pow_pos 1)
  · rw [word_low1]
    exact word_shr (k := 1) (v i) s.carry (by decide) hc

theorem bnRshift1_ok (hb : b.WF) : (bnRshift1 b).Ok fun c => c.WF ∧ c.val = b.val / 2 := by
  have hle := hb.le
  refine Ok.bind (shiftRight1_ok b.v) ?_
  intro w ⟨hsame, hw⟩
  have hlt : limbs w bnMaxLimbs < (2 ^ 32) ^ b.n := by
    rw [hw]
    exact (Nat.div_le_self _ _).trans_lt hb.val_lt_pow
  have hz : ∀ i, bnMaxLimbs ≤ i → w i = 0 := by
    intro i hi
    rw [hsame i hi]
    exact hb.zero i (by omega)
  refine (bnTrim_ok (b := ⟨w, b.n⟩) hle fun i hi => val_tail_zero hlt hz hi).mono ?_
  intro c ⟨hwf, hval⟩
  exact ⟨hwf, hval.trans hw⟩

/-! ## Halving while even -/

theorem size_lt_of_double_le {x y : Nat} (hx : 0 < x) (h : 2 * y ≤ x) :
    Nat.size y < Nat.size x := by
  obtain ⟨k, hk⟩ := Nat.exists_eq_succ_of_ne_zero (Nat.size_pos.mpr hx).ne'
  have hlt := Nat.lt_size_self x
  rw [hk, Nat.pow_succ] at hlt
  have hy : Nat.size y ≤ k := Nat.size_le.mpr (by omega)
  omega

theorem Bignum.size_le (b : Bignum) : Nat.size b.val ≤ 32 * bnMaxLimbs := Nat.size_le.mpr b.val_lt

theorem dropTwos_ok (hb : b.WF) (hpos : 0 < b.val) : (dropTwos b).Ok fun h =>
    h.b.WF ∧ h.b.val % 2 = 1 ∧ b.val = h.b.val * 2 ^ h.s := by
  refine (repeatWhile_ok (P := fun h => h.b.WF ∧ 0 < h.b.val ∧ b.val = h.b.val * 2 ^ h.s)
    (C := fun h => h.b.val % 2 = 0) (fun h => Nat.size h.b.val) ?_ ?_
    ⟨hb, hpos, by rw [pow_zero, Nat.mul_one]⟩ ?_).mono ?_
  · intro h ⟨hwf, _⟩
    refine Ok.bind (bnIsOdd_ok hwf) ?_
    intro odd hodd
    refine Ok.pure ?_
    rw [Bool.not_eq_true', ← Bool.not_eq_true, hodd]
    omega
  · intro h ⟨hwf, h0, heq⟩ heven
    refine Ok.bind (bnRshift1_ok hwf) ?_
    intro c ⟨hc, hcval⟩
    have hdouble : h.b.val = c.val * 2 := by omega
    have hsize := size_lt_of_double_le h0 (show 2 * c.val ≤ h.b.val by omega)
    refine Ok.pure ⟨⟨hc, show 0 < c.val by omega, ?_⟩, hsize⟩
    rw [heq, hdouble, pow_succ', Nat.mul_assoc]
  · have hsize := b.size_le
    show Nat.size b.val < 64 * bnMaxLimbs + 2
    omega
  · intro h ⟨⟨hwf, _, heq⟩, hodd⟩
    exact ⟨hwf, by omega, heq⟩

/-! ## Multiplication -/

theorem limbs_add (v : Nat → UInt32) (n m : Nat) :
    limbs v (n + m) = limbs v n + (2 ^ 32) ^ n * limbs (fun j => v (n + j)) m := radix_add _ _ n m

theorem radix_scale_left (b : Nat) (x : Nat → Nat) (n k : Nat) :
    radix b (fun i => k * x i) n = k * radix b x n := by
  rw [Nat.mul_comm k, ← radix_scale]
  exact radix_congr fun i _ => Nat.mul_comm _ _

theorem mulRow_sum (d : Nat) (r : Nat → UInt32) (y : Nat → UInt32) (i n : Nat) :
    radix (2 ^ 32) (fun j => d * (y j).toNat + (r (i + j)).toNat) n =
      d * limbs y n + limbs (fun j => r (i + j)) n := by
  rw [radix_pointwise_add (2 ^ 32) (fun j => d * (y j).toNat), radix_scale_left]
  rfl

theorem mulRow_ok {r : Nat → UInt32} (hb : b.WF) (hi : i < bnMaxLimbs)
    (hr : ∀ k, i + b.n ≤ k → r k = 0) (hr' : ∀ k, bnMaxLimbs ≤ k → r k = 0) :
    (mulRow a b i r).Ok fun w => (∀ k, i + 1 + b.n ≤ k → w k = 0) ∧
      (∀ k, bnMaxLimbs ≤ k → w k = 0) ∧ limbs w bnMaxLimbs =
        (limbs r bnMaxLimbs + (a.v i).toNat * b.val * (2 ^ 32) ^ i) % bnLimit := by
  have hble := hb.le
  refine Ok.bind (up_sweep_ok i UInt64.toNat (fun c => c.toNat < 2 ^ 32)
    (fun j => (a.v i).toNat * (b.v j).toNat + (r (i + j)).toNat) (Nat.two_pow_pos 32) ?_) ?_
  · intro j s hj hsame hc
    refine Ok.bind (load_ok hi) ?_
    intro x hx
    refine Ok.bind (load_ok (by omega)) ?_
    intro y hy
    refine Ok.bind (load_ok (by omega)) ?_
    intro z hz
    refine Ok.bind (store_ok (by omega)) ?_
    intro w hw
    rw [hsame _ (Nat.le_refl _)] at hz
    subst hx hy hz
    refine Ok.pure ⟨word_high_lt _, _, hw, ?_⟩
    rw [word_split, word_mac _ _ _ _ hc]
  · intro s ⟨hc, hsame, hval⟩
    rw [mulRow_sum, UInt64.toNat_zero, Nat.add_zero] at hval
    have hlow : limbs s.v i = limbs r i := limbs_congr fun k hk => hsame k (Or.inl hk)
    refine Ok.ite ?_ ?_
    · intro hfit
      rw [Nat.min_eq_left (by omega)] at hsame hval
      refine Ok.bind (load_ok hfit) ?_
      intro z hz
      refine (store_ok hfit).mono ?_
      intro w hw
      rw [hsame _ (Or.inr (Nat.le_refl _)), hr _ (Nat.le_refl _)] at hz
      have hword : (z.toUInt64 + s.carry).toUInt32.toNat = s.carry.toNat := by
        rw [hz, UInt64.toNat_toUInt32, UInt64.toNat_add]
        simp only [UInt32.toNat_toUInt64, UInt32.toNat_zero, Nat.zero_add]
        omega
      have hrest : ∀ k, i + b.n + 1 ≤ k → w k = r k := by
        intro k hk
        rw [hw, update_apply, if_neg (by omega), hsame k (Or.inr (by omega))]
      have hzero : ∀ k, i + b.n + 1 ≤ k → w k = 0 := fun k hk => by
        rw [hrest k hk, hr k (by omega)]
      have hsum : limbs w bnMaxLimbs =
          limbs r bnMaxLimbs + (a.v i).toNat * b.val * (2 ^ 32) ^ i := by
        rw [limbs_extend hfit hzero, limbs_extend (Nat.le_of_lt hfit) hr, limbs_succ, hb.val_eq, hw,
          limbs_update (Nat.le_refl _), update_self, hword, limbs_add, limbs_add, hlow,
          pow_add]
        linear_combination (2 ^ 32) ^ i * hval
      refine ⟨fun k hk => hzero k (by omega), fun k hk => hzero k (by omega), ?_⟩
      rw [← hsum]
      exact (Nat.mod_eq_of_lt (bnLimit_eq ▸ limbs_lt w bnMaxLimbs)).symm
    · intro hfull
      rw [Nat.min_eq_right (by omega)] at hsame hval
      refine Ok.pure ⟨fun k hk => ?_, fun k hk => ?_, ?_⟩
      · rw [hsame k (Or.inr (by omega)), hr k (by omega)]
      · rw [hsame k (Or.inr (by omega)), hr' k hk]
      · obtain ⟨j, hj⟩ := Nat.exists_eq_add_of_le (Nat.le_of_lt hi)
        obtain ⟨l, hl⟩ := Nat.exists_eq_add_of_le (show j ≤ b.n by omega)
        rw [show bnMaxLimbs - i = j by omega] at hval
        have hsum : limbs s.v bnMaxLimbs + s.carry.toNat * (2 ^ 32) ^ bnMaxLimbs =
            limbs r bnMaxLimbs + (a.v i).toNat * limbs b.v j * (2 ^ 32) ^ i := by
          rw [hj, limbs_add, limbs_add, hlow, pow_add]
          linear_combination (2 ^ 32) ^ i * hval
        have hlimit : bnLimit = (2 ^ 32) ^ i * (2 ^ 32) ^ j := by
          rw [← bnLimit_eq, hj, pow_add]
        rw [limbs_wrap hsum, hb.val_eq, hl, limbs_add]
        have hmul : limbs r bnMaxLimbs + (a.v i).toNat *
            (limbs b.v j + (2 ^ 32) ^ j * limbs (fun k => b.v (j + k)) l) * (2 ^ 32) ^ i =
            limbs r bnMaxLimbs + (a.v i).toNat * limbs b.v j * (2 ^ 32) ^ i +
              bnLimit * ((a.v i).toNat * limbs (fun k => b.v (j + k)) l) := by
          rw [hlimit]
          ring
        rw [hmul, Nat.add_mul_mod_self_left]

theorem bnMul_ok (ha : a.WF) (hb : b.WF) :
    (bnMul a b).Ok fun c => c.WF ∧ c.val = a.val * b.val % bnLimit := by
  have hale := ha.le
  refine Ok.bind (up_ok (fun i r => (∀ k, i + b.n ≤ k → r k = 0) ∧ (∀ k, bnMaxLimbs ≤ k → r k = 0) ∧
    limbs r bnMaxLimbs = limbs a.v i * b.val % bnLimit) ⟨fun _ _ => rfl, fun _ _ => rfl, ?_⟩ ?_) ?_
  · have h0 : limbs a.v 0 = 0 := radix_zero _ _
    rw [h0, Nat.zero_mul, Nat.zero_mod]
    exact bnZero_val
  · intro i r hi ⟨hr, hr', hval⟩
    refine (mulRow_ok hb (by omega) hr hr').mono ?_
    intro w ⟨hw, hw', hwval⟩
    refine ⟨hw, hw', ?_⟩
    rw [hwval, hval, Nat.mod_add_mod, limbs_succ, Nat.add_mul,
      Nat.mul_right_comm _ b.val ((2 ^ 32) ^ i)]
  · intro v ⟨hv, hv', hval⟩
    refine (bnTrim_ok (b := ⟨v, min (a.n + b.n) bnMaxLimbs⟩) (by simp) ?_).mono ?_
    · intro k hk
      by_cases hlt : a.n + b.n ≤ k
      · exact hv k hlt
      · exact hv' k (by simp only at hk; omega)
    · intro c ⟨hwf, hcval⟩
      refine ⟨hwf, hcval.trans ?_⟩
      show limbs v bnMaxLimbs = _
      rw [hval, ← ha.val_eq]

/-! ## Division -/

theorem word_or_bit (hk : k < 32) (h : x.toNat % 2 ^ (k + 1) = 0) :
    (x ||| (1 <<< UInt32.ofNat k)).toNat = x.toNat + 2 ^ k := by
  have hlt : 2 ^ k < 2 ^ 32 := Nat.pow_lt_pow_right (by omega) hk
  have hx : x.toNat = (x.toNat / 2 ^ (k + 1)) <<< (k + 1) := by
    rw [Nat.shiftLeft_eq, Nat.div_mul_cancel (Nat.dvd_of_mod_eq_zero h)]
  rw [UInt32.toNat_or, UInt32.toNat_shiftLeft, UInt32.toNat_ofNat', UInt32.toNat_one,
    Nat.mod_eq_of_lt (show k < 2 ^ 32 by omega), Nat.mod_eq_of_lt hk, Nat.one_shiftLeft,
    Nat.mod_eq_of_lt hlt, hx]
  exact (Nat.shiftLeft_add_eq_or_of_lt (Nat.pow_lt_pow_right (by omega) (Nat.lt_succ_self k))
    _).symm

theorem setBitAt_ok (hb : b.WF) (hi : i < 32 * bnMaxLimbs) (hclear : b.val % 2 ^ (i + 1) = 0) :
    (setBitAt b i).Ok fun c => c.WF ∧ c.val = b.val + 2 ^ i := by
  have hle := hb.le
  have hlimb : i / 32 < bnMaxLimbs := by omega
  have hpow : 2 ^ (i + 1) = (2 ^ 32) ^ (i / 32) * 2 ^ (i % 32 + 1) := by
    rw [← pow_mul, ← pow_add, show 32 * (i / 32) + (i % 32 + 1) = i + 1 by omega]
  have hdigit : b.val / (2 ^ 32) ^ (i / 32) % 2 ^ 32 = (b.v (i / 32)).toNat :=
    radix_digit (by decide) (fun i _ => (b.v i).toNat_lt) hlimb
  have hlow : (b.v (i / 32)).toNat % 2 ^ (i % 32 + 1) = 0 := by
    rw [← hdigit, Nat.mod_mod_of_dvd _ (Nat.pow_dvd_pow 2 (by omega)), ← Nat.mod_mul_right_div_self,
      ← hpow, hclear, Nat.zero_div]
  refine Ok.bind (load_ok hlimb) ?_
  intro x hx
  refine Ok.bind (store_ok hlimb) ?_
  intro w hw
  subst hx
  have hor := word_or_bit (Nat.mod_lt i (by decide)) hlow
  have hnew : w (i / 32) ≠ 0 := by
    intro h0
    rw [hw, update_self] at h0
    rw [h0, UInt32.toNat_zero] at hor
    omega
  refine Ok.pure ⟨⟨?_, ?_, ?_⟩, ?_⟩
  · show (if b.n ≤ i / 32 then i / 32 + 1 else b.n) ≤ bnMaxLimbs
    split <;> omega
  · intro j hj
    have hj : (if b.n ≤ i / 32 then i / 32 + 1 else b.n) ≤ j := hj
    show w j = 0
    rw [hw, update_apply, if_neg (by split at hj <;> omega)]
    exact hb.zero j (by split at hj <;> omega)
  · intro _
    show w ((if b.n ≤ i / 32 then i / 32 + 1 else b.n) - 1) ≠ 0
    split
    · exact hnew
    · by_cases htop : b.n - 1 = i / 32
      · rw [htop]
        exact hnew
      · rw [hw, update_apply, if_neg htop]
        exact hb.top (by omega)
  · show limbs w bnMaxLimbs = limbs b.v bnMaxLimbs + 2 ^ i
    rw [hw, limbs_setAt hlimb hor, ← pow_mul, ← pow_add, Nat.mod_add_div]

theorem setBit0_ok (hb : b.WF) (heven : b.val % 2 = 0) :
    (setBit0 b).Ok fun c => c.WF ∧ c.val = b.val + 1 := by
  have h : setBit0 b = setBitAt b 0 := by
    unfold setBit0 setBitAt
    simp only [Nat.zero_div, Nat.le_zero]
    rfl
  rw [h]
  exact setBitAt_ok hb (by decide) heven

theorem bnClearHigh_wf (hb : b.WF) : bnClearHigh b = b := by
  have h : (bnClearHigh b).v = b.v := by
    funext i
    show (if b.n ≤ i then 0 else b.v i) = b.v i
    split
    · rename_i hi
      exact (hb.zero i hi).symm
    · rfl
  exact congrArg (fun v => (⟨v, b.n⟩ : Bignum)) h

theorem double_sub_mod {r m d : Nat} (hr : m = 0 ∨ r < m) (hd : d < 2) :
    (if r * 2 + d < m then r * 2 + d else r * 2 + d - m) = (r * 2 + d) % m := by
  split
  · rename_i h
    exact (Nat.mod_eq_of_lt h).symm
  · rcases hr with rfl | hr
    · rw [Nat.sub_zero, Nat.mod_zero]
    · rw [Nat.mod_eq_sub_mod (by omega), Nat.mod_eq_of_lt (by omega)]

theorem bitIn_ok (hb : b.WF) (heven : b.val % 2 = 0) (bit : Bool) :
    (if bit then setBit0 b else pure b).Ok fun c => c.WF ∧ c.val = b.val + bit.toNat := by
  cases bit with
  | true => exact setBit0_ok hb heven
  | false => exact Ok.pure ⟨hb, (Nat.add_zero b.val).symm⟩

/-- One bit of a long division: twice the remainder and the bit still fit. -/
theorem modStep_ok {rem m : Bignum} (ha : a.WF) (hm : m.WF) (hrem : rem.WF)
    (hlt : m.val = 0 ∨ rem.val < m.val)
    (hfit : rem.val * 2 + (a.val.testBit i).toNat < bnLimit) :
    (modStep a m i rem).Ok fun r => r.WF ∧
      r.val = (rem.val * 2 + (a.val.testBit i).toNat) % m.val := by
  refine Ok.bind (bnLshift1_ok hrem) ?_
  intro s ⟨hs, hsval⟩
  rw [Nat.mod_eq_of_lt (Nat.lt_of_le_of_lt (Nat.le_add_right _ _) hfit)] at hsval
  refine Ok.bind (bnBitAt_ok ha i) ?_
  intro bit hbit
  refine Ok.bind (bitIn_ok hs (by omega) bit) ?_
  intro c ⟨hc, hcval⟩
  rw [hsval, hbit] at hcval
  have hmod := double_sub_mod hlt (Bool.toNat_lt (a.val.testBit i))
  rw [← hcval] at hmod ⊢
  refine Ok.bind (bnCmp_ok hc hm) ?_
  intro o ho
  refine Ok.ite ?_ ?_
  · intro hge
    have hge : ¬ c.val < m.val := mt compare_lt_iff_lt.mpr (ho ▸ hge)
    refine Ok.bind (bnSub_of_le hc hm (not_lt.mp hge)) ?_
    intro r ⟨d, hr, hd, hdval⟩
    rw [hr, Option.getD_some]
    refine Ok.pure ⟨hd, ?_⟩
    rw [hdval, ← hmod, if_neg hge]
  · intro hlt
    have hlt : c.val < m.val := compare_lt_iff_lt.mp (ho ▸ not_not.mp hlt)
    exact Ok.pure ⟨hc, (Nat.mod_eq_of_lt hlt).symm⟩

theorem div_next_bit (x i : Nat) :
    x / 2 ^ i = x / 2 ^ (i + 1) * 2 + (x.testBit i).toNat := by
  rw [pow_succ, ← Nat.div_div_eq_div_mul, Nat.toNat_testBit]
  omega

theorem mod_next_bit (x i m : Nat) :
    (x / 2 ^ (i + 1) % m * 2 + (x.testBit i).toNat) % m = x / 2 ^ i % m := by
  rw [div_next_bit x i, Nat.add_mod, Nat.mod_mul_mod, ← Nat.add_mod]

theorem rem_double_lt {x : Nat} (hx : x < bnLimit) (i m : Nat) :
    x / 2 ^ (i + 1) % m * 2 + (x.testBit i).toNat < bnLimit := by
  have hbit := div_next_bit x i
  have hle : x / 2 ^ i ≤ x := Nat.div_le_self _ _
  have hmod : x / 2 ^ (i + 1) % m ≤ x / 2 ^ (i + 1) := Nat.mod_le _ _
  omega

theorem bnMod_ok {m : Bignum} (ha : a.WF) (hm : m.WF) :
    (bnMod a m).Ok fun r => r.WF ∧ r.val = a.val % m.val := by
  refine Ok.bind (bnCmp_ok ha hm) ?_
  intro o ho
  refine Ok.ite ?_ ?_
  · intro hlt
    have hlt : a.val < m.val := compare_lt_iff_lt.mp (ho ▸ hlt)
    exact Ok.pure ⟨ha, (Nat.mod_eq_of_lt hlt).symm⟩
  · intro _
    refine Ok.bind (bnBitLength_ok ha) ?_
    intro abits hbits
    refine Ok.bind (down_ok (fun i r => r.WF ∧ r.val = a.val / 2 ^ i % m.val)
      ⟨bnZero_wf, ?_⟩ ?_) ?_
    · rw [hbits, Nat.div_eq_of_lt (Nat.lt_size_self a.val), Nat.zero_mod, bnZero_val]
    · intro i r _ ⟨hr, hval⟩
      refine (modStep_ok ha hm hr ?_ ?_).mono ?_
      · rw [hval]
        exact (Nat.eq_zero_or_pos m.val).imp_right (Nat.mod_lt _)
      · rw [hval]
        exact rem_double_lt a.val_lt i _
      · intro t ⟨ht, htval⟩
        rw [htval, hval, mod_next_bit]
        exact ⟨ht, rfl⟩
    · intro r ⟨hr, hval⟩
      rw [bnClearHigh_wf hr]
      refine Ok.pure ⟨hr, ?_⟩
      rw [hval, pow_zero, Nat.div_one]

theorem bnModmul_ok {m : Bignum} (ha : a.WF) (hb : b.WF) (hm : m.WF) :
    (bnModmul a b m).Ok fun r => r.WF ∧ r.val = a.val * b.val % bnLimit % m.val := by
  refine Ok.bind (bnMul_ok ha hb) ?_
  intro prod ⟨hprod, hval⟩
  rw [← hval]
  exact bnMod_ok hprod hm

end AdventOS.Crypto
