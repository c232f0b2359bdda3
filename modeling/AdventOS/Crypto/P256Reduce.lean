import AdventOS.Crypto.BignumValue

/-!
# Fast reduction modulo the P-256 prime

`fe_reduce_512`: the sixteen words of a product are added up in eight signed limbs by a table
of terms, a carry walks up the limbs, what it leaves is folded back until nothing is left, and
`p` is subtracted at most four times. An operation on `int64_t` outside its range counts as an
access outside an array does.

* `weight_congr`: the table; modulo `p` the terms of a word make up its place.
* `carryPass_ok`, `foldPass_ok`: one walk of the carry keeps the number, one fold changes it
  by a multiple of `p`.
* `foldBack_ok`: two folds are enough.
* `feReduce512_ok`: no overflow, and the output is the remainder.
-/
namespace AdventOS.Crypto.P256
open Function List

open AdventOS.Acc

/-- The result of an operation on `int64_t`, whose behaviour is undefined outside the range. -/
def int64 (x : Int) : Acc Int := ⟨x, decide (-2 ^ 63 ≤ x ∧ x < 2 ^ 63)⟩

/-- p256.c:41-44 -/
def P (i : Nat) : UInt32 :=
  [0xFFFFFFFF, 0xFFFFFFFF, 0xFFFFFFFF, 0x00000000, 0x00000000, 0x00000000, 0x00000001,
    0xFFFFFFFF].getD i 0

/-- `a[limb] += coef * (int64_t)c[word];`, or `-=` where `coef` is -1. -/
structure Term where
  limb : Nat
  coef : Int
  word : Nat

def row (coef : Int) (places : List (Nat × Nat)) : List Term :=
  places.map fun at' => ⟨at'.1, coef, at'.2⟩

/-- The rows `s1` to `s9`, each with the limbs it adds to and the words it adds there.
p256.c:199-262 -/
def terms : List Term :=
  row 1 [(0, 0), (1, 1), (2, 2), (3, 3), (4, 4), (5, 5), (6, 6), (7, 7)] ++
    row 2 [(3, 11), (4, 12), (5, 13), (6, 14), (7, 15)] ++
    row 2 [(3, 12), (4, 13), (5, 14), (6, 15)] ++
    row 1 [(0, 8), (1, 9), (2, 10), (6, 14), (7, 15)] ++
    row 1 [(0, 9), (1, 10), (2, 11), (3, 13), (4, 14), (5, 15), (6, 13), (7, 8)] ++
    row (-1) [(0, 11), (1, 12), (2, 13), (6, 8), (7, 10)] ++
    row (-1) [(0, 12), (1, 13), (2, 14), (3, 15), (6, 9), (7, 11)] ++
    row (-1) [(0, 13), (1, 14), (2, 15), (3, 8), (4, 9), (5, 10), (7, 12)] ++
    row (-1) [(0, 14), (1, 15), (3, 9), (4, 10), (5, 11), (7, 13)]

def addTerm (c : Nat → UInt32) (a : Nat → Int) (t : Term) : Acc (Nat → Int) := do
  let x ← int64 (t.coef * (c t.word).toNat)
  let y ← int64 (a t.limb + x)
  pure (update a t.limb y)

/-- The signed limbs and what is carried out of them. -/
structure Limbs where
  a : Nat → Int
  carry : Int

/-- `a[i] >> 32` rounds down and `a[i] & 0xFFFFFFFF` is the rest.
p256.c:265-270 -/
def carryPass (a : Nat → Int) : Acc Limbs :=
  up 8 (⟨a, 0⟩ : Limbs) fun i s => do
    let x ← int64 (s.a i + s.carry)
    pure ⟨update s.a i (x % 2 ^ 32), x >>> (32 : Nat)⟩

/-- One round of the loop that folds the carry back.
p256.c:287-297 -/
def foldPass (s : Limbs) : Acc Limbs := do
  let a0 ← int64 (s.a 0 + s.carry)
  let a3 ← int64 (s.a 3 - s.carry)
  let a6 ← int64 (s.a 6 - s.carry)
  let a7 ← int64 (s.a 7 + s.carry)
  carryPass fun i => if i = 0 then a0 else if i = 3 then a3 else if i = 6 then a6
    else if i = 7 then a7 else s.a i

/-- `while (carry != 0)`; `none` when the fuel runs out.
p256.c:286-298 -/
def foldBack : Nat → Limbs → Acc (Option Limbs)
  | 0, _ => pure none
  | fuel + 1, s => if s.carry = 0 then pure (some s) else foldPass s >>= foldBack fuel

/-- p256.c:103-109 -/
def feCmp (a b : Nat → UInt32) : Nat → Ordering
  | 0 => .eq
  | i + 1 => if a i < b i then .lt else if b i < a i then .gt else feCmp a b i

/-- p256.c:307-312 -/
def subP (r : Nat → UInt32) : Acc (Nat → UInt32) := do
  let s ← up 8 (⟨r, 0⟩ : Sweep UInt64) fun i s => do
    let v := (s.v i).toUInt64 - (P i).toUInt64 - s.carry
    pure ⟨update s.v i v.toUInt32, (v >>> 32) &&& 1⟩
  pure s.v

/-- p256.c:305-313 -/
def reduceOnce : Nat → (Nat → UInt32) → Acc (Nat → UInt32)
  | 0, r => pure r
  | iter + 1, r => if feCmp r P 8 = .lt then pure r else subP r >>= reduceOnce iter

/-- p256.c:196-315 -/
def feReduce512 (fuel : Nat) (c : Nat → UInt32) : Acc (Option (Nat → UInt32)) := do
  let a ← terms.foldlM (addTerm c) fun _ => 0
  let s ← carryPass a
  let s ← foldBack fuel s
  s.elim (pure none) fun s => do
    let r ← reduceOnce 4 fun i => UInt32.ofNat (s.a i % 2 ^ 32).toNat
    pure (some r)

/-! ## Signed limbs -/

variable {a b : Nat → Int} {c : Nat → UInt32} {n : Nat} {k : Int}

theorem int64_ok {x : Int} (h : |x| < 2 ^ 63) : (int64 x).Ok (· = x) := by
  rw [abs_lt] at h
  exact ⟨decide_eq_true ⟨by omega, h.2⟩, rfl⟩

def value (a : Nat → Int) (n : Nat) : Int := ∑ i ∈ Finset.range n, a i * (2 ^ 32) ^ i

theorem value_succ (a : Nat → Int) (n : Nat) :
    value a (n + 1) = value a n + a n * (2 ^ 32) ^ n := Finset.sum_range_succ _ _

theorem value_congr (h : ∀ i, i < n → a i = b i) : value a n = value b n :=
  Finset.sum_congr rfl fun i hi => by rw [h i (Finset.mem_range.mp hi)]

theorem value_update {i : Nat} (hi : i < n) (x : Int) :
    value (update a i x) n = value a n + (x - a i) * (2 ^ 32) ^ i := by
  induction n with
  | zero => omega
  | succ n ih =>
    rw [value_succ, value_succ]
    by_cases hin : i = n
    · subst hin
      rw [update_self, value_congr (b := a) fun j hj => by
        rw [update_apply, if_neg (by omega)]]
      ring
    · rw [ih (by omega), update_apply, if_neg (by omega)]
      ring

theorem abs_value_le {m : Int} (hm : 0 ≤ m) (h : ∀ i, |a i| ≤ m) (n : Nat) :
    |value a (n + 1)| ≤ 2 * m * (2 ^ 32) ^ n := by
  induction n with
  | zero =>
    have h0 := h 0
    rw [value_succ, show value a 0 = 0 from rfl, pow_zero, mul_one, zero_add]
    omega
  | succ n ih =>
    have hpos : (0 : Int) ≤ (2 ^ 32) ^ n := by positivity
    have htop : |a (n + 1) * (2 ^ 32) ^ (n + 1)| ≤ m * (2 ^ 32) ^ (n + 1) := by
      rw [abs_mul, abs_of_nonneg (show (0 : Int) ≤ (2 ^ 32) ^ (n + 1) by positivity)]
      exact mul_le_mul_of_nonneg_right (h (n + 1)) (by positivity)
    rw [value_succ]
    refine (abs_add_le _ _).trans ?_
    rw [pow_succ (2 ^ 32 : Int) n] at htop ⊢
    nlinarith [mul_nonneg hm hpos]

def Digits (a : Nat → Int) : Prop := ∀ i, i < 8 → 0 ≤ a i ∧ a i < 2 ^ 32

theorem Digits.value_bounds (h : Digits a) : ∀ n, n ≤ 8 → 0 ≤ value a n ∧ value a n < (2 ^ 32) ^ n
  | 0, _ => by simp [value]
  | n + 1, hn => by
    have ih := h.value_bounds n (by omega)
    have hd := h n (by omega)
    have hlow := mul_nonneg hd.1 (show (0 : Int) ≤ (2 ^ 32) ^ n by positivity)
    have hhigh := mul_le_mul_of_nonneg_right (show a n ≤ 2 ^ 32 - 1 by omega)
      (show (0 : Int) ≤ (2 ^ 32) ^ n by positivity)
    rw [value_succ, pow_succ (2 ^ 32 : Int) n]
    generalize (2 ^ 32 : Int) ^ n = q at *
    omega

/-! ## The table -/

/-- `p`, and what `2 ^ 256` is modulo it. -/
def p : Int := 2 ^ 256 - 2 ^ 224 + 2 ^ 192 + 2 ^ 96 - 1

def delta : Int := 2 ^ 224 - 2 ^ 192 - 2 ^ 96 + 1

/-- What the terms of word `j` multiply it by. -/
def weight (l : List Term) (j : Nat) : Int :=
  (l.map fun t => if t.word = j then t.coef * (2 ^ 32) ^ t.limb else 0).sum

theorem weight_congr : ∀ j, j < 16 → weight terms j ≡ (2 ^ 32) ^ j [ZMOD p] := by
  decide +kernel

theorem terms_bounds : terms.length = 54 ∧
    ∀ t ∈ terms, |t.coef| ≤ 2 ∧ t.limb < 8 ∧ t.word < 16 := by
  decide

def Term.amount (c : Nat → UInt32) (t : Term) : Int := t.coef * (c t.word).toNat

/-- What it adds to the number. -/
def Term.share (c : Nat → UInt32) (t : Term) : Int := t.amount c * (2 ^ 32) ^ t.limb

theorem sum_terms (c : Nat → UInt32) : ∀ l : List Term, (∀ t ∈ l, t.word < 16) →
    (l.map (Term.share c)).sum = ∑ j ∈ Finset.range 16, ((c j).toNat : Int) * weight l j
  | [], _ => by simp [weight]
  | t :: l, h => by
    have ht := h t mem_cons_self
    have ih := sum_terms c l fun u hu => h u (mem_cons_of_mem t hu)
    simp only [weight, map_cons, sum_cons, mul_add, Finset.sum_add_distrib] at ih ⊢
    rw [ih]
    simp only [mul_ite, mul_zero, Finset.sum_ite_eq, Finset.mem_range, ht, if_true, Term.share,
      Term.amount]
    ring

theorem addTerm_ok {t : Term} (hk : 0 ≤ k ∧ k ≤ 60) (ha : ∀ i, |a i| ≤ k * 2 ^ 33)
    (hcoef : |t.coef| ≤ 2) (hlimb : t.limb < 8) :
    (addTerm c a t).Ok fun b => (∀ i, |b i| ≤ (k + 1) * 2 ^ 33) ∧
      value b 8 = value a 8 + t.share c := by
  have hc := (c t.word).toNat_lt
  have hx : |t.amount c| ≤ 2 * 2 ^ 32 := by
    rw [Term.amount, abs_mul, Nat.abs_cast]
    exact mul_le_mul hcoef (by omega) (by omega) (by omega)
  have hy := (abs_add_le (a t.limb) (t.amount c)).trans (add_le_add (ha t.limb) hx)
  refine Ok.bind (int64_ok (x := t.amount c) (by omega)) ?_
  rintro x rfl
  refine Ok.bind (int64_ok (x := a t.limb + t.amount c) (by omega)) ?_
  rintro y rfl
  refine Ok.pure ⟨?_, ?_⟩
  · intro i
    rw [update_apply]
    split
    · omega
    · have := ha i
      omega
  · rw [value_update hlimb, Term.share]
    ring

theorem addTerms_ok : ∀ (l : List Term) (k : Int) (a : Nat → Int),
    (∀ t ∈ l, |t.coef| ≤ 2 ∧ t.limb < 8 ∧ t.word < 16) → 0 ≤ k → k + l.length ≤ 60 →
    (∀ i, |a i| ≤ k * 2 ^ 33) → (l.foldlM (addTerm c) a).Ok fun b =>
      (∀ i, |b i| ≤ (k + l.length) * 2 ^ 33) ∧ value b 8 = value a 8 + (l.map (Term.share c)).sum
  | [], k, a, _, _, _, ha => by
    refine Ok.pure ⟨?_, by simp⟩
    simpa using ha
  | t :: l, k, a, hl, hk, hlen, ha => by
    obtain ⟨hcoef, hlimb, _⟩ := hl t mem_cons_self
    rw [length_cons, Nat.cast_succ] at hlen ⊢
    rw [foldlM_cons]
    refine Ok.bind (addTerm_ok ⟨hk, by omega⟩ ha hcoef hlimb) ?_
    intro b ⟨hb, hval⟩
    refine (addTerms_ok l (k + 1) b (fun u hu => hl u (mem_cons_of_mem t hu)) (by omega)
      (by omega) hb).mono ?_
    intro d ⟨hd, hdval⟩
    rw [add_assoc, add_comm 1] at hd
    refine ⟨hd, ?_⟩
    rw [hdval, hval, map_cons, sum_cons]
    ring

theorem terms_ok (c : Nat → UInt32) : (terms.foldlM (addTerm c) fun _ => 0).Ok fun a =>
      (∀ i, |a i| ≤ 2 ^ 39) ∧ value a 8 ≡ (limbs c 16 : Nat) [ZMOD p] := by
  obtain ⟨hlen, hbounds⟩ := terms_bounds
  refine (addTerms_ok terms 0 (fun _ => 0) hbounds (Int.le_refl 0) (by rw [hlen]; decide)
    (fun i => by simp)).mono ?_
  intro a ⟨ha, hval⟩
  rw [hlen] at ha
  refine ⟨fun i => (ha i).trans (by decide), ?_⟩
  have h0 : value (fun _ => 0) 8 = 0 := by simp [value]
  rw [hval, h0, zero_add, sum_terms c terms fun t ht => (hbounds t ht).2.2, limbs, radix]
  push_cast
  refine Int.ModEq.sum fun j hj => ?_
  exact (weight_congr j (Finset.mem_range.mp hj)).mul_left _

/-! ## The carry -/

/-- The number of a state, the carry standing at `2 ^ 256`. -/
def Limbs.total (s : Limbs) : Int := value s.a 8 + s.carry * 2 ^ 256

theorem carryPass_ok (ha : ∀ i, i < 8 → |a i| ≤ 2 ^ 62) :
    (carryPass a).Ok fun s => Digits s.a ∧ s.total = value a 8 := by
  refine (up_ok (fun i s => |s.carry| ≤ 2 ^ 31 ∧ (∀ j, j < i → 0 ≤ s.a j ∧ s.a j < 2 ^ 32) ∧
    (∀ j, i ≤ j → s.a j = a j) ∧ value s.a i + s.carry * (2 ^ 32) ^ i = value a i)
    ⟨by simp, fun j hj => by omega, fun _ _ => rfl, by simp [value]⟩ ?_).mono ?_
  · intro i s hi ⟨hc, hdone, hrest, hval⟩
    have hai := ha i hi
    rw [hrest i (le_refl i)]
    rw [abs_le] at hai hc
    refine Ok.bind (int64_ok (x := a i + s.carry) (by rw [abs_lt]; omega)) ?_
    rintro x hx
    have hshift : x >>> (32 : Nat) = x / 2 ^ 32 := Int.shiftRight_eq_div_pow x 32
    rw [hshift]
    refine Ok.pure ⟨?_, ?_, ?_, ?_⟩
    · show |x / 2 ^ 32| ≤ _
      rw [abs_le]
      omega
    · intro j hj
      simp only [update_apply]
      split
      · omega
      · exact hdone j (by omega)
    · intro j hj
      simp only [update_apply]
      rw [if_neg (by omega)]
      exact hrest j (by omega)
    · have hdiv := Int.mul_ediv_add_emod x (2 ^ 32)
      have hlow : value (update s.a i (x % 2 ^ 32)) i = value s.a i :=
        value_congr fun j hj => by rw [update_apply, if_neg (by omega)]
      dsimp only
      rw [value_succ, value_succ, update_self, hlow, pow_succ (2 ^ 32 : Int) i]
      linear_combination hval + (2 ^ 32) ^ i * hdiv + (2 ^ 32) ^ i * hx
  · intro s ⟨_, hdigits, _, hval⟩
    refine ⟨hdigits, ?_⟩
    rw [← hval, Limbs.total, ← pow_mul]

theorem foldPass_ok {s : Limbs} (hs : Digits s.a) (hc : |s.carry| ≤ 2 ^ 40) :
    (foldPass s).Ok fun t => Digits t.a ∧ t.total = value s.a 8 + s.carry * delta := by
  rw [abs_le] at hc
  have hlimb : ∀ i, i < 8 → |s.a i + s.carry| < 2 ^ 41 ∧ |s.a i - s.carry| < 2 ^ 41 := by
    intro i hi
    have := hs i hi
    constructor <;> rw [abs_lt] <;> omega
  have hint : ∀ x : Int, |x| < 2 ^ 41 → (int64 x).Ok (· = x) := fun x hx => int64_ok (by omega)
  refine Ok.bind (hint _ (hlimb 0 (by omega)).1) ?_
  rintro _ rfl
  refine Ok.bind (hint _ (hlimb 3 (by omega)).2) ?_
  rintro _ rfl
  refine Ok.bind (hint _ (hlimb 6 (by omega)).2) ?_
  rintro _ rfl
  refine Ok.bind (hint _ (hlimb 7 (by omega)).1) ?_
  rintro _ rfl
  refine (carryPass_ok ?_).mono ?_
  · intro i hi
    have := hs i hi
    rw [abs_le]
    split_ifs <;> subst_vars <;> omega
  · intro t ⟨ht, hval⟩
    refine ⟨ht, hval.trans ?_⟩
    simp [value, Finset.sum_range_succ, delta]
    ring

/-- How far outside 256 bits the number may be `n` folds before nothing is carried. -/
def slack : Nat → Int
  | 0 => 0
  | 1 => 2 ^ 240
  | _ => 2 ^ 8 * 2 ^ 256

def Level (n : Nat) (x : Int) : Prop := -slack n ≤ x ∧ x < 2 ^ 256 + slack n

theorem slack_le : ∀ n, slack n ≤ 2 ^ 8 * 2 ^ 256
  | 0 => by decide
  | 1 => by decide
  | _ + 2 => Int.le_refl _

theorem level_fold {v : Int} (hv : 0 ≤ v ∧ v < 2 ^ 256) : ∀ n, n < 2 →
    Level (n + 1) (v + k * 2 ^ 256) → Level n (v + k * delta)
  | 0, _, ⟨h1, h2⟩ => by
    simp only [Level, slack, delta] at h1 h2 ⊢
    omega
  | 1, _, ⟨h1, h2⟩ => by
    simp only [Level, slack, delta] at h1 h2 ⊢
    omega

theorem delta_modEq (v k : Int) : v + k * delta ≡ v + k * 2 ^ 256 [ZMOD p] := by
  apply Int.modEq_iff_dvd.mpr
  exact ⟨k, by unfold delta p; ring⟩

theorem foldBack_ok : ∀ (n : Nat) (s : Limbs) (fuel : Nat), n ≤ 2 → Level n s.total →
    Digits s.a → n < fuel → (foldBack fuel s).Ok fun r => ∃ t, r = some t ∧ Digits t.a ∧
      value t.a 8 ≡ s.total [ZMOD p]
  | n, s, 0, _, _, _, hfuel => absurd hfuel (Nat.not_lt_zero n)
  | n, s, fuel + 1, hn, hlevel, hs, hfuel => by
    have hv := hs.value_bounds 8 (le_refl 8)
    rw [← pow_mul] at hv
    rw [foldBack]
    refine Ok.ite ?_ ?_
    · intro h0
      refine Ok.pure ⟨s, rfl, hs, ?_⟩
      rw [Limbs.total, h0, zero_mul, add_zero]
    · intro h0
      have hslack := slack_le n
      unfold Limbs.total at hlevel
      have hbounds : -slack n ≤ _ ∧ _ < 2 ^ 256 + slack n := hlevel
      cases n with
      | zero =>
        simp only [slack] at hbounds
        omega
      | succ n =>
        have hc : |s.carry| ≤ 2 ^ 40 := by
          rw [abs_le]
          omega
        refine Ok.bind (foldPass_ok hs hc) ?_
        intro t ⟨ht, htotal⟩
        have hdown := level_fold hv n (by omega) hlevel
        rw [← htotal] at hdown
        refine (foldBack_ok n t fuel (by omega) hdown ht (by omega)).mono ?_
        intro r ⟨u, hr, hu, hval⟩
        refine ⟨u, hr, hu, hval.trans ?_⟩
        rw [htotal]
        exact delta_modEq _ _

/-! ## The last subtractions -/

variable {r : Nat → UInt32}

theorem feCmp_eq {b c : Nat → UInt32} : ∀ n, feCmp c b n = (cmpFrom c b n).val
  | 0 => rfl
  | n + 1 => by
    have ih := feCmp_eq (b := b) (c := c) n
    show (if c n < b n then _ else _) =
      (if c n ≠ b n then pure (if b n < c n then .gt else .lt) else cmpFrom c b n : Acc _).val
    by_cases hlt : c n < b n
    · rw [if_pos hlt, if_pos (UInt32.ne_of_lt hlt), if_neg (UInt32.lt_asymm hlt)]
      rfl
    · rw [if_neg hlt]
      by_cases hgt : b n < c n
      · rw [if_pos hgt, if_pos (UInt32.ne_of_lt hgt).symm, if_pos hgt]
        rfl
      · have heq : c n = b n := UInt32.le_antisymm (UInt32.not_lt.mp hgt) (UInt32.not_lt.mp hlt)
        rw [if_neg hgt, if_neg (not_not.mpr heq)]
        exact ih

theorem feCmp_lt_iff {b c : Nat → UInt32} : feCmp c b 8 = .lt ↔ limbs c 8 < limbs b 8 := by
  rw [feCmp_eq, (cmpFrom_ok (show 8 ≤ bnMaxLimbs by decide) (le_refl 8)
    fun j h1 h2 => by omega).val]
  exact compare_lt_iff_lt

theorem limbs_P : (limbs P 8 : Nat) = p := rfl

theorem word_borrow (x y : UInt32) (c : UInt64) (hc : c.toNat ≤ 1) :
    ((x.toUInt64 - y.toUInt64 - c) >>> 32 &&& 1).toNat ≤ 1 ∧
      (x.toUInt64 - y.toUInt64 - c).toUInt32.toNat + y.toNat + c.toNat =
        x.toNat + ((x.toUInt64 - y.toUInt64 - c) >>> 32 &&& 1).toNat * 2 ^ 32 := by
  have hx := x.toNat_lt
  have hy := y.toNat_lt
  rw [UInt64.toNat_and, UInt64.toNat_shiftRight, UInt64.toNat_toUInt32, UInt64.toNat_sub,
    UInt64.toNat_sub]
  simp only [UInt32.toNat_toUInt64, UInt64.toNat_ofNat]
  rw [show 32 % 2 ^ 64 % 64 = 32 from rfl, show 1 % 2 ^ 64 = 1 from rfl, Nat.and_one_is_mod,
    Nat.shiftRight_eq_div_pow]
  omega

theorem subP_ok (hle : limbs P 8 ≤ limbs r 8) :
    (subP r).Ok fun w => limbs w 8 = limbs r 8 - limbs P 8 := by
  refine Ok.bind (up_ok (fun i s => s.carry.toNat ≤ 1 ∧ (∀ j, i ≤ j → s.v j = r j) ∧
    limbs s.v i + limbs P i = limbs r i + s.carry.toNat * (2 ^ 32) ^ i)
    ⟨Nat.zero_le 1, fun _ _ => rfl, by simp [limbs]⟩ ?_) ?_
  · intro i s hi hs
    obtain ⟨hc, hrest, hval⟩ := hs
    obtain ⟨hc', hstep⟩ := word_borrow (r i) (P i) s.carry hc
    rw [hrest i (le_refl i)]
    refine Ok.pure ⟨hc', ?_, ?_⟩
    · intro j hj
      simp only [update_apply]
      rw [if_neg (by omega)]
      exact hrest j (by omega)
    · dsimp only
      rw [limbs_succ, limbs_succ, limbs_succ, limbs_update (le_refl i), update_self,
        pow_succ (2 ^ 32) i]
      linear_combination hval + (2 ^ 32) ^ i * hstep
  · intro s hs
    obtain ⟨hc, _, hval⟩ := hs
    have hlt := limbs_lt s.v 8
    refine Ok.pure ?_
    omega

theorem reduceOnce_ok (iter : Nat) (hlt : limbs r 8 < 2 * limbs P 8) :
    (reduceOnce (iter + 1) r).Ok fun w => limbs w 8 = limbs r 8 % limbs P 8 := by
  rw [reduceOnce]
  refine Ok.ite ?_ ?_
  · intro h
    exact Ok.pure (Nat.mod_eq_of_lt (feCmp_lt_iff.mp h)).symm
  · intro h
    have hle := not_lt.mp (mt feCmp_lt_iff.mpr h)
    refine Ok.bind (subP_ok hle) ?_
    intro w hw
    have hwlt : limbs w 8 < limbs P 8 := by omega
    have hres : limbs w 8 = limbs r 8 % limbs P 8 := by
      rw [hw, Nat.mod_eq_sub_mod hle, Nat.mod_eq_of_lt (by omega)]
    cases iter with
    | zero => exact Ok.pure hres
    | succ iter =>
      rw [reduceOnce, if_pos (feCmp_lt_iff.mpr hwlt)]
      exact Ok.pure hres

theorem limbs_of_digits (h : Digits a) : ∀ n, n ≤ 8 →
    ((limbs (fun i => UInt32.ofNat (a i % 2 ^ 32).toNat) n : Nat) : Int) = value a n
  | 0, _ => by simp [limbs, value]
  | n + 1, hn => by
    have hd := h n (by omega)
    have hword : ((UInt32.ofNat (a n % 2 ^ 32).toNat).toNat : Int) = a n := by
      rw [UInt32.toNat_ofNat_of_lt' (by simp only [UInt32.size]; omega)]
      omega
    rw [limbs_succ, value_succ, ← limbs_of_digits h n (by omega), Nat.cast_add, Nat.cast_mul, hword,
      Nat.cast_pow]
    rfl

/-- For every sixteen words the loop that folds the carry ends after at most two
rounds, no operation on `int64_t` overflows, and the output is the remainder modulo `p`. -/
theorem feReduce512_ok (c : Nat → UInt32) (fuel : Nat) :
    (feReduce512 (fuel + 3) c).Ok fun r => ∃ out, r = some out ∧ ((limbs out 8 : Nat) : Int) < p ∧
      ((limbs out 8 : Nat) : Int) ≡ (limbs c 16 : Nat) [ZMOD p] := by
  have hP := limbs_P
  have hpos : 0 < limbs P 8 := by
    unfold p at hP
    omega
  refine Ok.bind (terms_ok c) ?_
  intro a ⟨ha, haval⟩
  refine Ok.bind (carryPass_ok fun i _ => (ha i).trans (by decide)) ?_
  intro s ⟨hs, hstotal⟩
  have hlevel : Level 2 s.total := by
    have hle : |value a 8| ≤ _ := abs_value_le (by decide) ha 7
    rw [abs_le] at hle
    rw [hstotal]
    simp only [Level, slack]
    omega
  refine Ok.bind (foldBack_ok 2 s (fuel + 3) (le_refl 2) hlevel hs (by omega)) ?_
  intro t ⟨u, ht, hu, huval⟩
  rw [ht]
  have hword := limbs_of_digits hu 8 (le_refl 8)
  have hlt := (hu.value_bounds 8 (le_refl 8)).2
  rw [← pow_mul, ← hword] at hlt
  refine Ok.bind (reduceOnce_ok 3 ?_) ?_
  · unfold p at hP
    omega
  · intro w hw
    refine Ok.pure ⟨w, rfl, ?_, ?_⟩
    · rw [hw, ← hP]
      exact_mod_cast Nat.mod_lt _ hpos
    · rw [← hword, hstotal] at huval
      rw [hw, Int.natCast_mod, hP]
      exact (Int.mod_modEq _ _).trans (huval.trans haval)

end AdventOS.Crypto.P256
