import Mathlib

/-!
# Numbers by their digits

`radix b v n` is the number with the digits `v 0, …, v (n - 1)` in base `b`, the
least significant first: what an array of machine words denotes. The lemmas are
the ones an arithmetic on such arrays rests on: a number is below `b ^ n` when its
digits are below `b`, leading zero digits do not count, a nonzero leading digit
bounds the number from below, two numbers compare as their highest differing
digits do, and a digit is read back by division.

`radix_carry` and `radix_carry_down` are the two ways a loop passes a carry
along: from the low digits up, as an addition does, and from the high digits down,
as a division by a small number does.
-/
namespace AdventOS

def radix (b : Nat) (v : Nat → Nat) (n : Nat) : Nat := ∑ i ∈ Finset.range n, v i * b ^ i

variable {b n m : Nat} {v w : Nat → Nat}

@[simp] theorem radix_zero (b : Nat) (v : Nat → Nat) : radix b v 0 = 0 := by simp [radix]

theorem radix_succ (b : Nat) (v : Nat → Nat) (n : Nat) :
    radix b v (n + 1) = radix b v n + v n * b ^ n := by
  simp [radix, Finset.sum_range_succ]

theorem radix_congr (h : ∀ i, i < n → v i = w i) : radix b v n = radix b w n := by
  apply Finset.sum_congr rfl
  intro i hi
  rw [h i (Finset.mem_range.mp hi)]

theorem radix_const_zero (b n : Nat) : radix b (fun _ => 0) n = 0 := by simp [radix]

theorem radix_lt (h : ∀ i, i < n → v i < b) : radix b v n < b ^ n := by
  induction n with
  | zero => simp
  | succ n ih =>
    have hlow := ih fun i hi => h i (by omega)
    have htop : v n + 1 ≤ b := h n (Nat.lt_succ_self n)
    calc radix b v (n + 1) = radix b v n + v n * b ^ n := radix_succ b v n
      _ < b ^ n + v n * b ^ n := by omega
      _ = (v n + 1) * b ^ n := by ring
      _ ≤ b * b ^ n := Nat.mul_le_mul_right _ htop
      _ = b ^ (n + 1) := by ring

theorem radix_extend (hnm : n ≤ m) (h : ∀ i, n ≤ i → i < m → v i = 0) :
    radix b v m = radix b v n := by
  induction m, hnm using Nat.le_induction with
  | base => rfl
  | succ m hnm ih =>
    rw [radix_succ, h m hnm (Nat.lt_succ_self m), zero_mul, add_zero]
    exact ih fun i h1 h2 => h i h1 (by omega)

theorem le_radix_of_top (h : v n ≠ 0) : b ^ n ≤ radix b v (n + 1) := by
  rw [radix_succ]
  have : 1 * b ^ n ≤ v n * b ^ n := Nat.mul_le_mul_right _ (pos_of_ne_zero h)
  omega

theorem radix_add (b : Nat) (v : Nat → Nat) (n m : Nat) :
    radix b v (n + m) = radix b v n + b ^ n * radix b (fun i => v (n + i)) m := by
  induction m with
  | zero => simp
  | succ m ih =>
    rw [← add_assoc, radix_succ, ih, radix_succ, pow_add]
    ring

theorem radix_lt_of_digit {k : Nat} (hk : k < n) (hv : ∀ i, i < k → v i < b)
    (hlt : v k < w k) (heq : ∀ i, k < i → i < n → v i = w i) : radix b v n < radix b w n := by
  obtain ⟨m, rfl⟩ := Nat.exists_eq_add_of_lt hk
  rw [show k + m + 1 = (k + 1) + m by omega, radix_add b v, radix_add b w, radix_succ b v,
    radix_succ b w]
  have hhigh : radix b (fun i => v (k + 1 + i)) m = radix b (fun i => w (k + 1 + i)) m :=
    radix_congr fun i hi => heq _ (by omega) (by omega)
  have hlow := radix_lt hv
  have htop : (v k + 1) * b ^ k ≤ w k * b ^ k := Nat.mul_le_mul_right _ hlt
  rw [add_mul, one_mul] at htop
  rw [hhigh]
  omega

theorem radix_digit (hb : 0 < b) (h : ∀ i, i < n → v i < b) {k : Nat} (hk : k < n) :
    radix b v n / b ^ k % b = v k := by
  obtain ⟨m, rfl⟩ := Nat.exists_eq_add_of_lt hk
  rw [show k + m + 1 = k + (m + 1) by omega, radix_add, Nat.add_mul_div_left _ _ (pow_pos hb k),
    Nat.div_eq_of_lt (radix_lt fun i hi => h i (by omega)), zero_add,
    add_comm m 1, radix_add, radix_succ, radix_zero]
  simp only [zero_add, add_zero, pow_zero, mul_one, pow_one, Nat.add_mul_mod_self_left]
  exact Nat.mod_eq_of_lt (h k (by omega))

theorem digit_eq_zero_of_lt (h : radix b v m < b ^ n) (hb : 0 < b) {k : Nat} (hnk : n ≤ k)
    (hkm : k < m) : v k = 0 := by
  by_contra hne
  have hle : b ^ k ≤ radix b v m := by
    obtain ⟨j, rfl⟩ := Nat.exists_eq_add_of_lt hkm
    rw [show k + j + 1 = (k + 1) + j by omega, radix_add]
    have := le_radix_of_top (b := b) hne
    omega
  have := Nat.pow_le_pow_right hb hnk
  omega

/-- One digit of a loop from the low end: what comes out and the carry make up what
went in. -/
theorem radix_carry {c c' x t : Nat} (hlow : radix b v n + c * b ^ n = t)
    (hstep : v n + c' * b = x + c) :
    radix b v (n + 1) + c' * b ^ (n + 1) = t + x * b ^ n := by
  calc radix b v (n + 1) + c' * b ^ (n + 1) = radix b v n + (v n + c' * b) * b ^ n := by
        rw [radix_succ]
        ring
    _ = radix b v n + (x + c) * b ^ n := by rw [hstep]
    _ = (radix b v n + c * b ^ n) + x * b ^ n := by ring
    _ = t + x * b ^ n := by rw [hlow]

/-- One digit of a division of a number by `q`, from the high end. -/
theorem radix_carry_down {c c' d x q k t : Nat} (hhigh : t = q * k + c)
    (hstep : d * q + c' = c * b + x) : x + b * t = q * (d + b * k) + c' := by
  calc x + b * t = (c * b + x) + b * (q * k) := by
        rw [hhigh]
        ring
    _ = (d * q + c') + b * (q * k) := by rw [hstep]
    _ = q * (d + b * k) + c' := by ring

theorem radix_head (b : Nat) (v : Nat → Nat) (n : Nat) :
    radix b v (n + 1) = v 0 + b * radix b (fun i => v (i + 1)) n := by
  rw [add_comm n 1, radix_add, radix_succ]
  simp [add_comm]

theorem radix_digits (b x : Nat) : ∀ n : Nat, radix b (fun i => x / b ^ i % b) n = x % b ^ n
  | 0 => by rw [radix_zero, pow_zero, Nat.mod_one]
  | n + 1 => by rw [radix_succ, radix_digits b x n, Nat.mod_pow_succ, mul_comm]

theorem shift_in_mod {d : Nat} (hd : d < b) (y k : Nat) :
    (y * b + d) % (b * k) = y * b % (b * k) + d := by
  have hb : 0 < b := by omega
  have h1 : (y * b + d) % b = d := by
    rw [mul_comm, Nat.mul_add_mod, Nat.mod_eq_of_lt hd]
  have h2 : (y * b + d) / b = y := by
    rw [mul_comm, Nat.mul_add_div hb, Nat.div_eq_of_lt hd, add_zero]
  rw [Nat.mod_mul, h1, h2, mul_comm y b, Nat.mul_mod_mul_left]
  omega

end AdventOS
