import Mathlib

/-!
# Powers modulo a number

`modPow m k x e` is `x ^ e % m` by repeated squaring over the `k` low bits of `e`, in a
form the kernel evaluates on numbers of thousands of bits; `prime_of_modPow` is Lucas's
test on such evaluations, and `eq_one_or_passes_neg_one` what Miller and Rabin's rests on.

`pow_modEq_pow` and `pow_undo` are the two facts a public-key scheme over two primes rests
on: an exponent counts modulo `p - 1`, and an exponent that is one modulo
`(p - 1) * (q - 1)` does nothing modulo `p * q`.
-/
namespace AdventOS

def modPow (m : Nat) : Nat → Nat → Nat → Nat
  | 0, _, _ => 1 % m
  | k + 1, x, e =>
    if e % 2 = 1 then x * modPow m k (x * x % m) (e / 2) % m else modPow m k (x * x % m) (e / 2)

theorem modPow_eq (m : Nat) : ∀ {k : Nat} (x e : Nat), e < 2 ^ k → modPow m k x e = x ^ e % m
  | 0, x, e, h => by
    obtain rfl : e = 0 := by simpa using h
    rw [modPow, pow_zero]
  | k + 1, x, e, h => by
    have hhalf : e / 2 < 2 ^ k := by
      rw [pow_succ] at h
      omega
    have ih : modPow m k (x * x % m) (e / 2) = x ^ (2 * (e / 2)) % m := by
      rw [modPow_eq m _ _ hhalf, ← Nat.pow_mod, pow_mul, pow_two]
    rw [modPow, ih]
    split
    · rw [Nat.mul_mod_mod, ← pow_succ', show 2 * (e / 2) + 1 = e by omega]
    · rw [show 2 * (e / 2) = e by omega]

theorem zmod_pow_eq_one_iff {p : Nat} (hp : 1 < p) (x e : Nat) :
    (x : ZMod p) ^ e = 1 ↔ x ^ e % p = 1 := by
  have h : (x : ZMod p) ^ e = 1 ↔ ((x ^ e : Nat) : ZMod p) = ((1 : Nat) : ZMod p) := by
    push_cast
    rfl
  rw [h, ZMod.natCast_eq_natCast_iff', Nat.mod_eq_of_lt hp]

/-- Lucas's test, with the powers evaluated. `k` bits hold `p - 1`, and every prime that
divides `p - 1` is one of the `rs`. -/
theorem prime_of_modPow {p x k : Nat} {rs : List Nat} (hk : p ≤ 2 ^ k) (hp : 1 < p)
    (hone : modPow p k x (p - 1) = 1)
    (hrs : ∀ r : Nat, r.Prime → r ∣ p - 1 → r ∈ rs)
    (hne : ∀ r ∈ rs, modPow p k x ((p - 1) / r) ≠ 1) : p.Prime := by
  apply lucas_primality p (x : ZMod p)
  · rw [zmod_pow_eq_one_iff hp, ← modPow_eq p x (p - 1) (k := k) (by omega), hone]
  · intro r hr hdvd
    have hle : (p - 1) / r ≤ p - 1 := Nat.div_le_self _ _
    rw [Ne, zmod_pow_eq_one_iff hp, ← modPow_eq p x ((p - 1) / r) (k := k) (by omega)]
    exact hne r (hrs r hr hdvd)

/-! ## Exponents -/

variable {p q : Nat}

/-- An exponent counts modulo `p - 1`, except that no power but the zeroth is lost on a multiple
of `p`. -/
theorem pow_modEq_pow (hp : p.Prime) {a b x : Nat} (h : a ≡ b [MOD p - 1])
    (h0 : p ∣ x → (a = 0 ↔ b = 0)) : x ^ a ≡ x ^ b [MOD p] := by
  have := Fact.mk hp
  rw [← ZMod.natCast_eq_natCast_iff]
  push_cast
  by_cases hx : (x : ZMod p) = 0
  · have h0 := h0 ((ZMod.natCast_eq_zero_iff x p).mp hx)
    by_cases ha : a = 0
    · rw [ha, h0.mp ha]
    · rw [hx, zero_pow ha, zero_pow (mt h0.mpr ha)]
  · have h : a % (p - 1) = b % (p - 1) := h
    rw [← Nat.div_add_mod a (p - 1), ← Nat.div_add_mod b (p - 1), pow_add, pow_add, pow_mul,
      pow_mul, ZMod.pow_card_sub_one_eq_one hx, one_pow, one_pow, h]

theorem pow_modEq_self (hp : p.Prime) {e : Nat} (he : e ≡ 1 [MOD p - 1]) (hpos : 0 < e) (x : Nat) :
    x ^ e ≡ x [MOD p] := by
  have h := pow_modEq_pow hp he (x := x) fun _ => by omega
  rwa [pow_one] at h

/-- An exponent that is one modulo `(p - 1) * (q - 1)` does nothing modulo `p * q`. -/
theorem pow_undo (hp : p.Prime) (hq : q.Prime) (hne : p ≠ q) {e : Nat}
    (he : e ≡ 1 [MOD (p - 1) * (q - 1)]) (hpos : 0 < e) (x : Nat) : x ^ e ≡ x [MOD p * q] := by
  have hcop : Nat.Coprime p q := (Nat.coprime_primes hp hq).mpr hne
  apply (Nat.modEq_and_modEq_iff_modEq_mul hcop).mp
  exact ⟨pow_modEq_self hp (he.of_mul_right (q - 1)) hpos x,
    pow_modEq_self hq (he.of_mul_left (p - 1)) hpos x⟩

/-! ## Square roots of one -/

theorem eq_one_or_passes_neg_one {R : Type*} [CommRing R] [NoZeroDivisors R] :
    ∀ {s : Nat} {y : R}, y ^ 2 ^ s = 1 → y = 1 ∨ ∃ j < s, y ^ 2 ^ j = -1
  | 0, y, h => Or.inl (by rwa [pow_zero, pow_one] at h)
  | s + 1, y, h => by
    rw [pow_succ', pow_mul] at h
    rcases eq_one_or_passes_neg_one h with hone | ⟨j, hj, hneg⟩
    · rw [pow_two] at hone
      rcases mul_self_eq_one_iff.mp hone with hy | hy
      · exact Or.inl hy
      · exact Or.inr ⟨0, Nat.succ_pos s, by rw [pow_zero, pow_one, hy]⟩
    · exact Or.inr ⟨j + 1, by omega, by rw [pow_succ', pow_mul, hneg]⟩

end AdventOS
