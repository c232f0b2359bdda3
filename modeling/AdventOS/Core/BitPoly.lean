import Mathlib

/-!
# Bit strings as polynomials

A string of bits, the first one the constant term, is a polynomial over the field of two
elements; `bitsAt α` is its value at `α`, in any commutative ring. Modulo a monic polynomial
every value is that of exactly one string of the right length (`bitsAt_injective`), so that such
strings are the elements of a field of characteristic two.

`powerSum h [x₁, …, xₘ]` is `x₁ hᵐ + … + xₘ h`, what a hash by evaluation computes, and
`foldl_powerSum` that Horner's rule computes it.
-/
namespace AdventOS

open Polynomial

section Ring

variable {R S : Type*} [CommRing R] [CommRing S]

def bitsAt (α : R) : List Bool → R
  | [] => 0
  | b :: l => (if b then 1 else 0) + α * bitsAt α l

theorem bitsAt_append (α : R) (a b : List Bool) :
    bitsAt α (a ++ b) = bitsAt α a + α ^ a.length * bitsAt α b := by
  induction a with
  | nil => simp [bitsAt]
  | cons c a ih =>
    rw [List.cons_append, bitsAt, bitsAt, ih, List.length_cons]
    ring

theorem map_bitsAt (f : R →+* S) (α : R) : ∀ l, f (bitsAt α l) = bitsAt (f α) l
  | [] => map_zero f
  | b :: l => by
    rw [bitsAt, bitsAt, map_add, map_mul, map_bitsAt f α l]
    cases b <;> simp

theorem bitsAt_xor (h2 : (2 : R) = 0) (α : R) : ∀ {a b : List Bool}, a.length = b.length →
    bitsAt α (List.zipWith xor a b) = bitsAt α a + bitsAt α b
  | [], [], _ => (add_zero 0).symm
  | x :: a, y :: b, h => by
    have hbit : (if xor x y then 1 else 0 : R) = (if x then 1 else 0) + if y then 1 else 0 := by
      cases x <;> cases y <;> simp [one_add_one_eq_two, h2]
    rw [List.zipWith_cons_cons, bitsAt, bitsAt, bitsAt, bitsAt_xor h2 α (Nat.succ.inj h), hbit]
    ring

/-- `x₁ hᵐ + … + xₘ h`. -/
def powerSum (h : R) : List R → R
  | [] => 0
  | x :: l => x * h ^ (l.length + 1) + powerSum h l

theorem foldl_powerSum (h : R) : ∀ (l : List R) (s : R),
    l.foldl (fun y x => (y + x) * h) s = s * h ^ l.length + powerSum h l
  | [], s => by simp [powerSum]
  | x :: l, s => by
    rw [List.foldl_cons, foldl_powerSum h l, List.length_cons, powerSum]
    ring

end Ring

/-! ## Values modulo a polynomial -/

section Quotient

variable {K : Type*} [Field K]

theorem coeff_bitsAt : ∀ {l : List Bool} {n : Nat}, l.length ≤ n → (bitsAt (X : K[X]) l).coeff n = 0
  | [], n, _ => coeff_zero n
  | b :: l, 0, h => by simp at h
  | b :: l, n + 1, h => by
    rw [bitsAt, coeff_add, coeff_X_mul, coeff_bitsAt (Nat.le_of_succ_le_succ h), add_zero]
    cases b <;> simp [coeff_one]

theorem bitsAt_X_injective : ∀ {a b : List Bool}, a.length = b.length →
    bitsAt (X : K[X]) a = bitsAt X b → a = b
  | [], [], _, _ => rfl
  | x :: a, y :: b, hlen, h => by
    have h0 := congrArg (fun p => coeff p 0) h
    simp only [bitsAt, coeff_add, mul_coeff_zero, coeff_X_zero, zero_mul, add_zero] at h0
    have hxy : x = y := by
      cases x <;> cases y <;> simp_all
    rw [hxy, bitsAt, bitsAt] at h
    rw [hxy, bitsAt_X_injective (Nat.succ.inj hlen)
      (mul_left_cancel₀ X_ne_zero (add_left_cancel h))]

theorem bitsAt_injective {g : K[X]} (hg : g.Monic) {a b : List Bool} (ha : a.length = g.natDegree)
    (hb : b.length = g.natDegree)
    (h : bitsAt (AdjoinRoot.root g) a = bitsAt (AdjoinRoot.root g) b) : a = b := by
  rw [← AdjoinRoot.mk_X, ← map_bitsAt, ← map_bitsAt, AdjoinRoot.mk_eq_mk] at h
  refine bitsAt_X_injective (K := K) (ha.trans hb.symm) (sub_eq_zero.mp ?_)
  by_contra hne
  refine hg.not_dvd_of_degree_lt hne ?_ h
  rw [degree_eq_natDegree hg.ne_zero, degree_lt_iff_coeff_zero]
  intro n hn
  rw [coeff_sub, coeff_bitsAt (ha.trans_le hn), coeff_bitsAt (hb.trans_le hn), sub_zero]

end Quotient

end AdventOS
