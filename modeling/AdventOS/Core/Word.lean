import Mathlib

/-!
# Bits of a 32-bit word

A word as a set of bit numbers: `has w i` says that bit `i` is set. `1 << i`
is the set of `i` alone, `|` is union and `& ~` is difference.

* `ext`: words with the same bits are equal;
* `has_or`, `has_andNot`, `has_bit`: the operations;
* `or_andNot_bit`: setting a clear bit and clearing it again changes nothing;
* `and_bit_eq_zero`: the test for one bit.
-/
namespace AdventOS.Word

def bit (i : Nat) : UInt32 := 1 <<< UInt32.ofNat i

def has (w : UInt32) (i : Nat) : Bool := w.toBitVec.getLsbD i

variable {a b w : UInt32} {i j : Nat}

theorem ext (h : ∀ i, i < 32 → has a i = has b i) : a = b := by
  rw [← UInt32.toBitVec_inj]
  exact BitVec.eq_of_getLsbD_eq h

@[simp] theorem has_zero : has 0 i = false := by simp [has]

@[simp] theorem has_or : has (a ||| b) i = (has a i || has b i) := by simp [has]

theorem has_and : has (a &&& b) i = (has a i && has b i) := by simp [has]

theorem has_of_le (h : 32 ≤ i) : has w i = false := BitVec.getLsbD_of_ge _ _ h

@[simp] theorem has_andNot : has (a &&& ~~~b) i = (has a i && !has b i) := by
  by_cases hi : i < 32
  · simp [has, hi]
  · simp [has_of_le (Nat.le_of_not_lt hi)]

theorem has_bit (hi : i < 32) : has (bit i) j = decide (j = i) := by
  by_cases hj : j < 32
  · have hmod : (UInt32.ofNat i).toBitVec.toNat % 32 = i := by
      rw [UInt32.toNat_toBitVec, UInt32.toNat_ofNat']
      omega
    unfold has bit
    rw [UInt32.toBitVec_shiftLeft, show (1 : UInt32).toBitVec = 1#32 from rfl]
    simp only [BitVec.shiftLeft_eq', BitVec.getLsbD_shiftLeft, BitVec.getLsbD_one]
    rw [show ((UInt32.ofNat i).toBitVec % 32).toNat = i from by simpa using hmod]
    by_cases h : j = i
    · subst h
      simp [hj]
    · simp only [hj, decide_true, Bool.true_and, h, decide_false]
      by_cases hlt : j < i
      · simp [hlt]
      · have : j - i ≠ 0 := by omega
        simp [this]
  · rw [has_of_le (Nat.le_of_not_lt hj)]
    have : j ≠ i := by omega
    simp [this]

theorem and_bit_eq_zero (hi : i < 32) : w &&& bit i = 0 ↔ has w i = false := by
  constructor
  · intro h
    have hb : has (w &&& bit i) i = has w i := by simp [has_and, has_bit hi]
    rw [← hb, h, has_zero]
  · intro h
    refine ext fun j _ => ?_
    by_cases hj : j = i
    · subst hj
      simp [has_and, h]
    · simp [has_and, has_bit hi, hj]

theorem or_andNot_bit (hi : i < 32) (h : has w i = false) : (w ||| bit i) &&& ~~~bit i = w := by
  refine ext fun j _ => ?_
  by_cases hj : j = i
  · subst hj
    simp [has_bit hi, h]
  · simp [has_bit hi, hj]

theorem or_andNot_bit_ne (hi : i < 32) (hj : j < 32) (h : has w i = false) (hne : j ≠ i) :
    (w ||| bit i) &&& ~~~bit j ≠ w := by
  intro he
  have hb := congrArg (has · i) he
  simp [has_bit hi, has_bit hj, h, hne.symm] at hb

theorem or_bit_ne (hi : i < 32) (h : has w i = false) : w ||| bit i ≠ w := by
  intro he
  have hb := congrArg (has · i) he
  simp [has_bit hi, h] at hb

end AdventOS.Word
