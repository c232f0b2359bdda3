import Mathlib

/-!
# Counting references held in a finite table

A table is a function from a finite type of slots to what each slot holds.
Writing one slot moves every weighted sum over the table by the difference of
the two weights (`sum_comp_update`), and so moves every count by at most one
(`count_update`). Both are stated additively, so that a caller closes its goal
by linear arithmetic without natural subtraction.
-/
namespace AdventOS.RefCount
open Function

variable {κ α : Type*} [Fintype κ]

theorem sum_comp_update [DecidableEq κ] (φ : α → Nat) (f : κ → α) (k : κ) (v : α) :
    ∑ x, φ (update f k v x) + φ (f k) = ∑ x, φ (f x) + φ v := by
  rw [← Finset.add_sum_erase _ _ (Finset.mem_univ k),
    ← Finset.add_sum_erase _ (fun x => φ (f x)) (Finset.mem_univ k)]
  have h : ∑ x ∈ Finset.univ.erase k, φ (update f k v x) = ∑ x ∈ Finset.univ.erase k, φ (f x) := by
    refine Finset.sum_congr rfl fun x hx => ?_
    rw [update_of_ne (Finset.ne_of_mem_erase hx)]
  rw [h, update_self]
  omega

variable [DecidableEq α]

/-- The number of slots that hold `a`. -/
def count (f : κ → α) (a : α) : Nat := ∑ x, if f x = a then 1 else 0

theorem count_update [DecidableEq κ] (f : κ → α) (k : κ) (v a : α) :
    count (update f k v) a + (if f k = a then 1 else 0) = count f a + (if v = a then 1 else 0) :=
  sum_comp_update (fun y => if y = a then 1 else 0) f k v

theorem count_pos {f : κ → α} {k : κ} {a : α} (h : f k = a) : 0 < count f a := by
  have := Finset.single_le_sum (f := fun x => if f x = a then 1 else 0)
    (fun x _ => Nat.zero_le _) (Finset.mem_univ k)
  rw [if_pos h] at this
  exact this

theorem count_eq_zero {f : κ → α} {a : α} (h : ∀ k, f k ≠ a) : count f a = 0 :=
  Finset.sum_eq_zero fun k _ => if_neg (h k)

end AdventOS.RefCount
