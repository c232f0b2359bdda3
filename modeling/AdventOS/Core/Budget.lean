import Mathlib

/-!
# Computations under a budget

A computation takes from a budget as it goes and fails when it would take more than there is.
`Metered use f u`: `f cap` is the computation with the budget `cap`, started with `u` taken, and
`use` says what its result leaves taken. Then a larger budget changes nothing but that the
computation fails less: with any budget it is the computation with a larger one, cut off where
that one takes too much (`Metered.clip`).

The rules follow the program text: `Metered.bind`, `Metered.map`, and `Metered.alloc` for the one
primitive that takes. Nothing is said of a start at which more is taken than the budget.
-/
namespace AdventOS
open Option

variable {α β : Type}

structure Metered (use : α → Nat) (f : Nat → Option α) (u : Nat) : Prop where
  mono : ∀ {cap a}, f cap = some a → u ≤ use a
  clip : ∀ {cap cap'}, u ≤ cap → cap ≤ cap' → f cap = (f cap').filter fun a => use a ≤ cap

namespace Metered
variable {use : α → Nat} {use' : β → Nat} {u : Nat}

theorem none : Metered use (fun _ => none) u where
  mono h := by cases h
  clip _ _ := rfl

theorem ret {a : α} (hu : use a = u) : Metered use (fun _ => some a) u where
  mono h := by
    cases h
    exact hu.ge
  clip hcap _ := (filter_eq_some_iff.mpr ⟨rfl, by simpa [hu] using hcap⟩).symm

theorem alloc {a : α} (hu : u ≤ use a) :
    Metered use (fun cap => if use a > cap then Option.none else some a) u where
  mono h := by
    split at h
    · cases h
    · cases h
      exact hu
  clip {cap cap'} _ hle := by
    by_cases h : use a > cap
    · rw [if_pos h]
      split
      · rfl
      · exact (filter_eq_none_iff.mpr fun b hb => by cases hb; simpa using h).symm
    · rw [if_neg h, if_neg (by omega)]
      exact (filter_eq_some_iff.mpr ⟨rfl, by simpa using h⟩).symm

theorem map {f : Nat → Option α} {g : α → β} (h : Metered use f u)
    (hg : ∀ a, use' (g a) = use a) : Metered use' (fun cap => (f cap).map g) u where
  mono hb := by
    obtain ⟨a, ha, rfl⟩ := map_eq_some_iff.mp hb
    rw [hg]
    exact h.mono ha
  clip {cap cap'} hcap hle := by
    rw [h.clip hcap hle]
    cases f cap' with
    | none => rfl
    | some a =>
      by_cases ha : use a ≤ cap
      · have hb : use' (g a) ≤ cap := (hg a).trans_le ha
        simp [Option.filter, ha, hb]
      · have hb : ¬use' (g a) ≤ cap := by rw [hg]; exact ha
        simp [Option.filter, ha, hb]

theorem bind {f : Nat → Option α} {g : α → Nat → Option β} (h : Metered use f u)
    (hg : ∀ a, Metered use' (g a) (use a)) :
    Metered use' (fun cap => (f cap).bind fun a => g a cap) u where
  mono hb := by
    obtain ⟨a, ha, hb⟩ := bind_eq_some_iff.mp hb
    exact (h.mono ha).trans ((hg a).mono hb)
  clip {cap cap'} hcap hle := by
    rw [h.clip hcap hle]
    cases f cap' with
    | none => rfl
    | some a =>
      by_cases ha : use a ≤ cap
      · have hkeep : (some a).filter (fun a => use a ≤ cap) = some a :=
          filter_eq_some_iff.mpr ⟨rfl, by simpa using ha⟩
        rw [hkeep]
        exact (hg a).clip ha hle
      · have hdrop : (some a).filter (fun a => use a ≤ cap) = Option.none :=
          filter_eq_none_iff.mpr fun b hb => by cases hb; simpa using ha
        rw [hdrop]
        refine (filter_eq_none_iff.mpr fun b hb => ?_).symm
        have := (hg a).mono hb
        simp only [decide_eq_true_eq, not_le]
        omega

end Metered

end AdventOS
