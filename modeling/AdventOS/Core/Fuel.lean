import Mathlib

/-!
# Fuelled recursion

A recursive program is a function of its input and of a fuel that bounds the depth of its
calls; out of fuel it gives `none`. `Settles f x` says that `f` gives `x` with every large
enough fuel, which is what the program computes.

The rules follow the program text: `Settles.succ` enters a call, `Settles.bind` runs one
call and then another, `Settles.ret` returns.
-/
namespace AdventOS

variable {α β : Type}

def Settles (f : Nat → Option α) (x : α) : Prop := ∀ᶠ n in Filter.atTop, f n = some x

theorem Settles.ret (x : α) : Settles (fun _ => some x) x :=
  Filter.Eventually.of_forall fun _ => rfl

variable {f : Nat → Option α} {x : α}

theorem Settles.succ {g : Nat → Option α} (h : ∀ n, f (n + 1) = g n)
    (hg : Settles g x) : Settles f x := by
  obtain ⟨N, hN⟩ := Filter.eventually_atTop.1 hg
  refine Filter.eventually_atTop.2 ⟨N + 1, fun n hn => ?_⟩
  obtain ⟨m, rfl⟩ : ∃ m, n = m + 1 := ⟨n - 1, by omega⟩
  rw [h m]
  exact hN m (by omega)

theorem Settles.bind {k : Nat → α → Option β} {a : α} {b : β}
    (hf : Settles f a) (hk : Settles (fun n => k n a) b) :
    Settles (fun n => f n >>= k n) b := by
  refine (Filter.Eventually.and hf hk).mono fun n h => ?_
  change f n >>= k n = some b
  rw [h.1]
  exact h.2

theorem Settles.map {g : α → β} {a : α} (hf : Settles f a) :
    Settles (fun n => (f n).map g) (g a) := by
  refine Filter.Eventually.mono hf fun n h => ?_
  change (f n).map g = some (g a)
  rw [h, Option.map_some]

theorem Settles.congr {g : Nat → Option α} (h : ∀ n, f n = g n) (hg : Settles g x) : Settles f x :=
  Filter.Eventually.mono hg fun n hn => (h n).trans hn

theorem Settles.unique {y : α} (hx : Settles f x) (hy : Settles f y) : x = y := by
  obtain ⟨n, h⟩ := (Filter.Eventually.and hx hy).exists
  exact Option.some.inj (h.1.symm.trans h.2)

end AdventOS
