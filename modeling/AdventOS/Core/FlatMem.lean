import Mathlib

/-!
# A flat byte memory with little-endian fields

Addresses are natural numbers; `load m a w` and `store m a w v` are the `w` bytes
from `a`, least significant first. A stored value is read back when it fits its
width (`load_store_self`), and a store changes nothing outside its bytes
(`store_outside`, `load_store_sep`).
-/
namespace AdventOS
open Function

abbrev FlatMem := Nat → UInt8

namespace FlatMem

variable (m : FlatMem)

def load : (a w : Nat) → Nat
  | _, 0 => 0
  | a, w + 1 => (m a).toNat + 256 * load (a + 1) w

def store (m : FlatMem) : (a w v : Nat) → FlatMem
  | _, 0, _ => m
  | a, w + 1, v => update (store m (a + 1) w (v / 256)) a (UInt8.ofNat v)

variable {m}

theorem store_outside {a w v x : Nat} (h : x < a ∨ a + w ≤ x) : store m a w v x = m x := by
  induction w generalizing a v with
  | zero => rfl
  | succ w ih =>
    unfold store
    rw [update_of_ne (by omega), ih (by omega)]

theorem load_congr {m' : FlatMem} {a w : Nat} (h : ∀ x, a ≤ x → x < a + w → m' x = m x) :
    load m' a w = load m a w := by
  induction w generalizing a with
  | zero => rfl
  | succ w ih =>
    unfold load
    rw [h a (le_refl a) (by omega), ih fun x h1 h2 => h x (by omega) (by omega)]

theorem load_store_sep {a w v b w' : Nat} (h : b + w' ≤ a ∨ a + w ≤ b) :
    load (store m a w v) b w' = load m b w' :=
  load_congr fun _ _ _ => store_outside (by omega)

theorem load_store_self {a w v : Nat} (h : v < 256 ^ w) : load (store m a w v) a w = v := by
  induction w generalizing a v with
  | zero =>
    rw [pow_zero] at h
    unfold load
    omega
  | succ w ih =>
    have hrest : load (store m a (w + 1) v) (a + 1) w = v / 256 := by
      rw [← ih (a := a + 1) (v := v / 256) (by rw [pow_succ] at h; omega)]
      refine load_congr fun x h1 _ => ?_
      conv_lhs => unfold store
      exact update_of_ne (by omega) _ _
    unfold load
    rw [hrest]
    have hbyte : store m a (w + 1) v a = .ofNat v := by
      exact update_self _ _ _
    rw [hbyte, UInt8.toNat_ofNat']
    omega

end FlatMem

end AdventOS
