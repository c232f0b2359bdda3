import Mathlib

/-!
# Memory accesses and their bounds

`Acc α` is a computation that reads and writes arrays: its value, and whether
every access so far was inside its array. An access outside does not stop the
computation, as it does not in C: a read yields what the memory holds there and
`safe` stays false from then on. So the value of a computation is what the
program computes on any memory, and `safe` is the statement that it was entitled
to.

`bind_val` and `bind_safe` take a computation apart: each function needs one
lemma for its value and one for its safety, and callers use these.

`Buf` is a buffer of which only the first `n` bytes are meaningful.
-/
namespace AdventOS
open List

structure Acc (α : Type) where
  val : α
  safe : Bool

namespace Acc

instance : Monad Acc where
  pure a := ⟨a, true⟩
  bind x f := ⟨(f x.val).val, x.safe && (f x.val).safe⟩

variable {α β : Type}

@[simp] theorem pure_val (a : α) : (pure a : Acc α).val = a := rfl
@[simp] theorem pure_safe (a : α) : (pure a : Acc α).safe = true := rfl

@[simp] theorem bind_val (x : Acc α) (f : α → Acc β) : (x >>= f).val = (f x.val).val := rfl

@[simp] theorem bind_safe (x : Acc α) (f : α → Acc β) :
    (x >>= f).safe = (x.safe && (f x.val).safe) := rfl

/-- Access of `len` bytes from offset `off` of an array of `size` bytes. -/
def span (size off len : Nat) : Acc Unit := ⟨(), len = 0 || off + len ≤ size⟩

@[simp] theorem span_safe (size off len : Nat) :
    (span size off len).safe = true ↔ len = 0 ∨ off + len ≤ size := by
  simp [span]

theorem span_safe_of_le {size off len : Nat} (h : off + len ≤ size) :
    (span size off len).safe = true := by
  simp [h]

/-- Access through a null pointer. -/
def null (a : α) : Acc α := ⟨a, false⟩

@[simp] theorem null_val (a : α) : (null a).val = a := rfl
@[simp] theorem null_safe (a : α) : (null a).safe = false := rfl

theorem ite_safe {c : Prop} [Decidable c] {x y : Acc α} :
    (if c then x else y).safe = true ↔ (c → x.safe = true) ∧ (¬ c → y.safe = true) := by
  by_cases h : c <;> simp [h]

end Acc

/-- A buffer holding `n` bytes of input; what `mem` says from `n` on is left over
from before. -/
structure Buf where
  mem : Nat → UInt8
  n : Nat

namespace Buf

variable (b : Buf)

def read (off : Nat) : Acc UInt8 := ⟨b.mem off, off < b.n⟩

@[simp] theorem read_val (off : Nat) : (b.read off).val = b.mem off := rfl
@[simp] theorem read_safe (off : Nat) : (b.read off).safe = true ↔ off < b.n := by simp [read]

def bytes (off len : Nat) : List UInt8 := (List.range len).map fun i => b.mem (off + i)

def input : List UInt8 := b.bytes 0 b.n

/-- A copy loop of `len` bytes from `off`. -/
def copy (off len : Nat) : Acc (List UInt8) := ⟨b.bytes off len, len = 0 || off + len ≤ b.n⟩

@[simp] theorem copy_val (off len : Nat) : (b.copy off len).val = b.bytes off len := rfl

@[simp] theorem copy_safe (off len : Nat) :
    (b.copy off len).safe = true ↔ len = 0 ∨ off + len ≤ b.n := by
  simp [copy]

@[simp] theorem length_bytes (off len : Nat) : (b.bytes off len).length = len := by simp [bytes]

@[simp] theorem bytes_zero (off : Nat) : b.bytes off 0 = [] := rfl

theorem bytes_succ (off len : Nat) : b.bytes off (len + 1) = b.mem off :: b.bytes (off + 1) len := by
  unfold bytes
  rw [range_succ_eq_map, map_cons, map_map]
  congr 1
  apply map_congr_left
  intro i _
  simp only [Function.comp]
  congr 1
  omega

theorem bytes_add (off k l : Nat) : b.bytes off (k + l) = b.bytes off k ++ b.bytes (off + k) l := by
  induction k generalizing off with
  | zero => simp
  | succ k ih =>
    rw [show k + 1 + l = (k + l) + 1 by omega, bytes_succ, ih, bytes_succ, cons_append]
    congr 3
    omega

theorem bytes_split {off mid stop : Nat} (h1 : off ≤ mid) (h2 : mid ≤ stop) :
    b.bytes off (stop - off) = b.bytes off (mid - off) ++ b.bytes mid (stop - mid) := by
  have h := b.bytes_add off (mid - off) (stop - mid)
  rw [show mid - off + (stop - mid) = stop - off by omega,
    show off + (mid - off) = mid by omega] at h
  exact h

/-- Comparing with a literal, byte by byte, up to the first difference. -/
def matchBytes (b : Buf) : (off : Nat) → List UInt8 → Acc Bool
  | _, [] => pure true
  | off, c :: cs => do
    let x ← b.read off
    if x = c then matchBytes b (off + 1) cs else pure false

theorem matchBytes_val (lit : List UInt8) :
    ∀ off, (b.matchBytes off lit).val = true ↔ b.bytes off lit.length = lit := by
  induction lit with
  | nil => intro off; simp [matchBytes]
  | cons c cs ih =>
    intro off
    simp only [matchBytes, Acc.bind_val, read_val, length_cons, bytes_succ, cons.injEq]
    by_cases h : b.mem off = c
    · simp [h, ih]
    · simp [h]

theorem matchBytes_safe (lit : List UInt8) :
    ∀ off, off + lit.length ≤ b.n → (b.matchBytes off lit).safe = true := by
  induction lit with
  | nil => intro off _; rfl
  | cons c cs ih =>
    intro off h
    simp only [length_cons] at h
    simp only [matchBytes, Acc.bind_safe, Bool.and_eq_true, read_safe, Acc.ite_safe]
    exact ⟨by omega, fun _ => ih (off + 1) (by omega), fun _ => rfl⟩

end Buf

end AdventOS
