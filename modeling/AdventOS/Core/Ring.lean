import Mathlib

/-!
# Single-producer ring buffers with one slot left free

The usual kernel ring: `head` is where the producer writes, `tail` where the
consumer reads, both modulo the size, empty when they are equal and full when one
more element would make them equal. The structure carries the index bounds, so
`% N` is never by zero and no index is out of range.

`contents` is the ring as a list. Filling it stops at the first element that does
not fit (`contents_pushAll`), draining it returns a prefix (`contents_popN`).
-/
namespace AdventOS
open Function List

structure Ring (α : Type u) (N : Nat) where
  buf : Nat → α
  head : Nat
  tail : Nat
  head_lt : head < N
  tail_lt : tail < N

namespace Ring

variable {α : Type u} {N : Nat}

def count (r : Ring α N) : Nat := (r.head + N - r.tail) % N

def contents (r : Ring α N) : List α := (List.range r.count).map fun i => r.buf ((r.tail + i) % N)

def empty (x : α) (h : 0 < N) : Ring α N := ⟨fun _ => x, 0, 0, h, h⟩

def full (r : Ring α N) : Bool := (r.head + 1) % N = r.tail

def push (r : Ring α N) (x : α) : Ring α N :=
  { r with
    buf := update r.buf r.head x
    head := (r.head + 1) % N
    head_lt := Nat.mod_lt _ (Nat.zero_lt_of_lt r.head_lt) }

def pop (r : Ring α N) : Ring α N :=
  { r with
    tail := (r.tail + 1) % N
    tail_lt := Nat.mod_lt _ (Nat.zero_lt_of_lt r.head_lt) }

/-- The producer's loop: store elements until one does not fit. -/
def pushAll (r : Ring α N) : List α → Ring α N
  | [] => r
  | x :: xs => if r.full then r else (r.push x).pushAll xs

def popN (r : Ring α N) : Nat → List α × Ring α N
  | 0 => ([], r)
  | n + 1 => if r.head = r.tail then ([], r)
    else (r.buf r.tail :: (r.pop.popN n).1, (r.pop.popN n).2)

@[simp] theorem length_contents (r : Ring α N) : r.contents.length = r.count := by simp [contents]

theorem count_lt (r : Ring α N) : r.count < N := Nat.mod_lt _ (Nat.zero_lt_of_lt r.head_lt)

theorem count_eq (r : Ring α N) :
    r.count = if r.tail ≤ r.head then r.head - r.tail else r.head + N - r.tail := by
  have h1 := r.head_lt
  have h2 := r.tail_lt
  unfold count
  split
  · rw [show r.head + N - r.tail = r.head - r.tail + N by omega, Nat.add_mod_right,
      Nat.mod_eq_of_lt (by omega)]
  · exact Nat.mod_eq_of_lt (by omega)

theorem succ_mod {i : Nat} (h : i < N) : (i + 1) % N = if i + 1 = N then 0 else i + 1 := by
  split
  · rename_i he; rw [he, Nat.mod_self]
  · exact Nat.mod_eq_of_lt (by omega)

theorem full_iff (r : Ring α N) : r.full = true ↔ r.count + 1 = N := by
  have h1 := r.head_lt
  have h2 := r.tail_lt
  unfold full
  rw [decide_eq_true_eq, succ_mod h1, count_eq]
  split <;> split <;> omega

theorem empty_iff (r : Ring α N) : r.head = r.tail ↔ r.count = 0 := by
  have h2 := r.tail_lt
  rw [count_eq]
  split <;> omega

@[simp] theorem contents_empty (x : α) (h : 0 < N) : (empty x h).contents = [] := by
  have : (empty x h).count = 0 := (empty_iff _).mp rfl
  simp [contents, this]

theorem count_push (r : Ring α N) (x : α) (h : r.full = false) :
    (r.push x).count = r.count + 1 := by
  have h0 : ¬ r.count + 1 = N := fun he => by
    rw [(full_iff r).mpr he] at h; cases h
  have h1 := r.head_lt
  have h2 := r.tail_lt
  rw [count_eq] at h0
  rw [count_eq, count_eq]
  simp only [push, succ_mod h1]
  split at h0 <;> split <;> split <;> omega

theorem slot_ne_head (r : Ring α N) {i : Nat} (hi : i < r.count) : (r.tail + i) % N ≠ r.head := by
  have h1 := r.head_lt
  have h2 := r.tail_lt
  have h3 := r.count_lt
  rw [count_eq] at hi
  rcases lt_or_ge (r.tail + i) N with h | h
  · rw [Nat.mod_eq_of_lt h]; split at hi <;> omega
  · rw [Nat.mod_eq_sub_mod h, Nat.mod_eq_of_lt (by split at hi <;> omega)]
    split at hi <;> omega

theorem slot_count (r : Ring α N) : (r.tail + r.count) % N = r.head := by
  have h1 := r.head_lt
  have h2 := r.tail_lt
  rw [count_eq]
  split
  · rw [show r.tail + (r.head - r.tail) = r.head by omega, Nat.mod_eq_of_lt h1]
  · rw [show r.tail + (r.head + N - r.tail) = r.head + N by omega, Nat.add_mod_right,
      Nat.mod_eq_of_lt h1]

theorem contents_push (r : Ring α N) (x : α) (h : r.full = false) :
    (r.push x).contents = r.contents ++ [x] := by
  unfold contents
  rw [count_push r x h, range_succ, map_append]
  congr 1
  · refine map_congr_left fun i hi => ?_
    simp only [push]
    rw [update_of_ne (r.slot_ne_head (mem_range.mp hi))]
  · simp [push, r.slot_count]

theorem contents_pop (r : Ring α N) (h : r.head ≠ r.tail) :
    r.contents = r.buf r.tail :: r.pop.contents := by
  have h1 := r.head_lt
  have h2 := r.tail_lt
  have hc : r.count = r.pop.count + 1 := by
    rw [count_eq, count_eq]
    simp only [pop, succ_mod h2]
    split <;> split <;> split <;> omega
  unfold contents
  rw [hc, range_succ_eq_map, map_cons, map_map, add_zero, Nat.mod_eq_of_lt h2]
  congr 1
  refine map_congr_left fun i _ => ?_
  simp only [comp, pop, Nat.mod_add_mod]
  congr 2
  omega

theorem contents_pushAll (r : Ring α N) (xs : List α) :
    (r.pushAll xs).contents = r.contents ++ xs.take (N - 1 - r.count) := by
  induction xs generalizing r with
  | nil => simp [pushAll]
  | cons x xs ih =>
    unfold pushAll
    split
    · rename_i hf
      rw [full_iff] at hf
      rw [show N - 1 - r.count = 0 by omega]
      simp
    · rename_i hf
      have hf' : r.full = false := by simpa using hf
      have hn : r.count + 1 ≠ N := fun he => hf ((full_iff r).mpr he)
      have hlt := r.count_lt
      rw [ih, contents_push r x hf', count_push r x hf',
        show N - 1 - r.count = N - 1 - (r.count + 1) + 1 by omega, take_succ_cons,
        append_assoc, singleton_append]

theorem contents_pushAll_of_fits (r : Ring α N) (xs : List α) (h : r.count + xs.length < N) :
    (r.pushAll xs).contents = r.contents ++ xs := by
  rw [contents_pushAll, take_of_length_le (by omega)]

theorem contents_popN (r : Ring α N) (n : Nat) :
    (r.popN n).1 = r.contents.take n ∧ (r.popN n).2.contents = r.contents.drop n := by
  induction n generalizing r with
  | zero => simp [popN]
  | succ n ih =>
    unfold popN
    split
    · rename_i he
      have hz : r.contents = [] := by
        have := (empty_iff r).mp he
        simp [contents, this]
      simp [hz]
    · rename_i hne
      obtain ⟨h1, h2⟩ := ih r.pop
      rw [contents_pop r hne]
      simp [h1, h2]

end Ring

end AdventOS
