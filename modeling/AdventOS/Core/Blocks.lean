import Mathlib

/-!
# Hashing block by block

A hash that chains a compression function over blocks of `size` bytes: `wholeBlocks` runs it over
the whole blocks of an input and `leftover` is what remains. `absorb` takes input as it arrives,
keeping a partial block in a buffer; `finish` pads and compresses what is left.

* `wholeBlocks_append`, `leftover_append`: an input may be taken in two parts.
* `absorb_eq`: absorbing keeps the state at the whole blocks of everything taken so far.
* `finish_eq`: finishing is compressing the padded input.
-/
namespace AdventOS.Blocks
open List

variable {α σ : Type} (f : σ → List α → σ) (size : Nat)

/-- The state after `n` blocks. -/
def chew : Nat → σ → List α → σ
  | 0, s, _ => s
  | n + 1, s, l => chew n (f s (l.take size)) (l.drop size)

def wholeBlocks (s : σ) (l : List α) : σ := chew f size (l.length / size) s l

def leftover (l : List α) : List α := l.drop (size * (l.length / size))

variable {f size} {s : σ} {a b l buf data : List α}

theorem chew_add (n m : Nat) : ∀ (s : σ) (l : List α),
    chew f size (n + m) s l = chew f size m (chew f size n s l) (l.drop (size * n)) := by
  induction n with
  | zero =>
    intro s l
    rw [zero_add, mul_zero]
    rfl
  | succ n ih =>
    intro s l
    rw [Nat.succ_add, chew, ih, drop_drop, Nat.mul_succ, add_comm size]
    rfl

theorem chew_append : ∀ (n : Nat) (s : σ) (a b : List α), size * n ≤ a.length →
    chew f size n s (a ++ b) = chew f size n s a
  | 0, _, _, _, _ => rfl
  | n + 1, s, a, b, h => by
    rw [Nat.mul_succ] at h
    rw [chew, chew, take_append_of_le_length (by omega), drop_append_of_le_length (by omega),
      chew_append n _ _ _ (by rw [length_drop]; omega)]

theorem length_leftover (l : List α) : (leftover size l).length = l.length % size := by
  rw [leftover, length_drop, Nat.mod_def]

theorem length_append_div (hsize : 0 < size) (a b : List α) :
    (a ++ b).length / size = a.length / size + (leftover size a ++ b).length / size := by
  have hdiv := Nat.div_add_mod a.length size
  rw [length_append, length_append, length_leftover, ← Nat.mul_add_div hsize]
  congr 1
  omega

theorem drop_append_blocks (a b : List α) :
    (a ++ b).drop (size * (a.length / size)) = leftover size a ++ b :=
  drop_append_of_le_length (Nat.mul_div_le _ _)

theorem wholeBlocks_append (hsize : 0 < size) (s : σ) (a b : List α) :
    wholeBlocks f size s (a ++ b) =
      wholeBlocks f size (wholeBlocks f size s a) (leftover size a ++ b) := by
  unfold wholeBlocks
  rw [length_append_div hsize, chew_add, drop_append_blocks, chew_append _ _ _ _ (Nat.mul_div_le _ _)]

theorem leftover_append (hsize : 0 < size) (a b : List α) :
    leftover size (a ++ b) = leftover size (leftover size a ++ b) := by
  rw [leftover, length_append_div hsize, mul_add, ← drop_drop, drop_append_blocks]
  rfl

theorem wholeBlocks_short (h : l.length < size) (s : σ) : wholeBlocks f size s l = s := by
  rw [wholeBlocks, Nat.div_eq_of_lt h]
  rfl

theorem leftover_short (h : l.length < size) : leftover size l = l := by
  rw [leftover, Nat.div_eq_of_lt h]
  rfl

theorem wholeBlocks_one (hsize : 0 < size) (h : l.length = size) (s : σ) :
    wholeBlocks f size s l = f s l := by
  rw [wholeBlocks, h, Nat.div_self hsize, chew, chew, take_of_length_le h.le]

theorem leftover_one (h : l.length = size) : leftover size l = [] := by
  rw [← length_eq_zero_iff, length_leftover, h, Nat.mod_self]

theorem wholeBlocks_cons (hsize : 0 < size) (h : a.length = size) (s : σ) (b : List α) :
    wholeBlocks f size s (a ++ b) = wholeBlocks f size (f s a) b := by
  rw [wholeBlocks_append hsize, wholeBlocks_one hsize h, leftover_one h, nil_append]

/-! ## Input as it arrives -/

/-- Taking `data` with a partial block in `buf`: the buffer is topped up and compressed, whole
blocks go straight to the compression, the rest is kept. -/
def absorb (f : σ → List α → σ) (size : Nat) (s : σ) (buf data : List α) : σ × List α :=
  if buf = [] then (wholeBlocks f size s data, leftover size data) else
    let take := min (size - buf.length) data.length
    let buf := buf ++ data.take take
    let data := data.drop take
    if buf.length < size then (s, buf) else
      (wholeBlocks f size (f s buf) data, leftover size data)

theorem absorb_eq (h : buf.length < size) (s : σ) (data : List α) : absorb f size s buf data =
      (wholeBlocks f size s (buf ++ data), leftover size (buf ++ data)) := by
  unfold absorb
  by_cases hbuf : buf = []
  · rw [if_pos hbuf, hbuf, nil_append]
  · rw [if_neg hbuf]
    simp only
    generalize htake : min (size - buf.length) data.length = take
    have hlen : (buf ++ data.take take).length = buf.length + take := by
      rw [length_append, length_take]
      omega
    by_cases hshort : (buf ++ data.take take).length < size
    · rw [if_pos hshort]
      rw [hlen] at hshort
      have hall : data.take take = data := take_of_length_le (by omega)
      have hlt : (buf ++ data).length < size := by
        rw [length_append]
        omega
      rw [wholeBlocks_short hlt, leftover_short hlt, hall]
    · rw [if_neg hshort]
      have hsize : 0 < size := by omega
      have hfull : (buf ++ data.take take).length = size := by omega
      have hsplit : buf ++ data = (buf ++ data.take take) ++ data.drop take := by
        rw [append_assoc, take_append_drop]
      rw [hsplit, wholeBlocks_cons hsize hfull, leftover_append hsize, leftover_one hfull,
        nil_append]

/-! ## The end of the input -/

variable (f size) (zero : α)

def padTo (n : Nat) (buf : List α) : List α := buf ++ List.replicate (n - buf.length) zero

/-- The state when the input ends with `buf` left over: `mark` ends it, and `field` stands at the
end of a block, of one more block when it does not fit. -/
def finish (mark : α) (field : List α) (s : σ) (buf : List α) : σ :=
  let buf := buf ++ [mark]
  if size - field.length < buf.length then
    f (f s (padTo zero size buf)) (padTo zero (size - field.length) [] ++ field)
  else f s (padTo zero (size - field.length) buf ++ field)

/-- The input with its padding: the mark, as few zeros as fill the last block, and the field. -/
def padded (mark : α) (field l : List α) : List α :=
  l ++ [mark] ++ List.replicate ((size - (l.length + 1 + field.length) % size) % size) zero ++ field

variable {f size zero} {mark : α} {field : List α}

theorem finish_eq (hfield : field.length < size) (s : σ) (l : List α) :
    finish f size zero mark field (wholeBlocks f size s l) (leftover size l) =
      wholeBlocks f size s (padded size zero mark field l) := by
  have hsize : 0 < size := by omega
  have hmod := Nat.mod_lt l.length hsize
  have hleft : (leftover size l).length = l.length % size := length_leftover l
  rw [← hleft] at hmod
  rw [padded, append_assoc, append_assoc, wholeBlocks_append hsize]
  generalize wholeBlocks f size s l = t
  generalize leftover size l = buf at *
  generalize hzeros : (size - (l.length + 1 + field.length) % size) % size = zeros
  have hlen : (l.length + 1 + field.length) % size = (buf.length + 1 + field.length) % size := by
    rw [hleft, add_assoc, add_assoc, Nat.mod_add_mod]
  rw [hlen] at hzeros
  unfold finish
  simp only [length_append, length_singleton]
  by_cases hfit : size - field.length < buf.length + 1
  · rw [if_pos hfit]
    -- the field goes to a block of its own
    have hz : zeros = (size - (buf.length + 1)) + (size - field.length) := by
      have hover : (buf.length + 1 + field.length) % size =
          buf.length + 1 + field.length - size := by
        rw [Nat.mod_eq_sub_mod (by omega), Nat.mod_eq_of_lt (by omega)]
      rw [← hzeros, hover, Nat.mod_eq_of_lt (by omega)]
      omega
    have hblock : buf ++ ([mark] ++ (replicate zeros zero ++ field)) =
        padTo zero size (buf ++ [mark]) ++ (padTo zero (size - field.length) [] ++ field) := by
      simp only [padTo, hz, replicate_add, append_assoc, nil_append, length_nil,
        length_append, length_singleton, Nat.sub_zero]
    rw [hblock, wholeBlocks_cons hsize, wholeBlocks_one hsize]
    · simp [padTo]
      omega
    · simp [padTo]
      omega
  · rw [if_neg hfit]
    have hz : zeros = size - field.length - (buf.length + 1) := by
      rw [← hzeros]
      by_cases hfull : buf.length + 1 + field.length = size
      · rw [hfull, Nat.mod_self, Nat.sub_zero, Nat.mod_self]
        omega
      · have hlt : buf.length + 1 + field.length < size := by omega
        rw [Nat.mod_eq_of_lt hlt, Nat.mod_eq_of_lt (by omega)]
        omega
    have hblock : buf ++ ([mark] ++ (replicate zeros zero ++ field)) =
        padTo zero (size - field.length) (buf ++ [mark]) ++ field := by
      simp [padTo, hz]
    rw [hblock, wholeBlocks_one hsize]
    simp [padTo]
    omega

end AdventOS.Blocks
