import Mathlib

/-!
# Page frames as bytes and as words

Physical memory as frames of bytes, with the little-endian 32-bit words a page table is made
of. A frame's number is its address over the page size.

* `word_setWord`: a stored word is read back, and every other word stays.
-/
namespace AdventOS
open Function

/-- Frame number, then offset in the frame. -/
abbrev Frames := Nat → Nat → UInt8

namespace Frames

def word (m : Frames) (f i : Nat) : Nat :=
  (m f (4 * i)).toNat + 256 * (m f (4 * i + 1)).toNat + 65536 * (m f (4 * i + 2)).toNat +
    16777216 * (m f (4 * i + 3)).toNat

def setWord (m : Frames) (f i v : Nat) : Frames :=
  update m f fun o => if o / 4 = i then UInt8.ofNat (v / 256 ^ (o % 4)) else m f o

def zero (m : Frames) (f : Nat) : Frames := update m f fun _ => 0

def copy (m : Frames) (dst src : Nat) : Frames := update m dst (m src)

/-- The bytes written from offset `o` of frame `f` on; they run on into the next frames. -/
def write (m : Frames) (f o : Nat) (bs : List UInt8) : Frames := fun g x =>
  if x < 4096 ∧ f * 4096 + o ≤ g * 4096 + x ∧ g * 4096 + x < f * 4096 + o + bs.length then
    bs.getD (g * 4096 + x - (f * 4096 + o)) 0
  else m g x

variable {m m' : Frames} {f g i j v : Nat}

theorem word_lt (m : Frames) (f i : Nat) : m.word f i < 2 ^ 32 := by
  unfold word
  have h0 := (m f (4 * i)).toNat_lt
  have h1 := (m f (4 * i + 1)).toNat_lt
  have h2 := (m f (4 * i + 2)).toNat_lt
  have h3 := (m f (4 * i + 3)).toNat_lt
  omega

theorem word_congr (h : m f = m' f) (i : Nat) : m.word f i = m'.word f i := by
  unfold word
  rw [h]

theorem setWord_of_ne (h : g ≠ f) : m.setWord f i v g = m g := update_of_ne h _ m

theorem word_setWord_self (hv : v < 2 ^ 32) : (m.setWord f i v).word f i = v := by
  unfold word setWord
  have hbyte : ∀ k < 4, (update m f (fun o => if o / 4 = i then
      .ofNat (v / 256 ^ (o % 4)) else m f o) f (4 * i + k)).toNat = v / 256 ^ k % 256 := by
    intro k hk
    rw [update_self, if_pos (by omega), show (4 * i + k) % 4 = k by omega, UInt8.toNat_ofNat']
  rw [← Nat.add_zero (4 * i), hbyte 0 (by omega), add_zero, hbyte 1 (by omega),
    hbyte 2 (by omega), hbyte 3 (by omega)]
  omega

theorem word_setWord_of_ne (h : j ≠ i) : (m.setWord f i v).word f j = m.word f j := by
  unfold word setWord
  have hbyte : ∀ k < 4, update m f (fun o => if o / 4 = i then
      .ofNat (v / 256 ^ (o % 4)) else m f o) f (4 * j + k) = m f (4 * j + k) := by
    intro k hk
    rw [update_self, if_neg (by omega)]
  have h0 := hbyte 0 (by omega)
  rw [add_zero] at h0
  rw [h0, hbyte 1 (by omega), hbyte 2 (by omega), hbyte 3 (by omega)]

theorem word_setWord (hv : v < 2 ^ 32) :
    (m.setWord f i v).word g j = if g = f ∧ j = i then v else m.word g j := by
  by_cases hg : g = f
  · rw [hg]
    by_cases hj : j = i
    · rw [hj, if_pos ⟨rfl, rfl⟩]
      exact word_setWord_self hv
    · rw [if_neg fun h => hj h.2]
      exact word_setWord_of_ne hj
  · rw [if_neg fun h => hg h.1]
    exact word_congr (setWord_of_ne hg) j

theorem setWord_word (m : Frames) (f i : Nat) : m.setWord f i (m.word f i) = m := by
  refine update_eq_self_iff.2 ?_
  funext o
  split
  · rename_i ho
    have hbyte : ∀ k < 4, .ofNat (m.word f i / 256 ^ k) = m f (4 * i + k) := by
      intro k hk
      have h0 := (m f (4 * i)).toNat_lt
      have h1 := (m f (4 * i + 1)).toNat_lt
      have h2 := (m f (4 * i + 2)).toNat_lt
      have h3 := (m f (4 * i + 3)).toNat_lt
      rw [← UInt8.toNat_inj, UInt8.toNat_ofNat']
      unfold word
      obtain rfl | rfl | rfl | rfl : k = 0 ∨ k = 1 ∨ k = 2 ∨ k = 3 := by omega
      · simp only [add_zero, pow_zero, Nat.div_one]
        omega
      · omega
      · omega
      · omega
    rw [hbyte _ (Nat.mod_lt _ (by decide)), ← ho, Nat.div_add_mod]
  · rfl

@[simp] theorem word_zero_self : (m.zero f).word f i = 0 := by
  unfold word zero
  rw [update_self]
  rfl

theorem zero_of_ne (h : g ≠ f) : m.zero f g = m g := update_of_ne h _ m

theorem write_eq_update {o : Nat} {bs : List UInt8} (h : o + bs.length ≤ 4096) :
    m.write f o bs = update m f fun x =>
      if o ≤ x ∧ x < o + bs.length then bs.getD (x - o) 0 else m f x := by
  funext g x
  unfold write
  by_cases hg : g = f
  · rw [hg, update_self]
    by_cases hx : o ≤ x ∧ x < o + bs.length
    · rw [if_pos hx, if_pos (by omega)]
      congr 1
      omega
    · rw [if_neg hx, if_neg (by omega)]
  · rw [update_of_ne hg, if_neg (by omega)]

theorem copy_self : m.copy f g f = m g := update_self ..

theorem copy_of_ne {d : Nat} (h : g ≠ d) : m.copy d f g = m g := update_of_ne h _ m

end Frames

end AdventOS
