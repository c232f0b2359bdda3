import Mathlib

/-!
# A 32-bit byte-addressed memory

Little-endian words over a flat address space `UInt32 → UInt8`. Addresses wrap
modulo 2^32 like the pointers they model, so every side condition below is on
the distance `(x - a).toNat` and holds for all bases.

* `load_store_self`: a word stored in a block is read back at its offset;
* `load_store_sep`: a word that does not meet the block is unchanged.
-/
namespace AdventOS

abbrev Mem := UInt32 → UInt8

namespace Mem

/-- Byte `i` (0 = least significant) of a word. -/
def byteOf (w : UInt32) (i : Nat) : UInt8 := UInt8.ofNat (w.toNat / 256 ^ i)

def load (m : Mem) (a : UInt32) : UInt32 :=
  UInt32.ofNat ((m a).toNat + 256 * (m (a + 1)).toNat + 256 ^ 2 * (m (a + 2)).toNat
    + 256 ^ 3 * (m (a + 3)).toNat)

/-- Store consecutive words from address `a` up. -/
def store (m : Mem) (a : UInt32) (ws : List UInt32) : Mem := fun x =>
  if (x - a).toNat < 4 * ws.length then
    byteOf (ws.getD ((x - a).toNat / 4) 0) ((x - a).toNat % 4)
  else m x

theorem byteOf_toNat (w : UInt32) (i : Nat) : (byteOf w i).toNat = w.toNat / 256 ^ i % 256 := by
  simp [byteOf]

variable {m : Mem} {a x : UInt32} {i : Nat} {ws : List UInt32}

theorem load_eq {w : UInt32} (h0 : m a = byteOf w 0) (h1 : m (a + 1) = byteOf w 1)
    (h2 : m (a + 2) = byteOf w 2) (h3 : m (a + 3) = byteOf w 3) : m.load a = w := by
  unfold load
  rw [h0, h1, h2, h3]
  simp only [byteOf_toNat]
  have hw := UInt32.toNat_lt w
  rw [← UInt32.toNat_inj, UInt32.toNat_ofNat']
  omega

theorem offset_toNat {d : Nat} (hx : (x - a).toNat = d) (h : d + i < 2 ^ 32) :
    (x + UInt32.ofNat i - a).toNat = d + i := by
  rw [UInt32.toNat_sub] at hx
  rw [UInt32.toNat_sub, UInt32.toNat_add, UInt32.toNat_ofNat']
  omega

theorem store_word {k : Nat} (hk : k < ws.length)
    (hi : i < 4) (hlen : 4 * ws.length ≤ 2 ^ 32) (hx : (x - a).toNat = 4 * k) :
    m.store a ws (x + UInt32.ofNat i) = byteOf ws[k] i := by
  have hd := offset_toNat (i := i) hx (by omega)
  unfold store
  rw [hd, if_pos (by omega)]
  have h1 : (4 * k + i) / 4 = k := by omega
  have h2 : (4 * k + i) % 4 = i := by omega
  rw [h1, h2, List.getD_eq_getElem?_getD, List.getElem?_eq_getElem hk, Option.getD_some]

theorem load_store_self {k : Nat} (hk : k < ws.length)
    (hlen : 4 * ws.length ≤ 2 ^ 32) (hx : (x - a).toNat = 4 * k) :
    (m.store a ws).load x = ws[k] := by
  apply load_eq
  · simpa using store_word (i := 0) hk (by omega) hlen hx
  · exact store_word (i := 1) hk (by omega) hlen hx
  · exact store_word (i := 2) hk (by omega) hlen hx
  · exact store_word (i := 3) hk (by omega) hlen hx

theorem store_sep {d : Nat}
    (hx : (x - a).toNat = d) (hlo : 4 * ws.length ≤ d) (hhi : d + i < 2 ^ 32) :
    m.store a ws (x + UInt32.ofNat i) = m (x + UInt32.ofNat i) := by
  unfold store
  rw [offset_toNat hx hhi, if_neg (by omega)]

theorem load_store_sep (hlo : 4 * ws.length ≤ (x - a).toNat) (hhi : (x - a).toNat + 4 ≤ 2 ^ 32) :
    (m.store a ws).load x = m.load x := by
  unfold load
  have h0 := store_sep (m := m) (i := 0) rfl hlo (by omega)
  have h1 := store_sep (m := m) (i := 1) rfl hlo (by omega)
  have h2 := store_sep (m := m) (i := 2) rfl hlo (by omega)
  have h3 := store_sep (m := m) (i := 3) rfl hlo (by omega)
  rw [show UInt32.ofNat 0 = 0 from rfl, UInt32.add_zero] at h0
  rw [h0, show (1 : UInt32) = .ofNat 1 from rfl, h1, show (2 : UInt32) = .ofNat 2 from rfl,
    h2, show (3 : UInt32) = .ofNat 3 from rfl, h3]

end Mem

end AdventOS
