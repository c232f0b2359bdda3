import Mathlib

/-!
# `qsort` (`libc/stdlib.c`)

The sort moves bytes and compares records, in place. `recOf` reads the memory as records;
`Moves` says that one memory is another with the records of a range rearranged, by a permutation
of their indices, and composes.

* `qsortSwap_rec`: the byte loop exchanges two records;
* `partitionLoop_spec`: the loop invariant of the partition;
* `qsort_sorts`: the elements are rearranged into non-decreasing order.
-/
namespace AdventOS.Libc.Qsort
open Function

/-- The memory from `base` on. -/
abbrev Mem := Nat → UInt8

abbrev Cmp := List UInt8 → List UInt8 → Int

/-- The record that `base + k * sz` points to. -/
def recOf (sz : Nat) (m : Mem) (k : Nat) : List UInt8 := (List.range sz).map fun b => m (k * sz + b)

/-- stdlib.c:258-260 -/
def qsortSwap : (m : Mem) → (a b sz : Nat) → Mem
  | m, _, _, 0 => m
  | m, a, b, sz + 1 =>
    qsortSwap (update (update m a (m b)) b (m a)) (a + 1) (b + 1) sz

/-- The partition loop from `j` on with `n` rounds left; `k` is the source's `i + 1`.
stdlib.c:266-271 -/
def partitionLoop (cmp : Cmp) (sz hi : Nat) : (n j k : Nat) → Mem → Nat × Mem
  | 0, _, k, m => (k, m)
  | n + 1, j, k, m =>
    if cmp (recOf sz m j) (recOf sz m hi) ≤ 0 then
      partitionLoop cmp sz hi n (j + 1) (k + 1)
        (if k ≠ j then qsortSwap m (k * sz) (j * sz) sz else m)
    else partitionLoop cmp sz hi n (j + 1) k m

theorem partitionLoop_bounds (cmp : Cmp) (sz hi : Nat) (n j k : Nat) (m : Mem) :
    k ≤ (partitionLoop cmp sz hi n j k m).1 ∧ (partitionLoop cmp sz hi n j k m).1 ≤ k + n := by
  induction n generalizing j k m with
  | zero => exact ⟨le_refl k, le_refl k⟩
  | succ n ih =>
    unfold partitionLoop
    split
    · obtain ⟨h1, h2⟩ := ih (j + 1) (k + 1) (if k ≠ j then qsortSwap m (k * sz) (j * sz) sz else m)
      omega
    · obtain ⟨h1, h2⟩ := ih (j + 1) k m
      omega

/-- stdlib.c:261-276 -/
def qsortInner (cmp : Cmp) (sz lo : Nat) (hi : Int) (m : Mem) : Mem :=
  if (lo : Int) ≥ hi then m
  else
    let r := partitionLoop cmp sz hi.toNat (hi - lo).toNat lo lo m
    let m' := if r.1 ≠ hi.toNat then qsortSwap r.2 (r.1 * sz) (hi.toNat * sz) sz else r.2
    qsortInner cmp sz (r.1 + 1) hi (qsortInner cmp sz lo (r.1 - 1) m')
termination_by (hi - lo).toNat
decreasing_by
  all_goals
    have := partitionLoop_bounds cmp sz hi.toNat (hi - lo).toNat lo lo m
    omega

/-- `(int)` of a `size_t`. -/
def toInt (n : Nat) : Int := (n : Int).bmod (2 ^ 32)

/-- stdlib.c:277-281 -/
def qsort (m : Mem) (nm sz : Nat) (cmp : Option Cmp) : Mem :=
  match cmp with
  | none => m
  | some cmp => if nm < 2 ∨ sz = 0 then m else qsortInner cmp sz 0 (toInt nm - 1) m

/-! ## Records -/

variable {cmp : Cmp} {m m' m'' : Mem} {sz lo hi a b i j k n x : Nat}

theorem qsortSwap_apply (h : a + sz ≤ b ∨ b + sz ≤ a) (p : Nat) :
    qsortSwap m a b sz p = if a ≤ p ∧ p < a + sz then m (b + (p - a))
      else if b ≤ p ∧ p < b + sz then m (a + (p - b)) else m p := by
  induction sz generalizing m a b with
  | zero =>
    rw [if_neg (by omega), if_neg (by omega)]
    rfl
  | succ sz ih =>
    rw [qsortSwap, ih (by omega)]
    grind

theorem recOf_eq (h : ∀ b, b < sz → m (i * sz + b) = m' (j * sz + b)) :
    recOf sz m i = recOf sz m' j :=
  List.map_congr_left fun b hb => h b (List.mem_range.mp hb)

theorem qsortSwap_rec (hij : i ≠ j) (x : Nat) :
    recOf sz (qsortSwap m (i * sz) (j * sz) sz) x = recOf sz m (Equiv.swap i j x) := by
  have hsep : ∀ {u v : Nat}, u ≠ v → u * sz + sz ≤ v * sz ∨ v * sz + sz ≤ u * sz := by
    intro u v huv
    rcases Nat.lt_or_gt_of_ne huv with h | h
    · exact .inl ((Nat.succ_mul u sz).symm.le.trans (Nat.mul_le_mul_right sz h))
    · exact .inr ((Nat.succ_mul v sz).symm.le.trans (Nat.mul_le_mul_right sz h))
  have hab := hsep hij
  refine recOf_eq fun b hb => ?_
  rw [qsortSwap_apply hab]
  by_cases hi : x = i
  · rw [hi, Equiv.swap_apply_left, if_pos (by omega)]
    congr 1
    omega
  · have hxi := hsep hi
    rw [if_neg (by omega)]
    by_cases hj : x = j
    · rw [hj, Equiv.swap_apply_right, if_pos (by omega)]
      congr 1
      omega
    · have hxj := hsep hj
      rw [if_neg (by omega), Equiv.swap_apply_of_ne_of_ne hi hj]

/-- `m'` is `m` with the records of `[lo, hi)` rearranged. -/
def Moves (sz lo hi : Nat) (m m' : Mem) : Prop :=
  ∃ σ : Equiv.Perm Nat, (∀ x, x < lo ∨ hi ≤ x → σ x = x) ∧ ∀ x, recOf sz m' x = recOf sz m (σ x)

theorem Moves.refl : Moves sz lo hi m m := ⟨1, fun _ _ => rfl, fun _ => rfl⟩

theorem Moves.trans (h : Moves sz lo hi m m') (h' : Moves sz lo hi m' m'') :
    Moves sz lo hi m m'' := by
  obtain ⟨σ, hσ, h⟩ := h
  obtain ⟨τ, hτ, h'⟩ := h'
  refine ⟨σ * τ, fun x hx => ?_, fun x => (h' x).trans (h (τ x))⟩
  rw [Equiv.Perm.mul_apply, hτ x hx, hσ x hx]

theorem Moves.mono (h : Moves sz a b m m') (ha : lo ≤ a) (hb : b ≤ hi) : Moves sz lo hi m m' := by
  obtain ⟨σ, hσ, h⟩ := h
  exact ⟨σ, fun x hx => hσ x (by omega), h⟩

theorem Moves.same (h : Moves sz lo hi m m') (hx : x < lo ∨ hi ≤ x) :
    recOf sz m' x = recOf sz m x := by
  obtain ⟨σ, hσ, h⟩ := h
  rw [h, hσ x hx]

theorem Moves.inside (h : Moves sz lo hi m m') (h1 : lo ≤ x) (h2 : x < hi) :
    ∃ y, lo ≤ y ∧ y < hi ∧ recOf sz m' x = recOf sz m y := by
  obtain ⟨σ, hσ, h⟩ := h
  refine ⟨σ x, ?_, ?_, h x⟩ <;>
  · by_contra hc
    have := σ.injective (hσ (σ x) (by omega))
    omega

theorem Moves.exchange (hi' : lo ≤ i ∧ i < hi) (hj : lo ≤ j ∧ j < hi) :
    Moves sz lo hi m (if i ≠ j then qsortSwap m (i * sz) (j * sz) sz else m) := by
  split_ifs with hne
  · refine ⟨Equiv.swap i j, fun x hx => ?_, qsortSwap_rec hne⟩
    exact Equiv.swap_apply_of_ne_of_ne (by omega) (by omega)
  · exact .refl

theorem exchange_rec (x : Nat) :
    recOf sz (if i ≠ j then qsortSwap m (i * sz) (j * sz) sz else m) x =
      recOf sz m (Equiv.swap i j x) := by
  split_ifs with hne
  · exact qsortSwap_rec hne x
  · rw [not_not.mp hne, Equiv.swap_self]
    rfl

/-! ## Partition -/

/-- Below `k` the records are at most the pivot, from `k` to `j` they are not. -/
structure Split (cmp : Cmp) (sz lo k j hi : Nat) (m : Mem) : Prop where
  le : ∀ x, lo ≤ x → x < k → cmp (recOf sz m x) (recOf sz m hi) ≤ 0
  gt : ∀ x, k ≤ x → x < j → ¬ cmp (recOf sz m x) (recOf sz m hi) ≤ 0

theorem partitionLoop_spec (hlo : lo ≤ k) (hk : k ≤ j) (hj : j + n = hi)
    (h : Split cmp sz lo k j hi m) :
    let r := partitionLoop cmp sz hi n j k m
    Moves sz lo hi m r.2 ∧ Split cmp sz lo r.1 hi hi r.2 := by
  induction n generalizing j k m with
  | zero =>
    obtain rfl : j = hi := hj
    exact ⟨.refl, h⟩
  | succ n ih =>
    unfold partitionLoop
    split
    · rename_i hle
      have hmoves : Moves sz lo hi m (if k ≠ j then qsortSwap m (k * sz) (j * sz) sz else m) :=
        .exchange (by omega) (by omega)
      have hpivot := hmoves.same (x := hi) (.inr (le_refl hi))
      have hsplit : Split cmp sz lo (k + 1) (j + 1) hi
          (if k ≠ j then qsortSwap m (k * sz) (j * sz) sz else m) := by
        refine ⟨fun x h1 h2 => ?_, fun x h1 h2 => ?_⟩
        · rw [hpivot, exchange_rec]
          by_cases hx : x = k
          · rw [hx, Equiv.swap_apply_left]
            exact hle
          · rw [Equiv.swap_apply_of_ne_of_ne hx (by omega)]
            exact h.le x h1 (by omega)
        · rw [hpivot, exchange_rec]
          -- the record that gave up its place to record `j` was not below the pivot either
          by_cases hx : x = j
          · rw [hx, Equiv.swap_apply_right]
            exact h.gt k (le_refl k) (by omega)
          · rw [Equiv.swap_apply_of_ne_of_ne (by omega) hx]
            exact h.gt x (by omega) (by omega)
      obtain ⟨h1, h2⟩ := ih (by omega) (by omega) (by omega) hsplit
      exact ⟨hmoves.trans h1, h2⟩
    · rename_i hgt
      refine ih hlo (by omega) (by omega) ⟨h.le, fun x h1 h2 => ?_⟩
      by_cases hx : x = j
      · rw [hx]
        exact hgt
      · exact h.gt x h1 (by omega)

/-! ## The sort -/

/-- The comparison is a total preorder on the records `[lo, hi)`. -/
structure Orders (cmp : Cmp) (sz lo hi : Nat) (m : Mem) : Prop where
  total : ∀ x y, lo ≤ x → x < hi → lo ≤ y → y < hi →
    cmp (recOf sz m x) (recOf sz m y) ≤ 0 ∨ cmp (recOf sz m y) (recOf sz m x) ≤ 0
  trans : ∀ x y z, lo ≤ x → x < hi → lo ≤ y → y < hi → lo ≤ z → z < hi →
    cmp (recOf sz m x) (recOf sz m y) ≤ 0 → cmp (recOf sz m y) (recOf sz m z) ≤ 0 →
    cmp (recOf sz m x) (recOf sz m z) ≤ 0

theorem Orders.mono (h : Orders cmp sz lo hi m) (ha : lo ≤ a) (hb : b ≤ hi) : Orders cmp sz a b m :=
  ⟨fun x y h1 h2 h3 h4 => h.total x y (by omega) (by omega) (by omega) (by omega),
    fun x y z h1 h2 h3 h4 h5 h6 => h.trans x y z (by omega) (by omega) (by omega) (by omega)
      (by omega) (by omega)⟩

theorem Orders.moves (h : Orders cmp sz lo hi m) (hm : Moves sz lo hi m m') :
    Orders cmp sz lo hi m' := by
  refine ⟨fun x y h1 h2 h3 h4 => ?_, fun x y z h1 h2 h3 h4 h5 h6 => ?_⟩
  · obtain ⟨x', hx1, hx2, hx⟩ := hm.inside h1 h2
    obtain ⟨y', hy1, hy2, hy⟩ := hm.inside h3 h4
    rw [hx, hy]
    exact h.total x' y' hx1 hx2 hy1 hy2
  · obtain ⟨x', hx1, hx2, hx⟩ := hm.inside h1 h2
    obtain ⟨y', hy1, hy2, hy⟩ := hm.inside h3 h4
    obtain ⟨z', hz1, hz2, hz⟩ := hm.inside h5 h6
    rw [hx, hy, hz]
    exact h.trans x' y' z' hx1 hx2 hy1 hy2 hz1 hz2

/-- The records of `[lo, hi)` are in non-decreasing order. -/
def Sorted (cmp : Cmp) (sz lo hi : Nat) (m : Mem) : Prop :=
  ∀ x y, lo ≤ x → x < y → y < hi → cmp (recOf sz m x) (recOf sz m y) ≤ 0

theorem qsortInner_spec (hlo : lo ≤ hi) (h : Orders cmp sz lo hi m) :
    Moves sz lo hi m (qsortInner cmp sz lo (hi - 1) m) ∧
      Sorted cmp sz lo hi (qsortInner cmp sz lo (hi - 1) m) := by
  generalize hd : hi - lo = d
  induction d using Nat.strong_induction_on generalizing lo hi m with
  | _ d ih =>
    rw [qsortInner]
    split
    · exact ⟨.refl, fun x y h1 h2 h3 => by omega⟩
    obtain ⟨p, rfl⟩ : ∃ p, hi = p + 1 := ⟨hi - 1, by omega⟩
    have hp : ((p + 1 : Nat) - 1 : Int) = p := by omega
    simp only [hp, Int.toNat_natCast, show ((p : Int) - lo).toNat = p - lo by omega]
    obtain ⟨hmoves, hsplit⟩ := partitionLoop_spec (Nat.le_refl lo) (Nat.le_refl lo)
      (show lo + (p - lo) = p by omega) (show Split cmp sz lo lo lo p m from
        ⟨fun x h1 h2 => by omega, fun x h1 h2 => by omega⟩)
    have hbounds := partitionLoop_bounds cmp sz p (p - lo) lo lo m
    generalize partitionLoop cmp sz p (p - lo) lo lo m = r at hmoves hsplit hbounds ⊢
    obtain ⟨k, m₁⟩ := r
    have hk1 : lo ≤ k := hbounds.1
    have hk2 : k ≤ p := by omega
    -- the pivot comes to stand between the two parts
    generalize hm₂ : (if k ≠ p then qsortSwap m₁ (k * sz) (p * sz) sz else m₁) = m₂
    have hmoves₂ : Moves sz lo (p + 1) m m₂ := by
      rw [← hm₂]
      exact (hmoves.mono (Nat.le_refl lo) (Nat.le_succ p)).trans (.exchange (by omega) (by omega))
    have hrec : ∀ x, recOf sz m₂ x = recOf sz m₁ (Equiv.swap k p x) := fun x => by
      rw [← hm₂, exchange_rec]
    have hord := h.moves hmoves₂
    have hleft : ∀ x, lo ≤ x → x < k → cmp (recOf sz m₂ x) (recOf sz m₂ k) ≤ 0 := by
      intro x h1 h2
      rw [hrec, hrec, Equiv.swap_apply_left, Equiv.swap_apply_of_ne_of_ne (by omega) (by omega)]
      exact hsplit.le x h1 h2
    have hright : ∀ x, k < x → x < p + 1 → cmp (recOf sz m₂ k) (recOf sz m₂ x) ≤ 0 := by
      intro x h1 h2
      refine (hord.total k x hk1 (by omega) (by omega) h2).resolve_right ?_
      rw [hrec k, hrec x, Equiv.swap_apply_left]
      by_cases hx : x = p
      · rw [hx, Equiv.swap_apply_right]
        exact hsplit.gt k (Nat.le_refl k) (by omega)
      · rw [Equiv.swap_apply_of_ne_of_ne (by omega) hx]
        exact hsplit.gt x (by omega) (by omega)
    -- the two recursive calls, each on its part
    obtain ⟨hm₃, hs₃⟩ := ih (k - lo) (by omega) hk1 (hord.mono (Nat.le_refl lo) (by omega)) rfl
    generalize qsortInner cmp sz lo (k - 1) m₂ = m₃ at hm₃ hs₃ ⊢
    have hm₃' := hm₃.mono (Nat.le_refl lo) (show k ≤ p + 1 by omega)
    obtain ⟨hm₄, hs₄⟩ := ih (p + 1 - (k + 1)) (by omega) (show k + 1 ≤ p + 1 by omega)
      ((hord.moves hm₃').mono (by omega) (Nat.le_refl _)) rfl
    rw [hp] at hm₄ hs₄
    generalize qsortInner cmp sz (k + 1) p m₃ = m₄ at hm₄ hs₄ ⊢
    have hall := (hmoves₂.trans hm₃').trans (hm₄.mono (by omega) (Nat.le_refl _))
    refine ⟨hall, fun x y h1 h2 h3 => ?_⟩
    have hpivot : recOf sz m₄ k = recOf sz m₂ k :=
      (hm₄.same (.inl (Nat.lt_succ_self k))).trans (hm₃.same (.inr (Nat.le_refl k)))
    have hle : ∀ x, lo ≤ x → x < k → cmp (recOf sz m₄ x) (recOf sz m₄ k) ≤ 0 := by
      intro x h1 h2
      obtain ⟨z, hz1, hz2, hz⟩ := hm₃.inside h1 h2
      rw [hpivot, hm₄.same (.inl (by omega)), hz]
      exact hleft z hz1 hz2
    have hge : ∀ y, k < y → y < p + 1 → cmp (recOf sz m₄ k) (recOf sz m₄ y) ≤ 0 := by
      intro y h1 h2
      obtain ⟨z, hz1, hz2, hz⟩ := hm₄.inside h1 h2
      rw [hpivot, hz, hm₃.same (.inr (by omega))]
      exact hright z hz1 hz2
    rcases Nat.lt_trichotomy x k with hx | rfl | hx
    · rcases Nat.lt_trichotomy y k with hy | rfl | hy
      · rw [hm₄.same (.inl (by omega)), hm₄.same (.inl (by omega))]
        exact hs₃ x y h1 h2 hy
      · exact hle x h1 hx
      · exact (h.moves hall).trans x k y h1 (by omega) hk1 (by omega) (by omega) h3 (hle x h1 hx)
          (hge y hy h3)
    · exact hge y h2 h3
    · exact hs₄ x y hx h2 h3

/-- An array in a program's memory: the kernel has at most 2^16 frames of 4096 bytes.
pmm.c:16 -/
structure Elements where
  nm : Nat
  sz : Nat
  pos : 0 < sz
  fits : nm * sz ≤ 2 ^ 16 * 4096

theorem Elements.nm_lt (e : Elements) : e.nm < 2 ^ 31 := by
  have := Nat.le_mul_of_pos_right e.nm e.pos
  have := e.fits
  omega

/-- For every array and every comparison that is a total preorder on its elements,
`qsort` leaves the elements in non-decreasing order, rearranged as whole records, and no record
beyond them has changed. -/
theorem qsort_sorts (e : Elements) (h : Orders cmp e.sz 0 e.nm m) :
    Moves e.sz 0 e.nm m (qsort m e.nm e.sz (some cmp)) ∧
      Sorted cmp e.sz 0 e.nm (qsort m e.nm e.sz (some cmp)) := by
  unfold qsort
  dsimp only
  split
  · have hpos := e.pos
    exact ⟨.refl, fun x y h1 h2 h3 => by omega⟩
  · have hnm := e.nm_lt
    have hint : toInt e.nm = e.nm := by
      unfold toInt
      rw [Int.bmod_def]
      omega
    rw [hint]
    exact qsortInner_spec (Nat.zero_le _) h

/-- Two records of a byte, compared as numbers. -/
theorem qsort_sorts_bytes : Sorted (fun a b => (a.headD 0).toNat - (b.headD 0).toNat) 1 0 2
      (qsort (fun p => if p = 0 then 7 else 3) 2 1
        (some fun a b => (a.headD 0).toNat - (b.headD 0).toNat)) :=
  (qsort_sorts ⟨2, 1, by decide, by decide⟩
    ⟨fun x y _ _ _ _ => by omega, fun x y z _ _ _ _ _ _ h1 h2 => by omega⟩).2

end AdventOS.Libc.Qsort
