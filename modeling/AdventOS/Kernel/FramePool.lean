import AdventOS.Kernel.Pmm

/-!
# Taking pages from the allocator and giving them back

What a caller of `pmm_alloc_page` and `pmm_free_page` can rely on: `Drawn s s' L` says that
`s'` is `s` with the pages of the list `L` taken.

* `allocPage_none_iff`: the allocator answers NULL exactly when nothing is free;
* `Drawn.alloc`, `Drawn.free`: one page more, one page less;
* `Drawn.restore`: giving back every page taken, in any order, restores the allocator.
-/
namespace AdventOS.Kernel.Pmm
open Function List

def IsFree (s : Pages) (p : Nat) : Prop := p ≠ 0 ∧ p < s.total ∧ s.bitmap p = false

instance (s : Pages) (p : Nat) : Decidable (IsFree s p) := by
  unfold IsFree
  infer_instance

def freeCount (s : Pages) : Nat := ((Finset.range s.total).filter (IsFree s)).card

/-! ## `pmm_alloc_page` finds a page when there is one -/

theorem scanByte_complete {s : Pages} {byte n bit p : Nat} (hp : IsFree s p)
    (hlo : byte * 8 + bit ≤ p) (hhi : p < byte * 8 + bit + n) :
    ∃ q, scanByte s byte n bit = some (some q) := by
  induction n generalizing bit with
  | zero => omega
  | succ n ih =>
    obtain ⟨h0, ht, hb⟩ := hp
    unfold scanByte
    dsimp only
    split
    · exact ih (by omega) (by omega)
    · split
      · omega
      · split
        · exact ⟨_, rfl⟩
        · rename_i hset
          have hne : byte * 8 + bit ≠ p := by
            intro heq
            rw [heq] at hset
            exact hset hb
          exact ih (by omega) (by omega)

theorem scan_complete {s : Pages} {n byte p : Nat} (hp : IsFree s p) (hlo : byte * 8 ≤ p)
    (hhi : p < (byte + n) * 8) : ∃ q, scan s n byte = some q := by
  induction n generalizing byte with
  | zero => omega
  | succ n ih =>
    unfold scan
    by_cases hin : p < (byte + 1) * 8
    · have hnot : ¬ (range 8).all (fun bit => s.bitmap (byte * 8 + bit)) = true := by
        intro hall
        have := all_eq_true.1 hall (p - byte * 8) (mem_range.2 (by omega))
        rw [show byte * 8 + (p - byte * 8) = p by omega, hp.2.2] at this
        cases this
      rw [if_neg hnot]
      obtain ⟨q, hq⟩ := @scanByte_complete s byte 8 0 p hp hlo (by omega)
      rw [hq]
      exact ⟨q, rfl⟩
    · obtain ⟨q, hq⟩ := @ih (byte + 1) (by omega) (by omega)
      split
      · exact ⟨q, hq⟩
      · split
        · rename_i r hr
          -- a byte before the page's own never ends the search
          cases r with
          | some r => exact ⟨r, rfl⟩
          | none =>
            exfalso
            have hend : ∀ k bit, scanByte s byte k bit = some none → bit + k ≤ 8 → False := by
              intro k
              induction k with
              | zero => intro bit h; cases h
              | succ k ihk =>
                intro bit h hle
                unfold scanByte at h
                dsimp only at h
                split at h
                · exact ihk _ h (by omega)
                · split at h
                  · have := hp.2.1
                    omega
                  · split at h
                    · cases h
                    · exact ihk _ h (by omega)
            exact hend 8 0 hr (by omega)
        · exact ⟨q, hq⟩

theorem allocPage_none_iff {s : Pages} : (allocPage s).2 = none ↔ ∀ p, ¬ IsFree s p := by
  constructor
  · intro h p hp
    obtain ⟨q, hq⟩ := @scan_complete s ((s.total + 7) / 8) 0 p hp (by omega)
      (by have := hp.2.1; omega)
    unfold allocPage at h
    rw [hq] at h
    cases h
  · intro h
    rcases allocPage_spec s with hs | ⟨p, h0, ht, hb, -⟩
    · rw [hs]
    · exact absurd ⟨h0, ht, hb⟩ (h p)

theorem freeCount_eq_zero_iff {s : Pages} : freeCount s = 0 ↔ ∀ p, ¬ IsFree s p := by
  unfold freeCount
  rw [Finset.card_eq_zero, Finset.filter_eq_empty_iff]
  constructor
  · intro h p hp
    exact h (Finset.mem_range.2 hp.2.1) hp
  · intro h p _
    exact h p

/-! ## The pages taken -/

/-- `s'` is `s` after the pages of `L` were taken. -/
structure Drawn (s s' : Pages) (L : List Nat) : Prop where
  nodup : L.Nodup
  free : ∀ p ∈ L, IsFree s p
  total : s'.total = s.total
  bitmap : ∀ p, s'.bitmap p = (s.bitmap p || decide (p ∈ L))
  used : s'.used = s.used + L.length

variable {s s' : Pages} {L L' : List Nat}

theorem Drawn.refl (s : Pages) : Drawn s s [] := by
  refine ⟨nodup_nil, fun _ h => absurd h not_mem_nil, rfl, fun p => ?_, rfl⟩
  simp

theorem Drawn.perm (h : Drawn s s' L) (hp : L.Perm L') : Drawn s s' L' := by
  refine ⟨hp.nodup_iff.1 h.nodup, fun p hm => h.free p (hp.mem_iff.2 hm), h.total, fun p => ?_, ?_⟩
  · rw [h.bitmap p]
    simp [hp.mem_iff]
  · rw [h.used, hp.length_eq]

theorem Drawn.isFree_iff (h : Drawn s s' L) {p : Nat} : IsFree s' p ↔ IsFree s p ∧ p ∉ L := by
  unfold IsFree
  rw [h.total, h.bitmap]
  simp only [Bool.or_eq_false_iff, decide_eq_false_iff_not]
  tauto

theorem Drawn.freeCount_add (h : Drawn s s' L) : freeCount s' + L.length = freeCount s := by
  have hsplit : (Finset.range s.total).filter (IsFree s) =
      (Finset.range s'.total).filter (IsFree s') ∪ L.toFinset := by
    ext p
    simp only [Finset.mem_filter, Finset.mem_range, Finset.mem_union, mem_toFinset,
      h.isFree_iff, h.total]
    constructor
    · intro ⟨hlt, hp⟩
      by_cases hL : p ∈ L
      · exact .inr hL
      · exact .inl ⟨hlt, hp, hL⟩
    · intro hp
      cases hp with
      | inl hp => exact ⟨hp.1, hp.2.1⟩
      | inr hp => exact ⟨(h.free p hp).2.1, h.free p hp⟩
  have hdisj : Disjoint ((Finset.range s'.total).filter (IsFree s')) L.toFinset := by
    rw [Finset.disjoint_left]
    intro p hp hL
    exact (h.isFree_iff.1 (Finset.mem_filter.1 hp).2).2 (mem_toFinset.1 hL)
  unfold freeCount
  rw [hsplit, Finset.card_union_of_disjoint hdisj, toFinset_card_of_nodup h.nodup]

theorem Drawn.alloc (h : Drawn s s' L) {p : Nat} (hp : (allocPage s').2 = some p) :
    Drawn s (allocPage s').1 (p :: L) := by
  rcases allocPage_spec s' with hs | ⟨q, h0, ht, hb, hs⟩
  · rw [hs] at hp
    cases hp
  · rw [hs] at hp ⊢
    have hq : q = p := by simpa using hp
    rw [hq] at h0 ht hb ⊢
    have hfree : IsFree s p ∧ p ∉ L := h.isFree_iff.1 ⟨h0, ht, hb⟩
    refine ⟨nodup_cons.2 ⟨hfree.2, h.nodup⟩, ?_, ?_, ?_, ?_⟩
    · intro q hq
      cases mem_cons.1 hq with
      | inl hq => exact hq ▸ hfree.1
      | inr hq => exact h.free q hq
    · unfold setBits setBits
      rw [hb]
      exact h.total
    · intro r
      unfold setBits setBits
      rw [hb]
      simp only [Bool.false_eq_true, if_false]
      by_cases hr : r = p
      · rw [hr, update_self]
        simp
      · rw [update_of_ne hr, h.bitmap]
        simp [hr]
    · unfold setBits setBits
      rw [hb]
      simp only [Bool.false_eq_true, if_false, length_cons]
      rw [h.used]
      omega

theorem Drawn.free_page (h : Drawn s s' L) {p : Nat} (hp : p ∈ L) :
    Drawn s (freePage s' (p * pmmPageSize)) (L.erase p) := by
  have hf := h.free p hp
  have hset : s'.bitmap p = true := by
    rw [h.bitmap]
    simp [hp]
  have hlen := length_erase_of_mem hp
  have hpos := length_pos_of_mem hp
  unfold freePage
  rw [if_neg (by simp), Nat.mul_div_cancel _ (by decide : 0 < pmmPageSize)]
  rw [if_pos ⟨by rw [h.total]; exact hf.2.1, hset⟩]
  refine ⟨h.nodup.erase p, fun q hq => h.free q (mem_of_mem_erase hq), h.total, ?_, ?_⟩
  · intro q
    dsimp only
    by_cases hq : q = p
    · rw [hq, update_self, hf.2.2]
      simp [h.nodup.not_mem_erase]
    · rw [update_of_ne hq, h.bitmap]
      simp [mem_erase_of_ne hq]
  · dsimp only
    rw [h.used, hlen]
    omega

theorem Drawn.eq_of_nil (h : Drawn s s' []) : s' = s := by
  obtain ⟨b, t, u⟩ := s
  obtain ⟨b', t', u'⟩ := s'
  have hb : b' = b := by
    funext p
    have := h.bitmap p
    simpa using this
  have ht : t' = t := h.total
  have hu : u' = u := h.used
  rw [hb, ht, hu]

def freeAll (s : Pages) (L : List Nat) : Pages :=
  L.foldl (fun s p => freePage s (p * pmmPageSize)) s

theorem Drawn.restore (h : Drawn s s' L) : freeAll s' L = s := by
  induction L generalizing s' with
  | nil => exact h.eq_of_nil
  | cons p L ih =>
    have hp := h.free_page (p := p) mem_cons_self
    rw [erase_cons_head] at hp
    exact ih hp

end AdventOS.Kernel.Pmm
