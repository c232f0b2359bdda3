import Mathlib

/-!
# Circular singly linked lists

Cells carry a `next` pointer and nothing else. `Circular next x l` says that the
pointers lead from `x` through the cells of `l`, in this order, back to `x`, with
no cell twice.

* `Circular.splice`: linking a cell in after a member adds exactly that cell;
* `Circular.findPred`: the walk from `t.next` that looks for the cell before `t`
  finds it when it may take as many turns as the ring has cells;
* `Circular.unlink`: taking the cell behind it out removes exactly that cell.
-/
namespace AdventOS
open Function List

variable {α : Type u}

/-- From `x` the pointers lead through the cells of the list to `y`. -/
def Path (next : α → Option α) : α → List α → α → Prop
  | x, [], y => next x = some y
  | x, z :: l, y => next x = some z ∧ Path next z l y

namespace Path

variable {next next' : α → Option α} {x y z : α} {l l' : List α}

theorem append (h : Path next x l y) (h' : Path next y l' z) : Path next x (l ++ y :: l') z := by
  induction l generalizing x with
  | nil => exact ⟨h, h'⟩
  | cons a l ih => exact ⟨h.1, ih h.2⟩

theorem split (h : Path next x (l ++ y :: l') z) : Path next x l y ∧ Path next y l' z := by
  induction l generalizing x with
  | nil => exact h
  | cons a l ih => exact ⟨⟨h.1, (ih h.2).1⟩, (ih h.2).2⟩

theorem reroot {x' : α} (h : Path next x l y) (h0 : next' x' = next x)
    (hl : ∀ a ∈ l, next' a = next a) : Path next' x' l y := by
  induction l generalizing x x' with
  | nil => exact h0.trans h
  | cons a l ih =>
    refine ⟨h0.trans h.1, ih h.2 (hl a mem_cons_self) ?_⟩
    intro b hb
    exact hl b (mem_cons_of_mem a hb)

theorem congr (h : Path next x l y) (hl : ∀ a ∈ x :: l, next' a = next a) : Path next' x l y :=
  h.reroot (hl x mem_cons_self) fun a ha => hl a (mem_cons_of_mem x ha)

theorem next_mem {c : α} (h : Path next x l y) (hc : c ∈ x :: l) :
    ∃ d, (d = y ∨ d ∈ l) ∧ next c = some d := by
  induction l generalizing x with
  | nil =>
    obtain rfl := mem_singleton.mp hc
    exact ⟨y, .inl rfl, h⟩
  | cons a l ih =>
    rcases mem_cons.mp hc with rfl | hc
    · exact ⟨a, .inr mem_cons_self, h.1⟩
    · obtain ⟨d, hd, hn⟩ := ih h.2 hc
      exact ⟨d, hd.imp_right (mem_cons_of_mem a), hn⟩

theorem exists_pred (h : Path next x l y) : ∃ p ∈ x :: l, next p = some y := by
  induction l generalizing x with
  | nil => exact ⟨x, mem_cons_self, h⟩
  | cons a l ih =>
    obtain ⟨p, hp, hn⟩ := ih h.2
    exact ⟨p, mem_cons_of_mem x hp, hn⟩

end Path

structure Circular (next : α → Option α) (x : α) (l : List α) : Prop where
  path : Path next x l x
  nodup : (x :: l).Nodup

namespace Circular

variable {next next' : α → Option α} {x t : α} {l : List α}

theorem congr (h : Circular next x l) (hl : ∀ a ∈ x :: l, next' a = next a) : Circular next' x l :=
  ⟨h.path.congr hl, h.nodup⟩

theorem exists_next (h : Circular next x l) {c : α} (hc : c ∈ x :: l) :
    ∃ d ∈ x :: l, next c = some d := by
  obtain ⟨d, hd, hn⟩ := h.path.next_mem hc
  exact ⟨d, mem_cons.mpr hd, hn⟩

theorem rotate (h : Circular next x l) (ht : t ∈ l) :
    ∃ l', Circular next t l' ∧ (t :: l').Perm (x :: l) := by
  obtain ⟨a, b, rfl⟩ := append_of_mem ht
  obtain ⟨h1, h2⟩ := h.path.split
  have hperm : (t :: (b ++ x :: a)).Perm (x :: (a ++ t :: b)) := by
    rw [← cons_append, ← cons_append]
    exact perm_append_comm
  exact ⟨b ++ x :: a, ⟨h2.append h1, hperm.nodup_iff.mpr h.nodup⟩, hperm⟩

section Splice

variable [DecidableEq α]

/-- Link `n` in after `c`. -/
def splice (next : α → Option α) (c n : α) : α → Option α :=
  update (update next n (next c)) c (some n)

variable {c n p : α}

theorem splice_of_ne {a : α} (hc : a ≠ c) (hn : a ≠ n) : splice next c n a = next a := by
  simp [splice, hc, hn]

theorem splice_self (next : α → Option α) (c n : α) : splice next c n c = some n := by
  simp [splice]

theorem splice_new (h : n ≠ c) : splice next c n n = next c := by
  simp [splice, h]

theorem path_splice {y : α} (h : Path next x l y) (hc : c ∈ x :: l) (hn : n ∉ x :: l)
    (hd : (x :: l).Nodup) :
    ∃ l', Path (splice next c n) x l' y ∧ (x :: l').Perm (n :: x :: l) := by
  induction l generalizing x with
  | nil =>
    obtain rfl := mem_singleton.mp hc
    have hne : n ≠ c := fun he => hn (he ▸ mem_singleton_self c)
    exact ⟨[n], ⟨splice_self _ _ _, (splice_new hne).trans h⟩, List.Perm.swap _ _ _⟩
  | cons a l ih =>
    have hnx : x ≠ n := fun he => hn (he ▸ mem_cons_self)
    have hd' := nodup_cons.mp hd
    by_cases hcx : c = x
    · subst hcx
      refine ⟨n :: a :: l, ⟨splice_self _ _ _, ?_⟩, List.Perm.swap _ _ _⟩
      refine h.reroot (splice_new hnx.symm) ?_
      intro b hb
      refine splice_of_ne (fun he => hd'.1 (he ▸ hb)) ?_
      exact fun he => hn (he ▸ mem_cons_of_mem c hb)
    · have hca : c ∈ a :: l := by
        rcases mem_cons.mp hc with he | hm
        · exact absurd he hcx
        · exact hm
      obtain ⟨l', hp, hperm⟩ := ih h.2 hca (fun hm => hn (mem_cons_of_mem x hm)) hd'.2
      refine ⟨a :: l', ⟨(splice_of_ne (fun he => hcx he.symm) hnx).trans h.1, hp⟩, ?_⟩
      exact (List.Perm.cons x hperm).trans (List.Perm.swap _ _ _)

theorem splice_circular (h : Circular next x l) (hc : c ∈ x :: l) (hn : n ∉ x :: l) :
    ∃ l', Circular (splice next c n) x l' ∧ (x :: l').Perm (n :: x :: l) := by
  obtain ⟨l', hp, hperm⟩ := path_splice h.path hc hn h.nodup
  exact ⟨l', ⟨hp, hperm.nodup_iff.mpr (nodup_cons.mpr ⟨hn, h.nodup⟩)⟩, hperm⟩

/-- The walk `while (p && p != t && p->next != t && safety--) p = p->next`. -/
def findPred (next : α → Option α) (t : α) : Nat → Option α → Option α
  | _, none => none
  | 0, some p => some p
  | safety + 1, some p =>
    if p = t ∨ next p = some t then some p else findPred next t safety (next p)

theorem findPred_path {n : Nat} (h : Path next p l t) (hlen : l.length ≤ n) (ht : t ∉ p :: l) :
    ∃ q ∈ p :: l, findPred next t n (some p) = some q ∧ next q = some t := by
  induction l generalizing p n with
  | nil =>
    refine ⟨p, mem_cons_self, ?_, h⟩
    cases n with
    | zero => rfl
    | succ n =>
      have hp : next p = some t := h
      rw [findPred, if_pos (.inr hp)]
  | cons a l ih =>
    cases n with
    | zero => simp at hlen
    | succ n =>
      have hpt : p ≠ t := fun he => ht (he ▸ mem_cons_self)
      have hat : next p ≠ some t := by
        rw [h.1]
        exact fun he => ht (Option.some.inj he ▸ mem_cons_of_mem p mem_cons_self)
      obtain ⟨q, hq, hf, hn⟩ := ih h.2 (Nat.le_of_succ_le_succ hlen)
        (fun hm => ht (mem_cons_of_mem p hm))
      refine ⟨q, mem_cons_of_mem p hq, ?_, hn⟩
      rw [findPred, if_neg (by rintro (he | he) <;> contradiction), h.1]
      exact hf

theorem findPred_circular (h : Circular next x l) (ht : t ∈ l) {n : Nat} (hlen : l.length ≤ n) :
    ∃ p ∈ x :: l, p ≠ t ∧ findPred next t n (next t) = some p ∧ next p = some t := by
  obtain ⟨l', hr, hperm⟩ := h.rotate ht
  have hlen' : l'.length = l.length := by simpa using hperm.length_eq
  cases l' with
  | nil =>
    -- the ring would have one cell, but `x` and `t` are two
    have hx : x ∈ [t] := hperm.mem_iff.mpr mem_cons_self
    obtain rfl := mem_singleton.mp hx
    exact absurd ht (nodup_cons.mp h.nodup).1
  | cons a l' =>
    have hnd := nodup_cons.mp hr.nodup
    obtain ⟨q, hq, hf, hn⟩ := findPred_path (n := n) hr.path.2
      (by simp only [length_cons] at hlen'; omega) hnd.1
    refine ⟨q, hperm.mem_iff.mp (mem_cons_of_mem t hq), ?_, ?_, hn⟩
    · exact fun he => hnd.1 (he ▸ hq)
    · rw [hr.path.1]
      exact hf

theorem path_unlink {y : α} (h : Path next x l y) (hp : p ∈ x :: l) (hn : next p = some t)
    (ht : t ∈ l) (hty : t ≠ y) (hd : (x :: l).Nodup) :
    Path (update next p (next t)) x (l.erase t) y := by
  induction l generalizing x with
  | nil => cases ht
  | cons a l ih =>
    have hd' := nodup_cons.mp hd
    by_cases hpx : p = x
    · subst hpx
      have hat : a = t := Option.some.inj (h.1.symm.trans hn)
      subst hat
      rw [erase_cons_head]
      refine h.2.reroot (by simp) ?_
      intro b hb
      have hbp : b ≠ p := fun he => hd'.1 (he ▸ mem_cons_of_mem a hb)
      rw [update_of_ne hbp]
    · have hpa : p ∈ a :: l := by
        rcases mem_cons.mp hp with he | hm
        · exact absurd he hpx
        · exact hm
      -- from a later cell the pointers never lead back to `a`
      have hat : a ≠ t := by
        rintro rfl
        obtain ⟨d, hd1, hd2⟩ := h.2.next_mem hpa
        obtain rfl : a = d := Option.some.inj (hn.symm.trans hd2)
        rcases hd1 with he | hm
        · exact hty he
        · exact (nodup_cons.mp hd'.2).1 hm
      have htl : t ∈ l := by
        rcases mem_cons.mp ht with he | hm
        · exact absurd he.symm hat
        · exact hm
      rw [erase_cons_tail (by simpa using hat)]
      refine ⟨?_, ih h.2 hpa htl hd'.2⟩
      rw [update_of_ne (fun he => hpx he.symm)]
      exact h.1

theorem unlink_circular (h : Circular next x l) (hp : p ∈ x :: l)
    (hn : next p = some t) (ht : t ∈ l) :
    Circular (update next p (next t)) x (l.erase t) := by
  have hx := nodup_cons.mp h.nodup
  have htx : t ≠ x := fun he => hx.1 (he ▸ ht)
  refine ⟨path_unlink h.path hp hn ht htx h.nodup, nodup_cons.mpr ⟨?_, hx.2.erase t⟩⟩
  exact fun hm => hx.1 (mem_of_mem_erase hm)

end Splice

end Circular

end AdventOS
