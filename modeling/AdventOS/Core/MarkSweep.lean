import Mathlib

/-!
# Marking a graph

The recursive marking of a mark-sweep collector over any graph: `refs` gives the edges, and
a node that is marked is not entered again. The recursion is on a fuel that stands for the
depth of the calls; a fuel above the number of nodes is enough.

* `markAll_reach`: everything reachable from the roots is marked;
* `markAll_sound`: nothing else is.
-/
namespace AdventOS
open List

universe u

variable {I : Type u} [DecidableEq I]

/-- The nodes marked behind `x`, when those of `m` are marked already. -/
def mark (refs : I → List I) : Nat → List I → I → List I
  | 0, m, _ => m
  | n + 1, m, x => if x ∈ m then m else (refs x).foldl (mark refs n) (x :: m)

def markAll (refs : I → List I) (n : Nat) (roots : List I) : List I := roots.foldl (mark refs n) []

def Reaches (refs : I → List I) : I → I → Prop := Relation.ReflTransGen fun x y => y ∈ refs x

/-- From `m` to `m'` only nodes have come whose edges lead into `m'`. -/
structure Grown (refs : I → List I) (m m' : List I) : Prop where
  sub : ∀ y ∈ m, y ∈ m'
  closed : ∀ y ∈ m', y ∉ m → ∀ z ∈ refs y, z ∈ m'

variable {refs : I → List I}

omit [DecidableEq I] in
theorem Grown.refl (m : List I) : Grown refs m m := ⟨fun _ h => h, fun _ h h' => absurd h h'⟩

variable {m : List I} {U : Finset I} {n : Nat}

omit [DecidableEq I] in
theorem Grown.trans {m' m'' : List I} (h : Grown refs m m') (h' : Grown refs m' m'') :
    Grown refs m m'' := by
  refine ⟨fun y hy => h'.sub y (h.sub y hy), fun y hy hn z hz => ?_⟩
  by_cases hm : y ∈ m'
  · exact h'.sub z (h.closed y hm hn z hz)
  · exact h'.closed y hy hm z hz

def unmarked (U : Finset I) (m : List I) : Nat := (U.filter fun x => x ∉ m).card

theorem unmarked_anti (U : Finset I) {m' : List I} (h : ∀ y ∈ m, y ∈ m') :
    unmarked U m' ≤ unmarked U m :=
  Finset.card_le_card fun x hx => by
    rw [Finset.mem_filter] at hx ⊢
    exact ⟨hx.1, fun hm => hx.2 (h x hm)⟩

theorem unmarked_cons {x : I} (hx : x ∈ U) (hm : x ∉ m) : unmarked U (x :: m) < unmarked U m := by
  refine Finset.card_lt_card (Finset.ssubset_iff_of_subset (fun y hy => ?_) |>.2 ⟨x, ?_, ?_⟩)
  · rw [Finset.mem_filter] at hy ⊢
    exact ⟨hy.1, fun h => hy.2 (mem_cons_of_mem _ h)⟩
  · exact Finset.mem_filter.2 ⟨hx, hm⟩
  · exact fun h => (Finset.mem_filter.1 h).2 mem_cons_self

/-- What marking one node does, for the nodes that lead into `U`. -/
def MarksWell (refs : I → List I) (U : Finset I) (n : Nat) : Prop :=
  ∀ m x, (∀ y, Reaches refs x y → y ∈ U) → unmarked U m < n →
    Grown refs m (mark refs n m x) ∧ x ∈ mark refs n m x

theorem MarksWell.fold (h : MarksWell refs U n) (l : List I) :
    ∀ {m : List I}, (∀ x ∈ l, ∀ y, Reaches refs x y → y ∈ U) → unmarked U m < n →
      Grown refs m (l.foldl (mark refs n) m) ∧ ∀ x ∈ l, x ∈ l.foldl (mark refs n) m := by
  induction l with
  | nil => exact fun _ _ => ⟨.refl _, fun x hx => absurd hx not_mem_nil⟩
  | cons a l ih =>
    intro m hl hm
    obtain ⟨hg, ha⟩ := h m a (hl a mem_cons_self) hm
    obtain ⟨hg', hl'⟩ := ih (fun x hx => hl x (mem_cons_of_mem _ hx))
      (lt_of_le_of_lt (unmarked_anti U hg.sub) hm)
    refine ⟨hg.trans hg', fun x hx => ?_⟩
    obtain rfl | hx := mem_cons.1 hx
    · exact hg'.sub _ ha
    · exact hl' x hx

theorem marksWell (U : Finset I) (n : Nat) : MarksWell refs U n := by
  induction n with
  | zero => exact fun _ _ _ h => absurd h (Nat.not_lt_zero _)
  | succ n ih =>
    intro m x hx hm
    unfold mark
    split
    · rename_i h
      exact ⟨.refl m, h⟩
    · rename_i h
      have hlt := unmarked_cons (hx x .refl) h
      obtain ⟨hg, hr⟩ := ih.fold (refs x) (m := x :: m)
        (fun z hz y hy => hx y (.head hz hy)) (by omega)
      refine ⟨⟨fun y hy => hg.sub y (mem_cons_of_mem _ hy), fun y hy hn z hz => ?_⟩,
        hg.sub x mem_cons_self⟩
      by_cases hyx : y = x
      · subst hyx
        exact hr z hz
      · refine hg.closed y hy (fun hc => ?_) z hz
        obtain rfl | hc := mem_cons.1 hc
        · exact hyx rfl
        · exact hn hc

theorem markAll_reach {roots : List I} (hn : U.card < n)
    (hU : ∀ x ∈ roots, ∀ y, Reaches refs x y → y ∈ U) {x y : I} (hx : x ∈ roots)
    (hy : Reaches refs x y) : y ∈ markAll refs n roots := by
  have hcard : unmarked U [] < n := lt_of_le_of_lt (Finset.card_filter_le _ _) hn
  obtain ⟨hg, hr⟩ := (marksWell U n).fold roots hU hcard
  induction hy with
  | refl => exact hr x hx
  | tail _ hz ih => exact hg.closed _ ih not_mem_nil _ hz

omit [DecidableEq I] in
theorem forall_mem_foldl {P : I → Prop} {f : List I → I → List I}
    (hf : ∀ m x, (∀ y ∈ m, P y) → P x → ∀ y ∈ f m x, P y) (l : List I) :
    ∀ {m : List I}, (∀ x ∈ l, P x) → (∀ y ∈ m, P y) → ∀ y ∈ l.foldl f m, P y := by
  induction l with
  | nil => exact fun _ hm => hm
  | cons a l ih =>
    intro m hl hm
    exact ih (fun x hx => hl x (mem_cons_of_mem _ hx)) (hf m a hm (hl a mem_cons_self))

theorem mark_sound {P : I → Prop} (hP : ∀ x, P x → ∀ y ∈ refs x, P y) (n : Nat) :
    ∀ m x, (∀ y ∈ m, P y) → P x → ∀ y ∈ mark refs n m x, P y := by
  induction n with
  | zero => exact fun _ _ hm _ => hm
  | succ n ih =>
    intro m x hm hx
    unfold mark
    split
    · exact hm
    · refine forall_mem_foldl ih (refs x) (hP x hx) fun y hy => ?_
      obtain rfl | hy := mem_cons.1 hy
      · exact hx
      · exact hm y hy

theorem markAll_sound {roots : List I} {y : I} (hy : y ∈ markAll refs n roots) :
    ∃ x ∈ roots, Reaches refs x y := by
  refine forall_mem_foldl (P := fun y => ∃ x ∈ roots, Reaches refs x y) (mark_sound ?_ n) roots
    (fun x hx => ⟨x, hx, .refl⟩) (fun y hy => absurd hy not_mem_nil) y hy
  intro x hx y hy
  obtain ⟨r, hr, hp⟩ := hx
  exact ⟨r, hr, hp.tail hy⟩

end AdventOS
