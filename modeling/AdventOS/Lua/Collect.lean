import AdventOS.Lua.HeapSafe

/-!
# When the collector frees nothing that is held

The roots of `gc_collect` are the globals, the active environments and the last error. The
tree and the C locals are no roots. A collection frees nothing held exactly if the roots
reach what the tree and the C locals name (`Kept`); where every collection of a run meets
this, nothing held is ever freed, and the run is the run without a collector.

* `collect_live_iff`: one collection;
* `along_iff`: all the collections of a program;
* `steps`: two machines with the same core, one of which collects, take the same steps.
-/
namespace AdventOS.Lua.Heap
open List

variable {B W : Type} {c : Core B W}

/-! ## The collector -/

/-- Nothing held is freed, and every reference is one to an object. -/
structure Inv (m : Mach B W) : Prop where
  bound : ∀ i, m.core.Ref i → i < m.core.objs.length
  live : ∀ i, m.core.Ref i → m.gc.freed i = false
  tracked : WellTracked m.core
  made : ∀ i, m.gc.freed i = true → i < m.core.objs.length

/-- The roots reach what is on the lists of the collector and named by the tree or by a
pending value. -/
def Kept (c : Core B W) : Prop :=
  ∀ i ∈ c.ast ++ c.temps.flatMap Val.refs, c.trackedAt i = true →
    ∃ r ∈ c.roots, Reaches c.refsAt r i

/-- If the collector runs now, the roots reach what it must keep. -/
def Cond (o : Op B) (m : Mach B W) : Prop :=
  (o = .collect ∨ o = .stmt ∧ m.gc.threshold ≤ m.gc.count) → m.gc.enabled = true → Kept m.core

variable {i : Nat} {m : Mach B W}

theorem mem_marked (hb : ∀ i, c.Ref i → i < c.objs.length) :
    i ∈ c.marked ↔ ∃ r ∈ c.roots, Reaches c.refsAt r i := by
  refine ⟨markAll_sound, fun h => ?_⟩
  obtain ⟨r, hr, hp⟩ := h
  refine markAll_reach (U := Finset.range c.objs.length) ?_ (fun x hx y hy => ?_) hr hp
  · rw [Finset.card_range]
    omega
  · exact Finset.mem_range.2 (hb y ⟨x, mem_held.2 (.inr (.inr hx)), hy⟩)

theorem gcCollect_freed (hb : ∀ i, c.Ref i → i < c.objs.length) (gc : Collector) (i : Nat) :
    (gcCollect c gc).freed i = true ↔ gc.freed i = true ∨
      (gc.enabled = true ∧ c.trackedAt i = true ∧ ¬ ∃ r ∈ c.roots, Reaches c.refsAt r i) := by
  rw [← mem_marked hb]
  unfold gcCollect
  split
  · rename_i he
    rw [Bool.or_eq_true, Bool.and_eq_true, Bool.not_eq_true', ← Bool.not_eq_true, contains_iff_mem]
    simp [he]
  · rename_i he
    simp [he]

theorem refsAt_untracked (hw : WellTracked c) (h : c.trackedAt i = false) : c.refsAt i = [] := by
  unfold Core.trackedAt at h
  unfold Core.refsAt
  cases hx : c.objs[i]? with
  | none => rfl
  | some x =>
    rw [hx] at h
    obtain ⟨s, hs⟩ := hw x (mem_of_getElem? hx) h
    show x.obj.refs = []
    rw [hs]
    rfl

/-- What is held behind the roots, and on a list, is what the roots reach. -/
theorem Kept.ref (hw : WellTracked c) (hk : Kept c) (h : c.Ref i)
    (ht : c.trackedAt i = true) : ∃ r ∈ c.roots, Reaches c.refsAt r i := by
  refine h.induct (P := fun i => c.trackedAt i = true → ∃ r ∈ c.roots, Reaches c.refsAt r i)
    (fun j hj ht => ?_) (fun j ih k hk _ => ?_) ht
  · obtain hj | hj := mem_append.1 hj
    · exact hk j hj ht
    · exact ⟨j, hj, .refl⟩
  · cases htj : c.trackedAt j with
    | true =>
      obtain ⟨r, hr, hp⟩ := ih htj
      exact ⟨r, hr, hp.tail hk⟩
    | false =>
      rw [refsAt_untracked hw htj] at hk
      exact absurd hk not_mem_nil

theorem collect_live_iff (h : Inv m) :
    (∀ i, m.core.Ref i → (gcCollect m.core m.gc).freed i = false) ↔
      (m.gc.enabled = true → Kept m.core) := by
  constructor
  · intro hl he i hi ht
    have href : m.core.Ref i := .of_held (mem_append_left _ hi)
    by_contra hn
    have := (gcCollect_freed h.bound m.gc i).2 (.inr ⟨he, ht, hn⟩)
    rw [hl i href] at this
    cases this
  · intro hk i hi
    rw [← Bool.not_eq_true, gcCollect_freed h.bound]
    intro hf
    obtain hf | ⟨he, ht, hn⟩ := hf
    · rw [h.live i hi] at hf
      cases hf
    · exact hn ((hk he).ref h.tracked hi ht)

theorem gcCollect_made (h : Inv m)
    (hf : (gcCollect m.core m.gc).freed i = true) : i < m.core.objs.length := by
  obtain hf | ⟨_, ht, _⟩ := (gcCollect_freed h.bound m.gc i).1 hf
  · exact h.made i hf
  · unfold Core.trackedAt at ht
    by_contra hn
    rw [getElem?_eq_none (by omega)] at ht
    cases ht

theorem Inv.of_collect (h : Inv m) (hk : m.gc.enabled = true → Kept m.core) :
    Inv ⟨m.core, gcCollect m.core m.gc⟩ :=
  ⟨h.bound, (collect_live_iff h).2 hk, h.tracked, fun _ => gcCollect_made h⟩

/-- Nothing held is freed in `m`. -/
def Live (m : Mach B W) : Prop := ∀ i, m.core.Ref i → m.gc.freed i = false

/-- The machines with and without a collector. -/
structure Same (m m' : Mach B W) : Prop where
  core : m.core = m'.core
  inv : Inv m
  off : m'.gc.enabled = false
  none : ∀ i, m'.gc.freed i = false

theorem Same.collectorOf {m' : Mach B W} (h : Same m m') (k : Nat) (o : Op B) :
    (collectorOf m'.core m'.gc k o).enabled = false ∧
      ∀ i, (collectorOf m'.core m'.gc k o).freed i = false := by
  have hoff : gcCollect m'.core m'.gc = m'.gc := by
    unfold gcCollect
    rw [if_neg]
    rw [h.off]
    exact Bool.false_ne_true
  cases o with
  | collect =>
    unfold Heap.collectorOf
    rw [hoff]
    exact ⟨h.off, h.none⟩
  | stmt =>
    unfold Heap.collectorOf gcMaybeCollect
    rw [hoff, ite_self]
    exact ⟨h.off, h.none⟩
  | _ => exact ⟨h.off, h.none⟩

/-! ## One step -/

section Steps

variable [DecidableEq B]

variable {lib : Lib B W} {o : Op B} {m : Mach B W}

theorem exec_eq (h : Inv m) :
    exec lib o m = some ((effect lib m.core o).1, ⟨(effect lib m.core o).2.1,
      collectorOf m.core m.gc (effect lib m.core o).2.2 o⟩) := by
  unfold exec
  rw [if_neg]
  intro ha
  obtain ⟨i, hi, hf⟩ := any_eq_true.1 ha
  rw [h.live i (touched_held hi)] at hf
  cases hf

theorem Inv.of_effect (h : Inv m) (lib : Lib B W) (o : Op B) {gc : Collector}
    (hgc : gc.freed = m.gc.freed) : Inv ⟨(effect lib m.core o).2.1, gc⟩ := by
  have he : Evolves m.core (effect lib m.core o).2.1 := effect_evolves lib o
  have hlen := he.len
  refine ⟨fun i hi => ?_, fun i hi => ?_, he.tracked h.tracked, fun i hi => ?_⟩
  · obtain hi | hi := he.ref i hi
    · exact lt_of_lt_of_le (h.bound i hi) hlen
    · exact hi.2
  · rw [hgc]
    obtain hi | hi := he.ref i hi
    · exact h.live i hi
    · by_contra hf
      have := h.made i (Bool.not_eq_false _ ▸ hf)
      omega
  · rw [hgc] at hi
    exact lt_of_lt_of_le (h.made i hi) hlen

theorem Inv.step (h : Inv m) (lib : Lib B W) (hc : Cond o m) :
    Inv ⟨(effect lib m.core o).2.1, collectorOf m.core m.gc (effect lib m.core o).2.2 o⟩ := by
  by_cases hcol : o = .collect
  · subst hcol
    exact h.of_collect (hc (.inl rfl))
  · by_cases hst : o = .stmt
    · subst hst
      show Inv ⟨m.core, gcMaybeCollect m.core m.gc⟩
      unfold gcMaybeCollect
      split
      · rename_i ht
        exact h.of_collect (hc (.inr ⟨rfl, ht⟩))
      · exact h
    · refine h.of_effect lib o ?_
      cases o <;> first | rfl | exact absurd rfl hcol | exact absurd rfl hst

theorem cond_of_live {n : Mach B W} {r : Obs B} (h : Inv m)
    (he : exec lib o m = some (r, n)) (hl : Live n) : Cond o m := by
  rw [exec_eq h] at he
  obtain ⟨rfl, rfl⟩ := Prod.mk.inj (Option.some.inj he)
  intro hcol
  obtain rfl | ⟨rfl, ht⟩ := hcol
  · exact (collect_live_iff h).1 hl
  · refine (collect_live_iff h).1 ?_
    have hg : collectorOf m.core m.gc (effect lib m.core .stmt).2.2 .stmt =
        gcCollect m.core m.gc := if_pos ht
    rw [hg] at hl
    exact hl

theorem steps (lib : Lib B W) : Program.Steps (exec lib) (exec lib) Cond Same := by
  intro o m m' h hc
  have hcore := h.core
  refine ⟨_, _, ⟨(effect lib m'.core o).2.1, collectorOf m'.core m'.gc
    (effect lib m'.core o).2.2 o⟩, exec_eq h.inv, ?_, ?_⟩
  · unfold exec
    rw [if_neg, hcore]
    intro ha
    obtain ⟨i, _, hf⟩ := any_eq_true.1 ha
    rw [h.none i] at hf
    cases hf
  · obtain ⟨hoff, hnone⟩ := h.collectorOf (effect lib m'.core o).2.2 o
    exact ⟨by rw [hcore], h.inv.step lib hc, hoff, hnone⟩

/-! ## Whole programs -/

theorem Inv.reached {A : Type} {p q : Program (Op B) (Obs B) A} {n : Mach B W}
    (h : Inv m) (hC : Program.Along (exec lib) Cond p m)
    (hr : Program.Reached (exec lib) p m q n) : Inv n := by
  induction hr with
  | here => exact h
  | next hr he ih =>
    rw [exec_eq ih] at he
    obtain ⟨_, rfl⟩ := Prod.mk.inj (Option.some.inj he)
    exact ih.step lib (hC.reached hr).1

/-- Nothing held is freed at any point of a program exactly if the roots reach, at each of its
collections, what the collector must keep. -/
theorem along_iff (lib : Lib B W) {A : Type} (p : Program (Op B) (Obs B) A)
    (h : Inv m) : Program.Along (exec lib) Cond p m ↔
      ∀ q n, Program.Reached (exec lib) p m q n → Live n := by
  refine ⟨fun hC q n hr => (h.reached hC hr).live, fun hl => ?_⟩
  induction p generalizing m with
  | pure a => exact trivial
  | op o k ih =>
    have hc : Cond o m := cond_of_live h (exec_eq h) (hl _ _ (.next .here (exec_eq h)))
    refine ⟨hc, fun r hr => ?_⟩
    have he : exec lib o m = some (r.1, r.2) := hr
    refine ih r.1 ?_ fun q n hq => hl q n (.trans (.next .here he) hq)
    rw [exec_eq h] at he
    obtain ⟨_, hn⟩ := Prod.mk.inj (Option.some.inj he)
    rw [← hn]
    exact h.step lib hc

end Steps

end AdventOS.Lua.Heap
