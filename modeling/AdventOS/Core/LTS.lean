import Mathlib

/-!
# Labelled transition systems

A system is a predicate of initial states and a step relation carrying a
label. Everything a component's modules say about whole executions is an
instance of the rules here:

* `LTS.Inductive.reachable`: an inductive predicate holds of every reachable
  state;
* `LTS.Run.induct`: a predicate kept by every step is kept by every run;
* `LTS.Run.rel`: a preorder that every step respects is respected by every run;
* `LTS.restrict`: the same system with only the steps that meet a condition,
  which is how a result says "in every run whose steps all meet it".
-/
namespace AdventOS

structure LTS (S : Type u) (L : Type v) where
  init : S → Prop
  step : S → L → S → Prop

namespace LTS

variable {S : Type u} {L : Type v} (M : LTS S L)

/-- The system of a step function: `none` means the step is not enabled. -/
def ofFn (init : S → Prop) (f : S → L → Option S) : LTS S L where
  init := init
  step s l s' := f s l = some s'

@[simp] theorem ofFn_init {init : S → Prop} {f : S → L → Option S} :
    (ofFn init f).init = init := rfl

@[simp] theorem ofFn_step {init : S → Prop} {f : S → L → Option S} {s s' : S} {l : L} :
    (ofFn init f).step s l s' ↔ f s l = some s' := Iff.rfl

/-- The steps of `M` that meet `C` (a condition on the state before the step
and on the label). -/
def restrict (C : S → L → Prop) : LTS S L where
  init := M.init
  step s l s' := C s l ∧ M.step s l s'

/-- `Run s ls s'`: from `s` the labels `ls`, in this order, lead to `s'`. -/
inductive Run : S → List L → S → Prop
  | nil (s : S) : Run s [] s
  | cons {s t s' : S} {l : L} {ls : List L} : M.step s l t → Run t ls s' → Run s (l :: ls) s'

def Reachable (s : S) : Prop := ∃ s₀ ls, M.init s₀ ∧ M.Run s₀ ls s

/-- `P` holds initially and every step keeps it. -/
structure Inductive (P : S → Prop) : Prop where
  init : ∀ s, M.init s → P s
  step : ∀ s l s', P s → M.step s l s' → P s'

variable {M}

theorem Run.single {s s' : S} {l : L} (h : M.step s l s') : M.Run s [l] s' := .cons h (.nil _)

theorem Run.append {s t s' : S} {ls ms : List L} (h : M.Run s ls t) (h' : M.Run t ms s') :
    M.Run s (ls ++ ms) s' := by
  induction h with
  | nil => exact h'
  | cons hs _ ih => exact .cons hs (ih h')

theorem Run.snoc {s t s' : S} {ls : List L} {l : L} (h : M.Run s ls t) (hs : M.step t l s') :
    M.Run s (ls ++ [l]) s' :=
  h.append (.single hs)

theorem Run.nil_iff {s s' : S} : M.Run s [] s' ↔ s' = s := by
  constructor
  · intro h; cases h; rfl
  · rintro rfl; exact .nil _

theorem Run.cons_iff {s s' : S} {l : L} {ls : List L} :
    M.Run s (l :: ls) s' ↔ ∃ t, M.step s l t ∧ M.Run t ls s' := by
  constructor
  · intro h
    cases h with
    | cons hs hr => exact ⟨_, hs, hr⟩
  · rintro ⟨t, hs, hr⟩
    exact .cons hs hr

theorem Run.induct {P : S → Prop} (hstep : ∀ s l s', P s → M.step s l s' → P s')
    {s s' : S} {ls : List L} (h : M.Run s ls s') (hs : P s) : P s' := by
  induction h with
  | nil => exact hs
  | cons h1 _ ih => exact ih (hstep _ _ _ hs h1)

/-- A reflexive and transitive relation that every step from a `P`-state
respects is respected by every run from a `P`-state. -/
theorem Run.rel {P : S → Prop} {R : S → S → Prop} (hrefl : ∀ s, R s s)
    (htrans : ∀ a b c, R a b → R b c → R a c)
    (hP : ∀ s l s', P s → M.step s l s' → P s')
    (hstep : ∀ s l s', P s → M.step s l s' → R s s')
    {s s' : S} {ls : List L} (h : M.Run s ls s') (hs : P s) : R s s' := by
  induction h with
  | nil => exact hrefl _
  | cons h1 _ ih => exact htrans _ _ _ (hstep _ _ _ hs h1) (ih (hP _ _ _ hs h1))

theorem Reachable.init {s : S} (h : M.init s) : M.Reachable s := ⟨s, [], h, .nil s⟩

theorem Reachable.run {s s' : S} {ls : List L} (h : M.Reachable s) (hr : M.Run s ls s') :
    M.Reachable s' := by
  obtain ⟨s₀, ms, h0, hm⟩ := h
  exact ⟨s₀, ms ++ ls, h0, hm.append hr⟩

theorem Reachable.step {s s' : S} {l : L} (h : M.Reachable s) (hs : M.step s l s') :
    M.Reachable s' :=
  h.run (.single hs)

theorem Inductive.run {P : S → Prop} (hP : M.Inductive P) {s s' : S} {ls : List L}
    (h : M.Run s ls s') (hs : P s) : P s' :=
  h.induct hP.step hs

theorem Inductive.reachable {P : S → Prop} (hP : M.Inductive P) (s : S) (h : M.Reachable s) :
    P s := by
  obtain ⟨s₀, ls, h0, hr⟩ := h
  exact hP.run hr (hP.init s₀ h0)

theorem Inductive.and {P Q : S → Prop} (hP : M.Inductive P)
    (hinit : ∀ s, M.init s → Q s) (hstep : ∀ s l s', P s → Q s → M.step s l s' → Q s') :
    M.Inductive fun s => P s ∧ Q s where
  init s h := ⟨hP.init s h, hinit s h⟩
  step s l s' h hs := ⟨hP.step s l s' h.1 hs, hstep s l s' h.1 h.2 hs⟩

theorem Run.of_restrict {C : S → L → Prop} {s s' : S} {ls : List L}
    (h : (M.restrict C).Run s ls s') : M.Run s ls s' := by
  induction h with
  | nil => exact .nil _
  | cons hs _ ih => exact .cons hs.2 ih

theorem Reachable.of_restrict {C : S → L → Prop} {s : S} (h : (M.restrict C).Reachable s) :
    M.Reachable s := by
  obtain ⟨s₀, ls, h0, hr⟩ := h
  exact ⟨s₀, ls, h0, hr.of_restrict⟩

theorem Reachable.weaken {C C' : S → L → Prop} (hC : ∀ s l, C s l → C' s l) {s : S}
    (h : (M.restrict C).Reachable s) : (M.restrict C').Reachable s := by
  obtain ⟨s₀, ls, h0, hr⟩ := h
  refine ⟨s₀, ls, h0, ?_⟩
  clear h0
  induction hr with
  | nil => exact .nil _
  | cons hs _ ih => exact .cons ⟨hC _ _ hs.1, hs.2⟩ ih

theorem Run.to_restrict {C : S → L → Prop} {s s' : S} {ls : List L} (h : M.Run s ls s')
    (hC : ∀ l ∈ ls, ∀ s, C s l) : (M.restrict C).Run s ls s' := by
  induction h with
  | nil => exact .nil _
  | cons hs _ ih =>
    exact .cons ⟨hC _ List.mem_cons_self _, hs⟩ (ih fun l hl => hC l (List.mem_cons_of_mem _ hl))

/-- Running a step function over a list of labels. -/
def exec (f : S → L → Option S) : S → List L → Option S
  | s, [] => some s
  | s, l :: ls => (f s l).bind fun t => exec f t ls

theorem run_of_exec {init : S → Prop} {f : S → L → Option S} {s s' : S} {ls : List L}
    (h : exec f s ls = some s') : (ofFn init f).Run s ls s' := by
  induction ls generalizing s with
  | nil => cases h; exact .nil _
  | cons l ls ih =>
    obtain ⟨t, ht, h'⟩ := Option.bind_eq_some_iff.mp h
    exact .cons ht (ih h')

/-- The step function that checks a condition first. -/
def guarded (C : S → L → Prop) [∀ s l, Decidable (C s l)] (f : S → L → Option S) (s : S) (l : L) :
    Option S :=
  if C s l then f s l else none

theorem run_restrict_of_exec {init : S → Prop} {f : S → L → Option S} {C : S → L → Prop}
    [∀ s l, Decidable (C s l)] {s s' : S} {ls : List L}
    (h : exec (guarded C f) s ls = some s') :
    ((ofFn init f).restrict C).Run s ls s' := by
  induction ls generalizing s with
  | nil => cases h; exact .nil _
  | cons l ls ih =>
    obtain ⟨t, ht, h'⟩ := Option.bind_eq_some_iff.mp h
    unfold guarded at ht
    split at ht
    · rename_i hc
      exact .cons ⟨hc, ht⟩ (ih h')
    · cases ht

end LTS

end AdventOS
