import Mathlib

/-!
# Programs over the operations of a machine

A program performs one operation after the other and decides by the results how to go on.
An operation of a machine gives a result and the next state, or `none` where it traps.
Whatever holds of every operation holds of every program: a property of the machine is
proved for its operations once, and every program written with them has it.

* `Program.run_sim`: two machines whose operations stay related, under a condition on the steps,
  end a program with the same value.
-/
namespace AdventOS

universe u v w x

/-- A program over operations `O` with results in `R`. -/
inductive Program (O : Type u) (R : Type v) (A : Type w) : Type (max u v w)
  | pure (a : A)
  | op (o : O) (k : R → Program O R A)

namespace Program

variable {O : Type u} {R : Type v} {A B : Type w} {M M' : Type x}

def bind (p : Program O R A) (f : A → Program O R B) : Program O R B :=
  match p with
  | .pure a => f a
  | .op o k => .op o fun r => (k r).bind f

instance : Monad (Program O R) where
  pure := .pure
  bind := .bind

def perform (o : O) : Program O R R := .op o .pure

/-- What a program ends with, and where. -/
def run (exec : O → M → Option (R × M)) : Program O R A → M → Option (A × M)
  | .pure a, m => some (a, m)
  | .op o k, m => (exec o m).bind fun r => run exec (k r.1) r.2

/-- `p` at `m` comes to `q` at `n`. -/
inductive Reached (exec : O → M → Option (R × M)) (p : Program O R A) (m : M) :
    Program O R A → M → Prop
  | here : Reached exec p m p m
  | next {o : O} {k : R → Program O R A} {n n' : M} {r : R} :
    Reached exec p m (.op o k) n → exec o n = some (r, n') → Reached exec p m (k r) n'

/-- Every operation that `p` performs from `m` on meets the condition. -/
def Along (exec : O → M → Option (R × M)) (C : O → M → Prop) : Program O R A → M → Prop
  | .pure _, _ => True
  | .op o k, m => C o m ∧ ∀ r ∈ exec o m, Along exec C (k r.1) r.2

variable {exec : O → M → Option (R × M)} {exec' : O → M' → Option (R × M')}
  {C : O → M → Prop} {Rel : M → M' → Prop}

theorem Reached.trans {p q r : Program O R A} {m n t : M} (h : Reached exec p m q n)
    (h' : Reached exec q n r t) : Reached exec p m r t := by
  induction h' with
  | here => exact h
  | next _ he ih => exact ih.next he

theorem Along.reached {p q : Program O R A} {m n : M} (h : Along exec C p m)
    (hr : Reached exec p m q n) : Along exec C q n := by
  induction hr with
  | here => exact h
  | next _ he ih => exact ih.2 _ he

/-- Under the condition no operation of the first machine traps, and both give the same
result and stay related. -/
def Steps (exec : O → M → Option (R × M)) (exec' : O → M' → Option (R × M'))
    (C : O → M → Prop) (Rel : M → M' → Prop) : Prop :=
  ∀ o m m', Rel m m' → C o m →
    ∃ r n n', exec o m = some (r, n) ∧ exec' o m' = some (r, n') ∧ Rel n n'

theorem run_sim (hs : Steps exec exec' C Rel) (p : Program O R A) :
    ∀ {m : M} {m' : M'}, Rel m m' → Along exec C p m →
      ∃ a n n', run exec p m = some (a, n) ∧ run exec' p m' = some (a, n') ∧ Rel n n' := by
  induction p with
  | pure a => exact fun hrel _ => ⟨a, _, _, rfl, rfl, hrel⟩
  | op o k ih =>
    intro m m' hrel hC
    obtain ⟨r, n, n', h1, h2, h3⟩ := hs o m m' hrel hC.1
    obtain ⟨a, t, t', h4, h5, h6⟩ := ih r h3 (hC.2 (r, n) h1)
    refine ⟨a, t, t', ?_, ?_, h6⟩
    · rw [run, h1]
      exact h4
    · rw [run, h2]
      exact h5

end Program

end AdventOS
