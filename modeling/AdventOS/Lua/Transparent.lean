import AdventOS.Lua.Collect
import AdventOS.Lua.Walker

/-!
# Garbage collection and the run of a Lua program

A program with the collector against the same program without it, from the start of the
interpreter on, for every text, library and threshold. They agree exactly as long as no
collection takes something that is still referred to, and a collection does so unless the
roots reach all of it (`Kept`). The tokens of the program are no roots: a collection takes
the name of every variable that no environment holds, and the next statement reads it.

* `collector_transparent_iff`;
* `collector_transparent_twice`: two statements, of which the first collects.
-/
namespace AdventOS.Lua.Heap

variable {B W : Type}

/-! ## The start -/

theorem start_ref {w : W} {t i : Nat} {on : Bool} (h : (start (B := B) w t on).core.Ref i) :
    i = 0 := by
  refine h.induct (P := fun i => i = 0) (fun j hj => ?_) fun j hj k hk => ?_
  · have hj : j ∈ [0] := hj
    exact List.mem_singleton.1 hj
  · subst hj
    exact absurd hk List.not_mem_nil

theorem start_inv (w : W) (t : Nat) (on : Bool) : Inv (start (B := B) w t on) := by
  refine ⟨fun i hi => ?_, fun _ _ => rfl, fun x hx hf => ?_, fun i hi => ?_⟩
  · rw [start_ref hi]
    exact zero_lt_one
  · obtain rfl := List.mem_singleton.1 hx
    cases hf
  · cases hi

theorem start_same (w : W) (t : Nat) : Same (start (B := B) w t true) (start w t false) :=
  ⟨rfl, start_inv w t true, rfl, fun _ => rfl⟩

/-! ## Transparency -/

section

variable [DecidableEq B]

/-- With the collector the program ends as without it, with the same output. -/
def SameResult (lib : Lib B W) (globals : List (Bytes × Entry B)) (fuel : Nat) (src : Bytes)
    (w : W) (t : Nat) : Prop :=
  ∃ o n n', Program.run (exec lib) (main lib globals fuel src) (start w t true) = some (o, n) ∧
    Program.run (exec lib) (main lib globals fuel src) (start w t false) = some (o, n') ∧
    n.core.world = n'.core.world

/-- Nothing that the tree, an active environment, a pending value or a root still refers to
is ever freed. -/
def NeverFreed (lib : Lib B W) (globals : List (Bytes × Entry B)) (fuel : Nat) (src : Bytes)
    (w : W) (t : Nat) : Prop :=
  ∀ q n, Program.Reached (exec lib) (main lib globals fuel src) (start w t true) q n → Live n

/-- At every collection of the run the roots reach what the tree and the pending values name
and the collector could take. -/
def RootsReach (lib : Lib B W) (globals : List (Bytes × Entry B)) (fuel : Nat) (src : Bytes)
    (w : W) (t : Nat) : Prop :=
  Program.Along (exec lib) Cond (main lib globals fuel src) (start w t true)

/-- For every program and every threshold, nothing that is still referred to is
ever freed, and the collector changes neither the output nor the end of the program, exactly
if the roots of each collection reach what the tree and the pending values name. -/
theorem collector_transparent_iff (lib : Lib B W) (globals : List (Bytes × Entry B))
    (fuel : Nat) (src : Bytes) (w : W) (t : Nat) :
    NeverFreed lib globals fuel src w t ∧ SameResult lib globals fuel src w t ↔
      RootsReach lib globals fuel src w t := by
  have hiff := along_iff lib (main lib globals fuel src) (start_inv (B := B) w t true)
  refine ⟨fun h => hiff.2 h.1, fun h => ⟨hiff.1 h, ?_⟩⟩
  obtain ⟨o, n, n', h1, h2, h3⟩ := Program.run_sim (steps lib) _ (start_same w t) h
  exact ⟨o, n, n', h1, h2, by rw [h3.core]⟩

end

/-! ## A program that collects twice -/

/-- The interpreter with `collectgarbage` only. -/
def collectOnly : Lib Empty Unit where
  call := fun b => b.elim
  errText := fun _ _ => []
  bits := fun _ => 0
  rightFirst := false

def collectName : Bytes :=
  word ['c', 'o', 'l', 'l', 'e', 'c', 't', 'g', 'a', 'r', 'b', 'a', 'g', 'e']

/-- `collectgarbage() collectgarbage()` -/
def collectTwice : Bytes := collectName ++ word ['(', ')', ' '] ++ collectName ++ word ['(', ')']

example : (Program.run (exec collectOnly)
      (main collectOnly [(collectName, .fn .collect)] 20 collectTwice)
      (start () 256 false)).map Prod.fst = some .done := by
  decide +kernel

/-- The first call frees the string of the second token. -/
theorem collector_transparent_twice :
    ¬ ∀ (B W : Type) (_ : DecidableEq B) (lib : Lib B W) (globals : List (Bytes × Entry B))
      (fuel : Nat) (src : Bytes) (w : W) (t : Nat), SameResult lib globals fuel src w t := by
  intro h
  obtain ⟨o, n, _, h1, _⟩ := h Empty Unit inferInstance collectOnly
    [(collectName, .fn .collect)] 20 collectTwice () 256
  have hnone : (Program.run (exec collectOnly)
      (main collectOnly [(collectName, .fn .collect)] 20 collectTwice)
      (start () 256 true)).isNone = true := by
    decide +kernel
  rw [h1] at hnone
  cases hnone

end AdventOS.Lua.Heap
