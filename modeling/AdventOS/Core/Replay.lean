import AdventOS.Core.LTS

/-!
# Replaying a run of a step function

`LTS.after f s l` is the state after the step `l`, so that a state of a concrete run can be named
by the labels that lead to it; `Reachable.after` and `Reachable.careful` show that it is reached.
-/
namespace AdventOS.LTS

variable {S : Type u} {L : Type v} {init : S → Prop} {f : S → L → Option S}

/-- The state after a step, if the step is enabled. -/
def after (f : S → L → Option S) (s : S) (l : L) : S := (f s l).getD s

def replay (f : S → L → Option S) (s : S) (ls : List L) : S := ls.foldl (after f) s

theorem eq_after {s : S} {l : L} (h : (f s l).isSome = true) : f s l = some (after f s l) := by
  unfold after
  cases hs : f s l with
  | none => rw [hs] at h; cases h
  | some t => rfl

theorem Reachable.after {s : S} (l : L) (h : (ofFn init f).Reachable s)
    (hs : (f s l).isSome = true) : (ofFn init f).Reachable (after f s l) :=
  h.step (eq_after hs)

theorem Reachable.careful {C : S → L → Prop} {s : S} (l : L)
    (h : ((ofFn init f).restrict C).Reachable s) (hc : C s l) (hs : (f s l).isSome = true) :
    ((ofFn init f).restrict C).Reachable (LTS.after f s l) :=
  h.step ⟨hc, eq_after hs⟩

def enabled (f : S → L → Option S) : S → List L → Bool
  | _, [] => true
  | s, l :: ls => (f s l).isSome && enabled f (after f s l) ls

theorem Reachable.replay {s : S} (ls : List L) (h : (ofFn init f).Reachable s)
    (hs : enabled f s ls = true) : (ofFn init f).Reachable (replay f s ls) := by
  induction ls generalizing s with
  | nil => exact h
  | cons l ls ih =>
    rw [enabled, Bool.and_eq_true] at hs
    exact ih (h.after l hs.1) hs.2

end AdventOS.LTS
