import Mathlib

/-!
# Lines

A stream of symbols in which a separator ends a line: the complete lines of what has arrived,
and the line that is still unfinished. Nothing depends on how the stream was cut into pieces.

* `lines_append`, `unfinished_append`: what more input adds.
* `lines_cons`: the first line of a stream.
* `fields`: the pieces between separators, the last one included.
-/
namespace AdventOS.Lines
open List

variable {α : Type u} [DecidableEq α] (sep : α)

/-- The lines completed by the input when `cur` stands before it. -/
def linesFrom (cur : List α) : List α → List (List α)
  | [] => []
  | c :: cs => if c = sep then cur :: linesFrom [] cs else linesFrom (cur ++ [c]) cs

def unfinishedFrom (cur : List α) : List α → List α
  | [] => cur
  | c :: cs => if c = sep then unfinishedFrom [] cs else unfinishedFrom (cur ++ [c]) cs

def lines (xs : List α) : List (List α) := linesFrom sep [] xs

def unfinished (xs : List α) : List α := unfinishedFrom sep [] xs

variable {sep} {xs ys : List α}

theorem linesFrom_append (cur xs ys : List α) : linesFrom sep cur (xs ++ ys) =
      linesFrom sep cur xs ++ linesFrom sep (unfinishedFrom sep cur xs) ys := by
  induction xs generalizing cur with
  | nil => rfl
  | cons c cs ih =>
    simp only [cons_append, linesFrom, unfinishedFrom]
    split
    · rw [ih, cons_append]
    · exact ih _

theorem unfinishedFrom_append (cur xs ys : List α) :
    unfinishedFrom sep cur (xs ++ ys) = unfinishedFrom sep (unfinishedFrom sep cur xs) ys := by
  induction xs generalizing cur with
  | nil => rfl
  | cons c cs ih =>
    simp only [cons_append, unfinishedFrom]
    split
    · exact ih _
    · exact ih _

theorem from_of_notMem (cur : List α) (h : sep ∉ xs) :
    linesFrom sep cur xs = [] ∧ unfinishedFrom sep cur xs = cur ++ xs := by
  induction xs generalizing cur with
  | nil => exact ⟨rfl, (append_nil _).symm⟩
  | cons c cs ih =>
    have hne : ¬c = sep := fun he => ne_of_not_mem_cons h he.symm
    obtain ⟨h1, h2⟩ := ih (cur ++ [c]) (not_mem_of_not_mem_cons h)
    refine ⟨(if_neg hne).trans h1, (if_neg hne).trans ?_⟩
    rw [h2, append_assoc, singleton_append]

theorem unfinishedFrom_notMem {cur : List α} (h : sep ∉ cur) : sep ∉ unfinishedFrom sep cur xs := by
  induction xs generalizing cur with
  | nil => exact h
  | cons c cs ih =>
    unfold unfinishedFrom
    split
    · exact ih not_mem_nil
    · rename_i hne
      refine ih fun hmem => ?_
      rcases mem_append.mp hmem with hm | hm
      · exact h hm
      · exact hne (mem_singleton.mp hm).symm

theorem linesFrom_eq {cur : List α} (h : sep ∉ cur) : linesFrom sep cur xs = lines sep (cur ++ xs) ∧
      unfinishedFrom sep cur xs = unfinished sep (cur ++ xs) := by
  obtain ⟨h1, h2⟩ := from_of_notMem [] h
  unfold lines unfinished
  rw [linesFrom_append, unfinishedFrom_append, h1, h2]
  exact ⟨rfl, rfl⟩

theorem lines_append :
    lines sep (xs ++ ys) = lines sep xs ++ lines sep (unfinished sep xs ++ ys) := by
  unfold lines
  rw [linesFrom_append, (linesFrom_eq (unfinishedFrom_notMem not_mem_nil)).1]
  rfl

theorem unfinished_append :
    unfinished sep (xs ++ ys) = unfinished sep (unfinished sep xs ++ ys) := by
  unfold unfinished
  rw [unfinishedFrom_append, (linesFrom_eq (unfinishedFrom_notMem not_mem_nil)).2]
  rfl

theorem lines_of_notMem (h : sep ∉ xs) : lines sep xs = [] := (from_of_notMem _ h).1

theorem unfinished_of_notMem (h : sep ∉ xs) : unfinished sep xs = xs := (from_of_notMem _ h).2

variable {l : List α}

theorem lines_cons (h : sep ∉ l) : lines sep (l ++ sep :: xs) = l :: lines sep xs := by
  rw [lines_append, lines_of_notMem h, unfinished_of_notMem h]
  unfold lines
  rw [linesFrom_append, (from_of_notMem _ h).1, (from_of_notMem _ h).2, linesFrom, if_pos rfl]
  rfl

theorem unfinished_cons : unfinished sep (l ++ sep :: xs) = unfinished sep xs := by
  unfold unfinished
  rw [unfinishedFrom_append, unfinishedFrom, if_pos rfl]

theorem takeWhile_line (h : sep ∈ xs) :
    xs = xs.takeWhile (· ≠ sep) ++ sep :: (xs.dropWhile (· ≠ sep)).drop 1 := by
  induction xs with
  | nil => cases h
  | cons c cs ih =>
    by_cases hc : c = sep
    · subst hc
      simp
    · have hcs : sep ∈ cs := (mem_cons.mp h).resolve_left fun he => hc he.symm
      rw [takeWhile_cons, dropWhile_cons, if_pos (decide_eq_true hc),
        if_pos (decide_eq_true hc), cons_append, ← ih hcs]

theorem takeWhile_notMem : sep ∉ xs.takeWhile (· ≠ sep) := by
  intro h
  have hne : decide (sep ≠ sep) = true := mem_takeWhile_imp (p := fun x => decide (x ≠ sep)) h
  exact of_decide_eq_true hne rfl

/-! ## Fields -/

variable (sep) in
def fields (xs : List α) : List (List α) := lines sep xs ++ [unfinished sep xs]

theorem fields_of_notMem (h : sep ∉ xs) : fields sep xs = [xs] := by
  unfold fields
  rw [lines_of_notMem h, unfinished_of_notMem h]
  rfl

theorem fields_cons (h : sep ∉ l) : fields sep (l ++ sep :: xs) = l :: fields sep xs := by
  unfold fields
  rw [lines_cons h, unfinished_cons, cons_append]

theorem notMem_of_mem_fields (h : l ∈ fields sep xs) : sep ∉ l := by
  induction hn : xs.length using Nat.strongRecOn generalizing xs with
  | ind n ih =>
    by_cases hs : sep ∈ xs
    · rw [takeWhile_line hs, fields_cons takeWhile_notMem] at h
      rcases mem_cons.mp h with rfl | h
      · exact takeWhile_notMem
      · refine ih _ ?_ h rfl
        have hl := congrArg length (takeWhile_line hs)
        rw [length_append, length_cons] at hl
        omega
    · rw [fields_of_notMem hs] at h
      rw [mem_singleton.mp h]
      exact hs

end AdventOS.Lines
