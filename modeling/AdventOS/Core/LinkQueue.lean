import Mathlib

/-!
# A first-in first-out queue threaded through its elements

A queue kept as a head, a tail and a `next` pointer in each element; an element has one `next`,
so it can be in one queue at a time.

* `LinkQueue.push`: an element behind the tail;
* `LinkQueue.pop`: the head leaves;
* `LinkQueue.congr`: pointers of elements outside the queue do not matter.
-/
namespace AdventOS
open Function List

variable {α : Type} {next next' : α → Option α} {head tail : Option α} {e x : α} {l : List α}

/-- From `head` on, `next` leads through the elements of the list. -/
def Linked (next : α → Option α) : Option α → List α → Prop
  | head, [] => head = none
  | head, x :: l => head = some x ∧ Linked next (next x) l

/-- The elements from `head` to `tail`, in this order. -/
structure LinkQueue (next : α → Option α) (head tail : Option α) (l : List α) : Prop where
  linked : Linked next head l
  tail : tail = l.getLast?
  nodup : l.Nodup

theorem Linked.congr (h : Linked next head l) (hl : ∀ x ∈ l, next' x = next x) :
    Linked next' head l := by
  induction l generalizing head with
  | nil => exact h
  | cons x l ih =>
    refine ⟨h.1, ?_⟩
    rw [hl x mem_cons_self]
    exact ih h.2 fun y hy => hl y (mem_cons_of_mem x hy)

namespace LinkQueue

theorem empty (next : α → Option α) : LinkQueue next none none [] := ⟨rfl, rfl, nodup_nil⟩

theorem congr (h : LinkQueue next head tail l) (hl : ∀ x ∈ l, next' x = next x) :
    LinkQueue next' head tail l :=
  ⟨h.linked.congr hl, h.tail, h.nodup⟩

theorem head_eq (h : LinkQueue next head tail l) : head = l.head? := by
  cases l with
  | nil => exact h.linked
  | cons x l => exact h.linked.1

variable [DecidableEq α]

/-- The pointers after `e` was put behind `tail`. -/
def pushNext (next : α → Option α) (tail : Option α) (e : α) : α → Option α :=
  match tail with
  | none => update next e none
  | some t => update (update next e none) t (some e)

def pushHead (head tail : Option α) (e : α) : Option α :=
  match tail with
  | none => some e
  | some _ => head

theorem pushNext_of_ne {y : α} (he : y ≠ e) (ht : tail ≠ some y) :
    pushNext next tail e y = next y := by
  unfold pushNext
  cases tail with
  | none => exact update_of_ne he _ _
  | some t =>
    have hyt : y ≠ t := fun heq => ht (by rw [heq])
    dsimp only
    rw [update_of_ne hyt, update_of_ne he]

theorem linked_snoc {t : α} (h : Linked next head (l ++ [t])) (hnd : (l ++ [t]).Nodup)
    (he : e ∉ l ++ [t]) :
    Linked (update (update next e none) t (some e)) head (l ++ [t, e]) := by
  induction l generalizing head with
  | nil =>
    have het : e ≠ t := by simpa using he
    refine ⟨h.1, ?_, ?_⟩
    · rw [update_self]
    · rw [update_of_ne het, update_self]
      rfl
  | cons x l ih =>
    have hne : x ≠ t := by
      intro heq
      rw [cons_append, nodup_cons] at hnd
      exact hnd.1 (by simp [heq])
    have hxe : x ≠ e := by
      intro heq
      exact he (by simp [heq])
    refine ⟨h.1, ?_⟩
    rw [update_of_ne hne, update_of_ne hxe]
    exact ih h.2 (nodup_cons.1 hnd).2 fun hm => he (mem_cons_of_mem x hm)

theorem push (h : LinkQueue next head tail l) (he : e ∉ l) :
    LinkQueue (pushNext next tail e) (pushHead head tail e) (some e) (l ++ [e]) := by
  have hnd : (l ++ [e]).Nodup := by
    rw [nodup_append]
    refine ⟨h.nodup, nodup_singleton e, fun a ha b hb heq => ?_⟩
    rw [mem_singleton.1 hb] at heq
    exact he (heq ▸ ha)
  refine ⟨?_, by simp, hnd⟩
  rcases eq_nil_or_concat l with hl | ⟨l', t, hl⟩
  · have ht : tail = none := by
      rw [h.tail, hl]
      rfl
    rw [hl, ht]
    have hnone : update next e none e = none := update_self ..
    exact ⟨rfl, hnone⟩
  · rw [concat_eq_append] at hl
    have ht : tail = some t := by
      rw [h.tail, hl, getLast?_append, getLast?_singleton]
      rfl
    rw [ht, hl, append_assoc]
    exact linked_snoc (hl ▸ h.linked) (hl ▸ h.nodup) (hl ▸ he)

/-- The tail after the head has left, when `head` is the next one. -/
def popTail (head tail : Option α) : Option α := if head = none then none else tail

theorem pop (h : LinkQueue next head tail (x :: l)) :
    LinkQueue (update next x none) (next x) (popTail (next x) tail) l := by
  obtain ⟨hx, hnd⟩ := nodup_cons.1 h.nodup
  have hl : Linked (update next x none) (next x) l := by
    refine Linked.congr h.linked.2 fun y hy => ?_
    have hyx : y ≠ x := fun heq => hx (heq ▸ hy)
    exact update_of_ne hyx _ _
  refine ⟨hl, ?_, hnd⟩
  unfold popTail
  cases l with
  | nil =>
    have hnone : next x = none := h.linked.2
    rw [if_pos hnone]
    rfl
  | cons y l =>
    have hsome : next x = some y := h.linked.2.1
    rw [hsome, if_neg (by simp), h.tail, getLast?_cons_cons]

end LinkQueue

end AdventOS
