import Mathlib

/-!
# Intrusive doubly linked lists

The cells live in a table indexed by `ι` and carry their own `prev` and `next`;
`head` and `tail` point into the table. `Lists d l` says that the links are
exactly those of the list `l`: no cell twice, the ends where they should be, and
around every cell the neighbours it has in `l`.

`moveToFront` is the usual "unlink, splice in at the head" of an LRU list;
`Lists.moveToFront` says that it is `e :: l.erase e` on lists.
-/
namespace AdventOS
open Function List

structure DList (ι : Type u) where
  head : Option ι
  tail : Option ι
  prev : ι → Option ι
  next : ι → Option ι

namespace DList

variable {ι : Type u} [DecidableEq ι]

def setPrev (d : DList ι) (x : ι) (v : Option ι) : DList ι := { d with prev := update d.prev x v }

def setNext (d : DList ι) (x : ι) (v : Option ι) : DList ι := { d with next := update d.next x v }

/-- When the cell is the tail, the one before it becomes the tail. -/
def dropTail (d : DList ι) (e : ι) : DList ι :=
  if d.tail = some e then { d with tail := d.prev e } else d

def unlink (d : DList ι) (e : ι) : DList ι :=
  let d1 := match d.prev e with
    | some p => d.setNext p (d.next e)
    | none => d
  let d2 := match d1.next e with
    | some n => d1.setPrev n (d1.prev e)
    | none => d1
  d2.dropTail e

def pushFront (d : DList ι) (e : ι) : DList ι :=
  let d1 := (d.setPrev e none).setNext e d.head
  let d2 := match d1.head with
    | some h => d1.setPrev h (some e)
    | none => d1
  let d3 := { d2 with head := some e }
  match d3.tail with
  | none => { d3 with tail := some e }
  | some _ => d3

def moveToFront (d : DList ι) (e : ι) : DList ι :=
  if d.head = some e then d else (d.unlink e).pushFront e

/-- The links of `d` are those of the list `l`. -/
structure Lists (d : DList ι) (l : List ι) : Prop where
  nodup : l.Nodup
  head_eq : d.head = l.head?
  tail_eq : d.tail = l.getLast?
  prev_eq : ∀ a x b, l = a ++ x :: b → d.prev x = a.getLast?
  next_eq : ∀ a x b, l = a ++ x :: b → d.next x = b.head?

variable {d : DList ι} {a b l : List ι} {e p : ι}

omit [DecidableEq ι] in
theorem Lists.of_getElem (hl : l.Nodup) (hh : d.head = l.head?) (ht : d.tail = l.getLast?)
    (hp : ∀ i (h : i < l.length), d.prev l[i] = (l.take i).getLast?)
    (hn : ∀ i (h : i < l.length), d.next l[i] = l[i + 1]?) : d.Lists l := by
  refine ⟨hl, hh, ht, ?_, ?_⟩
  · intro a x b hs
    subst hs
    have h := hp a.length (by simp)
    simpa using h
  · intro a x b hs
    subst hs
    have h := hn a.length (by simp)
    rw [getElem?_append_right (by omega)] at h
    simpa [head?_eq_getElem?] using h

/-- Unlinking the cell between `a ++ [p]` and `b`: the two neighbours are joined
and nothing else changes. -/
theorem unlink_eq (h : d.Lists (a ++ p :: e :: b)) :
    (d.unlink e).head = d.head ∧ (d.unlink e).tail = (a ++ p :: b).getLast? ∧
      (d.unlink e).next = update d.next p b.head? ∧
      (∀ x, (d.unlink e).prev x = if b.head? = some x then some p else d.prev x) := by
  have hp : d.prev e = some p := by
    rw [h.prev_eq (a ++ [p]) e b (by simp)]
    simp
  have hn : d.next e = b.head? := h.next_eq (a ++ [p]) e b (by simp)
  have hne : p ≠ e := by
    have := h.nodup
    simp only [nodup_append, nodup_cons, mem_cons, not_or] at this
    exact this.2.1.1.1
  have ht : d.tail = (a ++ p :: e :: b).getLast? := h.tail_eq
  have heb : e ∉ b := by
    have := h.nodup
    simp only [nodup_append, nodup_cons] at this
    exact this.2.1.2.1
  unfold unlink
  simp only [hp, hn, setNext, update_of_ne hne.symm]
  cases b with
  | nil =>
    have hte : d.tail = some e := by simp [ht]
    simp [dropTail, hte, hp]
  | cons n b =>
    simp only [head?_cons, setPrev]
    have htl : (a ++ p :: e :: n :: b).getLast? = (a ++ p :: n :: b).getLast? := by
      simp [getLast?_append, getLast?_cons_cons]
    have hte : ¬ d.tail = some e := by
      intro hc
      rw [ht, htl] at hc
      have hm : e ∈ (n :: b) := by
        rw [getLast?_append, getLast?_cons_cons] at hc
        cases hl : (n :: b).getLast? with
        | none => simp at hl
        | some y =>
          rw [hl, Option.some_or, Option.some.injEq] at hc
          subst hc
          exact mem_of_getLast? hl
      exact heb hm
    unfold dropTail
    rw [if_neg hte]
    refine ⟨rfl, by rw [← htl, ← ht], rfl, fun x => ?_⟩
    simp only [update_apply, Option.some.injEq]
    by_cases hx : n = x
    · rw [if_pos hx.symm, if_pos hx]
    · rw [if_neg (Ne.symm hx), if_neg hx]

omit [DecidableEq ι] in
theorem split_cases {a' b' : List ι} {x : ι} (h : a ++ p :: b = a' ++ x :: b') :
    (x = p ∧ a' = a ∧ b' = b) ∨ (∃ c, a = a' ++ x :: c ∧ b' = c ++ p :: b) ∨
      (∃ c, b = c ++ x :: b' ∧ a' = a ++ p :: c) := by
  rcases append_eq_append_iff.mp h with ⟨c, hc, hp⟩ | ⟨c, hc, hp⟩
  · cases c with
    | nil =>
      obtain ⟨rfl, rfl⟩ := cons.inj hp
      exact .inl ⟨rfl, by simpa using hc, rfl⟩
    | cons y c =>
      obtain ⟨rfl, rfl⟩ := cons.inj hp
      exact .inr (.inr ⟨c, rfl, hc⟩)
  · cases c with
    | nil =>
      obtain ⟨rfl, rfl⟩ := cons.inj hp
      exact .inl ⟨rfl, by simpa using hc.symm, rfl⟩
    | cons y c =>
      obtain ⟨rfl, rfl⟩ := cons.inj hp
      exact .inr (.inl ⟨c, hc, rfl⟩)

theorem Lists.unlink (h : d.Lists (a ++ p :: e :: b)) : (d.unlink e).Lists (a ++ p :: b) := by
  obtain ⟨u1, u2, u3, u4⟩ := unlink_eq h
  have hsub : (a ++ p :: b).Sublist (a ++ p :: e :: b) := by simp
  have hnd : (a ++ p :: b).Nodup := hsub.nodup h.nodup
  refine ⟨hnd, ?_, u2, ?_, ?_⟩
  · rw [u1, h.head_eq]
    cases a <;> rfl
  · intro a' x b' hs
    rw [u4]
    -- `x` is `p`, stands before it, or stood behind `e`
    rcases split_cases hs with ⟨rfl, rfl, rfl⟩ | ⟨c, rfl, rfl⟩ | ⟨c, rfl, rfl⟩
    · have hb : ¬ b'.head? = some x := fun hb => by
        have := mem_of_head? hb
        simp [nodup_append, this] at hnd
      rw [if_neg hb, h.prev_eq a' x (e :: b') rfl]
    · have hb : ¬ b.head? = some x := fun hb => by
        have := mem_of_head? hb
        simp [nodup_append, this] at hnd
      rw [if_neg hb, h.prev_eq a' x (c ++ p :: e :: b) (by simp)]
    · cases c with
      | nil => simp
      | cons w c =>
        have hw : ¬ (w :: c ++ x :: b').head? = some x := fun hb => by
          obtain rfl : w = x := by simpa using hb
          simp [nodup_append] at hnd
        rw [if_neg hw, h.prev_eq (a ++ p :: e :: w :: c) x b' (by simp)]
        simp [getLast?_append, getLast?_cons]
  · intro a' x b' hs
    rw [u3]
    rcases split_cases hs with ⟨rfl, rfl, rfl⟩ | ⟨c, rfl, rfl⟩ | ⟨c, rfl, rfl⟩
    · rw [update_self]
    · have hxp : x ≠ p := by
        rintro rfl
        simp [nodup_append] at hnd
      rw [update_of_ne hxp, h.next_eq a' x (c ++ p :: e :: b) (by simp)]
      cases c <;> rfl
    · have hxp : x ≠ p := by
        rintro rfl
        simp [nodup_append] at hnd
      rw [update_of_ne hxp, h.next_eq (a ++ p :: e :: c) x b' (by simp)]

theorem pushFront_eq {h t : ι} (hh : d.head = some h) (ht : d.tail = some t) :
    (d.pushFront e).head = some e ∧ (d.pushFront e).tail = some t ∧
      (d.pushFront e).next = update d.next e (some h) ∧
      (∀ x, (d.pushFront e).prev x =
        if x = h then some e else if x = e then none else d.prev x) := by
  unfold pushFront
  simp only [setPrev, setNext, hh, ht, true_and]
  intro x
  simp [update_apply]

theorem Lists.pushFront {f : ι} (h : d.Lists (f :: l))
    (he : e ∉ f :: l) : (d.pushFront e).Lists (e :: f :: l) := by
  obtain ⟨t, ht⟩ : ∃ t, (f :: l).getLast? = some t := by simp [getLast?_cons]
  obtain ⟨v1, v2, v3, v4⟩ := pushFront_eq (e := e) h.head_eq (h.tail_eq.trans ht)
  have hef : e ≠ f := fun hc => he (hc ▸ mem_cons_self)
  refine ⟨nodup_cons.mpr ⟨he, h.nodup⟩, v1, ?_, ?_, ?_⟩
  · rw [v2, getLast?_cons_cons, ht]
  · intro a x b hs
    rw [v4]
    cases a with
    | nil =>
      obtain ⟨rfl, -⟩ := cons.inj hs
      rw [if_neg hef, if_pos rfl]
      rfl
    | cons y a =>
      obtain ⟨rfl, hl⟩ : e = y ∧ f :: l = a ++ x :: b := by simpa using hs
      have hxe : x ≠ e := by
        rintro rfl
        exact he (by rw [hl]; simp)
      cases a with
      | nil =>
        obtain ⟨rfl, -⟩ := cons.inj hl
        rw [if_pos rfl]
        rfl
      | cons z a =>
        have hxf : x ≠ f := by
          rintro rfl
          have := h.nodup
          rw [hl] at this
          obtain ⟨rfl, -⟩ := cons.inj hl
          simp at this
        rw [if_neg hxf, if_neg hxe, h.prev_eq (z :: a) x b hl, getLast?_cons_cons]
  · intro a x b hs
    rw [v3]
    cases a with
    | nil =>
      obtain ⟨rfl, rfl⟩ := cons.inj hs
      rw [update_self]
      rfl
    | cons y a =>
      obtain ⟨rfl, hl⟩ : e = y ∧ f :: l = a ++ x :: b := by simpa using hs
      have hxe : x ≠ e := by
        rintro rfl
        exact he (by rw [hl]; simp)
      rw [update_of_ne hxe, h.next_eq a x b hl]

theorem Lists.moveToFront (h : d.Lists l) (he : e ∈ l) :
    (d.moveToFront e).Lists (e :: l.erase e) := by
  obtain ⟨a, b, rfl⟩ := append_of_mem he
  have hea : e ∉ a := fun hm => by
    have hd := (nodup_append.mp h.nodup).2.2
    exact hd e hm e mem_cons_self rfl
  rw [erase_append_right _ hea, erase_cons_head]
  unfold DList.moveToFront
  rcases eq_nil_or_concat a with rfl | ⟨a, p, rfl⟩
  · rw [if_pos (by simpa using h.head_eq)]
    exact h
  · rw [concat_eq_append] at h hea ⊢
    rw [append_assoc, singleton_append] at h ⊢
    obtain ⟨f, l, hl⟩ : ∃ f l, a ++ p :: b = f :: l := by cases a <;> simp
    have hn : e ∉ f :: l := by
      have hp : (e :: (a ++ p :: b)).Perm (a ++ p :: e :: b) := by
        have : (e :: ((a ++ [p]) ++ b)).Perm ((a ++ [p]) ++ e :: b) := perm_middle.symm
        simpa using this
      rw [← hl]
      exact (nodup_cons.mp (hp.nodup_iff.mpr h.nodup)).1
    have hne : ¬ d.head = some e := by
      intro hc
      rw [h.head_eq] at hc
      apply hea
      cases a with
      | nil => simp_all
      | cons z a => simp_all
    have hu := h.unlink
    rw [if_neg hne]
    rw [hl] at hu ⊢
    exact hu.pushFront hn

end DList

end AdventOS
