import Mathlib

/-!
# Wildcard patterns

A pattern is a list of atoms: a symbol, any one symbol, or any string. `lang` is its language,
as a product of languages. An atom other than `any` stands for exactly one symbol, so a
pattern of such atoms fits words of its own length only (`Fixed.length_eq`).

* `commit`: a matcher that has reached the next `any` needs no earlier one again.
* `cons_mem_top_mul`: after an `any`, a word either fits where it starts or fits later.
-/
namespace AdventOS.Wildcard
open List

inductive Atom (α : Type u)
  | any
  | one
  | lit (a : α)

variable {α : Type u}

def Atom.lang : Atom α → Language α
  | .any => ⊤
  | .one => {w | w.length = 1}
  | .lit a => {[a]}

/-- The words that `p` fits. -/
def lang (p : List (Atom α)) : Language α := (p.map Atom.lang).prod

/-- No atom of `q` fits more or less than one symbol. -/
def Fixed (q : List (Atom α)) : Prop := ∀ a ∈ q, a ≠ .any

variable {L : Language α} {p q : List (Atom α)} {a : Atom α} {c : α} {w x : List α}

theorem mem_lang_nil : w ∈ lang ([] : List (Atom α)) ↔ w = [] := Iff.rfl

theorem lang_cons (a : Atom α) (p : List (Atom α)) : lang (a :: p) = a.lang * lang p := prod_cons

theorem lang_append (q p : List (Atom α)) : lang (q ++ p) = lang q * lang p := by
  unfold lang
  rw [map_append, prod_append]

theorem Fixed.cons (ha : a ≠ .any) (h : Fixed q) : Fixed (q ++ [a]) := by
  intro b hb
  rcases mem_append.mp hb with h' | h'
  · exact h b h'
  · exact mem_singleton.mp h' ▸ ha

theorem length_of_mem (ha : a ≠ .any) (hw : w ∈ a.lang) : w.length = 1 := by
  cases a with
  | any => exact absurd rfl ha
  | one => exact hw
  | lit b =>
    obtain rfl : w = [b] := hw
    rfl

theorem Fixed.length_eq (h : Fixed q) (hw : w ∈ lang q) : w.length = q.length := by
  induction q generalizing w with
  | nil =>
    obtain rfl := mem_lang_nil.mp hw
    rfl
  | cons a q ih =>
    rw [lang_cons] at hw
    obtain ⟨u, hu, v, hv, rfl⟩ := Language.mem_mul.mp hw
    have h1 := length_of_mem (h a mem_cons_self) hu
    have h2 := ih (fun b hb => h b (mem_cons_of_mem _ hb)) hv
    rw [length_append, length_cons]
    omega

theorem cons_mem_lang_cons (ha : a ≠ .any) :
    c :: w ∈ lang (a :: p) ↔ [c] ∈ a.lang ∧ w ∈ lang p := by
  rw [lang_cons, Language.mem_mul]
  constructor
  · rintro ⟨u, hu, v, hv, he⟩
    obtain ⟨d, rfl⟩ := length_eq_one_iff.mp (length_of_mem ha hu)
    obtain ⟨rfl, rfl⟩ := cons.inj he
    exact ⟨hu, hv⟩
  · rintro ⟨hu, hv⟩
    exact ⟨[c], hu, w, hv, rfl⟩

theorem mem_append (hx : x ∈ lang q) (hw : w ∈ lang p) : x ++ w ∈ lang (q ++ p) := by
  rw [lang_append]
  exact Language.mem_mul.mpr ⟨x, hx, w, hw, rfl⟩

theorem Fixed.mem_append_iff (h : Fixed q) (hx : x ∈ lang q) :
    x ++ w ∈ lang (q ++ p) ↔ w ∈ lang p := by
  refine ⟨fun hm => ?_, mem_append hx⟩
  rw [lang_append] at hm
  obtain ⟨u, hu, v, hv, he⟩ := Language.mem_mul.mp hm
  have hl : u.length = x.length := (h.length_eq hu).trans (h.length_eq hx).symm
  exact (append_inj he hl).2 ▸ hv

/-! ## Any string -/

theorem mem_top_mul : w ∈ (⊤ : Language α) * L ↔ ∃ v, v <:+ w ∧ v ∈ L := by
  rw [Language.mem_mul]
  constructor
  · rintro ⟨u, -, v, hv, he⟩
    exact ⟨v, ⟨u, he⟩, hv⟩
  · rintro ⟨v, ⟨u, he⟩, hv⟩
    exact ⟨u, trivial, v, hv, he⟩

theorem cons_mem_top_mul :
    c :: w ∈ (⊤ : Language α) * L ↔ c :: w ∈ L ∨ w ∈ (⊤ : Language α) * L := by
  rw [mem_top_mul, mem_top_mul]
  constructor
  · rintro ⟨v, hv, hm⟩
    rcases suffix_cons_iff.mp hv with rfl | hv
    · exact Or.inl hm
    · exact Or.inr ⟨v, hv, hm⟩
  · rintro (hm | ⟨v, hv, hm⟩)
    · exact ⟨c :: w, suffix_rfl, hm⟩
    · exact ⟨v, suffix_cons_iff.mpr (Or.inr hv), hm⟩

/-- **The last `any` is enough.** Where `x` fits the atoms `q` between two of them, the word
fits from the first one on if and only if what follows `x` fits from the second one on: a fit
that starts `q` later than at `x` leaves less behind it. -/
theorem commit (h : Fixed q) (hx : x ∈ lang q) :
    x ++ w ∈ (⊤ : Language α) * lang (q ++ .any :: p) ↔ w ∈ (⊤ : Language α) * lang p := by
  rw [mem_top_mul, mem_top_mul]
  constructor
  · rintro ⟨v, hv, hm⟩
    rw [lang_append, lang_cons] at hm
    obtain ⟨y, hy, z, hz, rfl⟩ := Language.mem_mul.mp hm
    obtain ⟨t, ht, hp⟩ := mem_top_mul.mp hz
    have hw : w <:+ x ++ w := suffix_append x w
    have htw : t <:+ x ++ w := (ht.trans (suffix_append y z)).trans hv
    refine ⟨t, suffix_of_suffix_length_le htw hw ?_, hp⟩
    have h1 := hv.length_le
    have h2 := ht.length_le
    have h3 := h.length_eq hx
    have h4 := h.length_eq hy
    rw [length_append, length_append] at h1
    omega
  · rintro ⟨t, ht, hp⟩
    refine ⟨x ++ w, suffix_rfl, mem_append hx ?_⟩
    rw [lang_cons]
    exact mem_top_mul.mpr ⟨t, ht, hp⟩

end AdventOS.Wildcard
