import AdventOS.Core.Wildcard
import AdventOS.Shell.Control

/-!
# The glob matcher of the shell (`user/sh.c`)

`glob_match` walks over the pattern and the name together and remembers one `*` only, the
last one it has passed: on a mismatch it goes back there and lets the `*` take one character
more. `globMatch_iff` says that it answers what the language of the pattern says, for every
pattern and name. What carries the proof is `Tracks`: between the last `*` and the place where
the loop stands, the pattern has no other `*`, and the name fits so far.
-/
namespace AdventOS.Shell
open List Option

open Wildcard

/-- `star_p` and `star_n`, once there are such. -/
structure Star where
  p : Word
  n : Word

/-- For the termination of the loop: the pattern behind the last `*`, and the name that the
`*` may still take. -/
def starP (star : Option Star) : Nat := (star.map fun st => st.p.length).getD 0
def starN (star : Option Star) : Nat := (star.map fun st => st.n.length).getD 0

/-- sh.c:498-515, from `p`, `n` and the last star on. `star_n` is never at the
end of the name when the loop goes back to it, which has not reached the end itself. -/
def globLoop (p n : Word) (star : Option Star) : Bool :=
  match n with
  | [] => (p.dropWhile (· = '*')).isEmpty
  | c :: n' =>
    if p.head? = some '*' then globLoop p.tail (c :: n') (some ⟨p.tail, c :: n'⟩)
    else if p.head? = some '?' ∨ p.head? = some c then globLoop p.tail n' star
    else
      match star with
      | none => false
      | some st =>
        if st.n = [] then false
        else globLoop st.p st.n.tail (some ⟨st.p, st.n.tail⟩)
termination_by (max p.length (starP star), starN star, n.length)
decreasing_by
  · have hp : p ≠ [] := fun h => by simp_all
    have := length_pos_iff.mpr hp
    refine Prod.Lex.left _ _ ?_
    simp only [starP, map_some, getD_some, length_tail]
    omega
  · rw [length_tail, length_cons]
    rcases Nat.lt_or_ge (max (p.length - 1) (starP star)) (max p.length (starP star)) with h | h
    · exact Prod.Lex.left _ _ h
    · have he : max (p.length - 1) (starP star) = max p.length (starP star) := by omega
      rw [he]
      exact Prod.Lex.right _ (Prod.Lex.right _ (Nat.lt_succ_self _))
  · rename_i hn
    have := length_pos_iff.mpr hn
    simp only [starP, starN, map_some, getD_some, length_tail, max_self]
    rcases Nat.lt_or_ge st.p.length (max p.length st.p.length) with h | h
    · exact Prod.Lex.left _ _ h
    · have he : st.p.length = max p.length st.p.length := by omega
      rw [← he]
      exact Prod.Lex.right _ (Prod.Lex.left _ _ (by omega))

/-- sh.c:498 `glob_match`. -/
def globMatch (pat name : Word) : Bool := globLoop pat name none

/-! ## The language of a pattern -/

def globAtom (c : Char) : Atom Char := if c = '*' then .any else if c = '?' then .one else .lit c

def globLang (pat : Word) : Language Char := lang (pat.map globAtom)

variable {p n pat name : Word} {c d : Char} {st : Star} {star : Option Star}

theorem globAtom_eq_any : globAtom d = .any ↔ d = '*' := by
  unfold globAtom
  split
  · simp_all
  · split
    · simp_all
    · simp_all

theorem singleton_mem_lang (h : d ≠ '*') : [c] ∈ (globAtom d).lang ↔ d = '?' ∨ d = c := by
  unfold globAtom
  rw [if_neg h]
  split
  · rename_i hd
    exact ⟨fun _ => Or.inl hd, fun _ => rfl⟩
  · rename_i hd
    constructor
    · intro hm
      exact Or.inr (cons.inj (show [c] = [d] from hm)).1.symm
    · rintro (h' | rfl)
      · exact absurd h' hd
      · exact rfl

theorem nil_mem_globLang : [] ∈ globLang p ↔ (p.dropWhile (· = '*')).isEmpty := by
  induction p with
  | nil => simp [globLang, mem_lang_nil]
  | cons d p ih =>
    unfold globLang at ih ⊢
    rw [map_cons, lang_cons, Language.mem_mul]
    by_cases hd : d = '*'
    · rw [dropWhile_cons, if_pos (by simpa using hd), ← ih, globAtom_eq_any.mpr hd]
      constructor
      · rintro ⟨u, -, v, hv, he⟩
        exact (append_eq_nil_iff.mp he).2 ▸ hv
      · intro hv
        exact ⟨[], trivial, [], hv, rfl⟩
    · rw [dropWhile_cons, if_neg (by simpa using hd)]
      constructor
      · rintro ⟨u, hu, v, hv, he⟩
        have := length_of_mem (fun h => hd (globAtom_eq_any.mp h)) hu
        rw [(append_eq_nil_iff.mp he).1] at this
        cases this
      · intro h
        cases h

theorem cons_mem_globLang (h : p.head? ≠ some '*') :
    c :: n ∈ globLang p ↔ (p.head? = some '?' ∨ p.head? = some c) ∧ n ∈ globLang p.tail := by
  cases p with
  | nil => simp [globLang, mem_lang_nil]
  | cons d p =>
    have hd : d ≠ '*' := fun he => h (congrArg some he)
    unfold globLang
    rw [map_cons, cons_mem_lang_cons (fun he => hd (globAtom_eq_any.mp he)), singleton_mem_lang hd]
    simp

/-! ## The loop -/

/-- Between the last `*` and `p` stands a pattern without `*`, which fits the name between
`star_n` and `n`. -/
def Tracks (st : Star) (p n : Word) : Prop :=
  ∃ q x, st.p = q ++ p ∧ st.n = x ++ n ∧ Fixed (q.map globAtom) ∧ x ∈ globLang q

/-- What the loop is to answer: whether the name fits, as far as the loop still has to look. -/
def Answer (p n : Word) : Option Star → Prop
  | none => n ∈ globLang p
  | some st => st.n ∈ (⊤ : Language Char) * globLang st.p

theorem Tracks.start (p n : Word) : Tracks ⟨p, n⟩ p n :=
  ⟨[], [], rfl, rfl, fun _ h => absurd h not_mem_nil, mem_lang_nil.mpr rfl⟩

theorem Tracks.step (h : Tracks st p (c :: n)) (hp : p.head? ≠ some '*')
    (hc : p.head? = some '?' ∨ p.head? = some c) : Tracks st p.tail n := by
  obtain ⟨q, x, h1, h2, h3, h4⟩ := h
  cases p with
  | nil => simp at hc
  | cons d p =>
    have hd : d ≠ '*' := fun he => hp (congrArg some he)
    refine ⟨q ++ [d], x ++ [c], ?_, ?_, ?_, ?_⟩
    · rw [h1, append_assoc, singleton_append, tail_cons]
    · rw [h2, append_assoc, singleton_append]
    · rw [map_append]
      exact h3.cons fun he => hd (globAtom_eq_any.mp he)
    · unfold globLang at h4 ⊢
      rw [map_append]
      refine mem_append h4 ?_
      rw [map_singleton, cons_mem_lang_cons (fun he => hd (globAtom_eq_any.mp he))]
      exact ⟨(singleton_mem_lang hd).mpr (by simpa using hc), mem_lang_nil.mpr rfl⟩

/-- Where the loop stands decides about a fit at the star. -/
theorem Tracks.mem_iff (h : Tracks st p n) : st.n ∈ globLang st.p ↔ n ∈ globLang p := by
  obtain ⟨q, x, h1, h2, h3, h4⟩ := h
  unfold globLang at h4 ⊢
  rw [h1, h2, map_append]
  exact h3.mem_append_iff h4

theorem Tracks.answer_nil (h : Tracks st p []) : Answer p [] (some st) ↔ [] ∈ globLang p := by
  refine ⟨fun hm => ?_, fun hm => mem_top_mul.mpr ⟨st.n, suffix_rfl, h.mem_iff.mpr hm⟩⟩
  obtain ⟨q, x, h1, h2, h3, h4⟩ := h
  obtain ⟨v, hv, hm⟩ := mem_top_mul.mp hm
  unfold globLang at h4 hm
  rw [h1, map_append, lang_append] at hm
  obtain ⟨y, hy, z, hz, rfl⟩ := Language.mem_mul.mp hm
  have hl := hv.length_le
  have hx := h3.length_eq h4
  have hy' := h3.length_eq hy
  rw [h2, append_nil, length_append] at hl
  have hz0 : z = [] := length_eq_zero_iff.mp (by omega)
  exact hz0 ▸ hz

theorem answer_star (h : ∀ st ∈ star, Tracks st p (c :: n)) (hp : p.head? = some '*') :
    Answer p (c :: n) star ↔ Answer p.tail (c :: n) (some ⟨p.tail, c :: n⟩) := by
  obtain ⟨p', rfl⟩ : ∃ p', p = '*' :: p' := by
    cases p with
    | nil => cases hp
    | cons d p => exact ⟨p, by rw [Option.some.inj hp]⟩
  cases star with
  | none =>
    show c :: n ∈ lang (map globAtom ('*' :: p')) ↔ _
    rw [map_cons, lang_cons]
    exact Iff.rfl
  | some st =>
    obtain ⟨q, x, h1, h2, h3, h4⟩ := h st rfl
    show st.n ∈ (⊤ : Language Char) * lang (st.p.map globAtom) ↔ _
    rw [h1, h2, map_append, map_cons]
    exact commit h3 h4

theorem answer_back (h : Tracks st p (c :: n)) (hp : p.head? ≠ some '*')
    (hc : ¬(p.head? = some '?' ∨ p.head? = some c)) (hn : st.n ≠ []) :
    Answer p (c :: n) (some st) ↔ Answer st.p st.n.tail (some ⟨st.p, st.n.tail⟩) := by
  have hno : st.n ∉ globLang st.p := fun hm =>
    hc ((cons_mem_globLang hp).mp (h.mem_iff.mp hm)).1
  obtain ⟨d, m, hd⟩ := exists_cons_of_ne_nil hn
  rw [hd] at hno
  show st.n ∈ (⊤ : Language Char) * globLang st.p ↔ st.n.tail ∈ (⊤ : Language Char) * globLang st.p
  rw [hd, cons_mem_top_mul, tail_cons]
  exact ⟨fun h => h.resolve_left hno, Or.inr⟩

theorem globLoop_iff (p n : Word) (star : Option Star) (h : ∀ st ∈ star, Tracks st p n) :
    globLoop p n star = true ↔ Answer p n star := by
  induction p, n, star using globLoop.induct with
  | case1 p star =>
    rw [globLoop, ← nil_mem_globLang]
    cases star with
    | none => exact Iff.rfl
    | some st => exact (h st rfl).answer_nil.symm
  | case2 p star c n hp ih =>
    rw [globLoop.eq_def, answer_star h hp]
    dsimp only
    rw [if_pos hp]
    refine ih fun st hst => ?_
    cases hst
    exact Tracks.start _ _
  | case3 p star c n hp hc ih =>
    rw [globLoop.eq_def]
    dsimp only
    rw [if_neg hp, if_pos hc, ih fun st hst => (h st hst).step hp hc]
    cases star with
    | none => exact ((cons_mem_globLang hp).trans (and_iff_right hc)).symm
    | some st => exact Iff.rfl
  | case4 p c n hp hc =>
    rw [globLoop, if_neg hp, if_neg hc]
    constructor
    · intro h
      cases h
    · intro hm
      exact absurd ((cons_mem_globLang hp).mp hm).1 hc
  | case5 p c n hp hc st hn =>
    obtain ⟨q, x, -, h2, -⟩ := h st rfl
    rw [hn] at h2
    exact absurd h2.symm (by simp)
  | case6 p c n hp hc st hn ih =>
    rw [globLoop, if_neg hp, if_neg hc, if_neg hn, answer_back (h st rfl) hp hc hn]
    refine ih fun st' hst => ?_
    cases hst
    exact Tracks.start _ _

/-- **The matcher decides the language of the pattern.** -/
theorem globMatch_iff (pat name : Word) : globMatch pat name = true ↔ name ∈ globLang pat :=
  globLoop_iff pat name none fun _ h => absurd h (not_mem_none _)

end AdventOS.Shell
