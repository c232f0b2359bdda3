import AdventOS.Core.LTS

/-!
# Deterministic systems, round by round

A loop of a program is a system whose states are those before its test and whose labels say what
a round does. Such a system has one run of each length from a state (`Run.unique`), and a run
can be looked at where it makes its round number `k` (`Run.at`).
-/
namespace AdventOS.LTS

variable {S : Type u} {L : Type v} {M : LTS S L} {s s' t t' : S} {l : L} {ls ms : List L}

/-- A state has one step at most. -/
def Deterministic (M : LTS S L) : Prop :=
  ∀ s l t l' t', M.step s l t → M.step s l' t' → l = l' ∧ t = t'

theorem Run.of_append (h : M.Run s (ls ++ ms) s') : ∃ t, M.Run s ls t ∧ M.Run t ms s' := by
  induction ls generalizing s with
  | nil => exact ⟨s, .nil s, h⟩
  | cons l ls ih =>
    obtain ⟨u, hu, hr⟩ := Run.cons_iff.mp h
    obtain ⟨t, h1, h2⟩ := ih hr
    exact ⟨t, .cons hu h1, h2⟩

theorem Run.of_snoc (h : M.Run s (ls ++ [l]) s') : ∃ t, M.Run s ls t ∧ M.step t l s' := by
  obtain ⟨t, h1, h2⟩ := h.of_append
  obtain ⟨u, hu, hr⟩ := Run.cons_iff.mp h2
  obtain rfl := Run.nil_iff.mp hr
  exact ⟨t, h1, hu⟩

theorem Run.unique (hd : M.Deterministic) (h : M.Run s ls t) (h' : M.Run s ms t')
    (hl : ls.length = ms.length) : ls = ms ∧ t = t' := by
  induction h generalizing ms with
  | nil =>
    obtain rfl := List.length_eq_zero_iff.mp hl.symm
    exact ⟨rfl, (Run.nil_iff.mp h').symm⟩
  | cons hs _ ih =>
    cases h' with
    | nil => cases hl
    | cons hs' hr' =>
      obtain ⟨rfl, rfl⟩ := hd _ _ _ _ _ hs hs'
      obtain ⟨rfl, rfl⟩ := ih hr' (Nat.succ.inj hl)
      exact ⟨rfl, rfl⟩

theorem Run.at (h : M.Run s ls s') {k : Nat} (hk : k < ls.length) :
    ∃ t l u, M.Run s (ls.take k) t ∧ M.step t l u ∧ ls.take (k + 1) = ls.take k ++ [l] ∧
      M.Run s (ls.take (k + 1)) u := by
  have htake : ls.take (k + 1) = ls.take k ++ [ls[k]] := by
    rw [List.take_add_one, List.getElem?_eq_getElem hk]
    rfl
  rw [← List.take_append_drop (k + 1) ls] at h
  obtain ⟨u, h1, -⟩ := h.of_append
  rw [htake] at h1 ⊢
  obtain ⟨t, ht, hs⟩ := h1.of_snoc
  exact ⟨t, ls[k], u, ht, hs, rfl, ht.snoc hs⟩

end AdventOS.LTS
