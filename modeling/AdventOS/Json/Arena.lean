import AdventOS.Core.Budget
import AdventOS.Json.Parser

/-!
# What a text takes of the parser's arena (`libjson/libjson.c`)

The parser takes nodes and string bytes from its arena and gives none back, so a smaller arena
can only make it fail: `jsonParse_clip`. `arenaNeed` is what the tree of a text takes.
-/
namespace AdventOS.Json

abbrev Result (α : Type) := α × PState

def Result.used {α : Type} (r : Result α) : Nat := r.2.used

theorem arenaAllocBytes_metered (n : Nat) (p : PState) :
    Metered PState.used (fun cap => arenaAllocBytes cap n p) p.used := by
  show Metered PState.used (fun cap => if PState.used { p with used := p.used + n } > cap
    then none else some { p with used := p.used + n }) p.used
  exact Metered.alloc (Nat.le_add_right _ _)

theorem nodeAlloc_metered (p : PState) :
    Metered PState.used (fun cap => nodeAlloc cap p) p.used := by
  show Metered PState.used
    (fun cap => if PState.used { p with used := (p.used + 3) / 4 * 4 + nodeSize } > cap
      then none else some { p with used := (p.used + 3) / 4 * 4 + nodeSize }) p.used
  refine Metered.alloc ?_
  dsimp only
  omega

theorem arenaPutcUtf8_metered (p : PState) (cp : Nat) :
    Metered PState.used (fun cap => arenaPutcUtf8 cap p cp) p.used :=
  arenaAllocBytes_metered _ p

theorem putc_metered {s : Bytes} {used cp : Nat} {f : Nat → Nat → Option (Result Bytes)}
    (h : ∀ u, Metered Result.used (fun cap => f cap u) u) :
    Metered Result.used (fun cap => (arenaPutcUtf8 cap ⟨s, used⟩ cp).bind fun p =>
      (f cap p.used).map fun r => (utf8Bytes cp ++ r.1, r.2)) used :=
  (arenaPutcUtf8_metered ⟨s, used⟩ cp).bind fun p => (h p.used).map fun _ => rfl

theorem free_metered {α β : Type} {use : β → Nat} {u : Nat} {o : Option α}
    {g : α → Nat → Option β} (h : ∀ a, o = some a → Metered use (g a) u) :
    Metered use (fun cap => o.bind fun a => g a cap) u := by
  cases o with
  | none => exact .none
  | some a => exact h a rfl

theorem pChars_metered (s : Bytes) : ∀ used,
    Metered Result.used (fun cap => pChars cap s used) used := by
  induction hn : s.length using Nat.strong_induction_on generalizing s with
  | _ n ih =>
    intro used
    have hrec : ∀ t : Bytes, t.length < n → ∀ u,
        Metered Result.used (fun cap => pChars cap t u) u := fun t ht => ih t.length ht t rfl
    cases s with
    | nil => exact .none
    | cons c s =>
      rw [List.length_cons] at hn
      unfold pChars
      by_cases hq : c = quote
      · simp only [if_pos hq]
        exact (arenaAllocBytes_metered 1 ⟨s, used⟩).map fun _ => rfl
      by_cases hb : c = backslash
      · simp only [if_neg hq, if_pos hb]
        cases s with
        | nil => exact .none
        | cons e s =>
          rw [List.length_cons] at hn
          by_cases hu : e = 117
          · simp only [if_pos hu]
            rcases s with _ | ⟨h0, _ | ⟨h1, _ | ⟨h2, _ | ⟨h3, s⟩⟩⟩⟩
            · exact .none
            · exact .none
            · exact .none
            · exact .none
            · simp only [List.length_cons] at hn
              exact free_metered fun cp _ => putc_metered (hrec s (by omega))
          · simp only [if_neg hu]
            exact free_metered fun cp _ => putc_metered (hrec s (by omega))
      by_cases hc : c < 32
      · simp only [if_neg hq, if_neg hb, if_pos hc]
        exact .none
      · simp only [if_neg hq, if_neg hb, if_neg hc]
        exact putc_metered (hrec s (by omega))

theorem pString_metered (p : PState) : Metered Result.used (fun cap => pString cap p) p.used := by
  unfold pString
  cases p.rest with
  | nil => exact .none
  | cons c s =>
    by_cases hq : c = quote
    · simp only [if_pos hq]
      exact pChars_metered s p.used
    · simp only [if_neg hq]
      exact .none

variable {c : UInt8} {p : PState}

theorem pExpect_used {q : PState} (h : pExpect c p = some q) : q.used = p.used := by
  unfold pExpect at h
  split at h
  · split at h
    · cases h
      rfl
    · cases h
  · cases h

theorem pExpect_skip_used {q : PState} (h : pExpect c p.skipWs = some q) :
    q.used = p.used := (pExpect_used h).trans rfl

theorem expect_metered {β : Type} {use : β → Nat}
    {g : PState → Nat → Option β} (h : ∀ q, Metered use (g q) q.used) :
    Metered use (fun cap => (pExpect c p).bind fun q => g q cap) p.used :=
  free_metered fun q hq => pExpect_used hq ▸ h q

theorem leaf_metered {α : Type} {o : Option α} {rest : α → Bytes} {v : α → Value} :
    Metered Result.used (fun cap => o.bind fun a =>
      (nodeAlloc cap { p with rest := rest a }).map fun q => (v a, q)) p.used :=
  free_metered fun a _ => (nodeAlloc_metered { p with rest := rest a }).map fun _ => rfl

/-- **What is taken**, by induction on the nesting that is left. -/
theorem parser_metered (fuel : Nat) :
    (∀ p, Metered Result.used (fun cap => pValue cap fuel p) p.used) ∧
    (∀ p, Metered Result.used (fun cap => pArray cap fuel p) p.used) ∧
    (∀ p, Metered Result.used (fun cap => pItems cap fuel p) p.used) ∧
    (∀ p, Metered Result.used (fun cap => pObject cap fuel p) p.used) ∧
    ∀ p, Metered Result.used (fun cap => pMembers cap fuel p) p.used := by
  induction fuel with
  | zero => exact ⟨fun _ => .none, fun _ => .none, fun _ => .none, fun _ => .none, fun _ => .none⟩
  | succ fuel ih =>
    obtain ⟨hvalue, harray, hitems, hobject, hmembers⟩ := ih
    refine ⟨fun p => ?_, fun p => ?_, fun p => ?_, fun p => ?_, fun p => ?_⟩
    · show Metered Result.used _ p.skipWs.used
      unfold pValue
      obtain ⟨rest, used⟩ := p.skipWs
      cases rest with
      | nil => exact .none
      | cons c s =>
        by_cases h1 : c = lbrace
        · simp only [if_pos h1]
          exact hobject ⟨c :: s, used⟩
        by_cases h2 : c = lbracket
        · simp only [if_neg h1, if_pos h2]
          exact harray ⟨c :: s, used⟩
        by_cases h3 : c = quote
        · simp only [if_neg h1, if_neg h2, if_pos h3]
          exact (nodeAlloc_metered ⟨c :: s, used⟩).bind fun q => (pString_metered q).map fun _ => rfl
        by_cases h4 : c = 116
        · simp only [if_neg h1, if_neg h2, if_neg h3, if_pos h4]
          exact leaf_metered (p := ⟨c :: s, used⟩)
        by_cases h5 : c = 102
        · simp only [if_neg h1, if_neg h2, if_neg h3, if_neg h4, if_pos h5]
          exact leaf_metered (p := ⟨c :: s, used⟩)
        by_cases h6 : c = 110
        · simp only [if_neg h1, if_neg h2, if_neg h3, if_neg h4, if_neg h5, if_pos h6]
          exact leaf_metered (p := ⟨c :: s, used⟩)
        by_cases h7 : c = minus ∨ isDigit c = true
        · simp only [if_neg h1, if_neg h2, if_neg h3, if_neg h4, if_neg h5, if_neg h6, if_pos h7]
          exact leaf_metered (p := ⟨c :: s, used⟩)
        · simp only [if_neg h1, if_neg h2, if_neg h3, if_neg h4, if_neg h5, if_neg h6, if_neg h7]
          exact .none
    · refine expect_metered fun q => (nodeAlloc_metered q).bind fun q => ?_
      cases he : pExpect rbracket q.skipWs with
      | some r =>
        have hu : r.used = q.used := pExpect_skip_used he
        exact .ret hu
      | none => exact (hitems q.skipWs).map fun _ => rfl
    · refine (hvalue p.skipWs).bind fun r => ?_
      cases he : pExpect comma r.2.skipWs with
      | some q =>
        have hu : q.used = Result.used r := pExpect_skip_used he
        exact hu ▸ (hitems q).map fun _ => rfl
      | none =>
        cases he' : pExpect rbracket r.2.skipWs with
        | some q =>
          have hu : q.used = Result.used r := pExpect_skip_used he'
          exact .ret hu
        | none => exact .none
    · refine expect_metered fun q => (nodeAlloc_metered q).bind fun q => ?_
      cases he : pExpect rbrace q.skipWs with
      | some r =>
        have hu : r.used = q.used := pExpect_skip_used he
        exact .ret hu
      | none => exact (hmembers q.skipWs).map fun _ => rfl
    · unfold pMembers
      by_cases hq : p.skipWs.rest.head? ≠ some quote
      · simp only [if_pos hq]
        exact .none
      simp only [if_neg hq]
      refine (nodeAlloc_metered p.skipWs).bind fun q => (pString_metered q).bind fun k => ?_
      refine expect_metered (p := k.2.skipWs) fun q => (hvalue q.skipWs).bind fun r => ?_
      cases he : pExpect comma r.2.skipWs with
      | some q =>
        have hu : q.used = Result.used r := pExpect_skip_used he
        exact hu ▸ (hmembers q).map fun _ => rfl
      | none =>
        cases he' : pExpect rbrace r.2.skipWs with
        | some q =>
          have hu : q.used = Result.used r := pExpect_skip_used he'
          exact .ret hu
        | none => exact .none

/-! ## The arena of a text -/

/-- The run of the parser over a text, with what it took. -/
def pText (src : Bytes) (cap : Nat) : Option (Result Value) :=
  (pValue cap (3 * src.length + 1) (PState.mk src 0).skipWs).filter fun r =>
    r.2.skipWs.rest = []

/-- What the tree of a text takes of an arena that is large enough, 0 where there is no tree. -/
def arenaNeed (src : Bytes) : Nat :=
  max nodeSize (((pText src (scratchFor src.length)).map Result.used).getD 0)

theorem jsonParse_eq (src : Bytes) (cap : Nat) :
    jsonParse src cap = if cap < nodeSize then none else (pText src cap).map Prod.fst := by
  unfold jsonParse pText
  split
  · rfl
  · cases pValue cap (3 * src.length + 1) (PState.mk src 0).skipWs with
    | none => rfl
    | some r =>
      by_cases hr : r.2.skipWs.rest = []
      · simp [Option.filter, hr]
      · simp [Option.filter, hr]

theorem jsonParse_clip {src : Bytes} {cap : Nat} (hcap : cap ≤ scratchFor src.length) :
    jsonParse src cap =
      if arenaNeed src ≤ cap then jsonParse src (scratchFor src.length) else none := by
  have hbig : ¬scratchFor src.length < nodeSize := by unfold scratchFor; omega
  rw [jsonParse_eq, jsonParse_eq, if_neg hbig]
  unfold arenaNeed
  have hclip : pText src cap =
      (pText src (scratchFor src.length)).filter fun r => Result.used r ≤ cap := by
    have h := ((parser_metered (3 * src.length + 1)).1 (PState.mk src 0).skipWs).clip
      (Nat.zero_le cap) hcap
    unfold pText
    rw [h, Option.filter_filter, Option.filter_filter]
    congr 1
    funext r
    exact Bool.and_comm _ _
  rw [hclip]
  cases pText src (scratchFor src.length) with
  | none =>
    split
    · split <;> rfl
    · split <;> rfl
  | some r =>
    show (if cap < nodeSize then none else ((some r).filter _).map Prod.fst) =
      if max nodeSize (Result.used r) ≤ cap then some r.1 else none
    by_cases hn : cap < nodeSize
    · rw [if_pos hn, if_neg (by omega)]
    · rw [if_neg hn]
      by_cases hu : Result.used r ≤ cap
      · rw [if_pos (by omega)]
        simp [Option.filter, hu]
      · rw [if_neg (by omega)]
        simp [Option.filter, hu]

end AdventOS.Json
