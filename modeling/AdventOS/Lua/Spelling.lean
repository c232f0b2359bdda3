import AdventOS.Lua.Printing

/-!
# Spelling tokens and lexing them back

`text` spells a list of tokens, each followed by a space; a literal stands between double
quotes, with a backslash before a quote or a backslash and `\n` for a line break.

* `lexAll_text`: the lexer gives back the tokens. A literal comes back as far as it fits
  the buffer of 1024 characters, or overruns it if a character to escape stands behind.
-/
namespace AdventOS.Lua
open List

/-! ## Spelling -/

def space : UInt8 := 32

def numeral (n : Nat) : Bytes :=
  if n = 0 then [48] else ((Nat.digits 10 n).map fun d => UInt8.ofNat (48 + d)).reverse

def needsEscape (c : UInt8) : Bool := c = dquote || c = backslash || c = newline

def escapeChar (c : UInt8) : Bytes :=
  if c = newline then [backslash, 110] else if needsEscape c then [backslash, c] else [c]

def escape (s : Bytes) : Bytes := s.flatMap escapeChar

/-- The operators that are no single character of their own. -/
def longOps : List (Sym × Bytes) :=
  [(.tEq, [61, 61]), (.tNeq, [126, 61]), (.tLt, [60]), (.tGt, [62]), (.tLe, [60, 61]),
   (.tGe, [62, 61]), (.tAssign, [61]), (.tDot, [46]), (.tConcat, [46, 46])]

def symText (t : Sym) : Bytes :=
  match keywords.find? fun k => k.2 = t with
  | some k => k.1
  | none =>
    match singleOps.find? fun o => o.2 = t with
    | some o => [o.1]
    | none => ((longOps.find? fun o => o.1 = t).map Prod.snd).getD []

def spell : Tok Bytes → Bytes
  | .num n => numeral n.toNat
  | .str s => dquote :: escape s ++ [dquote]
  | .name s => s
  | .sym t => symText t
  | .eof => []

def text (ts : List (Tok Bytes)) : Bytes := ts.flatMap fun t => spell t ++ [space]

/-- The tokens that have a spelling of their own. -/
def Spellable : Tok Bytes → Prop
  | .num n => 0 ≤ n ∧ n < 2 ^ 31
  | .name s => isName s = true
  | .str _ | .sym _ => True
  | .eof => False

/-! ## Lexing one token -/

def push (t : Tok Bytes) : Except LexErr (List (Tok Bytes)) → Except LexErr (List (Tok Bytes))
  | .ok ts => .ok (t :: ts)
  | .error e => .error e

theorem lexAll_space (rest : Bytes) : lexAll (space :: rest) = lexAll rest := by
  have h : lexStep space rest = .ok (none, rest) := rfl
  rw [lexAll_cons h]
  cases lexAll rest <;> rfl

variable {c : UInt8} {w : Bytes} {ts : List (Tok Bytes)}

theorem lexAll_token {rest : Bytes} {t : Tok Bytes}
    (h : lexStep c (w ++ space :: rest) = .ok (some t, space :: rest)) :
    lexAll (c :: w ++ space :: rest) = push t (lexAll rest) := by
  rw [cons_append, lexAll_cons h, lexAll_space]
  cases lexAll rest <;> rfl

theorem lexAll_sym (t : Sym) (rest : Bytes) :
    lexAll (symText t ++ space :: rest) = push (.sym t) (lexAll rest) := by
  cases t <;> exact lexAll_token rfl

theorem takeWhile_word {p : UInt8 → Bool} (hw : w.all p = true) (hs : p space = false)
    (rest : Bytes) :
    (w ++ space :: rest).takeWhile p = w ∧ (w ++ space :: rest).dropWhile p = space :: rest := by
  have hall : ∀ x ∈ w, p x = true := all_eq_true.1 hw
  rw [takeWhile_append_of_pos hall, dropWhile_append_of_pos hall,
    takeWhile_cons_of_neg (by rw [hs]; decide),
    dropWhile_cons_of_neg (by rw [hs]; decide), append_nil]
  exact ⟨rfl, rfl⟩

theorem isDigit_bounds (h : isDigit c = true) : 48 ≤ c.toNat ∧ c.toNat ≤ 57 := by
  unfold isDigit at h
  rw [Bool.and_eq_true, decide_eq_true_eq, decide_eq_true_eq] at h
  exact ⟨h.1, h.2⟩

theorem isIdStart_bounds (h : isIdStart c = true) : 65 ≤ c.toNat := by
  unfold isIdStart at h
  simp only [Bool.or_eq_true, Bool.and_eq_true, decide_eq_true_eq, beq_iff_eq] at h
  rcases h with (h | h) | h
  · have : 97 ≤ c.toNat := h.1
    omega
  · exact h.1
  · rw [h]
    decide

theorem ne_of_toNat {d : UInt8} (h : c.toNat ≠ d.toNat) : c ≠ d := fun he => h (he ▸ rfl)

theorem lexStep_digit (hc : isDigit c = true) (rest : Bytes) : lexStep c rest =
      match parseInt (c :: rest.takeWhile isDigit) with
      | some n => .ok (some (.num n), rest.dropWhile isDigit)
      | none => .error .badNumber := by
  have hb := isDigit_bounds hc
  have hspace : ¬(c = 32 ∨ c = 9 ∨ c = 13 ∨ c = newline) := by
    rintro (rfl | rfl | rfl | rfl)
    all_goals exact absurd hb.1 (by decide)
  have hdash : ¬(c = 45 ∧ rest.head? = some 45) := by
    rintro ⟨rfl, -⟩
    exact absurd hb.1 (by decide)
  exact (if_neg hspace).trans ((if_neg hdash).trans (if_pos hc))

theorem lexStep_idStart (hc : isIdStart c = true) (rest : Bytes) : lexStep c rest =
      .ok (some (wordTok (c :: rest.takeWhile isIdCont)), rest.dropWhile isIdCont) := by
  have hb := isIdStart_bounds hc
  unfold lexStep
  rw [if_neg ?_, if_neg ?_, if_neg ?_, if_neg ?_, if_pos hc]
  · rintro (rfl | rfl)
    all_goals exact absurd hb (by decide)
  · intro hd
    have := isDigit_bounds hd
    omega
  · rintro ⟨rfl, -⟩
    exact absurd hb (by decide)
  · rintro (rfl | rfl | rfl | rfl)
    all_goals exact absurd hb (by decide)

theorem lexAll_name {s : Bytes} (h : isName s = true) (rest : Bytes) :
    lexAll (s ++ space :: rest) = push (.name s) (lexAll rest) := by
  cases s with
  | nil => cases h
  | cons c w =>
    unfold isName at h
    rw [Bool.and_eq_true, Bool.and_eq_true, Option.isNone_iff_eq_none] at h
    obtain ⟨⟨hc, hw⟩, hk⟩ := h
    have ht := takeWhile_word hw (by decide) rest
    refine lexAll_token ?_
    rw [lexStep_idStart hc, ht.1, ht.2, wordTok, hk]

/-! ## Numerals -/

theorem digitsValue_append (s : Bytes) (c : UInt8) :
    digitsValue (s ++ [c]) = digitsValue s * 10 + (c.toNat - 48) := by
  unfold digitsValue
  rw [foldl_append, foldl_cons, foldl_nil]

theorem toNat_digit {d : Nat} (h : d < 10) : (UInt8.ofNat (48 + d)).toNat = 48 + d := by
  rw [UInt8.toNat_ofNat']
  omega

theorem digitsValue_digits {ds : List Nat} (h : ∀ d ∈ ds, d < 10) :
    digitsValue ((ds.map fun d => UInt8.ofNat (48 + d)).reverse) = Nat.ofDigits 10 ds := by
  induction ds with
  | nil => rfl
  | cons d ds ih =>
    have hd := h d mem_cons_self
    rw [map_cons, reverse_cons, digitsValue_append,
      ih fun x hx => h x (mem_cons_of_mem _ hx), toNat_digit hd, Nat.ofDigits_cons]
    omega

theorem isDigit_ofNat {d : Nat} (h : d < 10) : isDigit (UInt8.ofNat (48 + d)) = true := by
  have ht := toNat_digit h
  unfold isDigit
  rw [Bool.and_eq_true, decide_eq_true_eq, decide_eq_true_eq, UInt8.le_iff_toNat_le,
    UInt8.le_iff_toNat_le, ht]
  exact ⟨Nat.le_add_right 48 d, by change 48 + d ≤ 57; omega⟩

theorem numeral_spec (n : Nat) :
    numeral n ≠ [] ∧ (numeral n).all isDigit = true ∧ digitsValue (numeral n) = n := by
  unfold numeral
  split
  · rename_i h
    rw [h]
    exact ⟨by decide, by decide, by decide⟩
  · rename_i h
    have hlt : ∀ d ∈ Nat.digits 10 n, d < 10 := fun d hd => Nat.digits_lt_base (by decide) hd
    refine ⟨?_, ?_, ?_⟩
    · simpa using Nat.digits_ne_nil_iff_ne_zero.2 h
    · rw [all_reverse, all_map, all_eq_true]
      exact fun d hd => isDigit_ofNat (hlt d hd)
    · rw [digitsValue_digits hlt, Nat.ofDigits_digits]

theorem wrap32_of_lt {n : Nat} (h : n < 2 ^ 31) : wrap32 n = n := by
  exact Int.bmod_eq_of_le (by omega) (by omega)

theorem parseInt_digits (h : (c :: w).all isDigit = true) (hlt : digitsValue (c :: w) < 2 ^ 31) :
    parseInt (c :: w) = some ((digitsValue (c :: w) : Nat) : Int) := by
  have hc : isDigit c = true := by
    rw [all_cons, Bool.and_eq_true] at h
    exact h.1
  have hb := isDigit_bounds hc
  have h45 : ¬ (c :: w).head? = some 45 := by
    intro he
    rw [Option.some.inj he] at hb
    exact absurd hb.1 (by decide)
  have h43 : ¬ (c :: w).head? = some 43 := by
    intro he
    rw [Option.some.inj he] at hb
    exact absurd hb.1 (by decide)
  unfold parseInt
  simp only [h45, h43, or_self, if_false, h]
  rw [if_neg (by simp), wrap32_of_lt hlt]

theorem lexAll_num {n : Nat} (h : n < 2 ^ 31) (rest : Bytes) :
    lexAll (numeral n ++ space :: rest) = push (.num n) (lexAll rest) := by
  obtain ⟨hne, hall, hval⟩ := numeral_spec n
  generalize numeral n = s at hne hall hval
  cases s with
  | nil => exact absurd rfl hne
  | cons c w =>
    have hcw := hall
    rw [all_cons, Bool.and_eq_true] at hcw
    have ht := takeWhile_word hcw.2 (by decide) rest
    refine lexAll_token ?_
    rw [lexStep_digit hcw.1, ht.1, ht.2, parseInt_digits hall (hval ▸ h), hval]

/-! ## Literals -/

def cut (s : Bytes) : Except LexErr Bytes :=
  if (s.drop strBuf).any needsEscape then .error .overrun else .ok (s.take strBuf)

theorem lexStr_plain (hc : needsEscape c = false) (s buf : Bytes) (hs : s ≠ []) :
    lexStr dquote (escapeChar c ++ s) buf =
      lexStr dquote s (if buf.length < strBuf then buf ++ [c] else buf) := by
  have hne := hc
  unfold needsEscape at hne
  simp only [Bool.or_eq_false_iff, decide_eq_false_iff_not] at hne
  have hesc : escapeChar c = [c] := by
    unfold escapeChar
    rw [if_neg hne.2, hc]
    rfl
  rw [hesc, singleton_append]
  cases s with
  | nil => exact absurd rfl hs
  | cons d s => rw [lexStr, if_neg hne.1.1, if_neg hne.1.2]

theorem lexStr_escape (hc : needsEscape c = true) (s buf : Bytes) :
    lexStr dquote (escapeChar c ++ s) buf =
      if strBuf ≤ buf.length then .error .overrun else lexStr dquote s (buf ++ [c]) := by
  unfold needsEscape at hc
  simp only [Bool.or_eq_true, decide_eq_true_eq] at hc
  rcases hc with (rfl | rfl) | rfl <;> rfl

/-- The loop over a literal from a buffer that is not over its size. The induction is on the
literal; the buffer keeps what fits. -/
theorem lexStr_literal (s rest buf : Bytes) (hbuf : buf.length ≤ strBuf) :
    lexStr dquote (escape s ++ dquote :: rest) buf =
      if (s.drop (strBuf - buf.length)).any needsEscape then .error .overrun
      else .ok (buf ++ s.take (strBuf - buf.length), rest) := by
  induction s generalizing buf with
  | nil =>
    simp only [escape, flatMap_nil, nil_append, drop_nil, any_nil,
      Bool.false_eq_true, if_false, take_nil, append_nil]
    cases rest <;> rfl
  | cons c s ih =>
    have hcat : escape (c :: s) ++ dquote :: rest =
        escapeChar c ++ (escape s ++ dquote :: rest) := by
      rw [escape, flatMap_cons, append_assoc]
      rfl
    rw [hcat]
    by_cases hfull : buf.length = strBuf
    · have hz : strBuf - buf.length = 0 := by omega
      rw [hz, drop_zero, take_zero, append_nil, any_cons]
      by_cases hc : needsEscape c = true
      · rw [lexStr_escape hc, if_pos (by omega), hc]
        rfl
      · rw [Bool.not_eq_true] at hc
        rw [lexStr_plain hc _ _ (by simp), if_neg (by omega), ih buf hbuf, hz, drop_zero,
          take_zero, append_nil, hc, Bool.false_or]
    · have hlt : buf.length < strBuf := by omega
      have hsucc : strBuf - buf.length = (strBuf - (buf ++ [c]).length) + 1 := by
        rw [length_append, length_singleton]
        omega
      have hstep : lexStr dquote (escapeChar c ++ (escape s ++ dquote :: rest)) buf =
          lexStr dquote (escape s ++ dquote :: rest) (buf ++ [c]) := by
        by_cases hc : needsEscape c = true
        · rw [lexStr_escape hc, if_neg (by omega)]
        · rw [Bool.not_eq_true] at hc
          rw [lexStr_plain hc _ _ (by simp), if_pos hlt]
      rw [hstep, ih _ (by rw [length_append, length_singleton]; omega), hsucc,
        drop_succ_cons, take_succ_cons, append_assoc, singleton_append]

theorem lexStep_dquote (rest : Bytes) :
    lexStep dquote rest = (lexStr dquote rest []).map fun p => (some (.str p.1), p.2) := by
  cases h : lexStr dquote rest [] with
  | ok p =>
    simp [lexStep, dquote, newline, isDigit, Except.map] at h ⊢
    simp [h]
  | error e =>
    simp [lexStep, dquote, newline, isDigit, Except.map] at h ⊢
    simp [h]

theorem lexAll_str (s rest : Bytes) : lexAll (spell (.str s) ++ space :: rest) =
      (cut s).bind fun s => push (.str s) (lexAll rest) := by
  have hlit := lexStr_literal s (space :: rest) [] (Nat.zero_le _)
  rw [length_nil, Nat.sub_zero, nil_append] at hlit
  have hstep := lexStep_dquote (escape s ++ dquote :: space :: rest)
  have hcat : spell (.str s) ++ space :: rest =
      dquote :: (escape s ++ dquote :: space :: rest) := by
    simp [spell]
  rw [hcat]
  rw [hlit] at hstep
  unfold cut
  by_cases hover : (s.drop strBuf).any needsEscape = true
  · rw [if_pos hover] at hstep ⊢
    exact lexAll_error hstep
  · rw [if_neg hover] at hstep ⊢
    refine (lexAll_cons hstep).trans ?_
    rw [lexAll_space]
    cases lexAll rest <;> rfl

/-! ## Lexing a text -/

def cutTok : Tok Bytes → Except LexErr (Tok Bytes)
  | .str s => (cut s).map .str
  | t => .ok t

/-- The tokens as they come back, up to the first overrun. -/
def cutToks : List (Tok Bytes) → Except LexErr (List (Tok Bytes))
  | [] => .ok [.eof]
  | t :: ts =>
    match cutTok t with
    | .ok t => push t (cutToks ts)
    | .error e => .error e

theorem lexAll_text (h : ∀ t ∈ ts, Spellable t) : lexAll (text ts) = cutToks ts := by
  induction ts with
  | nil => rfl
  | cons t ts ih =>
    have ih := ih fun t ht => h t (mem_cons_of_mem _ ht)
    have hcat : text (t :: ts) = spell t ++ space :: text ts := by
      rw [text, flatMap_cons, append_assoc]
      rfl
    have ht := h t mem_cons_self
    rw [hcat, cutToks, ← ih]
    cases t with
    | num n =>
      obtain ⟨n, rfl⟩ := Int.eq_ofNat_of_zero_le ht.1
      exact lexAll_num (by have := ht.2; omega) _
    | str s =>
      rw [lexAll_str, cutTok]
      cases cut s <;> rfl
    | name s => exact lexAll_name ht _
    | sym t => exact lexAll_sym t _
    | eof => exact absurd ht id

theorem cut_of_length {s : Bytes} (h : s.length ≤ strBuf) : cut s = .ok s := by
  unfold cut
  rw [drop_eq_nil_of_le h, take_of_length_le h]
  rfl

theorem cutToks_of_length
    (h : ∀ s, Tok.str s ∈ ts → s.length ≤ strBuf) : cutToks ts = .ok (ts ++ [.eof]) := by
  induction ts with
  | nil => rfl
  | cons t ts ih =>
    have hcut : cutTok t = .ok t := by
      cases t with
      | str s =>
        rw [cutTok, cut_of_length (h s mem_cons_self)]
        rfl
      | num _ | name _ | sym _ | eof => rfl
    rw [cutToks, hcut, ih fun s hs => h s (mem_cons_of_mem _ hs)]
    rfl

/-- A token with its literal cut off. -/
def truncTok : Tok Bytes → Tok Bytes
  | .str s => .str (s.take strBuf)
  | t => t

theorem cutToks_eq_ok {us : List (Tok Bytes)} (h : cutToks ts = .ok us) :
    us = ts.map truncTok ++ [.eof] := by
  induction ts generalizing us with
  | nil =>
    cases h
    rfl
  | cons t ts ih =>
    have hcut {t'} (ht : cutTok t = .ok t') : t' = truncTok t := by
      cases t with
      | str s =>
        change (cut s).map Tok.str = _ at ht
        unfold cut at ht
        by_cases hover : (s.drop strBuf).any needsEscape = true
        · rw [if_pos hover] at ht
          cases ht
        · rw [if_neg hover] at ht
          cases ht
          rfl
      | num _ | name _ | sym _ | eof =>
        cases ht
        rfl
    rw [cutToks] at h
    cases ht : cutTok t with
    | error e =>
      rw [ht] at h
      cases h
    | ok t' =>
      rw [ht] at h
      cases hts : cutToks ts with
      | error e =>
        rw [hts] at h
        cases h
      | ok us' =>
        rw [hts] at h
        cases h
        rw [hcut ht, ih hts]
        rfl

end AdventOS.Lua
