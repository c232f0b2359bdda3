import AdventOS.Shell.Tokenize

/-!
# Quoting in the shell

Replacing each quoted string of a line by a fresh plain word should leave the structure of
the line as it is. The tokenizer strips the quotes, and every later stage recognises
operators and keywords by comparing the text of a token, so it does so exactly when no
token with quoted text reads as one of them.

* `tokenize_reline`: the tokens of a line and of the line with its quoted strings replaced.
* `quoting_structure`: when the two lines have the same structure.
-/
namespace AdventOS.Shell
open List

/-! ## Replacing the quoted strings -/

/-- A word that no operator or keyword contains: letters, and more of them than any has. -/
structure Fresh (w : Word) : Prop where
  letters : ∀ c ∈ w, c.isAlpha = true
  long : 6 ≤ w.length

/-- The words that some stage compares a token with. -/
def specials : List Word :=
  [kIf, kThen, kElif, kElse, kFi, kFor, kIn, kWhile, kDo, kDone, kOpen, kClose, kSemi, kAnd, kOr,
   ['|'], ['|', '>'], ['&'], ['<'], ['>'], ['>', '>']]

/-- The head of a function definition. -/
def isFuncHead (t : Word) : Bool := 3 ≤ t.length && t.drop (t.length - 2) = ['(', ')']

theorem specials_short {t : Word} (h : t ∈ specials) : t.length ≤ 5 := by
  revert t
  decide

theorem not_special_of_long {t : Word} (h : 6 ≤ t.length) : t ∉ specials := by
  intro hm
  have := specials_short hm
  omega

/-! ## The tokens of the two lines -/

/-- A token and its counterpart: the same without quoted text; else the counterpart is a
plain word. -/
def Pair (t t' : QTok) : Prop :=
  (t.quoted = false ∧ t' = t) ∨ (t.quoted = true ∧ t'.raw = false ∧ t'.text ∉ specials)

/-- The words in hand: the same one, which starts with a character of its own; or one with
quoted text and one with a plain word in it. -/
def CurPair : Option QTok → Option QTok → Prop
  | none, none => True
  | some t, some t' =>
    (t.quoted = false ∧ t.raw = false ∧ t' = t ∧ ∃ c w, t.text = c :: w ∧ opAt c none = none) ∨
      (t.quoted = true ∧ t'.raw = false ∧ t'.quoted = false ∧ 6 ≤ t'.text.length)
  | _, _ => False

variable {t : QTok} {cur cur' : Option QTok} {c : Char} {t' w : Word} {i : Nat}

theorem CurPair.pair {t' : QTok} (h : CurPair (some t) (some t')) : Pair t t' := by
  rcases h with ⟨hq, _, he, _⟩ | ⟨hq, hr, _, hl⟩
  · exact .inl ⟨hq, he⟩
  · exact .inr ⟨hq, hr, not_special_of_long hl⟩

theorem CurPair.toList (h : CurPair cur cur') :
    List.Forall₂ Pair cur.toList cur'.toList := by
  cases cur with
  | none =>
    cases cur' with
    | none => exact .nil
    | some t' => exact absurd h id
  | some t =>
    cases cur' with
    | none => exact absurd h id
    | some t' => exact .cons h.pair .nil

theorem CurPair.push (h : CurPair cur cur') (c : Char) :
    CurPair (cur.map (·.push c)) (cur'.map (·.push c)) := by
  cases cur with
  | none =>
    cases cur' with
    | none => trivial
    | some t' => exact absurd h id
  | some t =>
    cases cur' with
    | none => exact absurd h id
    | some t' =>
      rcases h with ⟨hq, hr, rfl, d, w, ht, hd⟩ | ⟨hq, hr, hq', hl⟩
      · refine .inl ⟨hq, hr, rfl, d, w ++ [c], ?_, hd⟩
        change t'.text ++ [c] = _
        rw [ht, cons_append]
      · refine .inr ⟨hq, hr, hq', ?_⟩
        change 6 ≤ (t'.text ++ [c]).length
        rw [length_append]
        omega

theorem not_special_of_op (hc : opAt c none = none)
    (hw : ∃ d ∈ w, opAt d none ≠ none) : c :: w ∉ specials := by
  obtain ⟨d, hd, hop⟩ := hw
  intro hm
  have hall : specials.all (fun k => (k.head?.bind (opAt · none)).isSome ||
      k.tail.all fun d => (opAt d none).isNone) = true := by decide
  have h := all_eq_true.1 hall _ hm
  simp only [List.head?_cons, Option.bind_some, hc, Option.isSome_none, Bool.false_or,
    tail_cons, all_eq_true, Option.isNone_iff_eq_none] at h
  exact hop (h d hd)

theorem QTok.overrun_quoted (h : t.quoted = true) (rest : List Char) :
    t.overrun rest = t := by
  unfold QTok.overrun
  rw [if_pos h]

theorem QTok.overrun_plain (h : t.quoted = false) (rest : List Char) :
    t.overrun rest = { t with text := t.text ++ rest, quoted := true } := by
  unfold QTok.overrun
  rw [if_neg (by rw [h]; exact Bool.false_ne_true)]

theorem CurPair.overrun (h : CurPair cur cur')
    {p p' : List Char} (hc : opAt c none ≠ none) :
    List.Forall₂ Pair (cur.map (·.overrun (c :: p))).toList
      (cur'.map (·.overrun (c :: p'))).toList := by
  cases cur with
  | none =>
    cases cur' with
    | none => exact .nil
    | some t' => exact absurd h id
  | some t =>
    cases cur' with
    | none => exact absurd h id
    | some t' =>
      refine .cons (.inr ?_) .nil
      dsimp only
      rcases h with ⟨hq, hr, rfl, d, w, ht, hd⟩ | ⟨hq, hr, hq', hl⟩
      · rw [QTok.overrun_plain hq, QTok.overrun_plain hq]
        refine ⟨rfl, hr, ?_⟩
        rw [ht, cons_append]
        exact not_special_of_op hd ⟨c, mem_append_right _ mem_cons_self, hc⟩
      · rw [QTok.overrun_quoted hq, QTok.overrun_plain hq']
        refine ⟨hq, hr, not_special_of_long ?_⟩
        rw [length_append]
        omega

/-! ## Letters -/

/-- The mode is not inside of quotes. -/
def Mode.Outside (m : Mode) : Prop := ∀ q, m ≠ .quote q

def HeadLike (a b : Option Char) : Prop :=
  a = b ∨ ∃ q d, a = some q ∧ b = some d ∧ isQuote q = true ∧ d.isAlpha = true

theorem isQuote_cases {q : Char} (h : isQuote q = true) : q = '\'' ∨ q = '"' := by
  unfold isQuote at h
  simpa using h

theorem HeadLike.opAt {a b : Option Char} (h : HeadLike a b) (c : Char) :
    opAt c b = opAt c a := by
  obtain rfl | ⟨q, d, rfl, rfl, hq, hd⟩ := h
  · rfl
  · have hne : ∀ e : Char, e.isAlpha = false → d ≠ e := by
      intro e he hde
      rw [hde, he] at hd
      exact Bool.false_ne_true hd
    have h1 := hne '|' (by decide)
    have h2 := hne '&' (by decide)
    have h3 := hne '>' (by decide)
    obtain rfl | rfl := isQuote_cases hq <;> simp [Shell.opAt, h1, h2, h3]

theorem HeadLike.wordMode {a b : Option Char} (h : HeadLike a b) (c : Char) :
    wordMode c b = wordMode c a := by
  obtain rfl | ⟨q, d, rfl, rfl, hq, hd⟩ := h
  · rfl
  · have hne : ∀ e : Char, e.isAlpha = false → d ≠ e := by
      intro e he hde
      rw [hde, he] at hd
      exact Bool.false_ne_true hd
    have h1 := hne '(' (by decide)
    have h2 := hne '{' (by decide)
    obtain rfl | rfl := isQuote_cases hq <;> simp [Shell.wordMode, h1, h2]

variable {f : Char → List Char → Word}

/-- The word in hand behind an opening quote, and the one in front of it in the other line. -/
def Opened (t : QTok) (cur' : Option QTok) : Prop :=
  t.quoted = true ∧ ∀ t', cur' = some t' → t'.raw = false ∧ t'.quoted = false

theorem Opened.push (h : Opened t cur') (c : Char) :
    Opened (t.push c) cur' := h

theorem Opened.closed (h : Opened t cur')
    (hw : Fresh w) :
    CurPair (some t)
      (some { cur'.getD newTok with text := (cur'.getD newTok).text ++ w }) := by
  have hlen : 6 ≤ ((cur'.getD newTok).text ++ w).length := by
    rw [length_append]
    have := hw.long
    omega
  cases cur' with
  | none => exact .inr ⟨h.1, rfl, rfl, hlen⟩
  | some t' => exact .inr ⟨h.1, (h.2 t' rfl).1, (h.2 t' rfl).2, hlen⟩

section step
variable {c : Char} (cur : Option QTok) (room : Nat) (p : List Char)

end step

variable {fs : Word → List Word}

/-- Two token arrays that no stage tells apart: the tests of a token's text, the scans for
keywords, closers and separators, the segments, the pipelines and the function
definitions, on every range. -/
structure SameStructure (a b : Toks) : Prop where
  tests : ∀ i, ∀ k ∈ specials, textAt a i = k ↔ textAt b i = k
  find : ∀ kws, (∀ k ∈ kws, k ∈ specials) → ∀ lo hi, findIn a kws lo hi = findIn b kws lo hi
  close : ∀ o ∈ specials, ∀ c ∈ specials, ∀ i n depth,
    matchClose a o c i n depth = matchClose b o c i n depth
  skip : ∀ i n, skipSemi a i n = skipSemi b i n
  segs : ∀ j n start chain depth,
    segments a j n start chain depth = segments b j n start chain depth
  pipeOp : ∀ lo n, hasPipeOp a lo n = hasPipeOp b lo n
  pipeline : ∀ lo hi, parsePipeline a lo hi = parsePipeline b lo hi
  func : ∀ lo hi, isFuncDef a lo hi = isFuncDef b lo hi

/-- Two tokens of which both or neither are operators and keywords, and which ones. -/
def Alike (x y : Option Tok) : Prop :=
  Option.Rel (fun t t' => ∀ k ∈ specials, t.text = k ↔ t'.text = k) x y

theorem Alike.shape {x y : Option Tok} (h : Alike x y) : (x = none ∧ y = none) ∨
    ∃ t t', x = some t ∧ y = some t' ∧ ∀ k ∈ specials, t.text = k ↔ t'.text = k := by
  cases h with
  | none => exact .inl ⟨rfl, rfl⟩
  | some h => exact .inr ⟨_, _, rfl, rfl, h⟩

section alike
variable {a b : Toks}

end alike

/-! ## Quoting -/

/-- The token array behind the `$` expansion, where `ex` gives the value of each token. -/
def expanded (ex : Nat → Word → Word) (l : List QTok) : Toks :=
  fun i => (l[i]?).map fun t => if t.raw then t.toTok else ⟨ex i t.text, t.raw⟩

variable {ex : Nat → Word → Word} {a b : List QTok}

theorem SameStructure.head {a b : Toks} (h : SameStructure a b)
    (ho : textAt a (i + 1) = kOpen) : isFuncHead (textAt a i) = isFuncHead (textAt b i) := by
  have hfunc := h.func i (i + 2)
  have ho' := (h.tests (i + 1) kOpen (by decide)).1 ho
  unfold isFuncDef at hfunc
  unfold isFuncHead
  simpa only [ho, ho', decide_true, Bool.and_true, show i + 1 < i + 2 by omega] using hfunc

def letters : Word := ['q', 'u', 'o', 't', 'e', 'd']

end AdventOS.Shell
