import Mathlib

/-!
# The lexer of the Lua interpreter (`user/lua.c`)

A `char` is a byte. A token carries what the parser reads of `struct tok`: its kind, the
number, the text. Line numbers, which only the texts of errors show, are left out.

The text of a string literal is collected in a buffer of 1024 bytes. A plain character
that finds it full is dropped; a character after a backslash is stored without looking,
which is the outcome `overrun`.
-/
namespace AdventOS.Lua
open List

abbrev Bytes := List UInt8

def word (s : List Char) : Bytes := s.map fun c => UInt8.ofNat c.toNat

/-- lua.c:429-444 `enum token`: keywords and punctuation. -/
inductive Sym
  | tAnd | tBreak | tDo | tElse | tElseif | tEnd | tFalse | tFor | tFunction | tIf | tIn | tLocal
  | tNil | tNot | tOr | tReturn | tThen | tTrue | tUntil | tWhile | tRepeat
  | tPlus | tMinus | tStar | tSlash | tPercent | tCaret
  | tEq | tNeq | tLt | tGt | tLe | tGe | tAssign
  | tLparen | tRparen | tLbrace | tRbrace | tLbrack | tRbrack
  | tComma | tSemi | tColon | tDot | tConcat | tHash
  deriving DecidableEq

/-- lua.c:446-455 `struct tok`, over the representation `S` of strings. -/
inductive Tok (S : Type)
  | num (n : Int)
  | str (s : S)
  | name (s : S)
  | sym (t : Sym)
  | eof
  deriving DecidableEq

/-- What ends lexing early: `die`, or a store outside the buffer. -/
inductive LexErr
  | badNumber
  | unterminated
  | strayTilde
  | stray
  | overrun
  deriving DecidableEq

def isIdStart (c : UInt8) : Bool := (97 ≤ c && c ≤ 122) || (65 ≤ c && c ≤ 90) || c == 95

def isDigit (c : UInt8) : Bool := 48 ≤ c && c ≤ 57

def isIdCont (c : UInt8) : Bool := isIdStart c || isDigit c

/-- lua.c:498-518, in the order of the tests. -/
def keywords : List (Bytes × Sym) :=
  [(word ['a', 'n', 'd'], .tAnd), (word ['b', 'r', 'e', 'a', 'k'], .tBreak),
   (word ['d', 'o'], .tDo), (word ['e', 'l', 's', 'e'], .tElse),
   (word ['e', 'l', 's', 'e', 'i', 'f'], .tElseif), (word ['e', 'n', 'd'], .tEnd),
   (word ['f', 'a', 'l', 's', 'e'], .tFalse), (word ['f', 'o', 'r'], .tFor),
   (word ['f', 'u', 'n', 'c', 't', 'i', 'o', 'n'], .tFunction), (word ['i', 'f'], .tIf),
   (word ['i', 'n'], .tIn), (word ['l', 'o', 'c', 'a', 'l'], .tLocal),
   (word ['n', 'i', 'l'], .tNil), (word ['n', 'o', 't'], .tNot), (word ['o', 'r'], .tOr),
   (word ['r', 'e', 't', 'u', 'r', 'n'], .tReturn), (word ['t', 'h', 'e', 'n'], .tThen),
   (word ['t', 'r', 'u', 'e'], .tTrue), (word ['u', 'n', 't', 'i', 'l'], .tUntil),
   (word ['w', 'h', 'i', 'l', 'e'], .tWhile), (word ['r', 'e', 'p', 'e', 'a', 't'], .tRepeat)]

/-- lua.c:497-520 `kw_lookup`; `none` is `T_NAME`. -/
def kwLookup (s : Bytes) : Option Sym := (keywords.find? fun k => k.1 = s).map Prod.snd

/-- A signed 32-bit result. -/
def wrap32 (n : Int) : Int := n.bmod (2 ^ 32)

def digitsValue (s : Bytes) : Nat := s.foldl (fun v c => v * 10 + (c.toNat - 48)) 0

/-- lua.c:121-136 -/
def parseInt (s : Bytes) : Option Int :=
  let neg := s.head? = some 45
  let digits := if neg ∨ s.head? = some 43 then s.tail else s
  if digits = [] ∨ digits.all isDigit = false then none
  else some (wrap32 (if neg then -digitsValue digits else digitsValue digits))

def backslash : UInt8 := 92
def dquote : UInt8 := 34
def squote : UInt8 := 39
def newline : UInt8 := 10

/-- The character an escape stands for. -/
def escaped (c : UInt8) : UInt8 :=
  if c = 110 then 10 else if c = 116 then 9 else if c = 114 then 13 else c

/-- `sizeof buf`. -/
def strBuf : Nat := 1024

/-- lua.c:553-576: the text in the buffer and what follows the quote. -/
def lexStr (q : UInt8) : Bytes → Bytes → Except LexErr (Bytes × Bytes)
  | [], _ => .error .unterminated
  | [c], buf => if c = q then .ok (buf, []) else .error .unterminated
  | c :: next :: rest, buf =>
    if c = q then .ok (buf, next :: rest)
    else if c = backslash then
      if strBuf ≤ buf.length then .error .overrun
      else lexStr q rest (buf ++ [escaped next])
    else lexStr q (next :: rest) (if buf.length < strBuf then buf ++ [c] else buf)

/-- The operators of one character. -/
def singleOps : List (UInt8 × Sym) :=
  [(43, .tPlus), (45, .tMinus), (42, .tStar), (47, .tSlash), (37, .tPercent), (94, .tCaret),
   (40, .tLparen), (41, .tRparen), (123, .tLbrace), (125, .tRbrace), (91, .tLbrack),
   (93, .tRbrack), (44, .tComma), (59, .tSemi), (58, .tColon), (35, .tHash)]

/-- `long` if `second` follows, else `short`. -/
def lexTwo (second : UInt8) (long : Sym) (short : Except LexErr Sym) (rest : Bytes) :
    Except LexErr (Sym × Bytes) :=
  if rest.head? = some second then .ok (long, rest.tail)
  else match short with
    | .ok t => .ok (t, rest)
    | .error e => .error e

/-- lua.c:596-636: an operator that starts with `c`. -/
def lexOp (c : UInt8) (rest : Bytes) : Except LexErr (Sym × Bytes) :=
  match singleOps.find? fun o => o.1 = c with
  | some o => .ok (o.2, rest)
  | none =>
    if c = 61 then lexTwo 61 .tEq (.ok .tAssign) rest
    else if c = 126 then lexTwo 61 .tNeq (.error .strayTilde) rest
    else if c = 60 then lexTwo 61 .tLe (.ok .tLt) rest
    else if c = 62 then lexTwo 61 .tGe (.ok .tGt) rest
    else if c = 46 then lexTwo 46 .tConcat (.ok .tDot) rest
    else .error .stray

/-- A name or a keyword. -/
def wordTok (w : Bytes) : Tok Bytes :=
  match kwLookup w with
  | some k => .sym k
  | none => .name w

/-- One round of the loop at `c`: the token it pushes, if any, and what is left.
lua.c:525-638 -/
def lexStep (c : UInt8) (rest : Bytes) : Except LexErr (Option (Tok Bytes) × Bytes) :=
  if c = 32 ∨ c = 9 ∨ c = 13 ∨ c = newline then .ok (none, rest)
  else if c = 45 ∧ rest.head? = some 45 then
    .ok (none, rest.tail.dropWhile fun b => b != newline)
  else if isDigit c then
    match parseInt (c :: rest.takeWhile isDigit) with
    | some n => .ok (some (.num n), rest.dropWhile isDigit)
    | none => .error .badNumber
  else if c = dquote ∨ c = squote then
    match lexStr c rest [] with
    | .ok (s, rest) => .ok (some (.str s), rest)
    | .error e => .error e
  else if isIdStart c then
    .ok (some (wordTok (c :: rest.takeWhile isIdCont)), rest.dropWhile isIdCont)
  else
    match lexOp c rest with
    | .ok (t, rest) => .ok (some (.sym t), rest)
    | .error e => .error e

/-- The loop, in at most `fuel` rounds; a round consumes a character at least. -/
def lexLoop : Nat → Bytes → Except LexErr (List (Tok Bytes))
  | _, [] => .ok [.eof]
  | 0, _ :: _ => .ok []
  | fuel + 1, c :: rest =>
    match lexStep c rest with
    | .error e => .error e
    | .ok (tok, rest) =>
      match lexLoop fuel rest with
      | .ok toks => .ok (tok.toList ++ toks)
      | .error e => .error e

/-- lua.c:522-642 -/
def lexAll (src : Bytes) : Except LexErr (List (Tok Bytes)) := lexLoop src.length src

/-! ## Consumption -/

theorem length_lexStr {q : UInt8} {s buf : Bytes} {r : Bytes × Bytes}
    (h : lexStr q s buf = .ok r) : r.2.length < s.length := by
  fun_induction lexStr q s buf with
  | case1 => cases h
  | case2 => cases h; simp
  | case3 => cases h
  | case4 => cases h; simp
  | case5 => cases h
  | case6 =>
    rename_i ih
    have := ih h
    simp only [length_cons]
    omega
  | case7 =>
    rename_i ih
    have := ih h
    simp only [length_cons] at this ⊢
    omega

theorem length_dropWhile_le {p : UInt8 → Bool} (l : Bytes) : (l.dropWhile p).length ≤ l.length :=
  (dropWhile_suffix p).length_le

variable {r rest : Bytes} {c : UInt8}

theorem length_lexTwo {second : UInt8} {long : Sym} {short : Except LexErr Sym}
    {t : Sym} (h : lexTwo second long short rest = .ok (t, r)) :
    r.length ≤ rest.length := by
  unfold lexTwo at h
  split at h
  · cases h
    rw [length_tail]
    omega
  · cases short with
    | ok _ => cases h; exact le_refl _
    | error _ => cases h

theorem length_lexOp {t : Sym} (h : lexOp c rest = .ok (t, r)) : r.length ≤ rest.length := by
  unfold lexOp at h
  split at h
  · cases h
    exact le_refl _
  · split at h
    · exact length_lexTwo h
    · split at h
      · exact length_lexTwo h
      · split at h
        · exact length_lexTwo h
        · split at h
          · exact length_lexTwo h
          · split at h
            · exact length_lexTwo h
            · cases h

theorem length_lexStep {tok : Option (Tok Bytes)}
    (h : lexStep c rest = .ok (tok, r)) : r.length ≤ rest.length := by
  unfold lexStep at h
  split at h
  · cases h
    exact le_refl _
  · split at h
    · cases h
      have := length_dropWhile_le (p := fun b => b != newline) rest.tail
      rw [length_tail] at this
      omega
    · split at h
      · split at h
        · cases h
          exact length_dropWhile_le _
        · cases h
      · split at h
        · split at h
          · rename_i hs
            cases h
            exact le_of_lt (length_lexStr hs)
          · cases h
        · split at h
          · cases h
            exact length_dropWhile_le _
          · split at h
            · rename_i ho
              cases h
              exact length_lexOp ho
            · cases h

theorem lexLoop_fuel {n m : Nat} {s : Bytes} (hn : s.length ≤ n) (hm : s.length ≤ m) :
    lexLoop n s = lexLoop m s := by
  induction n generalizing s m with
  | zero =>
    have : s = [] := length_eq_zero_iff.1 (by omega)
    rw [this]
    cases m <;> rfl
  | succ n ih =>
    cases s with
    | nil => cases m <;> rfl
    | cons c rest =>
      cases m with
      | zero => cases hm
      | succ m =>
        rw [length_cons] at hn hm
        unfold lexLoop
        cases hs : lexStep c rest with
        | error e => rfl
        | ok tr =>
          obtain ⟨tok, r⟩ := tr
          have hr := length_lexStep hs
          simp [ih (s := r) (m := m) (by omega) (by omega)]

theorem lexAll_cons {tok : Option (Tok Bytes)} (h : lexStep c rest = .ok (tok, r)) :
    lexAll (c :: rest) = match lexAll r with
      | .ok toks => .ok (tok.toList ++ toks)
      | .error e => .error e := by
  have hr := length_lexStep h
  unfold lexAll
  rw [length_cons, lexLoop, h]
  simp [lexLoop_fuel (s := r) (n := rest.length) (m := r.length) hr le_rfl]

theorem lexAll_error {e : LexErr} (h : lexStep c rest = .error e) :
    lexAll (c :: rest) = .error e := by
  unfold lexAll
  rw [length_cons, lexLoop, h]

end AdventOS.Lua
