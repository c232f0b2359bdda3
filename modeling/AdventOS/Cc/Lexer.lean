import AdventOS.Lua.Lexer

/-!
# The lexer of the C compiler (`user/cc.c`)

`lex_all` over the text that the preprocessor leaves. A token carries what the parser reads of
`struct tok_t`: its kind, the number, the name. A string literal is interned in a pool, and its
token carries its place there. Line numbers, which only the texts of errors show, are left out.
-/
namespace AdventOS.Cc
open List

open Lua (Bytes word isIdStart isDigit isIdCont newline backslash)

/-- cc.c:127-157: keywords and punctuation. -/
inductive Sym
  | int | char | if | else | while | return | for | do | break | continue | goto | switch | case
  | default | struct | union | sizeof | enum | typedef | static | external
  | lparen | rparen | lbrace | rbrace | lbracket | rbracket | semi | comma | assign
  | plus | minus | star | slash | percent | eq | neq | lt | gt | le | ge
  | ampAmp | pipePipe | bang | amp | pipe | caret | tilde | lshift | rshift
  | plusEq | minusEq | starEq | slashEq | percentEq | ampEq | pipeEq | caretEq | lshiftEq | rshiftEq
  | inc | dec | question | colon | dot | arrow | ellipsis
  deriving DecidableEq

/-- cc.c:166-171 `struct tok_t`; `str` carries the place in the pool. -/
inductive Tok
  | num (n : Int32)
  | name (s : Bytes)
  | str (i : Nat)
  | sym (t : Sym)
  | eof
  deriving DecidableEq

/-- The calls of `die` and `die_at`. -/
inductive LexErr
  | tooManyTokens | unterminatedChar | unknownEscape | closingQuote | stringTooLong
  | unterminatedString | tooManyStrings | poolOverflow | identifierTooLong | stray
  deriving DecidableEq

def nameMax : Nat := 24
def maxToks : Nat := 2048
def strPoolMax : Nat := 4096
def maxStrs : Nat := 256

/-- cc.c:274-297 `kw_lookup`; `none` is `T_NAME`. -/
def keywords : List (Bytes × Sym) :=
  [(word ['i', 'n', 't'], .int), (word ['c', 'h', 'a', 'r'], .char),
   (word ['s', 't', 'r', 'u', 'c', 't'], .struct), (word ['u', 'n', 'i', 'o', 'n'], .union),
   (word ['s', 'i', 'z', 'e', 'o', 'f'], .sizeof), (word ['e', 'n', 'u', 'm'], .enum),
   (word ['t', 'y', 'p', 'e', 'd', 'e', 'f'], .typedef),
   (word ['s', 't', 'a', 't', 'i', 'c'], .static), (word ['e', 'x', 't', 'e', 'r', 'n'], .external),
   (word ['i', 'f'], .if), (word ['e', 'l', 's', 'e'], .else),
   (word ['w', 'h', 'i', 'l', 'e'], .while), (word ['d', 'o'], .do),
   (word ['b', 'r', 'e', 'a', 'k'], .break),
   (word ['c', 'o', 'n', 't', 'i', 'n', 'u', 'e'], .continue),
   (word ['g', 'o', 't', 'o'], .goto), (word ['s', 'w', 'i', 't', 'c', 'h'], .switch),
   (word ['c', 'a', 's', 'e'], .case), (word ['d', 'e', 'f', 'a', 'u', 'l', 't'], .default),
   (word ['r', 'e', 't', 'u', 'r', 'n'], .return), (word ['f', 'o', 'r'], .for)]

def kwLookup (s : Bytes) : Option Sym := (keywords.find? fun k => k.1 = s).map Prod.snd

/-! ## Literals -/

/-- The character an escape stands for. -/
def escapes : List (UInt8 × UInt8) :=
  [(110, 10), (116, 9), (114, 13), (48, 0), (92, 92), (34, 34), (39, 39)]

def escaped (c : UInt8) : Except LexErr UInt8 :=
  ((escapes.find? fun e => e.1 = c).map fun e => .ok e.2).getD (.error .unknownEscape)

def closeChar (c : UInt8) (rest : Bytes) : Except LexErr (UInt8 × Bytes) :=
  if rest.head? = some 39 then .ok (c, rest.tail) else .error .closingQuote

/-- cc.c:602-630, behind the quote. -/
def lexChar : Bytes → Except LexErr (UInt8 × Bytes)
  | [] => .error .unterminatedChar
  | [c] => if c = backslash then .error .unterminatedChar else closeChar c []
  | c :: e :: rest =>
    if c = backslash then (escaped e).bind fun c => closeChar c rest else closeChar c (e :: rest)

/-- cc.c:636-660, behind the quote: the literal, collected in `tmp`, and the rest. -/
def lexStr : Bytes → Bytes → Except LexErr (Bytes × Bytes)
  | [], _ => .error .unterminatedString
  | [c], tmp =>
    if c = 34 then .ok (tmp, [])
    else if 255 ≤ tmp.length then .error .stringTooLong
    else .error .unterminatedString
  | c :: e :: rest, tmp =>
    if c = 34 then .ok (tmp, e :: rest)
    else if 255 ≤ tmp.length then .error .stringTooLong
    else if c = backslash then
      match escaped e with
      | .ok c => lexStr rest (tmp ++ [c])
      | .error err => .error err
    else lexStr (e :: rest) (tmp ++ [c])

/-- `p`, with its zero behind it, is found to be the same as `s`. -/
def sameStr (s p : Bytes) : Bool :=
  s.all (· ≠ 0) && s.isPrefixOf p && (p ++ [0])[s.length]? == some 0

/-- cc.c:243-258 `str_intern`. -/
def strIntern (pool : List Bytes) (s : Bytes) : Except LexErr (Nat × List Bytes) :=
  match pool.findIdx? (sameStr s) with
  | some i => .ok (i, pool)
  | none =>
    if maxStrs ≤ pool.length then .error .tooManyStrings
    else if strPoolMax < (pool.map fun p => p.length + 1).sum + s.length + 1 then
      .error .poolOverflow
    else .ok (pool.length, pool ++ [s])

def numValue (s : Bytes) : Int32 := s.foldl (fun v c => v * 10 + Int32.ofNat (c.toNat - 48)) 0

/-! ## Operators -/

def operators : List (Bytes × Sym) :=
  [([40], .lparen), ([41], .rparen), ([123], .lbrace), ([125], .rbrace), ([91], .lbracket),
   ([93], .rbracket), ([59], .semi), ([44], .comma),
   ([43, 43], .inc), ([43, 61], .plusEq), ([43], .plus),
   ([45, 45], .dec), ([45, 61], .minusEq), ([45, 62], .arrow), ([45], .minus),
   ([46, 46, 46], .ellipsis), ([46], .dot), ([42, 61], .starEq), ([42], .star),
   ([47, 61], .slashEq), ([47], .slash), ([37, 61], .percentEq), ([37], .percent),
   ([63], .question), ([58], .colon), ([126], .tilde), ([94, 61], .caretEq), ([94], .caret),
   ([61, 61], .eq), ([61], .assign), ([33, 61], .neq), ([33], .bang),
   ([60, 60, 61], .lshiftEq), ([60, 61], .le), ([60, 60], .lshift), ([60], .lt),
   ([62, 62, 61], .rshiftEq), ([62, 61], .ge), ([62, 62], .rshift), ([62], .gt),
   ([38, 38], .ampAmp), ([38, 61], .ampEq), ([38], .amp),
   ([124, 124], .pipePipe), ([124, 61], .pipeEq), ([124], .pipe)]

/-- cc.c:699-805 -/
def lexOp (s : Bytes) : Except LexErr (Sym × Bytes) :=
  match operators.find? fun o => o.1.isPrefixOf s with
  | some o => .ok (o.2, s.drop o.1.length)
  | none => .error .stray

/-! ## The loop -/

/-- What lexing has made: the tokens in their order, and the pool. -/
structure Lexed where
  toks : List Tok
  pool : List Bytes
  deriving DecidableEq

/-- cc.c:299-306 -/
def pushTok (st : Lexed) (t : Tok) : Except LexErr Lexed :=
  if maxToks ≤ st.toks.length then .error .tooManyTokens
  else .ok { st with toks := st.toks ++ [t] }

/-- What follows a block comment. -/
def skipComment : Bytes → Bytes
  | c :: d :: rest => if c = 42 ∧ d = 47 then rest else skipComment (d :: rest)
  | _ => []

/-- One round of the loop at `c`. cc.c:581-807 -/
def lexStep (st : Lexed) (c : UInt8) (rest : Bytes) : Except LexErr (Lexed × Bytes) :=
  if c = 32 ∨ c = 9 ∨ c = 13 ∨ c = newline then .ok (st, rest)
  else if c = 47 ∧ rest.head? = some 47 then
    .ok (st, rest.tail.dropWhile fun b => b != newline)
  else if c = 47 ∧ rest.head? = some 42 then .ok (st, skipComment rest.tail)
  else if c = 39 then
    (lexChar rest).bind fun r =>
      (pushTok st (.num (Int32.ofNat r.1.toNat))).bind fun st => .ok (st, r.2)
  else if c = 34 then
    (lexStr rest []).bind fun r => (strIntern st.pool r.1).bind fun p =>
      (pushTok { st with pool := p.2 } (.str p.1)).bind fun st => .ok (st, r.2)
  else if isDigit c then
    (pushTok st (.num (numValue (c :: rest.takeWhile isDigit)))).bind fun st =>
      .ok (st, rest.dropWhile isDigit)
  else if isIdStart c then
    let w := c :: rest.takeWhile isIdCont
    if nameMax ≤ w.length then .error .identifierTooLong
    else
      (pushTok st (((kwLookup w).map Tok.sym).getD (.name w))).bind fun st =>
        .ok (st, rest.dropWhile isIdCont)
  else (lexOp (c :: rest)).bind fun r => (pushTok st (.sym r.1)).bind fun st => .ok (st, r.2)

/-- The loop, in at most `fuel` rounds; a round consumes a character at least. -/
def lexLoop : Nat → Lexed → Bytes → Except LexErr Lexed
  | _, st, [] => pushTok st .eof
  | 0, st, _ :: _ => .ok st
  | fuel + 1, st, c :: rest => (lexStep st c rest).bind fun r => lexLoop fuel r.1 r.2

/-- cc.c:578-810 `lex_all`, from the pool that earlier literals have made. -/
def lexAll (pool : List Bytes) (src : Bytes) : Except LexErr Lexed :=
  lexLoop src.length ⟨[], pool⟩ src

/-! ## Consumption -/

variable {c : UInt8} {r rest s : Bytes} {st : Lexed}

theorem closeChar_length {d : UInt8} (h : closeChar c s = .ok (d, r)) : r.length ≤ s.length := by
  unfold closeChar at h
  split at h
  · cases h
    rw [length_tail]
    omega
  · cases h

theorem lexChar_length (h : lexChar s = .ok (c, r)) : r.length ≤ s.length := by
  unfold lexChar at h
  split at h
  · cases h
  · split at h
    · cases h
    · exact le_trans (closeChar_length h) (Nat.zero_le _)
  · rename_i d e rest
    rw [length_cons, length_cons]
    split at h
    · cases he : escaped e with
      | error err =>
        rw [he] at h
        cases h
      | ok d =>
        rw [he] at h
        have := closeChar_length h
        omega
    · have := closeChar_length h
      rw [length_cons] at this
      omega

theorem lexStr_length {tmp : Bytes} {r : Bytes × Bytes} (h : lexStr s tmp = .ok r) :
    r.2.length ≤ s.length := by
  fun_induction lexStr s tmp with
  | case1 => cases h
  | case2 => cases h; exact Nat.zero_le _
  | case3 => cases h
  | case4 => cases h
  | case5 => cases h; exact Nat.le_succ _
  | case6 => cases h
  | case7 =>
    rename_i ih
    have := ih h
    simp only [length_cons]
    omega
  | case8 => cases h
  | case9 =>
    rename_i ih
    have := ih h
    simp only [length_cons] at this ⊢
    omega

theorem skipComment_length (s : Bytes) : (skipComment s).length ≤ s.length := by
  fun_induction skipComment s with
  | case1 =>
    simp only [length_cons]
    omega
  | case2 =>
    rename_i ih
    simp only [length_cons] at ih ⊢
    omega
  | case3 => exact Nat.zero_le _

theorem lexOp_length {t : Sym} (h : lexOp (c :: rest) = .ok (t, r)) : r.length ≤ rest.length := by
  unfold lexOp at h
  split at h
  · rename_i o ho
    cases h
    have hmem := mem_of_find?_eq_some ho
    have hpos : ∀ o ∈ operators, 0 < o.1.length := by decide
    have := hpos o hmem
    rw [length_drop, length_cons]
    omega
  · cases h

theorem bind_push {st' : Lexed} {t : Tok}
    (h : ((pushTok st t).bind fun st => .ok (st, r)) = .ok (st', rest)) : rest = r := by
  cases hp : pushTok st t with
  | error e =>
    rw [hp] at h
    cases h
  | ok st =>
    rw [hp] at h
    cases h
    rfl

theorem lexStep_length {st' : Lexed}
    (h : lexStep st c rest = .ok (st', r)) : r.length ≤ rest.length := by
  have hdrop (p : UInt8 → Bool) (l : Bytes) : (l.dropWhile p).length ≤ l.length :=
    (dropWhile_suffix p).length_le
  have htail : rest.tail.length ≤ rest.length := by
    rw [length_tail]
    omega
  unfold lexStep at h
  split at h
  · cases h
    exact le_rfl
  split at h
  · cases h
    exact le_trans (hdrop _ _) htail
  split at h
  · cases h
    exact le_trans (skipComment_length _) htail
  split at h
  · cases hc : lexChar rest with
    | error e =>
      rw [hc] at h
      cases h
    | ok p =>
      rw [hc] at h
      rw [bind_push h]
      exact lexChar_length hc
  split at h
  · cases hc : lexStr rest [] with
    | error e =>
      rw [hc] at h
      cases h
    | ok p =>
      rw [hc] at h
      simp only [Except.bind] at h
      split at h
      · cases h
      · split at h
        · cases h
        · cases h
          exact lexStr_length hc
  split at h
  · rw [bind_push h]
    exact hdrop _ _
  split at h
  · dsimp only at h
    split at h
    · cases h
    · rw [bind_push h]
      exact hdrop _ _
  · cases ho : lexOp (c :: rest) with
    | error e =>
      rw [ho] at h
      cases h
    | ok p =>
      rw [ho] at h
      rw [bind_push h]
      exact lexOp_length ho

theorem lexLoop_fuel {n m : Nat} (hn : s.length ≤ n) (hm : s.length ≤ m) :
    lexLoop n st s = lexLoop m st s := by
  induction n generalizing s m st with
  | zero =>
    obtain rfl : s = [] := length_eq_zero_iff.1 (by omega)
    cases m <;> rfl
  | succ n ih =>
    cases s with
    | nil => cases m <;> rfl
    | cons c rest =>
      cases m with
      | zero => cases hm
      | succ m =>
        rw [length_cons] at hn hm
        unfold lexLoop
        cases hs : lexStep st c rest with
        | error e => rfl
        | ok r =>
          have := lexStep_length hs
          exact ih (by omega) (by omega)

def lexRest (st : Lexed) (s : Bytes) : Except LexErr Lexed := lexLoop s.length st s

theorem lexRest_cons :
    lexRest st (c :: rest) = (lexStep st c rest).bind fun r => lexRest r.1 r.2 := by
  unfold lexRest
  rw [length_cons, lexLoop]
  cases hs : lexStep st c rest with
  | error e => rfl
  | ok r => exact lexLoop_fuel (lexStep_length hs) le_rfl

end AdventOS.Cc
