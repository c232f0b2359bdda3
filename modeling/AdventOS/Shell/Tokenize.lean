import AdventOS.Shell.Control

/-!
# From a line to tokens and pipelines

The tokenizer, the glob expansion and the pipeline parser of `user/sh.c`. The tokenizer is
one pass over the characters; the inner loops of the source over a quoted segment, over
`((...))` and over `${...}` are modes of the pass. Quote characters are stripped, and a
token does not say where they stood: only that a single quote was there. The flag `quoted`
is ours, for stating what quoting should do.

The directory listing is a parameter.
-/
namespace AdventOS.Shell

/-- A token of a line, and whether it contains quoted text or runs over the end of the
token list. -/
structure QTok extends Tok where
  quoted : Bool
  deriving DecidableEq

/-! ## Tokens -/

inductive Mode
  /-- Outside of quotes and groups. -/
  | plain
  /-- At the second character of an operator. -/
  | skip
  /-- Behind the quote character `q`. -/
  | quote (q : Char)
  /-- In a group of `o` and `c`, at a depth. -/
  | group (o c : Char) (depth : Nat)
  deriving DecidableEq

def isBlank (c : Char) : Bool := c = ' ' || c = '\t'

def isQuote (c : Char) : Bool := c = '\'' || c = '"'

/-- sh.c:376-418: the operator at `c`, and whether it takes the next character
too. -/
def opAt (c : Char) (next : Option Char) : Option (Word × Bool) :=
  if c = '|' ∧ next = some '>' then some (['|', '>'], true)
  else if c = '|' ∧ next = some '|' then some (kOr, true)
  else if c = '&' ∧ next = some '&' then some (kAnd, true)
  else if c = '>' ∧ next = some '>' then some (['>', '>'], true)
  else if c = '|' ∨ c = '>' ∨ c = '<' ∨ c = '&' ∨ c = ';' then some ([c], false)
  else none

/-- The mode behind a character of a group. -/
def groupMode (o c : Char) (depth : Nat) (ch : Char) : Mode :=
  if ch = o then .group o c (depth + 1)
  else if ch = c then if depth ≤ 1 then .plain else .group o c (depth - 1)
  else .group o c depth

/-- The mode behind a character that starts or continues a word. The first parenthesis of
`((` and the `$` of `${` stand in front of the group. -/
def wordMode (c : Char) (next : Option Char) : Mode :=
  if isQuote c then .quote c
  else if c = '(' ∧ next = some '(' then .group '(' ')' 1
  else if c = '$' ∧ next = some '{' then .group '{' '}' 0
  else .plain

def QTok.push (t : QTok) (c : Char) : QTok := { t with text := t.text ++ [c] }

/-- A character outside of quotes and groups. -/
def QTok.enter (t : QTok) (c : Char) : QTok :=
  if isQuote c then { t with raw := t.raw || c = '\'', quoted := true } else t.push c

def newTok : QTok := { text := [], raw := false, quoted := false }

/-- A word that an operator ends when no token is left: without a stripped quote there is
no room for the terminator. -/
def QTok.overrun (t : QTok) (rest : List Char) : QTok :=
  if t.quoted then t else { t with text := t.text ++ rest, quoted := true }

/-- sh.c:366-491 `tokenize`, with the word in hand and the number of tokens
that still fit. -/
def tokLoop : Mode → Option QTok → Nat → List Char → List QTok
  | _, cur, _, [] => cur.toList
  | m, cur, room, c :: p =>
    match m with
    | .quote q =>
      if c = q then tokLoop .plain cur room p
      else tokLoop (.quote q) (cur.map (·.push c)) room p
    | .group o k d => tokLoop (groupMode o k d c) (cur.map (·.push c)) room p
    | .skip => tokLoop .plain none room p
    | .plain =>
      if isBlank c then cur.toList ++ tokLoop .plain none room p
      else
        match opAt c p.head? with
        | some (op, two) =>
          match room with
          | 0 => (cur.map (·.overrun (c :: p))).toList
          | room + 1 =>
            cur.toList ++ ⟨⟨op, false⟩, false⟩ ::
              tokLoop (if two then .skip else .plain) none room p
        | none =>
          match cur, room with
          | some t, room => tokLoop (wordMode c p.head?) (some (t.enter c)) room p
          | none, 0 => []
          | none, room + 1 => tokLoop (wordMode c p.head?) (some (newTok.enter c)) room p

def argMax : Nat := 128

def tokenize (line : List Char) : List QTok := tokLoop .plain none (argMax - 1) line

/-! ## Glob expansion -/

/-- The test for operators of sh.c:601-604, by the first two characters. -/
def isOpTok : Word → Bool
  | [] => false
  | c :: t => (c = '|' || c = '>' || c = '<' || c = '&' || c = ';') &&
    (t.head? = none || t.head? = some c || (c = '|' && t.head? = some '>'))

def hasWild (t : Word) : Bool := t.any fun c => c = '*' || c = '?'

/-- sh.c:548-585 `glob_expand_one`; `fs` lists the paths that match. -/
def globOne (fs : Word → List Word) (t : Word) (room : Nat) : List Word :=
  if hasWild t then (fs t).take room else []

/-- sh.c:886-904 `struct pipeline`: stages by first token and count, files by
token. -/
structure Pipeline where
  stages : List (Nat × Nat)
  infile : Option Nat
  outfile : Option Nat
  append : Bool
  bg : Bool
  advjson : Bool
  deriving DecidableEq

def pipelineMax : Nat := 8

/-- The redirects at the end of `[lo, hi)`, in at most `n` rounds: the pipeline with the
files, and what is left. -/
def takeRedirects (toks : Toks) (lo : Nat) : Nat → Nat → Pipeline → Option (Nat × Pipeline)
  | 0, hi, pl => some (hi, pl)
  | n + 1, hi, pl =>
    if hi < lo + 2 then some (hi, pl)
    else if textAt toks (hi - 2) = ['<'] then
      if pl.infile.isSome then none
      else takeRedirects toks lo n (hi - 2) { pl with infile := some (hi - 1) }
    else if textAt toks (hi - 2) = ['>'] then
      if pl.outfile.isSome then none
      else takeRedirects toks lo n (hi - 2) { pl with outfile := some (hi - 1), append := false }
    else if textAt toks (hi - 2) = ['>', '>'] then
      if pl.outfile.isSome then none
      else takeRedirects toks lo n (hi - 2) { pl with outfile := some (hi - 1), append := true }
    else some (hi, pl)

/-- The stages of `[start, j + n)`, from token `j` on. -/
def splitStages (toks : Toks) : Nat → Nat → Nat → Pipeline → Option Pipeline
  | j, 0, start, pl =>
    if start < j then
      if pipelineMax ≤ pl.stages.length then none
      else some { pl with stages := pl.stages ++ [(start, j - start)] }
    else some pl
  | j, n + 1, start, pl =>
    if textAt toks j = ['|'] ∨ textAt toks j = ['|', '>'] then
      if pipelineMax ≤ pl.stages.length then none
      else if j = start then none
      else splitStages toks (j + 1) n (j + 1) { pl with
          stages := pl.stages ++ [(start, j - start)]
          advjson := pl.advjson || textAt toks j = ['|', '>'] }
    else splitStages toks (j + 1) n start pl

/-- sh.c:906-986 `parse_pipeline_slice`. -/
def parsePipeline (toks : Toks) (lo hi : Nat) : Option Pipeline :=
  let bg : Bool := lo < hi && textAt toks (hi - 1) = ['&']
  let hi := if bg then hi - 1 else hi
  (takeRedirects toks lo hi hi ⟨[], none, none, false, bg, false⟩).bind fun r =>
    let last := textAt toks (r.1 - 1)
    if lo < r.1 ∧ (last = ['<'] ∨ last = ['>'] ∨ last = ['>', '>']) then none
    else
      (splitStages toks lo (r.1 - lo) lo r.2).bind fun pl =>
        if pl.stages.isEmpty then none else some pl

def isPipeOp (t : Word) : Bool :=
  t = ['|'] || t = ['>'] || t = ['<'] || t = ['|', '>'] || t = ['>', '>']

/-- sh.c:2884-2894: whether a segment needs the fork path. -/
def hasPipeOp (toks : Toks) (lo n : Nat) : Bool :=
  (List.range n).any fun k => isPipeOp (textAt toks (lo + k))

/-! ## Segments -/

/-- The segments that the chain walker cuts a fresh range into, each with the operator in
front of it: the scan of `exec_token_seq` from `j` on, without running anything. -/
def segments (toks : Toks) : Nat → Nat → Nat → Int → Int → List (Int × Nat × Nat)
  | j, 0, segStart, chain, _ => if segStart < j then [(chain, segStart, j)] else []
  | j, n + 1, segStart, chain, depth =>
    let d := depthDelta (textAt toks j)
    if d ≠ 0 then segments toks (j + 1) n segStart chain (depth + d)
    else if 0 < depth ∨ chainKind (textAt toks j) = 0 then
      segments toks (j + 1) n segStart chain depth
    else
      (if segStart < j then [(chain, segStart, j)] else []) ++
        segments toks (j + 1) n (j + 1) (chainKind (textAt toks j)) depth

end AdventOS.Shell
