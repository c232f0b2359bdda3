import Mathlib

/-!
# The compound executor of the shell (`user/sh.c`)

A line is an array of tokens. The executor walks ranges of it, counts the depth of
compounds by the words that open and close them, and writes `NULL` over the separators it
passes. A loop saves the tokens of its body and puts them back before each round, because
running the body rewrites them.

What the executor does not decide is a parameter, over a world `W` (variables, files, the
terminal): the `$` expansion of a token, the setting of a variable, whether a word names a
function, and a leaf segment, which is everything `execute_segment` runs but compounds and
the three builtins that change the control state. The bounds of the pool of expanded
strings are left out, and so are the messages.

`none` is out of fuel; the fuel bounds the depth of the C calls.
-/
namespace AdventOS.Shell

abbrev Word := List Char

/-- A token: its text, and whether single quotes keep it from expansion. -/
structure Tok where
  text : Word
  raw : Bool
  deriving DecidableEq

/-- `char *toks[]`; `none` is `NULL`. -/
abbrev Toks := Nat → Option Tok

/-! ## Words with a meaning -/

def kIf : Word := ['i', 'f']
def kThen : Word := ['t', 'h', 'e', 'n']
def kElif : Word := ['e', 'l', 'i', 'f']
def kElse : Word := ['e', 'l', 's', 'e']
def kFi : Word := ['f', 'i']
def kFor : Word := ['f', 'o', 'r']
def kIn : Word := ['i', 'n']
def kWhile : Word := ['w', 'h', 'i', 'l', 'e']
def kDo : Word := ['d', 'o']
def kDone : Word := ['d', 'o', 'n', 'e']
def kOpen : Word := ['{']
def kClose : Word := ['}']
def kSemi : Word := [';']
def kAnd : Word := ['&', '&']
def kOr : Word := ['|', '|']
def kBreak : Word := ['b', 'r', 'e', 'a', 'k']
def kContinue : Word := ['c', 'o', 'n', 't', 'i', 'n', 'u', 'e']
def kReturn : Word := ['r', 'e', 't', 'u', 'r', 'n']

/-- sh.c:2692-2702 -/
def depthDelta (t : Word) : Int :=
  if t = kIf ∨ t = kFor ∨ t = kWhile ∨ t = kOpen then 1
  else if t = kFi ∨ t = kDone ∨ t = kClose then -1
  else 0

/-- sh.c:3582-3591 -/
def chainKind (t : Word) : Int :=
  if t = kAnd then 1 else if t = kOr then -1 else if t = kSemi then 2 else 0

def isOpener (t : Word) : Bool := t = kIf || t = kFor || t = kWhile || t = kOpen

/-! ## Scanning -/

/-- sh.c:2709-2741 `find_depth_any`, with `n` tokens to go: the index of the
first of `kws` at depth 0. `find_depth_kw` is the same with one word. -/
def findAny (toks : Toks) (kws : List Word) : Nat → Nat → Int → Nat
  | i, 0, _ => i
  | i, n + 1, depth =>
    match toks i with
    | none => findAny toks kws (i + 1) n depth
    | some t =>
      if depth = 0 ∧ t.text ∈ kws then i
      else findAny toks kws (i + 1) n (depth + depthDelta t.text)

/-- A scan of the range `[lo, hi)` from depth 0. -/
def findIn (toks : Toks) (kws : List Word) (lo hi : Nat) : Nat := findAny toks kws lo (hi - lo) 0

/-- sh.c:2743-2760 `find_match_close`, behind the opener. -/
def matchClose (toks : Toks) (opener closer : Word) : Nat → Nat → Int → Nat
  | i, 0, _ => i
  | i, n + 1, depth =>
    match toks i with
    | none => matchClose toks opener closer (i + 1) n depth
    | some t =>
      if t.text = opener then matchClose toks opener closer (i + 1) n (depth + 1)
      else if t.text = closer then
        if depth - 1 = 0 then i else matchClose toks opener closer (i + 1) n (depth - 1)
      else matchClose toks opener closer (i + 1) n (depth + depthDelta t.text)

/-- sh.c:3012-3017, with `n` tokens to go. -/
def skipSemi (toks : Toks) : Nat → Nat → Nat
  | i, 0 => i
  | i, n + 1 =>
    match toks i with
    | some t => if t.text = kSemi then skipSemi toks (i + 1) n else i
    | none => i

def argv (toks : Toks) : Nat → Nat → List Tok
  | _, 0 => []
  | lo, n + 1 =>
    match toks lo with
    | some t => t :: argv toks (lo + 1) n
    | none => []

def put (toks : Toks) (i : Nat) (t : Option Tok) : Toks := fun k => if k = i then t else toks k

def restore (toks saved : Toks) (lo hi : Nat) : Toks :=
  fun k => if lo ≤ k ∧ k < hi then saved k else toks k

def textAt (toks : Toks) (i : Nat) : Word :=
  match toks i with
  | some t => t.text
  | none => []

/-! ## State -/

/-- What the executor leaves to the rest of the shell. -/
structure Rest (W : Type) where
  expand : W → Int → Tok → Tok × W
  setVar : W → Tok → Tok → Option W
  isFunc : W → Word → Bool
  leaf : W → Int → List Tok → Int × W

/-- The world, `g_last_status`, and the three variables of the control state. -/
structure St (W : Type) where
  world : W
  last : Int
  brk : Nat
  cont : Nat
  ret : Bool

variable {W : Type}

def St.pending (s : St W) : Bool := s.brk != 0 || s.cont != 0 || s.ret

/-- Status, tokens and state after a piece of the line. -/
abbrev Out (W : Type) := Int × Toks × St W

/-- sh.c:3340-3580 `expand_vars_segment`: `n` tokens from `i` on. -/
def expandVars (sh : Rest W) (last : Int) : Nat → Nat → Toks → W → Toks × W
  | _, 0, toks, w => (toks, w)
  | i, n + 1, toks, w =>
    match toks i with
    | none => expandVars sh last (i + 1) n toks w
    | some t =>
      let r := sh.expand w last t
      expandVars sh last (i + 1) n (put toks i (some r.1)) r.2

def digits : Int → Word → Option Int
  | v, [] => some v
  | v, c :: cs =>
    if c < '0' ∨ '9' < c then none
    else digits ((v * 10 + (c.toNat - '0'.toNat)).bmod (2 ^ 32)) cs

/-- sh.c:2433-2446 -/
def parseInt : Word → Option Int
  | [] => none
  | '-' :: cs => if cs = [] then none else (digits 0 cs).map fun v => (-v).bmod (2 ^ 32)
  | '+' :: cs => if cs = [] then none else digits 0 cs
  | cs => digits 0 cs

def count (args : List Tok) : Nat :=
  match args with
  | [] => 1
  | a :: _ =>
    match parseInt a.text with
    | some v => if 0 < v then v.toNat else 1
    | none => 1

def returnStatus (last : Int) (args : List Tok) : Int :=
  match args with
  | [] => last
  | a :: _ => (parseInt a.text).getD last

/-- What a segment that is no compound does: sh.c:2602-2635 for the three builtins,
behind the search for a function of the name. -/
def execLeaf (sh : Rest W) (seg : List Tok) (s : St W) : Int × St W :=
  match seg with
  | [] => (0, s)
  | t :: args =>
    if sh.isFunc s.world t.text then
      let r := sh.leaf s.world s.last seg
      (r.1, { s with world := r.2 })
    else if t.text = kBreak then (0, { s with brk := count args })
    else if t.text = kContinue then (0, { s with cont := count args })
    else if t.text = kReturn then (returnStatus s.last args, { s with ret := true })
    else
      let r := sh.leaf s.world s.last seg
      (r.1, { s with world := r.2 })

/-- `NAME() {` at the start of a segment. -/
def isFuncDef (toks : Toks) (lo hi : Nat) : Bool :=
  let t := textAt toks lo
  3 ≤ t.length && t.drop (t.length - 2) = ['(', ')'] && lo + 1 < hi && textAt toks (lo + 1) = kOpen

/-! ## Loops -/

/-- The loop control behind a body: on, or out. -/
def consume (s : St W) : Bool × St W :=
  if s.ret then (true, s)
  else if s.brk ≠ 0 then (true, { s with brk := s.brk - 1 })
  else if s.cont ≠ 0 then (1 < s.cont, { s with cont := s.cont - 1 })
  else (false, s)

/-- sh.c:3090-3131: the words from `i` on, `n` of them, with the body
`[bodyLo, bodyHi)` as it was saved. The separators that the source strips off the end of
the words are skipped here, as those between them are. -/
def forLoop (sh : Rest W) (exec : Nat → Nat → Toks → St W → Option (Out W)) (var : Tok)
    (saved : Toks) (bodyLo bodyHi : Nat) : Nat → Nat → Int → Toks → St W → Option (Out W)
  | _, 0, last, toks, s => some (last, toks, s)
  | i, n + 1, last, toks, s =>
    match toks i with
    | none => forLoop sh exec var saved bodyLo bodyHi (i + 1) n last toks s
    | some w =>
      if w.text = kSemi then forLoop sh exec var saved bodyLo bodyHi (i + 1) n last toks s
      else
        match sh.setVar s.world var w with
        | none => some (1, toks, s)
        | some world => do
          let (last, toks, s) ←
            exec bodyLo bodyHi (restore toks saved bodyLo bodyHi) { s with world := world }
          if (consume s).1 then some (last, toks, (consume s).2)
          else forLoop sh exec var saved bodyLo bodyHi (i + 1) n last toks (consume s).2

/-- The rounds a `while` runs at most. -/
def safety : Nat := 100000

/-- sh.c:3162-3190: the condition `[pos, doAt)` and the body. -/
def whileLoop (exec : Nat → Nat → Toks → St W → Option (Out W)) (saved : Toks)
    (pos doAt bodyLo bodyHi : Nat) : Nat → Int → Toks → St W → Option (Out W)
  | 0, last, toks, s => some (last, toks, s)
  | n + 1, last, toks, s => do
    let (c, toks, s) ← exec pos doAt (restore (restore toks saved pos doAt) saved bodyLo bodyHi) s
    if c ≠ 0 then some (last, toks, s)
    else do
      let (last, toks, s) ← exec bodyLo bodyHi (restore toks saved bodyLo bodyHi) s
      if (consume s).1 then some (last, toks, (consume s).2)
      else whileLoop exec saved pos doAt bodyLo bodyHi n last toks (consume s).2

/-! ## The walker -/

/-- The body of the chain walker at a separator or at the end: runs the segment
`[segStart, j)` unless the chain or a pending control state says otherwise. The flag says
that the walk ends. -/
def runChain (sh : Rest W) (exec : Nat → Nat → Toks → St W → Option (Out W)) (chain : Int)
    (segStart j : Nat) (last : Int) (toks : Toks) (s : St W) :
    Option (Bool × Out W) :=
  if j ≤ segStart then some (false, last, toks, s)
  else if s.pending then some (true, last, toks, s)
  else if (chain = 1 ∧ s.last ≠ 0) ∨ (chain = -1 ∧ s.last = 0) then some (false, last, toks, s)
  else
    let e :=
      if isOpener (textAt toks segStart) || isFuncDef toks segStart j then (toks, s.world)
      else expandVars sh s.last segStart (j - segStart) toks s.world
    (exec segStart j e.1 { s with world := e.2 }).map
      fun r => (false, r.1, r.2.1, { r.2.2 with last := r.1 })

/-- The loop of `exec_token_seq` from `j` on, with `n` tokens to go. -/
def seqLoop (sh : Rest W) (exec : Nat → Nat → Toks → St W → Option (Out W)) :
    Nat → Nat → Nat → Int → Int → Int → Toks → St W → Option (Out W)
  | j, 0, segStart, chain, _, last, toks, s =>
    (runChain sh exec chain segStart j last toks s).map fun r => r.2
  | j, n + 1, segStart, chain, depth, last, toks, s =>
    match toks j with
    | none => seqLoop sh exec (j + 1) n segStart chain depth last toks s
    | some t =>
      if depthDelta t.text ≠ 0 then
        seqLoop sh exec (j + 1) n segStart chain (depth + depthDelta t.text) last toks s
      else if 0 < depth ∨ chainKind t.text = 0 then
        seqLoop sh exec (j + 1) n segStart chain depth last toks s
      else do
        let (stop, last, toks, s) ←
          runChain sh exec chain segStart j last (put toks j none) s
        if stop then some (last, toks, s)
        else seqLoop sh exec (j + 1) n (j + 1) (chainKind t.text) depth last toks s

mutual
/-- sh.c:3213-3279 -/
def execTokenSeq (sh : Rest W) (fuel lo hi : Nat) (toks : Toks) (s : St W) : Option (Out W) :=
  match fuel with
  | 0 => none
  | n + 1 => seqLoop sh (execSegment sh n) lo (hi - lo) lo 2 0 s.last toks s

/-- sh.c:2800-3003, with `exec_compound`. -/
def execSegment (sh : Rest W) (fuel lo hi : Nat) (toks : Toks) (s : St W) : Option (Out W) :=
  match fuel with
  | 0 => none
  | n + 1 =>
    let t := textAt toks lo
    -- `exec_compound` dispatches on the same words once more
    if t = kIf then execIf sh n (lo + 1) hi toks s
    else if t = kFor then execFor sh n (lo + 1) hi toks s
    else if t = kWhile then execWhile sh n (lo + 1) hi toks s
    else if t = kOpen then
      execTokenSeq sh n (lo + 1) (matchClose toks kOpen kClose (lo + 1) (hi - (lo + 1)) 1) toks s
    else
      let r := execLeaf sh (argv toks lo (hi - lo)) s
      some (r.1, toks, r.2)

/-- sh.c:3022-3060, behind the `if` or an `elif`. -/
def execIf (sh : Rest W) (fuel pos hi : Nat) (toks : Toks) (s : St W) : Option (Out W) :=
  match fuel with
  | 0 => none
  | n + 1 =>
    let thenAt := findIn toks [kThen] pos hi
    if hi ≤ thenAt then some (2, toks, s)
    else do
      let (c, toks, s) ← execTokenSeq sh n pos thenAt toks s
      let pos := skipSemi toks (thenAt + 1) (hi - (thenAt + 1))
      let bodyEnd := findIn toks [kElif, kElse, kFi] pos hi
      if c = 0 then execTokenSeq sh n pos bodyEnd toks s
      else if hi ≤ bodyEnd then some (0, toks, s)
      else if textAt toks bodyEnd = kFi then some (0, toks, s)
      else if textAt toks bodyEnd = kElse then
        let pos := skipSemi toks (bodyEnd + 1) (hi - (bodyEnd + 1))
        execTokenSeq sh n pos (findIn toks [kFi] pos hi) toks s
      else if textAt toks bodyEnd = kElif then execIf sh n (bodyEnd + 1) hi toks s
      else some (0, toks, s)

/-- sh.c:3063-3132, behind the `for`. -/
def execFor (sh : Rest W) (fuel pos hi : Nat) (toks : Toks) (s : St W) : Option (Out W) :=
  match fuel with
  | 0 => none
  | n + 1 =>
    match toks pos with
    | none => some (2, toks, s)
    | some var =>
      if hi ≤ pos then some (2, toks, s)
      else if hi ≤ pos + 1 ∨ textAt toks (pos + 1) ≠ kIn then some (2, toks, s)
      else
        let doAt := findIn toks [kDo] (pos + 2) hi
        if hi ≤ doAt then some (2, toks, s)
        else
          let doneAt := findIn toks [kDone] (doAt + 1) hi
          if hi ≤ doneAt then some (2, toks, s)
          else
            let bodyLo := skipSemi toks (doAt + 1) (doneAt - (doAt + 1))
            forLoop sh (execTokenSeq sh n) var toks bodyLo doneAt (pos + 2) (doAt - (pos + 2)) 0
              toks s

/-- sh.c:3135-3192, behind the `while`. -/
def execWhile (sh : Rest W) (fuel pos hi : Nat) (toks : Toks) (s : St W) : Option (Out W) :=
  match fuel with
  | 0 => none
  | n + 1 =>
    let doAt := findIn toks [kDo] pos hi
    if hi ≤ doAt then some (2, toks, s)
    else
      let doneAt := findIn toks [kDone] (doAt + 1) hi
      if hi ≤ doneAt then some (2, toks, s)
      else
        let bodyLo := skipSemi toks (doAt + 1) (doneAt - (doAt + 1))
        whileLoop (execTokenSeq sh n) toks pos doAt bodyLo doneAt safety 0 toks s
end

end AdventOS.Shell
