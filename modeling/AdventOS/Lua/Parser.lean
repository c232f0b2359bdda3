import AdventOS.Core.Fuel
import AdventOS.Lua.Lexer

/-!
# The parser of the Lua interpreter

Recursive descent over the token list of `user/lua.c`, with precedence climbing for the
operators. A parser takes the tokens from the current one on and gives the tree and the
tokens left; `none` is `die`. The list of the source ends with `T_END`, which is never
advanced over: behind the last token of a list every further one is `eof`.

The functions recurse on a fuel that stands for the depth of the C calls.
-/
namespace AdventOS.Lua

/-- lua.c:646-709 `struct node`, over the representation `S` of strings. A
block is a node of its own; the lists of names are lists of texts. -/
inductive Node (S : Type)
  | num (n : Int)
  | str (s : S)
  | nil
  | true
  | false
  | name (s : S)
  | index (a b : Node S)
  | call (a : Node S) (args : List (Node S))
  | bin (op : Sym) (a b : Node S)
  | un (op : Sym) (a : Node S)
  | table (kv : List (Node S × Node S))
  | func (params : List S) (body : Node S)
  | assign (targets rhs : List (Node S))
  | local (names : List S) (rhs : List (Node S))
  | localFunc (name : S) (fn : Node S)
  | cond (arms : List (Node S × Node S)) (otherwise : Option (Node S))
  | while (a body : Node S)
  | forNum (var : S) (a b : Node S) (c : Option (Node S)) (body : Node S)
  | forGen (vars : List S) (rhs : List (Node S)) (body : Node S)
  | block (list : List (Node S))
  | return (list : List (Node S))
  | break
  | funcDecl (name : S) (path : Option (Node S)) (fn : Node S)
  | exprStmt (a : Node S)

variable {S : Type}

/-- A result and the tokens behind it. -/
abbrev Parsed (S A : Type) := A × List (Tok S)

/-! ## Tokens -/

def cur (ts : List (Tok S)) : Tok S := ts.headD .eof

/-- `tk_cur()->kind`, for the kinds that carry nothing. -/
def curSym (ts : List (Tok S)) : Option Sym :=
  match cur ts with
  | .sym t => some t
  | _ => none

/-- `expect(t)`: the tokens behind it. -/
def expect (t : Sym) (ts : List (Tok S)) : Option (List (Tok S)) :=
  if curSym ts = some t then some ts.tail else none

/-- lua.c:751-764 -/
def binopPrec : Sym → Nat
  | .tOr => 1
  | .tAnd => 2
  | .tLt | .tGt | .tLe | .tGe | .tEq | .tNeq => 3
  | .tConcat => 4
  | .tPlus | .tMinus => 5
  | .tStar | .tSlash | .tPercent => 6
  | .tCaret => 8
  | _ => 0

/-- lua.c:765-767 -/
def binopRightAssoc (t : Sym) : Bool := t = .tConcat || t = .tCaret

def isUnop (t : Sym) : Bool := t = .tNot || t = .tMinus || t = .tHash

def parseParams : List (Tok S) → List S × List (Tok S)
  | .name s :: .sym .tComma :: ts =>
    let (ps, ts) := parseParams ts
    (s :: ps, ts)
  | .name s :: ts => ([s], ts)
  | ts => ([], ts)

/-- Further names, each after a comma. -/
def parseNames : List (Tok S) → Option (List S × List (Tok S))
  | .sym .tComma :: .name s :: ts => (parseNames ts).map fun (ns, ts) => (s :: ns, ts)
  | .sym .tComma :: _ => none
  | ts => some ([], ts)

/-- The dotted tail of a function's name: the node it makes. -/
def parsePath (head : Node S) : List (Tok S) → Option (Node S × List (Tok S))
  | .sym .tDot :: .name s :: ts => parsePath (.index head (.str s)) ts
  | .sym .tDot :: _ => none
  | ts => some (head, ts)

def isBlockEnd (t : Tok S) : Bool :=
  match t with
  | .eof | .sym .tEnd | .sym .tElse | .sym .tElseif | .sym .tUntil => Bool.true
  | _ => Bool.false

/-- What ends the expressions of a return at once. -/
def isReturnEnd (t : Tok S) : Bool :=
  match t with
  | .sym .tSemi => Bool.true
  | t => isBlockEnd t

def isTarget : Node S → Bool
  | .name _ | .index _ _ => Bool.true
  | _ => Bool.false

/-! ## The parser -/

mutual
/-- lua.c:769-792 `parse_expr_prec`. -/
def parsePrec (fuel min : Nat) (ts : List (Tok S)) : Option (Node S × List (Tok S)) :=
  match fuel with
  | 0 => none
  | n + 1 => do
    let (left, ts) ← match curSym ts with
      | some u =>
        if isUnop u then do
          let (a, ts) ← parsePrec n 7 ts.tail
          some (.un u a, ts)
        else parsePrefix n ts
      | none => parsePrefix n ts
    parseBin n min left ts

/-- The loop of `parse_expr_prec` over the operators after `left`. -/
def parseBin (fuel min : Nat) (left : Node S) (ts : List (Tok S)) :
    Option (Node S × List (Tok S)) :=
  match fuel with
  | 0 => none
  | n + 1 =>
    match curSym ts with
    | some t =>
      let p := binopPrec t
      if p = 0 ∨ p < min then some (left, ts)
      else do
        let (right, ts) ← parsePrec n (if binopRightAssoc t then p else p + 1) ts.tail
        parseBin n min (.bin t left right) ts
    | none => some (left, ts)

/-- lua.c:872-927 `parse_prefix`: the primary. -/
def parsePrefix (fuel : Nat) (ts : List (Tok S)) : Option (Node S × List (Tok S)) :=
  match fuel with
  | 0 => none
  | n + 1 =>
    match cur ts with
    | .num v => parseSuffix n (.num v) ts.tail
    | .str s => parseSuffix n (.str s) ts.tail
    | .name s => parseSuffix n (.name s) ts.tail
    | .sym .tNil => parseSuffix n .nil ts.tail
    | .sym .tTrue => parseSuffix n .true ts.tail
    | .sym .tFalse => parseSuffix n .false ts.tail
    | .sym .tLparen => do
      let (e, ts) ← parsePrec n 1 ts.tail
      let ts ← expect .tRparen ts
      parseSuffix n e ts
    | .sym .tLbrace => do
      let (kv, ts) ← parseTable n 1 ts.tail
      parseSuffix n (.table kv) ts
    | .sym .tFunction => do
      let (fn, ts) ← parseFuncBody n ts.tail
      parseSuffix n fn ts
    | _ => none

/-- The suffix chain behind `e`: `.name`, `[expr]`, `(args)`. -/
def parseSuffix (fuel : Nat) (e : Node S) (ts : List (Tok S)) :
    Option (Node S × List (Tok S)) :=
  match fuel with
  | 0 => none
  | n + 1 =>
    match curSym ts with
    | some .tDot =>
      match cur ts.tail with
      | .name s => parseSuffix n (.index e (.str s)) ts.tail.tail
      | _ => none
    | some .tLbrack => do
      let (k, ts) ← parsePrec n 1 ts.tail
      let ts ← expect .tRbrack ts
      parseSuffix n (.index e k) ts
    | some .tLparen => do
      let (args, ts) ← parseArgs n ts.tail
      parseSuffix n (.call e args) ts
    | _ => some (e, ts)

/-- lua.c:798-809: the arguments and the closing parenthesis. -/
def parseArgs (fuel : Nat) (ts : List (Tok S)) : Option (List (Node S) × List (Tok S)) :=
  match fuel with
  | 0 => none
  | n + 1 =>
    if curSym ts = some .tRparen then some ([], ts.tail)
    else do
      let (a, ts) ← parsePrec n 1 ts
      if curSym ts = some .tComma then do
        let (as, ts) ← parseArgs n ts.tail
        some (a :: as, ts)
      else do
        let ts ← expect .tRparen ts
        some ([a], ts)

/-- lua.c:811-853: the fields from the index `autoIdx` on and the closing
brace. -/
def parseTable (fuel : Nat) (autoIdx : Int) (ts : List (Tok S)) :
    Option (List (Node S × Node S) × List (Tok S)) :=
  match fuel with
  | 0 => none
  | n + 1 =>
    if curSym ts = some .tRbrace then some ([], ts.tail)
    else do
      let (kv, autoIdx, ts) ← parseField n autoIdx ts
      if curSym ts = some .tComma ∨ curSym ts = some .tSemi then do
        let (kvs, ts) ← parseTable n autoIdx ts.tail
        some (kv :: kvs, ts)
      else do
        let ts ← expect .tRbrace ts
        some ([kv], ts)

/-- One field of a table, with the index the next positional one gets. -/
def parseField (fuel : Nat) (autoIdx : Int) (ts : List (Tok S)) :
    Option ((Node S × Node S) × Int × List (Tok S)) :=
  match fuel with
  | 0 => none
  | n + 1 =>
    match cur ts with
    | .sym .tLbrack => do
      let (k, ts) ← parsePrec n 1 ts.tail
      let ts ← expect .tRbrack ts
      let ts ← expect .tAssign ts
      let (v, ts) ← parsePrec n 1 ts
      some ((k, v), autoIdx, ts)
    | .name s =>
      if curSym ts.tail = some .tAssign then do
        let (v, ts) ← parsePrec n 1 ts.tail.tail
        some ((.str s, v), autoIdx, ts)
      else do
        let (v, ts) ← parsePrec n 1 ts
        some ((.num autoIdx, v), autoIdx + 1, ts)
    | _ => do
      let (v, ts) ← parsePrec n 1 ts
      some ((.num autoIdx, v), autoIdx + 1, ts)

/-- lua.c:855-870 -/
def parseFuncBody (fuel : Nat) (ts : List (Tok S)) : Option (Node S × List (Tok S)) :=
  match fuel with
  | 0 => none
  | n + 1 => do
    let ts ← expect .tLparen ts
    let (params, ts) := parseParams ts
    let ts ← expect .tRparen ts
    let (body, ts) ← parseBlock n ts
    let ts ← expect .tEnd ts
    some (.func params body, ts)

def parseExprs (fuel : Nat) (ts : List (Tok S)) : Option (List (Node S) × List (Tok S)) :=
  match fuel with
  | 0 => none
  | n + 1 => do
    let (e, ts) ← parsePrec n 1 ts
    if curSym ts = some .tComma then do
      let (es, ts) ← parseExprs n ts.tail
      some (e :: es, ts)
    else some ([e], ts)

/-- lua.c:929-951: the arms from a condition on, and the `end`. -/
def parseIf (fuel : Nat) (ts : List (Tok S)) :
    Option (List (Node S × Node S) × Option (Node S) × List (Tok S)) :=
  match fuel with
  | 0 => none
  | n + 1 => do
    let (c, ts) ← parsePrec n 1 ts
    let ts ← expect .tThen ts
    let (blk, ts) ← parseBlock n ts
    if curSym ts = some .tElseif then do
      let (arms, els, ts) ← parseIf n ts.tail
      some ((c, blk) :: arms, els, ts)
    else if curSym ts = some .tElse then do
      let (els, ts) ← parseBlock n ts.tail
      let ts ← expect .tEnd ts
      some ([(c, blk)], some els, ts)
    else do
      let ts ← expect .tEnd ts
      some ([(c, blk)], none, ts)

def parseDo (fuel : Nat) (ts : List (Tok S)) : Option (Node S × List (Tok S)) :=
  match fuel with
  | 0 => none
  | n + 1 => do
    let ts ← expect .tDo ts
    let (body, ts) ← parseBlock n ts
    let ts ← expect .tEnd ts
    some (body, ts)

/-- lua.c:963-1006, behind the `for`. -/
def parseFor (fuel : Nat) (ts : List (Tok S)) : Option (Node S × List (Tok S)) :=
  match fuel with
  | 0 => none
  | n + 1 =>
    match cur ts with
    | .name first =>
      if curSym ts.tail = some .tAssign then do
        let (a, ts) ← parsePrec n 1 ts.tail.tail
        let ts ← expect .tComma ts
        let (b, ts) ← parsePrec n 1 ts
        let (c, ts) ←
          if curSym ts = some .tComma then do
            let (c, ts) ← parsePrec n 1 ts.tail
            some (some c, ts)
          else some (none, ts)
        let (body, ts) ← parseDo n ts
        some (.forNum first a b c body, ts)
      else do
        let (names, ts) ← parseNames ts.tail
        let ts ← expect .tIn ts
        let (rhs, ts) ← parseExprs n ts
        let (body, ts) ← parseDo n ts
        some (.forGen (first :: names) rhs body, ts)
    | _ => none

/-- lua.c:1008-1051, behind the `local`. -/
def parseLocal (fuel : Nat) (ts : List (Tok S)) : Option (Node S × List (Tok S)) :=
  match fuel with
  | 0 => none
  | n + 1 =>
    match cur ts with
    | .sym .tFunction =>
      match cur ts.tail with
      | .name s => do
        let (fn, ts) ← parseFuncBody n ts.tail.tail
        some (.localFunc s fn, ts)
      | _ => none
    | .name first => do
      let (names, ts) ← parseNames ts.tail
      if curSym ts = some .tAssign then do
        let (rhs, ts) ← parseExprs n ts.tail
        some (.local (first :: names) rhs, ts)
      else some (.local (first :: names) [], ts)
    | _ => none

/-- lua.c:1053-1077, behind the `function`. -/
def parseFuncDecl (fuel : Nat) (ts : List (Tok S)) : Option (Node S × List (Tok S)) :=
  match fuel with
  | 0 => none
  | n + 1 =>
    match cur ts with
    | .name s => do
      let (path, ts) ←
        if curSym ts.tail = some .tDot then do
          let (p, ts) ← parsePath (.name s) ts.tail
          some (some p, ts)
        else some (none, ts.tail)
      let (fn, ts) ← parseFuncBody n ts
      some (.funcDecl s path fn, ts)
    | _ => none

/-- lua.c:1079-1093, behind the `return`. -/
def parseReturn (fuel : Nat) (ts : List (Tok S)) : Option (Node S × List (Tok S)) :=
  match fuel with
  | 0 => none
  | n + 1 => do
    let (es, ts) ← if isReturnEnd (cur ts) then some ([], ts) else parseExprs n ts
    some (.return es, if curSym ts = some .tSemi then ts.tail else ts)

/-- Further targets of an assignment, each after a comma. -/
def parseTargets (fuel : Nat) (ts : List (Tok S)) : Option (List (Node S) × List (Tok S)) :=
  match fuel with
  | 0 => none
  | n + 1 =>
    if curSym ts = some .tComma then do
      let (e, ts) ← parsePrefix n ts.tail
      if isTarget e then do
        let (es, ts) ← parseTargets n ts
        some (e :: es, ts)
      else none
    else some ([], ts)

/-- lua.c:1095-1138; a semicolon alone is no statement. -/
def parseStmt (fuel : Nat) (ts : List (Tok S)) : Option (Option (Node S) × List (Tok S)) :=
  match fuel with
  | 0 => none
  | n + 1 =>
    let stmt (r : Option (Node S × List (Tok S))) : Option (Option (Node S) × List (Tok S)) :=
      r.map fun (e, ts) => (some e, ts)
    match cur ts with
    | .sym .tIf => (parseIf n ts.tail).map fun (arms, els, ts) => (some (.cond arms els), ts)
    | .sym .tWhile => do
      let (a, ts) ← parsePrec n 1 ts.tail
      let (body, ts) ← parseDo n ts
      some (some (.while a body), ts)
    | .sym .tFor => stmt (parseFor n ts.tail)
    | .sym .tLocal => stmt (parseLocal n ts.tail)
    | .sym .tFunction => stmt (parseFuncDecl n ts.tail)
    | .sym .tReturn => stmt (parseReturn n ts.tail)
    | .sym .tBreak => some (some .break, ts.tail)
    | .sym .tSemi => some (none, ts.tail)
    | .sym .tDo => stmt (parseDo n ts)
    | _ => do
      let (e, ts) ← parsePrefix n ts
      if curSym ts = some .tComma ∨ curSym ts = some .tAssign then do
        let (more, ts) ← parseTargets n ts
        let ts ← expect .tAssign ts
        let (rhs, ts) ← parseExprs n ts
        some (some (.assign (e :: more) rhs), ts)
      else match e with
        | .call _ _ => some (some (.exprStmt e), ts)
        | _ => none

def parseStmts (fuel : Nat) (ts : List (Tok S)) : Option (List (Node S) × List (Tok S)) :=
  match fuel with
  | 0 => none
  | n + 1 =>
    if isBlockEnd (cur ts) then some ([], ts)
    else do
      let (s, ts) ← parseStmt n ts
      let (ss, ts) ← parseStmts n ts
      some (s.toList ++ ss, ts)

/-- lua.c:1144-1152 -/
def parseBlock (fuel : Nat) (ts : List (Tok S)) : Option (Node S × List (Tok S)) :=
  match fuel with
  | 0 => none
  | n + 1 => (parseStmts n ts).map fun (ss, ts) => (.block ss, ts)
end

def parseExpr (fuel : Nat) (ts : List (Tok S)) : Option (Node S × List (Tok S)) :=
  parsePrec fuel 1 ts

/-! ## One step of each function -/

section Rules
variable {min : Nat} {ts ts' : List (Tok S)} {e a : Node S} {r : Node S × List (Tok S)}

-- the equations of the mutual block, generated once for all the rules below
attribute [local simp] parsePrec parseBin parsePrefix parseSuffix parseArgs parseTable parseField

theorem parsePrec_unop {u : Sym} (hcur : curSym ts = some u) (hu : isUnop u = Bool.true)
    (ha : Settles (parsePrec · 7 ts.tail) (a, ts'))
    (hr : Settles (parseBin · min (.un u a) ts') r) :
    Settles (parsePrec · min ts) r := by
  refine Settles.succ (fun n => ?_) (ha.bind (k := fun n p => parseBin n min (.un u p.1) p.2) hr)
  rw [parsePrec]
  simp [hcur, hu]

theorem parsePrec_prefix (hcur : ∀ u, curSym ts = some u → isUnop u = Bool.false)
    (he : Settles (parsePrefix · ts) (e, ts')) (hr : Settles (parseBin · min e ts') r) :
    Settles (parsePrec · min ts) r := by
  refine Settles.succ (fun n => ?_) (he.bind (k := fun n p => parseBin n min p.1 p.2) hr)
  rw [parsePrec]
  cases hc : curSym ts with
  | none => rfl
  | some u =>
    simp [hcur u hc]

/-- The precedence of the operator that comes next, 0 for none. -/
def nextPrec (ts : List (Tok S)) : Nat :=
  match curSym ts with
  | some t => binopPrec t
  | none => 0

theorem parseBin_stop (h : nextPrec ts = 0 ∨ nextPrec ts < min) :
    Settles (parseBin · min e ts) (e, ts) := by
  refine Settles.succ (fun n => ?_) (Settles.ret _)
  rw [parseBin]
  unfold nextPrec at h
  cases hc : curSym ts with
  | none => rfl
  | some t =>
    rw [hc] at h
    exact if_pos h

theorem parseBin_step {t : Sym} {b : Node S} (hcur : curSym ts = some t) (h0 : 0 < binopPrec t)
    (hmin : min ≤ binopPrec t)
    (hb : Settles (parsePrec · (if binopRightAssoc t then binopPrec t else binopPrec t + 1) ts.tail)
      (b, ts'))
    (hr : Settles (parseBin · min (.bin t a b) ts') r) : Settles (parseBin · min a ts) r := by
  refine Settles.succ (fun n => ?_) (hb.bind (k := fun n p => parseBin n min (.bin t a p.1) p.2) hr)
  rw [parseBin]
  simp only [hcur]
  rw [if_neg (by omega)]

def leaf : Tok S → Option (Node S)
  | .num v => some (.num v)
  | .str s => some (.str s)
  | .name s => some (.name s)
  | .sym .tNil => some .nil
  | .sym .tTrue => some .true
  | .sym .tFalse => some .false
  | _ => none

theorem parsePrefix_leaf {t : Tok S} (ht : leaf t = some e) (hr : Settles (parseSuffix · e ts) r) :
    Settles (parsePrefix · (t :: ts)) r := by
  refine Settles.succ (fun n => ?_) hr
  rw [parsePrefix]
  unfold leaf at ht
  split at ht
  all_goals first
    | (cases ht; rfl)
    | cases ht

theorem parsePrefix_paren (he : Settles (parsePrec · 1 ts) (e, .sym .tRparen :: ts'))
    (hr : Settles (parseSuffix · e ts') r) :
    Settles (parsePrefix · (.sym .tLparen :: ts)) r := by
  refine Settles.succ (fun n => ?_) (he.bind (k := fun n (p : Parsed S (Node S)) =>
    expect .tRparen p.2 >>= fun ts => parseSuffix n p.1 ts) hr)
  rw [parsePrefix]
  rfl

theorem parsePrefix_table {kv : List (Node S × Node S)}
    (he : Settles (parseTable · 1 ts) (kv, ts')) (hr : Settles (parseSuffix · (.table kv) ts') r) :
    Settles (parsePrefix · (.sym .tLbrace :: ts)) r := by
  refine Settles.succ (fun n => ?_) (he.bind (k := fun n p => parseSuffix n (.table p.1) p.2) hr)
  rw [parsePrefix]
  rfl

/-- The tokens that go on with a suffix chain. -/
def startsSuffix (ts : List (Tok S)) : Prop :=
  curSym ts = some .tDot ∨ curSym ts = some .tLbrack ∨ curSym ts = some .tLparen

theorem parseSuffix_stop (h : ¬ startsSuffix ts) : Settles (parseSuffix · e ts) (e, ts) := by
  refine Settles.succ (fun n => ?_) (Settles.ret _)
  rw [parseSuffix]
  split
  · exact absurd (.inl ‹_›) h
  · exact absurd (.inr (.inl ‹_›)) h
  · exact absurd (.inr (.inr ‹_›)) h
  · rfl

theorem parseSuffix_dot {s : S} (hr : Settles (parseSuffix · (.index e (.str s)) ts) r) :
    Settles (parseSuffix · e (.sym .tDot :: .name s :: ts)) r := by
  refine Settles.succ (fun n => ?_) hr
  rw [parseSuffix]
  rfl

theorem parseSuffix_index {k : Node S} (hk : Settles (parsePrec · 1 ts) (k, .sym .tRbrack :: ts'))
    (hr : Settles (parseSuffix · (.index e k) ts') r) :
    Settles (parseSuffix · e (.sym .tLbrack :: ts)) r := by
  refine Settles.succ (fun n => ?_) (hk.bind (k := fun n (p : Parsed S (Node S)) =>
    expect .tRbrack p.2 >>= fun ts => parseSuffix n (.index e p.1) ts) hr)
  rw [parseSuffix]
  rfl

theorem parseSuffix_call {args : List (Node S)} (hk : Settles (parseArgs · ts) (args, ts'))
    (hr : Settles (parseSuffix · (.call e args) ts') r) :
    Settles (parseSuffix · e (.sym .tLparen :: ts)) r := by
  refine Settles.succ (fun n => ?_) (hk.bind (k := fun n p => parseSuffix n (.call e p.1) p.2) hr)
  rw [parseSuffix]
  rfl

theorem parseArgs_nil : Settles (parseArgs · (.sym .tRparen :: ts)) ([], ts) := by
  refine Settles.succ (fun n => ?_) (Settles.ret _)
  rw [parseArgs]
  rfl

theorem parseArgs_last (hcur : curSym ts ≠ some .tRparen)
    (ha : Settles (parsePrec · 1 ts) (a, .sym .tRparen :: ts')) :
    Settles (parseArgs · ts) ([a], ts') := by
  refine Settles.succ (fun n => ?_) (ha.bind (k := fun n (p : Parsed S (Node S)) =>
    if curSym p.2 = some .tComma then do
      let (as, ts) ← parseArgs n p.2.tail
      some (p.1 :: as, ts)
    else do
      let ts ← expect .tRparen p.2
      some ([p.1], ts)) (Settles.ret _))
  rw [parseArgs, if_neg hcur]

theorem parseArgs_cons {as : List (Node S)} (hcur : curSym ts ≠ some .tRparen)
    {ts'' : List (Tok S)} (ha : Settles (parsePrec · 1 ts) (a, .sym .tComma :: ts'))
    (has : Settles (parseArgs · ts') (as, ts'')) :
    Settles (parseArgs · ts) (a :: as, ts'') := by
  refine Settles.succ (fun n => ?_) (ha.bind (k := fun n (p : Parsed S (Node S)) =>
    if curSym p.2 = some .tComma then do
      let (as, ts) ← parseArgs n p.2.tail
      some (p.1 :: as, ts)
    else do
      let ts ← expect .tRparen p.2
      some ([p.1], ts))
    (has.bind (k := fun _ (p : Parsed S (List (Node S))) => some (a :: p.1, p.2)) (Settles.ret _)))
  rw [parseArgs, if_neg hcur]

variable {i : Int} {v : Node S}

theorem parseTable_nil : Settles (parseTable · i (.sym .tRbrace :: ts)) ([], ts) := by
  refine Settles.succ (fun n => ?_) (Settles.ret _)
  rw [parseTable]
  rfl

theorem parseTable_last {i' : Int} {kv : Node S × Node S} (hcur : curSym ts ≠ some .tRbrace)
    (hf : Settles (parseField · i ts) (kv, i', .sym .tRbrace :: ts')) :
    Settles (parseTable · i ts) ([kv], ts') := by
  refine Settles.succ (fun n => ?_)
    (hf.bind (k := fun n (p : (Node S × Node S) × Int × List (Tok S)) =>
    if curSym p.2.2 = some .tComma ∨ curSym p.2.2 = some .tSemi then do
      let (kvs, ts) ← parseTable n p.2.1 p.2.2.tail
      some (p.1 :: kvs, ts)
    else do
      let ts ← expect .tRbrace p.2.2
      some ([p.1], ts)) (Settles.ret _))
  rw [parseTable, if_neg hcur]

theorem parseTable_cons {i' : Int} {kv : Node S × Node S} {kvs : List (Node S × Node S)}
    {ts'' : List (Tok S)} (hcur : curSym ts ≠ some .tRbrace)
    (hf : Settles (parseField · i ts) (kv, i', .sym .tComma :: ts'))
    (hr : Settles (parseTable · i' ts') (kvs, ts'')) :
    Settles (parseTable · i ts) (kv :: kvs, ts'') := by
  refine Settles.succ (fun n => ?_)
    (hf.bind (k := fun n (p : (Node S × Node S) × Int × List (Tok S)) =>
    if curSym p.2.2 = some .tComma ∨ curSym p.2.2 = some .tSemi then do
      let (kvs, ts) ← parseTable n p.2.1 p.2.2.tail
      some (p.1 :: kvs, ts)
    else do
      let ts ← expect .tRbrace p.2.2
      some ([p.1], ts))
    (hr.bind (k := fun _ (p : Parsed S (List (Node S × Node S))) => some (kv :: p.1, p.2))
      (Settles.ret _)))
  rw [parseTable, if_neg hcur]

theorem parseField_keyed {k : Node S} {ts₁ : List (Tok S)}
    (hk : Settles (parsePrec · 1 ts) (k, .sym .tRbrack :: .sym .tAssign :: ts₁))
    (hv : Settles (parsePrec · 1 ts₁) (v, ts')) :
    Settles (parseField · i (.sym .tLbrack :: ts)) ((k, v), i, ts') := by
  refine Settles.succ (fun n => ?_) (hk.bind (k := fun n (p : Parsed S (Node S)) => do
      let ts ← expect .tRbrack p.2
      let ts ← expect .tAssign ts
      let (v, ts) ← parsePrec n 1 ts
      some ((p.1, v), i, ts))
    (hv.bind (k := fun _ (p : Parsed S (Node S)) => some ((k, p.1), i, p.2)) (Settles.ret _)))
  rw [parseField]
  rfl

theorem parseField_named {s : S} (hv : Settles (parsePrec · 1 ts) (v, ts')) :
    Settles (parseField · i (.name s :: .sym .tAssign :: ts)) ((.str s, v), i, ts') := by
  refine Settles.succ (fun n => ?_) (hv.bind (k := fun _ (p : Parsed S (Node S)) =>
    some (((.str s : Node S), p.1), i, p.2)) (Settles.ret _))
  rw [parseField]
  rfl

theorem parseField_pos (hb : curSym ts ≠ some .tLbrack)
    (ha : ∀ s, cur ts = .name s → curSym ts.tail ≠ some .tAssign)
    (hv : Settles (parsePrec · 1 ts) (v, ts')) :
    Settles (parseField · i ts) ((.num i, v), i + 1, ts') := by
  refine Settles.succ (fun n => ?_) (hv.bind (k := fun _ (p : Parsed S (Node S)) =>
    some (((.num i : Node S), p.1), i + 1, p.2)) (Settles.ret _))
  rw [parseField]
  split
  · rename_i h
    exact absurd (by unfold curSym; rw [h]) hb
  · rename_i s h
    rw [if_neg (ha s h)]
  · rfl

end Rules

end AdventOS.Lua
