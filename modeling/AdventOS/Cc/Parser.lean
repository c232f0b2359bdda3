import AdventOS.Core.Fuel
import AdventOS.Cc.Lexer

/-!
# The expression parser of the C compiler

Trees are made of one kind of node (`struct node`), whose fields are reused by the kinds. A
parser takes the tokens from the current one on and gives the tree and the tokens left; `none`
is `die_at`. The list of the source ends with `T_END`, which is never advanced over.

Operators are parsed by precedence climbing, with one operator of look-ahead; `? :`, `=` and the
comma stand outside. The functions recurse on a fuel that stands for the depth of the C calls.
-/
namespace AdventOS.Cc
open Option

open Lua (Bytes)

/-! ## Nodes -/

/-- cc.c:1023-1066 -/
inductive Kind
  | num | name | str | bin | un | call | varDecl | arrDecl | structDecl | assign | deref | addrOf
  | index | member | arrow | indexMember | derefAssign | indexAssign | memberAssign | arrowAssign
  | indexMemberAssign | compoundAssign | incDec | ternary | return | if | while | block | exprStmt
  | funcDecl | program | comma | doWhile | break | continue | sizeofName | label | goto | switch
  | case | default | index2 | index2Assign | nop
  deriving DecidableEq

/-- cc.c:837-849: the kinds of variables. -/
inductive VarKind
  | int | intPtr | charPtr | intArr | charArr | struct | structPtr | structArr
  deriving DecidableEq

/-- What `node->op` holds: a token, the kind of a declared variable, or the mark of a variadic
function. -/
inductive Op
  | none
  | tok (t : Sym)
  | var (k : VarKind)
  | variadic
  deriving DecidableEq

/-- The scalar fields of `struct node`; `nList` counts the list, or something else. -/
structure Fields where
  kind : Kind
  op : Op
  num : Int32
  name : Bytes
  fieldName : Bytes
  nList : Nat
  retKind : VarKind
  retMeta : Nat
  deriving DecidableEq

/-- cc.c:1071-1092 `struct node`. `list` and `params` are the nodes that
`node_push` has stored; `null` is the null pointer. -/
inductive Node
  | null
  | mk (f : Fields) (a b c body : Node) (list params : List Node)

/-- cc.c:1094-1107 -/
def newNode (k : Kind) : Fields := ⟨k, .none, 0, [], [], 0, .int, 0⟩

namespace Node

def kind : Node → Option Kind
  | null => none
  | mk f _ _ _ _ _ _ => some f.kind

def name : Node → Bytes
  | null => []
  | mk f _ _ _ _ _ _ => f.name

def ofFields (f : Fields) (a b c : Node) : Node := mk f a b c null [] []

def num (v : Int32) : Node := ofFields { newNode .num with num := v } null null null
def str (i : Nat) : Node := ofFields { newNode .str with num := Int32.ofNat i } null null null
def nameOf (k : Kind) (s : Bytes) (a b : Node) : Node :=
  ofFields { newNode k with name := s } a b null
def call (s : Bytes) (args : List Node) : Node :=
  mk { newNode .call with name := s, nList := args.length } null null null null args []
def field (k : Kind) (s f : Bytes) (a : Node) : Node :=
  ofFields { newNode k with name := s, fieldName := f } a null null
/-- `num` is 1 for a prefix, 0 for a postfix operator. -/
def incDec (op : Sym) (s : Bytes) (pre : Int32) : Node :=
  ofFields { newNode .incDec with op := .tok op, name := s, num := pre } null null null
def un (op : Sym) (a : Node) : Node := ofFields { newNode .un with op := .tok op } a null null
def deref (a : Node) : Node := ofFields (newNode .deref) a null null
def bin (op : Sym) (a b : Node) : Node := ofFields { newNode .bin with op := .tok op } a b null
def ternary (a b c : Node) : Node := ofFields (newNode .ternary) a b c
def comma (a b : Node) : Node := ofFields (newNode .comma) a b null

end Node

/-! ## Tokens -/

def cur (ts : List Tok) : Tok := ts.headD .eof

/-- `tk_cur()->kind`, for the kinds that carry nothing. -/
def curSym (ts : List Tok) : Option Sym :=
  match cur ts with
  | .sym t => some t
  | _ => none

/-- `tk_cur()->name`, where the token is a name. -/
def curName (ts : List Tok) : Option Bytes :=
  match cur ts with
  | .name s => some s
  | _ => none

/-- `expect(t)`: the tokens behind it. -/
def expect (t : Sym) (ts : List Tok) : Option (List Tok) :=
  if curSym ts = some t then some ts.tail else none

/-- `accept(t)`: whether it was there, and the tokens behind it. -/
def accept (t : Sym) (ts : List Tok) : Bool × List Tok :=
  if curSym ts = some t then (true, ts.tail) else (false, ts)

/-- cc.c:1154-1168 -/
def binopPrec : Sym → Nat
  | .pipePipe => 1
  | .ampAmp => 2
  | .pipe => 3
  | .caret => 4
  | .amp => 5
  | .eq | .neq => 6
  | .lt | .gt | .le | .ge => 7
  | .lshift | .rshift => 8
  | .plus | .minus => 9
  | .star | .slash | .percent => 10
  | _ => 0

/-- The precedence of the operator that comes next, 0 for none. -/
def nextPrec (ts : List Tok) : Nat := (curSym ts).elim 0 binopPrec

/-- The tables that the parser looks names up in: enum constants, typedefs with kind and struct,
structs with their sizes. -/
structure Symtab where
  enums : List (Bytes × Int32)
  typedefs : List (Bytes × VarKind × Nat)
  structs : List (Bytes × Int32)

/-- cc.c:922-927 -/
def enumFind (x : Symtab) (s : Bytes) : Option Int32 :=
  (x.enums.find? fun p => p.1 = s).map Prod.snd

/-- cc.c:956-963 -/
def typedefFind (x : Symtab) (s : Bytes) : Option (VarKind × Nat) :=
  (x.typedefs.find? fun p => p.1 = s).map Prod.snd

def structSize (x : Symtab) (s : Bytes) : Option Int32 :=
  (x.structs.find? fun p => p.1 = s).map Prod.snd

/-- The size of a typedef's type. -/
def typedefSize (x : Symtab) (k : VarKind) (i : Nat) : Int32 :=
  if k = .struct then (x.structs[i]?.map Prod.snd).getD 4 else 4

/-- cc.c:1192-1236, behind `sizeof` and its parenthesis. -/
def sizeofType (x : Symtab) (ts : List Tok) : Option (Node × List Tok) :=
  match cur ts with
  | .sym .struct | .sym .union => do
    let size ← curName ts.tail >>= structSize x
    let r := accept .star ts.tail.tail
    some (.num (if r.1 then 4 else size), r.2)
  | .sym .int => some (.num 4, (accept .star ts.tail).2)
  | .sym .char =>
    let r := accept .star ts.tail
    some (.num (if r.1 then 4 else 1), r.2)
  | .name s =>
    match typedefFind x s with
    | some p => some (.num (typedefSize x p.1 p.2), (accept .star ts.tail).2)
    | none => some (.nameOf .sizeofName s .null .null, ts.tail)
  | _ => none

/-- cc.c:1173-1241, behind `sizeof`. -/
def parseSizeof (x : Symtab) (ts : List Tok) : Option (Node × List Tok) :=
  let r := accept .lparen ts
  (sizeofType x r.2).bind fun q =>
    (if r.1 then expect .rparen q.2 else some q.2).bind fun ts => some (q.1, ts)

/-- The unary operators that make an `N_UN`. -/
def isUnop (t : Sym) : Bool := t = .minus || t = .bang || t = .tilde

def isIncDec (t : Sym) : Bool := t = .inc || t = .dec

/-! ## The parser -/

mutual
/-- cc.c:1170-1431 -/
def parsePrimary (x : Symtab) (fuel : Nat) (ts : List Tok) : Option (Node × List Tok) :=
  match fuel with
  | 0 => none
  | n + 1 =>
    match cur ts with
    | .num v => some (.num v, ts.tail)
    | .str i => some (.str i, ts.tail)
    | .name s =>
      match if curSym ts.tail = some .lparen then none else enumFind x s with
      | some v => some (.num v, ts.tail)
      | none => parsePostfix x n s ts.tail
    | .sym .sizeof => parseSizeof x ts.tail
    | .sym .lparen => do
      let (e, ts) ← parseCommaExpr x n ts.tail
      let ts ← expect .rparen ts
      some (e, ts)
    | .sym .amp => do
      let s ← curName ts.tail
      some (.nameOf .addrOf s .null .null, ts.tail.tail)
    | .sym .star => do
      let (e, ts) ← parsePrimary x n ts.tail
      some (.deref e, ts)
    | .sym t =>
      if isUnop t then do
        let (e, ts) ← parsePrimary x n ts.tail
        some (.un t e, ts)
      else if isIncDec t then do
        let s ← curName ts.tail
        some (.incDec t s 1, ts.tail.tail)
      else none
    | .eof => none

/-- What may follow the name `s`. cc.c:1272-1367 -/
def parsePostfix (x : Symtab) (fuel : Nat) (s : Bytes) (ts : List Tok) :
    Option (Node × List Tok) :=
  match fuel with
  | 0 => none
  | n + 1 =>
    match curSym ts with
    | some .lparen => do
      let (args, ts) ← parseArgs x n ts.tail
      some (.call s args, ts)
    | some .lbracket => do
      let (i, ts) ← parseExpr x n ts.tail
      let ts ← expect .rbracket ts
      match curSym ts with
      | some .lbracket => do
        let (j, ts) ← parseExpr x n ts.tail
        let ts ← expect .rbracket ts
        some (.nameOf .index2 s i j, ts)
      | some .dot => do
        let f ← curName ts.tail
        some (.field .indexMember s f i, ts.tail.tail)
      | _ => some (.nameOf .index s i .null, ts)
    | some .inc => some (.incDec .inc s 0, ts.tail)
    | some .dec => some (.incDec .dec s 0, ts.tail)
    | some .dot => do
      let f ← curName ts.tail
      some (.field .member s f .null, ts.tail.tail)
    | some .arrow => do
      let f ← curName ts.tail
      some (.field .arrow s f .null, ts.tail.tail)
    | _ => some (.nameOf .name s .null .null, ts)

def parseArgs (x : Symtab) (fuel : Nat) (ts : List Tok) : Option (List Node × List Tok) :=
  match fuel with
  | 0 => none
  | n + 1 =>
    if curSym ts = some .rparen then some ([], ts.tail)
    else do
      let (a, ts) ← parseExpr x n ts
      if curSym ts = some .comma then do
        let (as, ts) ← parseArgs x n ts.tail
        some (a :: as, ts)
      else do
        let ts ← expect .rparen ts
        some ([a], ts)

/-- cc.c:1433-1446; `min` is positive. -/
def parseBinopRhs (x : Symtab) (fuel min : Nat) (lhs : Node) (ts : List Tok) :
    Option (Node × List Tok) :=
  match fuel with
  | 0 => none
  | n + 1 =>
    match curSym ts with
    | some t =>
      let p := binopPrec t
      if p < min then some (lhs, ts)
      else do
        let (rhs, ts) ← parsePrimary x n ts.tail
        let (rhs, ts) ← if p < nextPrec ts then parseBinopRhs x n (p + 1) rhs ts else some (rhs, ts)
        parseBinopRhs x n min (.bin t lhs rhs) ts
    | none => some (lhs, ts)

/-- cc.c:1448-1481 -/
def parseExpr (x : Symtab) (fuel : Nat) (ts : List Tok) : Option (Node × List Tok) :=
  match fuel with
  | 0 => none
  | n + 1 => do
    let (e, ts) ← parsePrimary x n ts
    let (lhs, ts) ← parseBinopRhs x n 1 e ts
    if curSym ts = some .question then do
      let (t, ts) ← parseExpr x n ts.tail
      let ts ← expect .colon ts
      let (e, ts) ← parseExpr x n ts
      some (.ternary lhs t e, ts)
    else if lhs.kind = some .name ∧ curSym ts = some .assign then do
      let (rhs, ts) ← parseExpr x n ts.tail
      some (.nameOf .assign lhs.name rhs .null, ts)
    else some (lhs, ts)

/-- cc.c:1493-1504 -/
def parseCommaExpr (x : Symtab) (fuel : Nat) (ts : List Tok) : Option (Node × List Tok) :=
  match fuel with
  | 0 => none
  | n + 1 => do
    let (e, ts) ← parseExpr x n ts
    parseCommaRest x n e ts

/-- The loop of `parse_comma_expr`. -/
def parseCommaRest (x : Symtab) (fuel : Nat) (e : Node) (ts : List Tok) :
    Option (Node × List Tok) :=
  match fuel with
  | 0 => none
  | n + 1 =>
    if curSym ts = some .comma then do
      let (rhs, ts) ← parseExpr x n ts.tail
      parseCommaRest x n (.comma e rhs) ts
    else some (e, ts)
end

/-! ## One step of each function -/

section Rules

variable {x : Symtab} {ts ts' : List Tok} {e a : Node} {s : Bytes} {r : Node × List Tok}

theorem parsePrimary_num (v : Int32) : Settles (parsePrimary x · (.num v :: ts)) (.num v, ts) :=
  Settles.succ (fun _ => rfl) (Settles.ret _)

theorem parsePrimary_name (hx : enumFind x s = none) (hr : Settles (parsePostfix x · s ts) r) :
    Settles (parsePrimary x · (.name s :: ts)) r := by
  refine Settles.succ (fun n => ?_) hr
  show (match if curSym ts = some .lparen then none else enumFind x s with
    | some v => some (Node.num v, ts)
    | none => parsePostfix x n s ts) = _
  rw [hx, ite_self]

theorem parsePrimary_call (hr : Settles (parsePostfix x · s (.sym .lparen :: ts)) r) :
    Settles (parsePrimary x · (.name s :: .sym .lparen :: ts)) r :=
  Settles.succ (fun _ => rfl) hr

theorem parsePrimary_paren (he : Settles (parseCommaExpr x · ts) (e, .sym .rparen :: ts')) :
    Settles (parsePrimary x · (.sym .lparen :: ts)) (e, ts') :=
  Settles.succ (fun _ => rfl) (he.bind (k := fun _ (p : Node × List Tok) =>
    expect .rparen p.2 >>= fun ts => some (p.1, ts)) (Settles.ret _))

theorem parsePrimary_addrOf :
    Settles (parsePrimary x · (.sym .amp :: .name s :: ts)) (.nameOf .addrOf s .null .null, ts) :=
  Settles.succ (fun _ => rfl) (Settles.ret _)

theorem parsePrimary_deref (ha : Settles (parsePrimary x · ts) (a, ts')) :
    Settles (parsePrimary x · (.sym .star :: ts)) (.deref a, ts') :=
  Settles.succ (fun _ => rfl) (ha.bind (k := fun _ (p : Node × List Tok) =>
    some (Node.deref p.1, p.2)) (Settles.ret _))

variable {t : Sym} {i : Node} {ts'' : List Tok} {f : Bytes}

theorem parsePrimary_un (ht : isUnop t = true) (ha : Settles (parsePrimary x · ts) (a, ts')) :
    Settles (parsePrimary x · (.sym t :: ts)) (.un t a, ts') := by
  refine Settles.succ (fun n => ?_) (ha.bind (k := fun _ (p : Node × List Tok) =>
    some (Node.un t p.1, p.2)) (Settles.ret _))
  cases t <;> first | rfl | cases ht

theorem parsePrimary_incDec (ht : isIncDec t = true) :
    Settles (parsePrimary x · (.sym t :: .name s :: ts)) (.incDec t s 1, ts) := by
  refine Settles.succ (fun n => ?_) (Settles.ret _)
  cases t <;> first | rfl | cases ht

/-- The tokens that go on with a name. -/
def goesOn (t : Sym) : Bool :=
  t = .lparen || t = .lbracket || t = .inc || t = .dec || t = .dot || t = .arrow

def startsPostfix (ts : List Tok) : Bool := (curSym ts).elim false goesOn

theorem parsePostfix_stop (h : startsPostfix ts = false) :
    Settles (parsePostfix x · s ts) (.nameOf .name s .null .null, ts) := by
  refine Settles.succ (fun n => ?_) (Settles.ret _)
  unfold startsPostfix at h
  rw [parsePostfix]
  cases hc : curSym ts with
  | none => rfl
  | some t =>
    rw [hc] at h
    cases t <;> first | rfl | cases h

theorem parsePostfix_call {args : List Node} (ha : Settles (parseArgs x · ts) (args, ts')) :
    Settles (parsePostfix x · s (.sym .lparen :: ts)) (.call s args, ts') :=
  Settles.succ (fun _ => rfl) (ha.bind (k := fun _ (p : List Node × List Tok) =>
    some (Node.call s p.1, p.2)) (Settles.ret _))

/-- What follows an index: a second one, a field, or neither. -/
def indexTail (x : Symtab) (n : Nat) (s : Bytes) (i : Node) (ts : List Tok) :
    Option (Node × List Tok) := do
  let ts ← expect .rbracket ts
  match curSym ts with
  | some .lbracket => do
    let (j, ts) ← parseExpr x n ts.tail
    let ts ← expect .rbracket ts
    some (.nameOf .index2 s i j, ts)
  | some .dot => do
    let f ← curName ts.tail
    some (.field .indexMember s f i, ts.tail.tail)
  | _ => some (.nameOf .index s i .null, ts)

theorem parsePostfix_lbracket (hi : Settles (parseExpr x · ts) (i, ts'))
    (hr : Settles (fun n => indexTail x n s i ts') r) :
    Settles (parsePostfix x · s (.sym .lbracket :: ts)) r :=
  Settles.succ (fun _ => rfl)
    (hi.bind (k := fun n (p : Node × List Tok) => indexTail x n s p.1 p.2) hr)

theorem parsePostfix_index (hi : Settles (parseExpr x · ts) (i, .sym .rbracket :: ts'))
    (h : startsPostfix ts' = false) :
    Settles (parsePostfix x · s (.sym .lbracket :: ts)) (.nameOf .index s i .null, ts') := by
  refine parsePostfix_lbracket hi (Settles.congr (fun n => ?_) (Settles.ret _))
  unfold startsPostfix at h
  show (match curSym ts' with
    | some .lbracket => _
    | some .dot => _
    | _ => _) = _
  cases hc : curSym ts' with
  | none => rfl
  | some t =>
    rw [hc] at h
    cases t <;> first | rfl | cases h

theorem parsePostfix_index2 {j : Node}
    (hi : Settles (parseExpr x · ts) (i, .sym .rbracket :: .sym .lbracket :: ts'))
    (hj : Settles (parseExpr x · ts') (j, .sym .rbracket :: ts'')) :
    Settles (parsePostfix x · s (.sym .lbracket :: ts)) (.nameOf .index2 s i j, ts'') :=
  parsePostfix_lbracket hi (hj.bind (k := fun _ (p : Node × List Tok) =>
    expect .rbracket p.2 >>= fun ts => some (Node.nameOf .index2 s i p.1, ts)) (Settles.ret _))

theorem parsePostfix_indexMember
    (hi : Settles (parseExpr x · ts) (i, .sym .rbracket :: .sym .dot :: .name f :: ts')) :
    Settles (parsePostfix x · s (.sym .lbracket :: ts)) (.field .indexMember s f i, ts') :=
  parsePostfix_lbracket hi (Settles.ret _)

theorem parsePostfix_incDec (ht : isIncDec t = true) :
    Settles (parsePostfix x · s (.sym t :: ts)) (.incDec t s 0, ts) := by
  refine Settles.succ (fun n => ?_) (Settles.ret _)
  cases t <;> first | rfl | cases ht

theorem parsePostfix_member :
    Settles (parsePostfix x · s (.sym .dot :: .name f :: ts)) (.field .member s f .null, ts) :=
  Settles.succ (fun _ => rfl) (Settles.ret _)

theorem parsePostfix_arrow :
    Settles (parsePostfix x · s (.sym .arrow :: .name f :: ts)) (.field .arrow s f .null, ts) :=
  Settles.succ (fun _ => rfl) (Settles.ret _)

theorem parseArgs_nil : Settles (parseArgs x · (.sym .rparen :: ts)) ([], ts) :=
  Settles.succ (fun _ => rfl) (Settles.ret _)

/-- What follows an argument. -/
def argsTail (x : Symtab) (n : Nat) (a : Node) (ts : List Tok) : Option (List Node × List Tok) :=
  if curSym ts = some .comma then do
    let (as, ts) ← parseArgs x n ts.tail
    some (a :: as, ts)
  else do
    let ts ← expect .rparen ts
    some ([a], ts)

theorem parseArgs_some {q : List Node × List Tok} (hcur : curSym ts ≠ some .rparen)
    (ha : Settles (parseExpr x · ts) (a, ts')) (hr : Settles (fun n => argsTail x n a ts') q) :
    Settles (parseArgs x · ts) q := by
  refine Settles.succ (fun n => ?_)
    (ha.bind (k := fun n (p : Node × List Tok) => argsTail x n p.1 p.2) hr)
  rw [parseArgs, if_neg hcur]
  rfl

theorem parseArgs_last (hcur : curSym ts ≠ some .rparen)
    (ha : Settles (parseExpr x · ts) (a, .sym .rparen :: ts')) :
    Settles (parseArgs x · ts) ([a], ts') :=
  parseArgs_some hcur ha (Settles.ret _)

theorem parseArgs_cons {as : List Node} (hcur : curSym ts ≠ some .rparen)
    (ha : Settles (parseExpr x · ts) (a, .sym .comma :: ts'))
    (has : Settles (parseArgs x · ts') (as, ts'')) :
    Settles (parseArgs x · ts) (a :: as, ts'') :=
  parseArgs_some hcur ha (has.bind (k := fun _ (p : List Node × List Tok) =>
    some (a :: p.1, p.2)) (Settles.ret _))

theorem parseBinopRhs_stop {min : Nat} (h : nextPrec ts < min) :
    Settles (parseBinopRhs x · min e ts) (e, ts) := by
  refine Settles.succ (fun n => ?_) (Settles.ret _)
  unfold nextPrec at h
  rw [parseBinopRhs]
  cases hc : curSym ts with
  | none => rfl
  | some t =>
    rw [hc] at h
    exact if_pos h

/-- An operand: a primary, and what the loop with precedence `min` makes of it. -/
def Operand (x : Symtab) (min : Nat) (ts : List Tok) (r : Node × List Tok) : Prop :=
  ∃ a ts', Settles (parsePrimary x · ts) (a, ts') ∧ Settles (parseBinopRhs x · min a ts') r

/-- What the loop does behind an operator: the look-ahead saves a call that would stop at once. -/
def rhsOf (x : Symtab) (n p : Nat) (ts : List Tok) : Option (Node × List Tok) := do
  let (rhs, ts) ← parsePrimary x n ts
  if p < nextPrec ts then parseBinopRhs x n (p + 1) rhs ts else some (rhs, ts)

theorem Operand.rhsOf {p : Nat} (h : Operand x (p + 1) ts r) :
    Settles (fun n => rhsOf x n p ts) r := by
  obtain ⟨a, ts', ha, hr⟩ := h
  refine ha.bind (k := fun n (q : Node × List Tok) =>
    if p < nextPrec q.2 then parseBinopRhs x n (p + 1) q.1 q.2 else some (q.1, q.2)) ?_
  by_cases hp : p < nextPrec ts'
  · exact hr.congr fun n => if_pos hp
  · obtain rfl := hr.unique (parseBinopRhs_stop (by omega))
    exact (Settles.ret _).congr fun n => if_neg hp

theorem parseBinopRhs_step {min : Nat} {b : Node} (hcur : curSym ts = some t)
    (hmin : min ≤ binopPrec t) (hb : Operand x (binopPrec t + 1) ts.tail (b, ts'))
    (hr : Settles (parseBinopRhs x · min (.bin t a b) ts') r) :
    Settles (parseBinopRhs x · min a ts) r := by
  refine Settles.succ (fun n => ?_) (hb.rhsOf.bind (k := fun n (p : Node × List Tok) =>
    parseBinopRhs x n min (.bin t a p.1) p.2) hr)
  rw [parseBinopRhs, hcur]
  dsimp only
  rw [if_neg (Nat.not_lt.2 hmin)]
  unfold Cc.rhsOf
  cases parsePrimary x n ts.tail with
  | none => rfl
  | some p =>
    by_cases hp : binopPrec t < nextPrec p.2
    · simp [if_pos hp]
    · simp [if_neg hp]

/-- What follows the operators of an expression. -/
def exprTail (x : Symtab) (n : Nat) (lhs : Node) (ts : List Tok) : Option (Node × List Tok) :=
  if curSym ts = some .question then do
    let (t, ts) ← parseExpr x n ts.tail
    let ts ← expect .colon ts
    let (e, ts) ← parseExpr x n ts
    some (.ternary lhs t e, ts)
  else if lhs.kind = some .name ∧ curSym ts = some .assign then do
    let (rhs, ts) ← parseExpr x n ts.tail
    some (.nameOf .assign lhs.name rhs .null, ts)
  else some (lhs, ts)

theorem parseExpr_operand (h : Operand x 1 ts (e, ts'))
    (hr : Settles (fun n => exprTail x n e ts') r) : Settles (parseExpr x · ts) r := by
  obtain ⟨a, ts₁, ha, he⟩ := h
  refine Settles.succ (fun n => ?_) (ha.bind (k := fun n (p : Node × List Tok) =>
    parseBinopRhs x n 1 p.1 p.2 >>= fun q => exprTail x n q.1 q.2)
    (he.bind (k := fun n (q : Node × List Tok) => exprTail x n q.1 q.2) hr))
  rw [parseExpr]
  rfl

theorem exprTail_stop (hq : curSym ts ≠ some .question) (ha : curSym ts ≠ some .assign) :
    Settles (fun n => exprTail x n e ts) (e, ts) := by
  refine (Settles.ret _).congr fun n => ?_
  unfold exprTail
  rw [if_neg hq, if_neg fun h => ha h.2]

theorem exprTail_ternary {t c : Node} (ht : Settles (parseExpr x · ts) (t, .sym .colon :: ts'))
    (hc : Settles (parseExpr x · ts') (c, ts'')) :
    Settles (fun n => exprTail x n e (.sym .question :: ts)) (.ternary e t c, ts'') :=
  ht.bind (k := fun n (p : Node × List Tok) => do
    let ts ← expect .colon p.2
    let (c, ts) ← parseExpr x n ts
    some (Node.ternary e p.1 c, ts))
    (hc.bind (k := fun _ (p : Node × List Tok) => some (Node.ternary e t p.1, p.2)) (Settles.ret _))

theorem exprTail_assign (ha : Settles (parseExpr x · ts) (a, ts')) :
    Settles (fun n => exprTail x n (.nameOf .name s .null .null) (.sym .assign :: ts))
      (.nameOf .assign s a .null, ts') :=
  ha.bind (k := fun _ (p : Node × List Tok) => some (Node.nameOf .assign s p.1 .null, p.2))
    (Settles.ret _)

theorem parseCommaExpr_first (ha : Settles (parseExpr x · ts) (a, ts'))
    (hr : Settles (parseCommaRest x · a ts') r) : Settles (parseCommaExpr x · ts) r :=
  Settles.succ (fun _ => rfl)
    (ha.bind (k := fun n (p : Node × List Tok) => parseCommaRest x n p.1 p.2) hr)

theorem parseCommaRest_stop (h : curSym ts ≠ some .comma) :
    Settles (parseCommaRest x · e ts) (e, ts) :=
  Settles.succ (fun _ => if_neg h) (Settles.ret _)

theorem parseCommaRest_step (ha : Settles (parseExpr x · ts) (a, ts'))
    (hr : Settles (parseCommaRest x · (.comma e a) ts') r) :
    Settles (parseCommaRest x · e (.sym .comma :: ts)) r :=
  Settles.succ (fun _ => rfl)
    (ha.bind (k := fun n (p : Node × List Tok) => parseCommaRest x n (.comma e p.1) p.2) hr)

end Rules

end AdventOS.Cc
