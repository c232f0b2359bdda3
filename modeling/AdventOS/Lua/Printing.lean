import AdventOS.Lua.Parser

/-!
# Printing Lua expressions

`Expr` is the syntax of expressions as they are written: an index is `t.k` or `t[k]`, a
field of a table is `v`, `k = v` or `[k] = v`, a number is a numeral, a name is an
identifier that is no keyword. `Expr.node` is the tree the parser makes of one.

`Expr.body` prints an expression with the parentheses that Lua requires: `..` and `^`
associate to the right, the others to the left, a unary operator binds between `*` and
`^`, and what is indexed or called is a name, an index or a call, or stands in
parentheses.
-/
namespace AdventOS.Lua

/-! ## Syntax -/

def isName : Bytes → Bool
  | [] => false
  | c :: t => isIdStart c && t.all isIdCont && (kwLookup (c :: t)).isNone

/-- An identifier that is no keyword. -/
abbrev Name := { s : Bytes // isName s = true }

/-- The numbers that have a numeral: the largest is `2^31-1`. -/
abbrev Numeral := { n : Nat // n < 2 ^ 31 }

abbrev BinOp := { t : Sym // 0 < binopPrec t }

abbrev UnOp := { t : Sym // isUnop t = true }

mutual
inductive Expr
  | num (n : Numeral)
  | str (s : Bytes)
  | nil
  | true
  | false
  | name (x : Name)
  | index (e k : Expr)
  | dot (e : Expr) (x : Name)
  | call (f : Expr) (args : Exprs)
  | bin (op : BinOp) (a b : Expr)
  | un (op : UnOp) (a : Expr)
  | table (fs : Fields)

inductive Exprs
  | nil
  | cons (e : Expr) (es : Exprs)

inductive Fields
  | nil
  | pos (e : Expr) (fs : Fields)
  | named (x : Name) (e : Expr) (fs : Fields)
  | keyed (k e : Expr) (fs : Fields)
end

mutual
def Expr.node : Expr → Node Bytes
  | .num n => .num n.val
  | .str s => .str s
  | .nil => .nil
  | .true => .true
  | .false => .false
  | .name x => .name x.val
  | .index e k => .index e.node k.node
  | .dot e x => .index e.node (.str x.val)
  | .call f args => .call f.node args.nodes
  | .bin op a b => .bin op.val a.node b.node
  | .un op a => .un op.val a.node
  | .table fs => .table (fs.nodes 1)

def Exprs.nodes : Exprs → List (Node Bytes)
  | .nil => []
  | .cons e es => e.node :: es.nodes

/-- The fields, with the positional ones numbered from `i` on. -/
def Fields.nodes (i : Int) : Fields → List (Node Bytes × Node Bytes)
  | .nil => []
  | .pos e fs => (.num i, e.node) :: fs.nodes (i + 1)
  | .named x e fs => (.str x.val, e.node) :: fs.nodes i
  | .keyed k e fs => (k.node, e.node) :: fs.nodes i
end

/-! ## Tokens -/

/-- How tightly an expression holds together: the operators as in Lua, then the other
expressions, then those that can be indexed and called. -/
def Expr.prec : Expr → Nat
  | .bin op _ _ => binopPrec op.val
  | .un _ _ => 7
  | .name _ | .index _ _ | .dot _ _ | .call _ _ => 10
  | _ => 9

@[simp] theorem Expr.prec_bin (op : BinOp) (a b : Expr) :
    (Expr.bin op a b).prec = binopPrec op.val := rfl

@[simp] theorem Expr.prec_un (op : UnOp) (a : Expr) : (Expr.un op a).prec = 7 := rfl

theorem Expr.prec_pos (e : Expr) : 0 < e.prec := by
  cases e with
  | bin op a b => exact op.2
  | _ => exact Nat.zero_lt_succ _

/-- The least precedence of a left operand without parentheses. -/
def leftLevel (t : Sym) : Nat := if binopRightAssoc t then binopPrec t + 1 else binopPrec t

/-- The same for a right operand. Behind `^` a unary operator needs no parentheses. -/
def rightLevel (t : Sym) : Nat :=
  if t = .tCaret then 7 else if binopRightAssoc t then binopPrec t else binopPrec t + 1

def paren (b : Bool) (ts : List (Tok Bytes)) : List (Tok Bytes) :=
  if b then .sym .tLparen :: ts ++ [.sym .tRparen] else ts

def Exprs.isNil : Exprs → Bool
  | .nil => .true
  | .cons _ _ => .false

def Fields.isNil : Fields → Bool
  | .nil => .true
  | _ => .false

/-- What is left of a list, behind a comma. -/
def sep (b : Bool) (ts : List (Tok Bytes)) : List (Tok Bytes) :=
  if b then [] else .sym .tComma :: ts

mutual
/-- An expression without parentheses around it. -/
def Expr.body : Expr → List (Tok Bytes)
  | .num n => [.num n.val]
  | .str s => [.str s]
  | .nil => [.sym .tNil]
  | .true => [.sym .tTrue]
  | .false => [.sym .tFalse]
  | .name x => [.name x.val]
  | .index e k => paren (e.prec < 10) e.body ++ .sym .tLbrack :: k.body ++ [.sym .tRbrack]
  | .dot e x => paren (e.prec < 10) e.body ++ [.sym .tDot, .name x.val]
  | .call f args => paren (f.prec < 10) f.body ++ .sym .tLparen :: args.toks ++ [.sym .tRparen]
  | .bin op a b =>
    paren (a.prec < leftLevel op.val) a.body ++
      .sym op.val :: paren (b.prec < rightLevel op.val) b.body
  | .un op a => .sym op.val :: paren (a.prec < 7) a.body
  | .table fs => .sym .tLbrace :: fs.toks ++ [.sym .tRbrace]

def Exprs.toks : Exprs → List (Tok Bytes)
  | .nil => []
  | .cons e es => e.body ++ sep es.isNil es.toks

def Fields.toks : Fields → List (Tok Bytes)
  | .nil => []
  | .pos e fs => e.body ++ sep fs.isNil fs.toks
  | .named x e fs => .name x.val :: .sym .tAssign :: e.body ++ sep fs.isNil fs.toks
  | .keyed k e fs =>
    .sym .tLbrack :: k.body ++ .sym .tRbrack :: .sym .tAssign :: e.body ++ sep fs.isNil fs.toks
end

end AdventOS.Lua
