import AdventOS.Cc.Parser
import AdventOS.Lua.Spelling

/-!
# Printing C expressions

`Expr x` is the syntax of the expressions that the compiler accepts where the symbol tables `x`
stand: operators of all precedences, unary operators, calls, indices, members, `? :`, assignment
to a name, the comma. `Expr.node` is the tree of one.

`Expr.toks` prints an expression with the parentheses that C requires; a comma stands inside
parentheses. `text` spells tokens, each followed by a space.

* `lexAll_text`: the lexer gives back the tokens, if they fit its table.
-/
namespace AdventOS.Cc
open List

open Lua (Bytes isIdStart isDigit isIdCont space numeral)

/-! ## Syntax -/

def isName : Bytes → Bool
  | [] => false
  | c :: t =>
    isIdStart c && t.all isIdCont && decide ((c :: t).length < nameMax) &&
      (kwLookup (c :: t)).isNone

/-- An identifier that is no keyword. -/
abbrev Name := { s : Bytes // isName s = true }

/-- A name that stands for no constant. -/
abbrev Var (x : Symtab) := { s : Name // enumFind x s.val = none }

/-- The numbers that have a numeral. -/
abbrev Numeral := { n : Nat // n < 2 ^ 31 }

abbrev BinOp := { t : Sym // 0 < binopPrec t }

abbrev UnOp := { t : Sym // isUnop t = true }

abbrev Step := { t : Sym // isIncDec t = true }

mutual
inductive Expr (x : Symtab)
  | num (n : Numeral)
  | name (s : Var x)
  | call (f : Name) (args : Exprs x)
  | index (s : Var x) (i : Expr x)
  | index2 (s : Var x) (i j : Expr x)
  | indexMember (s : Var x) (i : Expr x) (f : Name)
  | member (s : Var x) (f : Name)
  | arrow (s : Var x) (f : Name)
  | postStep (op : Step) (s : Var x)
  | preStep (op : Step) (s : Name)
  | addrOf (s : Name)
  | deref (a : Expr x)
  | un (op : UnOp) (a : Expr x)
  | bin (op : BinOp) (a b : Expr x)
  | ternary (c a b : Expr x)
  | assign (s : Var x) (a : Expr x)
  | comma (a b : Expr x)

inductive Exprs (x : Symtab)
  | nil
  | cons (e : Expr x) (es : Exprs x)
end

variable {x : Symtab}

mutual
def Expr.node : Expr x → Node
  | .num n => .num (Int32.ofNat n.val)
  | .name s => .nameOf .name s.val.val .null .null
  | .call f args => .call f.val args.nodes
  | .index s i => .nameOf .index s.val.val i.node .null
  | .index2 s i j => .nameOf .index2 s.val.val i.node j.node
  | .indexMember s i f => .field .indexMember s.val.val f.val i.node
  | .member s f => .field .member s.val.val f.val .null
  | .arrow s f => .field .arrow s.val.val f.val .null
  | .postStep op s => .incDec op.val s.val.val 0
  | .preStep op s => .incDec op.val s.val 1
  | .addrOf s => .nameOf .addrOf s.val .null .null
  | .deref a => .deref a.node
  | .un op a => .un op.val a.node
  | .bin op a b => .bin op.val a.node b.node
  | .ternary c a b => .ternary c.node a.node b.node
  | .assign s a => .nameOf .assign s.val.val a.node .null
  | .comma a b => .comma a.node b.node

def Exprs.nodes : Exprs x → List Node
  | .nil => []
  | .cons e es => e.node :: es.nodes
end

/-! ## Tokens -/

/-- How tightly an expression holds together, from the comma to the primaries. -/
def Expr.prec : Expr x → Nat
  | .comma _ _ => 0
  | .assign _ _ => 1
  | .ternary _ _ _ => 2
  | .bin op _ _ => 2 + binopPrec op.val
  | _ => 13

@[simp] theorem Expr.prec_bin (op : BinOp) (a b : Expr x) :
    (Expr.bin op a b).prec = 2 + binopPrec op.val := rfl

def paren (b : Bool) (ts : List Tok) : List Tok :=
  if b then .sym .lparen :: ts ++ [.sym .rparen] else ts

def Exprs.isNil : Exprs x → Bool
  | .nil => true
  | .cons _ _ => false

/-- What is left of a list, behind a comma. -/
def sep (b : Bool) (ts : List Tok) : List Tok := if b then [] else .sym .comma :: ts

mutual
/-- An expression without parentheses around it. -/
def Expr.body : Expr x → List Tok
  | .num n => [.num (Int32.ofNat n.val)]
  | .name s => [.name s.val.val]
  | .call f args => .name f.val :: .sym .lparen :: args.toks ++ [.sym .rparen]
  | .index s i =>
    .name s.val.val :: .sym .lbracket :: paren (i.prec < 1) i.body ++ [.sym .rbracket]
  | .index2 s i j =>
    .name s.val.val :: .sym .lbracket :: paren (i.prec < 1) i.body ++
      .sym .rbracket :: .sym .lbracket :: paren (j.prec < 1) j.body ++ [.sym .rbracket]
  | .indexMember s i f =>
    .name s.val.val :: .sym .lbracket :: paren (i.prec < 1) i.body ++
      [.sym .rbracket, .sym .dot, .name f.val]
  | .member s f => [.name s.val.val, .sym .dot, .name f.val]
  | .arrow s f => [.name s.val.val, .sym .arrow, .name f.val]
  | .postStep op s => [.name s.val.val, .sym op.val]
  | .preStep op s => [.sym op.val, .name s.val]
  | .addrOf s => [.sym .amp, .name s.val]
  | .deref a => .sym .star :: paren (a.prec < 13) a.body
  | .un op a => .sym op.val :: paren (a.prec < 13) a.body
  | .bin op a b =>
    paren (a.prec < 2 + binopPrec op.val) a.body ++
      .sym op.val :: paren (b.prec < 3 + binopPrec op.val) b.body
  | .ternary c a b =>
    paren (c.prec < 3) c.body ++ .sym .question :: paren (a.prec < 1) a.body ++
      .sym .colon :: paren (b.prec < 2) b.body
  | .assign s a => .name s.val.val :: .sym .assign :: paren (a.prec < 1) a.body
  | .comma a b => a.body ++ .sym .comma :: paren (b.prec < 1) b.body

def Exprs.toks : Exprs x → List Tok
  | .nil => []
  | .cons e es => paren (e.prec < 1) e.body ++ sep es.isNil es.toks
end

/-- An expression that stands for itself. -/
def Expr.toks (e : Expr x) : List Tok := paren (e.prec < 1) e.body

/-! ## Spelling -/

def symText (t : Sym) : Bytes :=
  match keywords.find? fun k => k.2 = t with
  | some k => k.1
  | none => ((operators.find? fun o => o.2 = t).map Prod.fst).getD []

def spell : Tok → Bytes
  | .num n => numeral n.toNatClampNeg
  | .name s => s
  | .sym t => symText t
  | _ => []

def text (ts : List Tok) : Bytes := ts.flatMap fun t => spell t ++ [space]

/-- The tokens that have a spelling of their own. -/
def Spellable : Tok → Prop
  | .num n => 0 ≤ n
  | .name s => isName s = true
  | .sym _ => True
  | _ => False

/-! ## Lexing one token -/

theorem lexRest_space (st : Lexed) (rest : Bytes) :
    lexRest st (space :: rest) = lexRest st rest := by
  rw [lexRest_cons]
  rfl

theorem lexRest_token {st : Lexed} {c : UInt8} {w rest : Bytes} {t : Tok}
    (h : lexStep st c (w ++ space :: rest) =
      (pushTok st t).bind fun st => .ok (st, space :: rest)) :
    lexRest st (c :: w ++ space :: rest) = (pushTok st t).bind fun st => lexRest st rest := by
  rw [cons_append, lexRest_cons, h]
  cases pushTok st t with
  | error e => rfl
  | ok st => exact lexRest_space st rest

theorem lexRest_sym (st : Lexed) (t : Sym) (rest : Bytes) :
    lexRest st (symText t ++ space :: rest) =
      (pushTok st (.sym t)).bind fun st => lexRest st rest := by
  cases t <;> exact lexRest_token rfl

theorem lexStep_digit (st : Lexed) {c : UInt8} (hc : isDigit c = true) (rest : Bytes) :
    lexStep st c rest = (pushTok st (.num (numValue (c :: rest.takeWhile isDigit)))).bind fun st =>
        .ok (st, rest.dropWhile isDigit) := by
  have hb := Lua.isDigit_bounds hc
  have hne {d : UInt8} (hd : d.toNat < 48) : c ≠ d := Lua.ne_of_toNat (by omega)
  unfold lexStep
  rw [if_neg ?_, if_neg fun h => hne (by decide) h.1, if_neg fun h => hne (by decide) h.1,
    if_neg (hne (by decide)), if_neg (hne (by decide)), if_pos hc]
  rintro (h | h | h | h)
  all_goals exact hne (by decide) h

theorem lexStep_idStart (st : Lexed) {c : UInt8} (hc : isIdStart c = true) (rest : Bytes) :
    lexStep st c rest =
      if nameMax ≤ (c :: rest.takeWhile isIdCont).length then .error .identifierTooLong
      else (pushTok st (((kwLookup (c :: rest.takeWhile isIdCont)).map Tok.sym).getD
        (.name (c :: rest.takeWhile isIdCont)))).bind fun st =>
          .ok (st, rest.dropWhile isIdCont) := by
  have hb := Lua.isIdStart_bounds hc
  have hne {d : UInt8} (hd : d.toNat < 65) : c ≠ d := Lua.ne_of_toNat (by omega)
  unfold lexStep
  rw [if_neg ?_, if_neg fun h => hne (by decide) h.1, if_neg fun h => hne (by decide) h.1,
    if_neg (hne (by decide)), if_neg (hne (by decide)), if_neg ?_, if_pos hc]
  · intro hd
    have := Lua.isDigit_bounds hd
    omega
  · rintro (h | h | h | h)
    all_goals exact hne (by decide) h

theorem lexRest_name (st : Lexed) {s : Bytes} (h : isName s = true) (rest : Bytes) :
    lexRest st (s ++ space :: rest) = (pushTok st (.name s)).bind fun st => lexRest st rest := by
  cases s with
  | nil => cases h
  | cons c w =>
    unfold isName at h
    simp only [Bool.and_eq_true, Option.isNone_iff_eq_none, decide_eq_true_eq] at h
    obtain ⟨⟨⟨hc, hw⟩, hlen⟩, hk⟩ := h
    have ht := Lua.takeWhile_word hw (by decide) rest
    refine lexRest_token ?_
    rw [lexStep_idStart st hc, ht.1, ht.2, if_neg (Nat.not_le_of_lt hlen), hk]
    rfl

/-! ## Numerals -/

theorem numValue_eq (s : Bytes) : numValue s = Int32.ofNat (Lua.digitsValue s) := by
  have h (v : Nat) : s.foldl (fun v c => v * 10 + .ofNat (c.toNat - 48)) (.ofNat v) =
      Int32.ofNat (s.foldl (fun v c => v * 10 + (c.toNat - 48)) v) := by
    induction s generalizing v with
    | nil => rfl
    | cons c s ih =>
      rw [foldl_cons, foldl_cons, ← ih, Int32.ofNat_add, Int32.ofNat_mul]
      rfl
  exact h 0

theorem ofNat_toNatClampNeg {n : Int32} (h : 0 ≤ n) : Int32.ofNat n.toNatClampNeg = n := by
  have := Int32.le_iff_toInt_le.mp h
  apply Int32.toInt_inj.mp
  have hlt := n.toInt_lt
  have he : (n.toNatClampNeg : Int) = n.toInt := Int.toNat_of_nonneg this
  rw [Int32.toInt_ofNat_of_lt (by omega), he]

theorem lexRest_num (st : Lexed) {n : Int32} (h : 0 ≤ n) (rest : Bytes) :
    lexRest st (numeral n.toNatClampNeg ++ space :: rest) =
      (pushTok st (.num n)).bind fun st => lexRest st rest := by
  obtain ⟨hne, hall, hval⟩ := Lua.numeral_spec n.toNatClampNeg
  generalize numeral n.toNatClampNeg = s at hne hall hval
  cases s with
  | nil => exact absurd rfl hne
  | cons c w =>
    have hcw := hall
    rw [all_cons, Bool.and_eq_true] at hcw
    have ht := Lua.takeWhile_word hcw.2 (by decide) rest
    refine lexRest_token ?_
    rw [lexStep_digit st hcw.1, ht.1, ht.2, numValue_eq, hval, ofNat_toNatClampNeg h]

/-! ## Lexing a text -/

theorem lexRest_text {ts : List Tok} (h : ∀ t ∈ ts, Spellable t) (st : Lexed) :
    lexRest st (text ts) = (ts ++ [Tok.eof]).foldlM pushTok st := by
  induction ts generalizing st with
  | nil =>
    show pushTok st .eof = _
    rw [nil_append, foldlM_cons]
    cases pushTok st .eof <;> rfl
  | cons t ts ih =>
    have ih := ih fun t ht => h t (mem_cons_of_mem _ ht)
    have hcat : text (t :: ts) = spell t ++ space :: text ts := by
      rw [text, flatMap_cons, append_assoc]
      rfl
    have hone : lexRest st (spell t ++ space :: text ts) =
        (pushTok st t).bind fun st => lexRest st (text ts) := by
      have ht := h t mem_cons_self
      cases t with
      | num n => exact lexRest_num st ht _
      | name s => exact lexRest_name st ht _
      | sym t => exact lexRest_sym st t _
      | str i => exact absurd ht id
      | eof => exact absurd ht id
    rw [hcat, hone, cons_append, foldlM_cons]
    cases pushTok st t with
    | error e => rfl
    | ok st => exact ih st

theorem foldlM_pushTok (ts : List Tok) (st : Lexed) (hst : st.toks.length ≤ maxToks) :
    ts.foldlM pushTok st =
      if st.toks.length + ts.length ≤ maxToks then .ok { st with toks := st.toks ++ ts }
      else .error .tooManyTokens := by
  induction ts generalizing st with
  | nil =>
    rw [length_nil, add_zero, if_pos hst, append_nil]
    rfl
  | cons t ts ih =>
    rw [foldlM_cons, length_cons]
    unfold pushTok
    by_cases hfull : maxToks ≤ st.toks.length
    · rw [if_pos hfull, if_neg (by omega)]
      rfl
    · rw [if_neg hfull]
      have hlen : (st.toks ++ [t]).length = st.toks.length + 1 := length_append
      refine (ih { st with toks := st.toks ++ [t] } ?_).trans ?_
      · show (st.toks ++ [t]).length ≤ maxToks
        omega
      · rw [hlen, append_assoc, add_assoc, add_comm 1]
        rfl

theorem lexAll_text {ts : List Tok} (h : ∀ t ∈ ts, Spellable t) (pool : List Bytes) :
    lexAll pool (text ts) =
      if ts.length < maxToks then .ok ⟨ts ++ [.eof], pool⟩ else .error .tooManyTokens := by
  show lexRest ⟨[], pool⟩ (text ts) = _
  rw [lexRest_text h, foldlM_pushTok _ _ (Nat.zero_le _)]
  simp only [length_nil, zero_add, length_append, length_singleton, nil_append]
  rfl

end AdventOS.Cc
