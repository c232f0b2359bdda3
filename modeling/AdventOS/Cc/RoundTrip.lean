import AdventOS.Cc.Printing

/-!
# Parsing what was printed

* `Expr.reads`: the parser gives back the tree of a printed expression and stops behind it.
* `reread_iff`.
-/
namespace AdventOS.Cc
open List

variable {x : Symtab}

/-! ## What stands around an expression -/

/-- The tokens behind a whole expression: none that an expression goes on with. -/
structure Closes (ts : List Tok) : Prop where
  prec : nextPrec ts = 0
  postfix' : startsPostfix ts = false
  question : curSym ts ≠ some .question
  assign : curSym ts ≠ some .assign

variable {rest ts : List Tok} {b : Bool} {a e : Expr x}

theorem closes_sym {t : Sym}
    (h : binopPrec t = 0 ∧ goesOn t = false ∧ t ≠ .question ∧ t ≠ .assign) :
    Closes (.sym t :: ts) :=
  ⟨h.1, h.2.1, fun he => h.2.2.1 (Option.some.inj he), fun he => h.2.2.2 (Option.some.inj he)⟩

theorem closes_rparen (ts : List Tok) : Closes (.sym .rparen :: ts) := closes_sym (by decide)
theorem closes_rbracket (ts : List Tok) : Closes (.sym .rbracket :: ts) := closes_sym (by decide)
theorem closes_comma (ts : List Tok) : Closes (.sym .comma :: ts) := closes_sym (by decide)
theorem closes_colon (ts : List Tok) : Closes (.sym .colon :: ts) := closes_sym (by decide)

theorem binop_goesOn (op : BinOp) : goesOn op.val = false := by
  obtain ⟨t, ht⟩ := op
  cases t <;> first | rfl | cases ht

theorem paren_starts
    (h : curSym (ts ++ rest) ≠ some .rparen) : curSym (paren b ts ++ rest) ≠ some .rparen := by
  cases b with
  | false => exact h
  | true => exact nofun

theorem Expr.starts : (e : Expr x) → ∀ rest, curSym (e.body ++ rest) ≠ some .rparen
  | .num _, _ | .name _, _ | .call _ _, _ | .index _ _, _ | .index2 _ _ _, _
  | .indexMember _ _ _, _ | .member _ _, _ | .arrow _ _, _ | .postStep _ _, _ | .assign _ _, _
  | .addrOf _, _ | .deref _, _ => nofun
  | .preStep op _, _ => fun h => by
    have := op.2
    rw [Option.some.inj h] at this
    cases this
  | .un op _, _ => fun h => by
    have := op.2
    rw [Option.some.inj h] at this
    cases this
  | .bin op a b, rest => by
    rw [Expr.body, append_assoc]
    exact paren_starts (a.starts _)
  | .ternary c a b, rest => by
    rw [Expr.body, append_assoc, append_assoc]
    exact paren_starts (c.starts _)
  | .comma a b, rest => by
    rw [Expr.body, append_assoc]
    exact a.starts _

/-! ## The parser on printed expressions -/

/-- What the parser makes of `e` without parentheses around it: as a primary, as an operand of
an operator, as an expression, and inside parentheses. -/
structure Reads (e : Expr x) : Prop where
  primary : 13 ≤ e.prec → ∀ rest, startsPostfix rest = false →
    Settles (parsePrimary x · (e.body ++ rest)) (e.node, rest)
  operand : 3 ≤ e.prec → ∀ min rest r, (e.prec ≤ 12 → min + 2 ≤ e.prec) →
    nextPrec rest + 2 ≤ e.prec → startsPostfix rest = false →
      Settles (parseBinopRhs x · min e.node rest) r → Operand x min (e.body ++ rest) r
  whole : 1 ≤ e.prec → ∀ rest, Closes rest → Settles (parseExpr x · (e.body ++ rest)) (e.node, rest)
  inside : ∀ rest r, Closes rest → Settles (parseCommaRest x · e.node rest) r →
    Settles (parseCommaExpr x · (e.body ++ rest)) r

theorem nextPrec_le (ts : List Tok) : nextPrec ts ≤ 10 := by
  unfold nextPrec
  cases curSym ts with
  | none => exact Nat.zero_le _
  | some t => cases t <;> decide

theorem Reads.parenthesized (he : Reads e) (rest : List Tok) :
    Settles (parsePrimary x · (paren true e.body ++ rest)) (e.node, rest) := by
  have h := he.inside (.sym .rparen :: rest) _ (closes_rparen rest) (parseCommaRest_stop nofun)
  simp only [paren, if_true, cons_append, append_assoc, nil_append]
  exact parsePrimary_paren h

theorem Reads.at (he : Reads e) {q min : Nat}
    {r : Node × List Tok} (hq : 3 ≤ q) (hmin : q ≤ e.prec → e.prec ≤ 12 → min + 2 ≤ e.prec)
    (hrest : nextPrec rest + 2 ≤ q) (hpost : startsPostfix rest = false)
    (hr : Settles (parseBinopRhs x · min e.node rest) r) :
    Operand x min (paren (e.prec < q) e.body ++ rest) r := by
  by_cases h : e.prec < q
  · simp only [h, decide_true]
    exact ⟨_, _, he.parenthesized rest, hr⟩
  · simp only [paren, h, decide_false, Bool.false_eq_true, if_false]
    exact he.operand (by omega) min rest r (hmin (by omega)) (by omega) hpost hr

theorem Reads.unary (he : Reads e) (hpost : startsPostfix rest = false) :
    Settles (parsePrimary x · (paren (e.prec < 13) e.body ++ rest)) (e.node, rest) := by
  by_cases h : e.prec < 13
  · simp only [h, decide_true]
    exact he.parenthesized rest
  · simp only [paren, h, decide_false, Bool.false_eq_true, if_false]
    exact he.primary (by omega) rest hpost

theorem Reads.closed (he : Reads e) {q : Nat} (hq : 1 ≤ q) (hrest : Closes rest) :
    Settles (parseExpr x · (paren (e.prec < q) e.body ++ rest)) (e.node, rest) := by
  by_cases h : e.prec < q
  · simp only [h, decide_true]
    refine parseExpr_operand ⟨_, _, he.parenthesized rest, parseBinopRhs_stop ?_⟩
      (exprTail_stop hrest.question hrest.assign)
    rw [hrest.prec]
    exact zero_lt_one
  · simp only [paren, h, decide_false, Bool.false_eq_true, if_false]
    exact he.whole (by omega) rest hrest

theorem inside_of_whole (h1 : 1 ≤ e.prec) (hwhole : 1 ≤ e.prec → ∀ rest, Closes rest →
      Settles (parseExpr x · (e.body ++ rest)) (e.node, rest)) (rest : List Tok)
    (r : Node × List Tok) (hrest : Closes rest)
    (hr : Settles (parseCommaRest x · e.node rest) r) :
    Settles (parseCommaExpr x · (e.body ++ rest)) r :=
  parseCommaExpr_first (hwhole h1 rest hrest) hr

theorem Reads.of_operand (h3 : 3 ≤ e.prec)
    (hprim : 13 ≤ e.prec → ∀ rest, startsPostfix rest = false →
      Settles (parsePrimary x · (e.body ++ rest)) (e.node, rest))
    (hop : ∀ min rest r, (e.prec ≤ 12 → min + 2 ≤ e.prec) → nextPrec rest + 2 ≤ e.prec →
      startsPostfix rest = false → Settles (parseBinopRhs x · min e.node rest) r →
        Operand x min (e.body ++ rest) r) : Reads e := by
  have hwhole : 1 ≤ e.prec → ∀ rest, Closes rest →
      Settles (parseExpr x · (e.body ++ rest)) (e.node, rest) := by
    intro _ rest hrest
    refine parseExpr_operand (hop 1 rest _ (fun _ => h3) ?_ hrest.postfix' ?_)
      (exprTail_stop hrest.question hrest.assign)
    · rw [hrest.prec]
      omega
    · refine parseBinopRhs_stop ?_
      rw [hrest.prec]
      exact zero_lt_one
  exact ⟨hprim, fun _ => hop, hwhole, inside_of_whole (by omega) hwhole⟩

theorem Reads.of_primary (h13 : e.prec = 13) (h : ∀ rest, startsPostfix rest = false →
      Settles (parsePrimary x · (e.body ++ rest)) (e.node, rest)) : Reads e :=
  .of_operand (by omega) (fun _ => h) fun _ rest _ _ _ hpost hr => ⟨_, _, h rest hpost, hr⟩

theorem reads_bin {op : BinOp} {b : Expr x} (ha : Reads a) (hb : Reads b) :
    Reads (.bin op a b) := by
  have hle : binopPrec op.val ≤ 10 := by
    have := nextPrec_le [.sym op.val]
    exact this
  refine .of_operand (by rw [Expr.prec_bin]; omega)
    (fun h => absurd h (by rw [Expr.prec_bin]; omega)) fun min rest r hmin hrest hpost hr => ?_
  rw [Expr.prec_bin] at hmin hrest
  rw [Expr.node] at hr
  rw [Expr.body, append_assoc]
  -- the left operand, then the loop sees the operator
  refine ha.at (by omega) (fun hq _ => by omega) ?_ (binop_goesOn op) ?_
  · show binopPrec op.val + 2 ≤ _
    omega
  · refine parseBinopRhs_step rfl (by omega) ?_ hr
    exact hb.at (by omega) (fun hq _ => by omega) (by omega) hpost (parseBinopRhs_stop (by omega))

theorem reads_ternary {c b : Expr x} (hc : Reads c) (ha : Reads a) (hb : Reads b) :
    Reads (.ternary c a b) := by
  have hwhole : 1 ≤ (Expr.ternary c a b).prec → ∀ rest, Closes rest →
      Settles (parseExpr x · ((Expr.ternary c a b).body ++ rest))
        ((Expr.ternary c a b).node, rest) := by
    intro _ rest hrest
    simp only [Expr.body, Expr.node, append_assoc, cons_append]
    refine parseExpr_operand (hc.at (le_refl 3) (fun hq _ => hq) (Nat.le_succ 2) rfl
      (parseBinopRhs_stop zero_lt_one)) ?_
    exact exprTail_ternary (ha.closed (le_refl 1) (closes_colon _))
      (hb.closed (Nat.le_succ 1) hrest)
  exact ⟨fun h => absurd (show 13 ≤ 2 from h) (by decide),
    fun h => absurd (show 3 ≤ 2 from h) (by decide), hwhole,
    inside_of_whole (show 1 ≤ 2 by decide) hwhole⟩

theorem reads_assign {s : Var x} (ha : Reads a) : Reads (.assign s a) := by
  have hwhole : 1 ≤ (Expr.assign s a).prec → ∀ rest, Closes rest →
      Settles (parseExpr x · ((Expr.assign s a).body ++ rest)) ((Expr.assign s a).node, rest) := by
    intro _ rest hrest
    refine parseExpr_operand ⟨_, _, parsePrimary_name s.2 (parsePostfix_stop rfl),
      parseBinopRhs_stop zero_lt_one⟩ ?_
    exact exprTail_assign (ha.closed (le_refl 1) hrest)
  exact ⟨fun h => absurd (show 13 ≤ 1 from h) (by decide),
    fun h => absurd (show 3 ≤ 1 from h) (by decide), hwhole,
    inside_of_whole (le_refl 1) hwhole⟩

theorem reads_comma {b : Expr x} (ha : Reads a) (hb : Reads b) : Reads (.comma a b) := by
  refine ⟨fun h => absurd (show 13 ≤ 0 from h) (by decide),
    fun h => absurd (show 3 ≤ 0 from h) (by decide),
    fun h => absurd (show 1 ≤ 0 from h) (by decide), fun rest r hrest hr => ?_⟩
  rw [Expr.node] at hr
  rw [Expr.body, append_assoc]
  exact ha.inside _ _ (closes_comma _) (parseCommaRest_step (hb.closed (le_refl 1) hrest) hr)

/-- A list of arguments and the parenthesis behind it. -/
def ReadsArgs (es : Exprs x) : Prop :=
  ∀ rest, Settles (parseArgs x · (es.toks ++ .sym .rparen :: rest)) (es.nodes, rest)

theorem readsArgs_cons {es : Exprs x} (he : Reads e) (hes : ReadsArgs es) :
    ReadsArgs (.cons e es) := by
  intro rest
  rw [Exprs.toks, Exprs.nodes, append_assoc]
  have hstart (rest) : curSym (paren (e.prec < 1) e.body ++ rest) ≠ some .rparen :=
    paren_starts (e.starts rest)
  cases es with
  | nil => exact parseArgs_last (hstart _) (he.closed (le_refl 1) (closes_rparen rest))
  | cons e' es =>
    exact parseArgs_cons (hstart _) (he.closed (le_refl 1) (closes_comma _)) (hes rest)

mutual
theorem Expr.reads : (e : Expr x) → Reads e
  | .num n => .of_primary rfl fun _ _ => parsePrimary_num _
  | .name s => .of_primary rfl fun _ h => parsePrimary_name s.2 (parsePostfix_stop h)
  | .call f args => .of_primary rfl fun rest _ => by
    simp only [Expr.body, append_assoc, cons_append, nil_append]
    exact parsePrimary_call (parsePostfix_call (args.reads rest))
  | .index s i => .of_primary rfl fun rest h => by
    simp only [Expr.body, append_assoc, cons_append, nil_append]
    exact parsePrimary_name s.2
      (parsePostfix_index (i.reads.closed (le_refl 1) (closes_rbracket rest)) h)
  | .index2 s i j => .of_primary rfl fun rest _ => by
    simp only [Expr.body, append_assoc, cons_append, nil_append]
    exact parsePrimary_name s.2
      (parsePostfix_index2 (i.reads.closed (le_refl 1) (closes_rbracket _))
        (j.reads.closed (le_refl 1) (closes_rbracket rest)))
  | .indexMember s i f => .of_primary rfl fun rest _ => by
    simp only [Expr.body, append_assoc, cons_append, nil_append]
    exact parsePrimary_name s.2
      (parsePostfix_indexMember (i.reads.closed (le_refl 1) (closes_rbracket _)))
  | .member s f => .of_primary rfl fun _ _ => parsePrimary_name s.2 parsePostfix_member
  | .arrow s f => .of_primary rfl fun _ _ => parsePrimary_name s.2 parsePostfix_arrow
  | .postStep op s => .of_primary rfl fun _ _ =>
    parsePrimary_name s.2 (parsePostfix_incDec op.2)
  | .preStep op _ => .of_primary rfl fun _ _ => parsePrimary_incDec op.2
  | .addrOf _ => .of_primary rfl fun _ _ => parsePrimary_addrOf
  | .deref a => .of_primary rfl fun _ h => parsePrimary_deref (a.reads.unary h)
  | .un op a => .of_primary rfl fun _ h => parsePrimary_un op.2 (a.reads.unary h)
  | .bin _ a b => reads_bin a.reads b.reads
  | .ternary c a b => reads_ternary c.reads a.reads b.reads
  | .assign _ a => reads_assign a.reads
  | .comma a b => reads_comma a.reads b.reads

theorem Exprs.reads : (es : Exprs x) → ReadsArgs es
  | .nil => fun _ => parseArgs_nil
  | .cons e es => readsArgs_cons e.reads es.reads
end

theorem parseExpr_toks (e : Expr x) : Settles (parseExpr x · (e.toks ++ [.eof])) (e.node, [.eof]) :=
  e.reads.closed (le_refl 1) ⟨rfl, rfl, nofun, nofun⟩

/-! ## The tokens of an expression -/

/-- Every token satisfies `Spellable`. -/
def AllSpellable (ts : List Tok) : Prop := ∀ t ∈ ts, Spellable t

theorem AllSpellable.append {us : List Tok} (h : AllSpellable ts) (h' : AllSpellable us) :
    AllSpellable (ts ++ us) := by
  intro t ht
  rcases mem_append.1 ht with ht | ht
  · exact h t ht
  · exact h' t ht

theorem AllSpellable.cons {t : Tok} (h : Spellable t) (h' : AllSpellable ts) :
    AllSpellable (t :: ts) := by
  intro u hu
  rcases mem_cons.1 hu with rfl | hu
  · exact h
  · exact h' u hu

theorem allSpellable_nil : AllSpellable [] := fun _ ht => absurd ht not_mem_nil

theorem AllSpellable.sym (h : AllSpellable ts) (t : Sym) :
    AllSpellable (.sym t :: ts) := h.cons True.intro

theorem AllSpellable.name (h : AllSpellable ts) (s : Name) :
    AllSpellable (.name s.val :: ts) := h.cons s.2

theorem AllSpellable.paren (h : AllSpellable ts) : AllSpellable (paren b ts) := by
  cases b with
  | false => exact h
  | true => exact (h.sym _).append (allSpellable_nil.sym _)

theorem AllSpellable.sep (h : AllSpellable ts) : AllSpellable (sep b ts) := by
  cases b with
  | false => exact h.sym _
  | true => exact allSpellable_nil

theorem spellable_num (n : Numeral) : Spellable (.num (Int32.ofNat n.val)) := by
  show 0 ≤ Int32.ofNat n.val
  rw [Int32.le_iff_toInt_le, Int32.toInt_ofNat_of_lt n.2]
  exact Int.natCast_nonneg _

mutual
theorem Expr.spellable : (e : Expr x) → AllSpellable e.body
  | .num n => allSpellable_nil.cons (spellable_num n)
  | .name s => allSpellable_nil.name s.val
  | .call f args =>
    (((args.spellable.sym _).name f)).append (allSpellable_nil.sym _)
  | .index s i => ((i.spellable.paren.sym _).name s.val).append (allSpellable_nil.sym _)
  | .index2 s i j =>
    (((i.spellable.paren.sym _).name s.val).append ((j.spellable.paren.sym _).sym _)).append
      (allSpellable_nil.sym _)
  | .indexMember s i f =>
    ((i.spellable.paren.sym _).name s.val).append (((allSpellable_nil.name f).sym _).sym _)
  | .member s f => ((allSpellable_nil.name f).sym _).name s.val
  | .arrow s f => ((allSpellable_nil.name f).sym _).name s.val
  | .postStep _ s => (allSpellable_nil.sym _).name s.val
  | .preStep _ s => (allSpellable_nil.name s).sym _
  | .addrOf s => (allSpellable_nil.name s).sym _
  | .deref a => a.spellable.paren.sym _
  | .un _ a => a.spellable.paren.sym _
  | .bin _ a b => a.spellable.paren.append (b.spellable.paren.sym _)
  | .ternary c a b =>
    (c.spellable.paren.append (a.spellable.paren.sym _)).append (b.spellable.paren.sym _)
  | .assign s a => (a.spellable.paren.sym _).name s.val
  | .comma a b => a.spellable.append (b.spellable.paren.sym _)

theorem Exprs.spellable : (es : Exprs x) → AllSpellable es.toks
  | .nil => allSpellable_nil
  | .cons e es => e.spellable.paren.append es.spellable.sep
end

theorem Expr.toks_spellable (e : Expr x) : AllSpellable e.toks := e.spellable.paren

/-! ## The way back -/

/-- For every expression: lexing its text succeeds and parsing the tokens, with any
large enough depth, gives back its tree and stops at the end, if and only if there are fewer
than 2048 of them. -/
theorem reread_iff (pool : List Lua.Bytes) (e : Expr x) :
    (∃ st, lexAll pool (text e.toks) = .ok st ∧
        Settles (parseExpr x · st.toks) (e.node, [.eof])) ↔ e.toks.length < maxToks := by
  rw [lexAll_text e.toks_spellable]
  constructor
  · rintro ⟨st, hlex, -⟩
    by_contra hlen
    rw [if_neg hlen] at hlex
    cases hlex
  · intro hlen
    exact ⟨_, if_pos hlen, parseExpr_toks e⟩

/-- `n` minus signs in front of a 1. -/
def minuses (x : Symtab) : Nat → Expr x
  | 0 => .num ⟨1, by decide⟩
  | n + 1 => .un ⟨.minus, rfl⟩ (minuses x n)

theorem minuses_toks (x : Symtab) (n : Nat) :
    (minuses x n).prec = 13 ∧ (minuses x n).body.length = n + 1 := by
  induction n with
  | zero => exact ⟨rfl, rfl⟩
  | succ n ih =>
    refine ⟨rfl, ?_⟩
    rw [minuses, Expr.body, ih.1, length_cons]
    exact congrArg Nat.succ ih.2

/-- An expression of 2048 tokens. -/
theorem reread_iff_minuses : ¬∀ e : Expr ⟨[], [], []⟩, ∃ st, lexAll [] (text e.toks) = .ok st ∧
      Settles (parseExpr ⟨[], [], []⟩ · st.toks) (e.node, [.eof]) := by
  intro h
  obtain ⟨st, hlex, -⟩ := h (minuses _ 2047)
  have hprec := minuses_toks ⟨[], [], []⟩ 2047
  rw [lexAll_text (minuses _ 2047).toks_spellable, Expr.toks, hprec.1, if_neg ?_] at hlex
  · cases hlex
  · show ¬(minuses _ 2047).body.length < maxToks
    rw [hprec.2]
    decide

end AdventOS.Cc
