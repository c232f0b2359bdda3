import AdventOS.Lua.Spelling

/-!
# Parsing what was printed

* `Expr.reads`: the parser gives back the tree of a printed expression and stops behind it.
* `lex_parse_print`.
-/
namespace AdventOS.Lua
open List

/-! ## Precedences -/

/-- The least precedence that an expression of precedence `p` takes in from behind it. -/
def absorb (p : Nat) : Nat := if p = 4 ∨ p = 7 ∨ p = 8 then p else p + 1

variable {p : Nat} {t : Sym} {rest ts : List (Tok Bytes)} {b : Bool} {e : Expr}
  {r : Node Bytes × List (Tok Bytes)} {fs : Fields}

theorem absorb_mono {q : Nat} (h : p ≤ q) : absorb p ≤ absorb q := by
  unfold absorb
  split <;> split <;> omega

theorem absorb_pos (h : 0 < p) : 1 ≤ absorb p := by
  unfold absorb
  split <;> omega

theorem binopPrec_ne_seven (t : Sym) : binopPrec t ≠ 7 := by
  cases t <;> simp [binopPrec]

theorem binopPrec_le (t : Sym) : binopPrec t ≤ 8 := by
  cases t <;> simp [binopPrec]

theorem next_eq_absorb (t : Sym) :
    (if binopRightAssoc t then binopPrec t else binopPrec t + 1) = absorb (binopPrec t) := by
  cases t <;> rfl

theorem prec_le_leftLevel (t : Sym) : binopPrec t ≤ leftLevel t := by
  unfold leftLevel
  split <;> omega

theorem prec_lt_absorb_leftLevel (t : Sym) : binopPrec t < absorb (leftLevel t) := by
  cases t <;> decide

theorem lt_absorb_rightLevel {r : Nat} (h7 : r ≠ 7) (hr : r < absorb (binopPrec t)) :
    r < absorb (rightLevel t) := by
  have hge : absorb (binopPrec t) ≤ absorb (rightLevel t) ∨ t = .tCaret := by
    cases t <;> first | exact .inl (by decide) | exact .inr rfl
  rcases hge with hge | rfl
  · omega
  · have h1 : absorb (binopPrec .tCaret) = 8 := rfl
    have h2 : absorb (rightLevel .tCaret) = 7 := rfl
    omega

theorem next_le_of_rightLevel (h7 : p ≠ 7) (hp : rightLevel t ≤ p) :
    absorb (binopPrec t) ≤ p := by
  have hge : absorb (binopPrec t) ≤ rightLevel t ∨ t = .tCaret := by
    cases t <;> first | exact .inl (by decide) | exact .inr rfl
  rcases hge with hge | rfl
  · omega
  · have h1 : absorb (binopPrec .tCaret) = 8 := rfl
    have h2 : rightLevel .tCaret = 7 := rfl
    omega

theorem nextPrec_ne_seven (ts : List (Tok Bytes)) : nextPrec ts ≠ 7 := by
  unfold nextPrec
  split
  · exact binopPrec_ne_seven _
  · decide

/-! ## How an expression starts -/

/-- The tokens an expression without a unary operator in front can start with. -/
def startsPrimary : Tok Bytes → Bool
  | .num _ | .str _ | .name _ => .true
  | .sym .tNil | .sym .tTrue | .sym .tFalse | .sym .tLparen | .sym .tLbrace => .true
  | _ => .false

/-- A name at the start is not followed by `=`. -/
structure Starts (ts : List (Tok Bytes)) : Prop where
  tok : startsPrimary (cur ts) = true ∨ ∃ u, curSym ts = some u ∧ isUnop u = true
  assign : ∀ s, cur ts = .name s → curSym ts.tail ≠ some .tAssign

theorem curSym_of_cur (h : curSym ts = some t) :
    cur ts = .sym t := by
  unfold curSym at h
  split at h
  · rename_i hc
    rw [hc, Option.some.inj h]
  · cases h

theorem Starts.ne (h : Starts ts)
    (ht : startsPrimary (.sym t) = false ∧ isUnop t = false) : curSym ts ≠ some t := by
  intro hc
  rcases h.tok with hp | ⟨u, hu, hun⟩
  · rw [curSym_of_cur hc, ht.1] at hp
    cases hp
  · rw [hc] at hu
    cases hu
    rw [ht.2] at hun
    cases hun

theorem starts_paren {body : List (Tok Bytes)}
    (h : Starts (body ++ rest)) : Starts (paren b body ++ rest) := by
  cases b with
  | false => exact h
  | true =>
    refine ⟨.inl rfl, fun s hs => ?_⟩
    cases hs

theorem starts_leaf {t : Tok Bytes} (ht : startsPrimary t = true)
    (hr : curSym rest ≠ some .tAssign) : Starts (t :: rest) :=
  ⟨.inl ht, fun _ _ => hr⟩

theorem starts_sym (ht : startsPrimary (.sym t) = true ∨ isUnop t = true)
    : Starts (.sym t :: rest) := by
  refine ⟨?_, fun s hs => ?_⟩
  · rcases ht with ht | ht
    · exact .inl ht
    · exact .inr ⟨t, rfl, ht⟩
  · cases hs

theorem binop_ne_assign (op : BinOp) : op.val ≠ .tAssign := by
  intro h
  have := op.2
  rw [h] at this
  exact absurd this (by decide)

theorem Expr.starts : (e : Expr) → ∀ rest, curSym rest ≠ some .tAssign → Starts (e.body ++ rest)
  | .num _, _, hr => starts_leaf rfl hr
  | .str _, _, hr => starts_leaf rfl hr
  | .nil, _, hr => starts_leaf rfl hr
  | .true, _, hr => starts_leaf rfl hr
  | .false, _, hr => starts_leaf rfl hr
  | .name _, _, hr => starts_leaf rfl hr
  | .index e k, rest, _ => by
    simp only [Expr.body, append_assoc, cons_append]
    exact starts_paren (e.starts _ (by simp [curSym, cur]))
  | .dot e x, rest, _ => by
    simp only [Expr.body, append_assoc, cons_append]
    exact starts_paren (e.starts _ (by simp [curSym, cur]))
  | .call f args, rest, _ => by
    simp only [Expr.body, append_assoc, cons_append]
    exact starts_paren (f.starts _ (by simp [curSym, cur]))
  | .bin op a b, rest, _ => by
    rw [Expr.body, append_assoc]
    refine starts_paren (a.starts _ ?_)
    intro h
    exact binop_ne_assign op (Option.some.inj h)
  | .un op a, rest, _ => by
    rw [Expr.body]
    exact starts_sym (.inr op.2)
  | .table fs, rest, _ => by
    rw [Expr.body]
    exact starts_sym (.inl rfl)

theorem Expr.starts_primary : (e : Expr) → 9 ≤ e.prec → ∀ rest,
    startsPrimary (cur (e.body ++ rest)) = Bool.true
  | .num _, _, _ => rfl
  | .str _, _, _ => rfl
  | .nil, _, _ => rfl
  | .true, _, _ => rfl
  | .false, _, _ => rfl
  | .name _, _, _ => rfl
  | .index e k, _, rest => by
    simp only [Expr.body, append_assoc]
    by_cases h : e.prec < 10
    · simp [paren, h, cur, startsPrimary]
    · simp only [paren, h, decide_false, Bool.false_eq_true, if_false]
      exact e.starts_primary (by omega) _
  | .dot e x, _, rest => by
    simp only [Expr.body, append_assoc]
    by_cases h : e.prec < 10
    · simp [paren, h, cur, startsPrimary]
    · simp only [paren, h, decide_false, Bool.false_eq_true, if_false]
      exact e.starts_primary (by omega) _
  | .call f args, _, rest => by
    simp only [Expr.body, append_assoc]
    by_cases h : f.prec < 10
    · simp [paren, h, cur, startsPrimary]
    · simp only [paren, h, decide_false, Bool.false_eq_true, if_false]
      exact f.starts_primary (by omega) _
  | .bin op a b, h, _ => absurd h (by have := binopPrec_le op.val; rw [Expr.prec_bin]; omega)
  | .un op a, h, _ => absurd h (by rw [Expr.prec_un]; omega)
  | .table fs, _, _ => by
    rw [Expr.body]
    rfl

theorem unop_of_startsPrimary (h : startsPrimary (cur ts) = true) {u : Sym}
    (hu : curSym ts = some u) : isUnop u = false := by
  rw [curSym_of_cur hu] at h
  cases u <;> first | rfl | cases h

/-! ## The parser on printed expressions -/

/-- What the parser makes of `e` without parentheses around it: as a primary, and as an
operand. The second asks that the loop's precedence lets the operators of `e` in and that
none behind `e` is taken in by its last operand. -/
structure Reads (e : Expr) : Prop where
  primary : 9 ≤ e.prec → ∀ rest r, Settles (parseSuffix · e.node rest) r →
    Settles (parsePrefix · (e.body ++ rest)) r
  operand : ∀ min rest r, (e.prec ≤ 8 → e.prec ≠ 7 → min ≤ e.prec) →
    nextPrec rest < absorb e.prec → ¬ startsSuffix rest →
      Settles (parseBin · min e.node rest) r → Settles (parsePrec · min (e.body ++ rest)) r

theorem not_startsSuffix (h : t ≠ .tDot ∧ t ≠ .tLbrack ∧ t ≠ .tLparen)
    (rest : List (Tok Bytes)) : ¬ startsSuffix (.sym t :: rest) := by
  rintro (hs | hs | hs)
  · exact h.1 (Option.some.inj hs)
  · exact h.2.1 (Option.some.inj hs)
  · exact h.2.2 (Option.some.inj hs)

theorem Reads.whole (he : Reads e) (h0 : binopPrec t = 0)
    (ht : t ≠ .tDot ∧ t ≠ .tLbrack ∧ t ≠ .tLparen) (rest : List (Tok Bytes)) :
    Settles (parsePrec · 1 (e.body ++ .sym t :: rest)) (e.node, .sym t :: rest) := by
  refine he.operand 1 _ _ (fun _ _ => e.prec_pos) ?_ (not_startsSuffix ht rest)
    (parseBin_stop (.inl h0))
  have := absorb_pos e.prec_pos
  change binopPrec t < _
  omega

theorem Reads.parenthesized (he : Reads e)
    (hr : Settles (parseSuffix · e.node rest) r) :
    Settles (parsePrefix · (paren true e.body ++ rest)) r := by
  have hw := he.whole (t := .tRparen) rfl ⟨by decide, by decide, by decide⟩ rest
  simp only [paren, if_true, cons_append, append_assoc, nil_append]
  exact parsePrefix_paren hw hr

theorem Reads.head (he : Reads e)
    (hr : Settles (parseSuffix · e.node rest) r) :
    Settles (parsePrefix · (paren (e.prec < 10) e.body ++ rest)) r := by
  by_cases h : e.prec < 10
  · simp only [h, decide_true]
    exact he.parenthesized hr
  · simp only [paren, h, decide_false, Bool.false_eq_true, if_false]
    exact he.primary (by omega) rest r hr

theorem Reads.at (he : Reads e) {q min : Nat}
    (hmin : q ≤ e.prec → e.prec ≤ 8 → e.prec ≠ 7 → min ≤ e.prec)
    (hrest : nextPrec rest < absorb q) (hsuf : ¬ startsSuffix rest)
    (hr : Settles (parseBin · min e.node rest) r) :
    Settles (parsePrec · min (paren (e.prec < q) e.body ++ rest)) r := by
  by_cases h : e.prec < q
  · simp only [h, decide_true]
    refine parsePrec_prefix (fun u hu => ?_) (he.parenthesized (parseSuffix_stop hsuf)) hr
    cases hu
    rfl
  · simp only [paren, h, decide_false, Bool.false_eq_true, if_false]
    have := absorb_mono (p := q) (q := e.prec) (by omega)
    exact he.operand min rest r (hmin (by omega)) (by omega) hsuf hr

theorem Reads.of_primary (h9 : 9 ≤ e.prec)
    (h : ∀ rest r, Settles (parseSuffix · e.node rest) r →
      Settles (parsePrefix · (e.body ++ rest)) r) : Reads e := by
  refine ⟨fun _ => h, fun min rest r _ _ hsuf hr => ?_⟩
  exact parsePrec_prefix (fun u hu => unop_of_startsPrimary (e.starts_primary h9 rest) hu)
    (h rest _ (parseSuffix_stop hsuf)) hr

theorem reads_bin {op : BinOp} {a b : Expr} (ha : Reads a) (hb : Reads b) :
    Reads (.bin op a b) := by
  have hp := op.2
  have h8 := binopPrec_le op.val
  have h7 := binopPrec_ne_seven op.val
  refine ⟨fun h => absurd h (by rw [Expr.prec_bin]; omega), fun min rest r hmin hrest hsuf hr => ?_⟩
  rw [Expr.prec_bin] at hmin hrest
  have hlow := hmin h8 h7
  rw [Expr.node] at hr
  rw [Expr.body, append_assoc]
  have hne : op.val ≠ .tDot ∧ op.val ≠ .tLbrack ∧ op.val ≠ .tLparen := by
    refine ⟨?_, ?_, ?_⟩ <;> (intro h; rw [h] at hp; exact absurd hp (by decide))
  -- the left operand, then the loop sees the operator
  refine ha.at (fun hq h8' _ => ?_) (prec_lt_absorb_leftLevel op.val) (not_startsSuffix hne _) ?_
  · have := prec_le_leftLevel op.val
    omega
  refine parseBin_step rfl hp hlow ?_ hr
  rw [next_eq_absorb]
  refine hb.at (fun hq _ h7' => next_le_of_rightLevel h7' hq)
    (lt_absorb_rightLevel (nextPrec_ne_seven rest) hrest) hsuf (parseBin_stop (.inr hrest))

theorem reads_un {op : UnOp} {a : Expr} (ha : Reads a) : Reads (.un op a) := by
  refine ⟨fun h => absurd h (by rw [Expr.prec_un]; omega), fun min rest r _ hrest hsuf hr => ?_⟩
  rw [Expr.prec_un] at hrest
  rw [Expr.node] at hr
  rw [Expr.body]
  refine parsePrec_unop rfl op.2 ?_ hr
  exact ha.at (fun hq _ _ => hq) hrest hsuf (parseBin_stop (.inr hrest))

/-- A list of arguments and the parenthesis behind it. -/
def ReadsArgs (es : Exprs) : Prop :=
  ∀ rest, Settles (parseArgs · (es.toks ++ .sym .tRparen :: rest)) (es.nodes, rest)

def ReadsFields (fs : Fields) : Prop :=
  ∀ i rest, Settles (parseTable · i (fs.toks ++ .sym .tRbrace :: rest)) (fs.nodes i, rest)

theorem readsArgs_cons {es : Exprs} (he : Reads e) (hes : ReadsArgs es) :
    ReadsArgs (.cons e es) := by
  intro rest
  rw [Exprs.toks, Exprs.nodes, append_assoc]
  cases es with
  | nil =>
    exact parseArgs_last ((e.starts _ (by simp [sep, Exprs.isNil, curSym, cur])).ne
        ⟨rfl, rfl⟩)
      (he.whole rfl ⟨by decide, by decide, by decide⟩ rest)
  | cons e' es =>
    exact parseArgs_cons ((e.starts _ (by simp [sep, Exprs.isNil, curSym, cur])).ne ⟨rfl, rfl⟩)
      (he.whole rfl ⟨by decide, by decide, by decide⟩ _) (hes rest)

def EndsField (t : Sym) : Prop := t = .tComma ∨ t = .tRbrace

theorem EndsField.ne (h : EndsField t) :
    binopPrec t = 0 ∧ (t ≠ .tDot ∧ t ≠ .tLbrack ∧ t ≠ .tLparen) ∧ t ≠ .tAssign := by
  rcases h with rfl | rfl
  · exact ⟨rfl, ⟨by decide, by decide, by decide⟩, by decide⟩
  · exact ⟨rfl, ⟨by decide, by decide, by decide⟩, by decide⟩

theorem Reads.field (he : Reads e) (ht : EndsField t)
    (rest : List (Tok Bytes)) :
    Settles (parsePrec · 1 (e.body ++ .sym t :: rest)) (e.node, .sym t :: rest) :=
  he.whole ht.ne.1 ht.ne.2.1 rest

theorem readsFields_step {i i' : Int} {kv : Node Bytes × Node Bytes} (ts : List (Tok Bytes))
    (hf : ∀ t, EndsField t → ∀ rest, curSym (ts ++ .sym t :: rest) ≠ some .tRbrace ∧
      Settles (parseField · i (ts ++ .sym t :: rest)) (kv, i', .sym t :: rest))
    (hfs : ReadsFields fs) (rest : List (Tok Bytes)) :
    Settles (parseTable · i ((ts ++ sep fs.isNil fs.toks) ++ .sym .tRbrace :: rest))
      (kv :: fs.nodes i', rest) := by
  rw [append_assoc]
  have hc (rest) := hf .tComma (.inl rfl) rest
  have hb := hf .tRbrace (.inr rfl) rest
  cases fs with
  | nil => exact parseTable_last hb.1 hb.2
  | pos e fs => exact parseTable_cons (hc _).1 (hc _).2 (hfs i' rest)
  | named x e fs => exact parseTable_cons (hc _).1 (hc _).2 (hfs i' rest)
  | keyed k e fs => exact parseTable_cons (hc _).1 (hc _).2 (hfs i' rest)

theorem readsFields_pos (he : Reads e) (hfs : ReadsFields fs) :
    ReadsFields (.pos e fs) := by
  intro i rest
  rw [Fields.toks, Fields.nodes]
  refine readsFields_step _ (fun t ht rest => ?_) hfs rest
  have hstarts : Starts (e.body ++ .sym t :: rest) :=
    e.starts _ fun h => ht.ne.2.2 (Option.some.inj h)
  exact ⟨hstarts.ne ⟨rfl, rfl⟩,
    parseField_pos (hstarts.ne ⟨rfl, rfl⟩) hstarts.assign (he.field ht rest)⟩

theorem readsFields_named {x : Name} (he : Reads e)
    (hfs : ReadsFields fs) : ReadsFields (.named x e fs) := by
  intro i rest
  rw [Fields.toks, Fields.nodes]
  refine readsFields_step (.name x.val :: .sym .tAssign :: e.body) (fun t ht rest => ?_) hfs rest
  exact ⟨nofun, parseField_named (he.field ht rest)⟩

theorem readsFields_keyed {k : Expr} (hk : Reads k) (he : Reads e)
    (hfs : ReadsFields fs) : ReadsFields (.keyed k e fs) := by
  intro i rest
  rw [Fields.toks, Fields.nodes]
  refine readsFields_step (.sym .tLbrack :: k.body ++ .sym .tRbrack :: .sym .tAssign :: e.body)
    (fun t ht rest => ?_) hfs rest
  simp only [cons_append, append_assoc]
  exact ⟨by simp [curSym, cur], parseField_keyed
    (hk.whole rfl ⟨by decide, by decide, by decide⟩ _) (he.field ht rest)⟩

mutual
theorem Expr.reads : (e : Expr) → Reads e
  | .num _ => .of_primary (Nat.le_refl 9) fun _ _ hr => parsePrefix_leaf rfl hr
  | .str _ => .of_primary (Nat.le_refl 9) fun _ _ hr => parsePrefix_leaf rfl hr
  | .nil => .of_primary (Nat.le_refl 9) fun _ _ hr => parsePrefix_leaf rfl hr
  | .true => .of_primary (Nat.le_refl 9) fun _ _ hr => parsePrefix_leaf rfl hr
  | .false => .of_primary (Nat.le_refl 9) fun _ _ hr => parsePrefix_leaf rfl hr
  | .name _ => .of_primary (Nat.le_succ 9) fun _ _ hr => parsePrefix_leaf rfl hr
  | .index e k => .of_primary (Nat.le_succ 9) fun rest r hr => by
    simp only [Expr.body, append_assoc, cons_append, nil_append]
    rw [Expr.node] at hr
    exact e.reads.head (parseSuffix_index
      (k.reads.whole rfl ⟨by decide, by decide, by decide⟩ rest) hr)
  | .dot e x => .of_primary (Nat.le_succ 9) fun rest r hr => by
    simp only [Expr.body, append_assoc, cons_append, nil_append]
    rw [Expr.node] at hr
    exact e.reads.head (parseSuffix_dot hr)
  | .call f args => .of_primary (Nat.le_succ 9) fun rest r hr => by
    simp only [Expr.body, append_assoc, cons_append, nil_append]
    rw [Expr.node] at hr
    exact f.reads.head (parseSuffix_call (args.reads rest) hr)
  | .bin _ a b => reads_bin a.reads b.reads
  | .un _ a => reads_un a.reads
  | .table fs => .of_primary (Nat.le_refl 9) fun rest r hr => by
    simp only [Expr.body, append_assoc, cons_append, nil_append]
    rw [Expr.node] at hr
    exact parsePrefix_table (fs.reads 1 rest) hr

theorem Exprs.reads : (es : Exprs) → ReadsArgs es
  | .nil => fun _ => parseArgs_nil
  | .cons e es => readsArgs_cons e.reads es.reads

theorem Fields.reads : (fs : Fields) → ReadsFields fs
  | .nil => fun _ _ => parseTable_nil
  | .pos e fs => readsFields_pos e.reads fs.reads
  | .named _ e fs => readsFields_named e.reads fs.reads
  | .keyed k e fs => readsFields_keyed k.reads e.reads fs.reads
end

theorem parseExpr_body (e : Expr) : Settles (parseExpr · (e.body ++ [.eof])) (e.node, [.eof]) := by
  refine e.reads.operand 1 _ _ (fun _ _ => e.prec_pos) ?_ ?_ (parseBin_stop (.inl rfl))
  · exact absorb_pos e.prec_pos
  · rintro (h | h | h) <;> cases h

/-! ## The tokens of an expression -/

theorem spellable_sym (k : Sym) : Spellable (.sym k) := True.intro

/-- Every token satisfies `Spellable`. -/
def AllSpellable (ts : List (Tok Bytes)) : Prop := ∀ t ∈ ts, Spellable t

theorem AllSpellable.append {us : List (Tok Bytes)} (h : AllSpellable ts)
    (h' : AllSpellable us) : AllSpellable (ts ++ us) := by
  intro t ht
  rcases mem_append.1 ht with ht | ht
  · exact h t ht
  · exact h' t ht

theorem AllSpellable.cons {t : Tok Bytes} (h : Spellable t)
    (h' : AllSpellable ts) : AllSpellable (t :: ts) := by
  intro u hu
  rcases mem_cons.1 hu with rfl | hu
  · exact h
  · exact h' u hu

theorem allSpellable_nil : AllSpellable [] := fun _ ht => absurd ht not_mem_nil

theorem spellable_name (x : Name) : Spellable (.name x.val) := x.2

theorem allSpellable_sym (k : Sym) : AllSpellable [.sym k] :=
  allSpellable_nil.cons (spellable_sym k)

theorem AllSpellable.paren (h : AllSpellable ts) :
    AllSpellable (paren b ts) := by
  cases b with
  | false => exact h
  | true => exact (h.cons (spellable_sym _)).append (allSpellable_sym _)

theorem AllSpellable.sep (h : AllSpellable ts) :
    AllSpellable (sep b ts) := by
  cases b with
  | false => exact h.cons (spellable_sym _)
  | true => exact allSpellable_nil

mutual
theorem Expr.spellable : (e : Expr) → AllSpellable e.body
  | .num n => allSpellable_nil.cons ⟨Int.natCast_nonneg _, by have := n.2; omega⟩
  | .str _ => allSpellable_nil.cons True.intro
  | .nil => allSpellable_sym _
  | .true => allSpellable_sym _
  | .false => allSpellable_sym _
  | .name x => allSpellable_nil.cons x.2
  | .index e k =>
    (e.spellable.paren.append (k.spellable.cons (spellable_sym _))).append (allSpellable_sym _)
  | .dot e x =>
    e.spellable.paren.append
      ((allSpellable_nil.cons (spellable_name x)).cons (spellable_sym _))
  | .call f args =>
    (f.spellable.paren.append (args.spellable.cons (spellable_sym _))).append (allSpellable_sym _)
  | .bin _ a b => a.spellable.paren.append (b.spellable.paren.cons (spellable_sym _))
  | .un _ a => a.spellable.paren.cons (spellable_sym _)
  | .table fs => (fs.spellable.cons (spellable_sym _)).append (allSpellable_sym _)

theorem Exprs.spellable : (es : Exprs) → AllSpellable es.toks
  | .nil => allSpellable_nil
  | .cons e es => e.spellable.append es.spellable.sep

theorem Fields.spellable : (fs : Fields) → AllSpellable fs.toks
  | .nil => allSpellable_nil
  | .pos e fs => e.spellable.append fs.spellable.sep
  | .named x e fs =>
    ((e.spellable.cons (spellable_sym _)).cons (spellable_name x)).append fs.spellable.sep
  | .keyed k e fs =>
    ((k.spellable.cons (spellable_sym _)).append
      ((e.spellable.cons (spellable_sym _)).cons (spellable_sym _))).append fs.spellable.sep
end

/-! ## Literals cut off -/

mutual
/-- The expression with every literal cut off at the buffer's size. -/
def Expr.trunc : Expr → Expr
  | .str s => .str (s.take strBuf)
  | .index e k => .index e.trunc k.trunc
  | .dot e x => .dot e.trunc x
  | .call f args => .call f.trunc args.trunc
  | .bin op a b => .bin op a.trunc b.trunc
  | .un op a => .un op a.trunc
  | .table fs => .table fs.trunc
  | e => e

def Exprs.trunc : Exprs → Exprs
  | .nil => .nil
  | .cons e es => .cons e.trunc es.trunc

def Fields.trunc : Fields → Fields
  | .nil => .nil
  | .pos e fs => .pos e.trunc fs.trunc
  | .named x e fs => .named x e.trunc fs.trunc
  | .keyed k e fs => .keyed k.trunc e.trunc fs.trunc
end

theorem Expr.prec_trunc (e : Expr) : e.trunc.prec = e.prec := by
  cases e <;> rfl

theorem Exprs.isNil_trunc (es : Exprs) : es.trunc.isNil = es.isNil := by
  cases es <;> rfl

theorem Fields.isNil_trunc (fs : Fields) : fs.trunc.isNil = fs.isNil := by
  cases fs <;> rfl

theorem map_paren (b : Bool) (ts : List (Tok Bytes)) :
    (paren b ts).map truncTok = paren b (ts.map truncTok) := by
  cases b with
  | false => rfl
  | true => simp only [paren, if_true, map_append, map_cons, map_nil, truncTok]

theorem map_sep (b : Bool) (ts : List (Tok Bytes)) :
    (sep b ts).map truncTok = sep b (ts.map truncTok) := by
  cases b <;> rfl

mutual
theorem Expr.body_trunc : (e : Expr) → e.trunc.body = e.body.map truncTok
  | .num _ | .str _ | .nil | .true | .false | .name _ => rfl
  | .index e k => by
    simp only [Expr.trunc, Expr.body, map_append, map_cons, map_nil, map_paren,
      e.body_trunc, k.body_trunc, e.prec_trunc, truncTok]
  | .dot e x => by
    simp only [Expr.trunc, Expr.body, map_append, map_cons, map_nil, map_paren,
      e.body_trunc, e.prec_trunc, truncTok]
  | .call f args => by
    simp only [Expr.trunc, Expr.body, map_append, map_cons, map_nil, map_paren,
      f.body_trunc, args.toks_trunc, f.prec_trunc, truncTok]
  | .bin op a b => by
    simp only [Expr.trunc, Expr.body, map_append, map_cons, map_paren,
      a.body_trunc, b.body_trunc, a.prec_trunc, b.prec_trunc, truncTok]
  | .un op a => by
    simp only [Expr.trunc, Expr.body, map_cons, map_paren, a.body_trunc, a.prec_trunc,
      truncTok]
  | .table fs => by
    simp only [Expr.trunc, Expr.body, map_append, map_cons, map_nil,
      fs.toks_trunc, truncTok]

theorem Exprs.toks_trunc : (es : Exprs) → es.trunc.toks = es.toks.map truncTok
  | .nil => rfl
  | .cons e es => by
    simp only [Exprs.trunc, Exprs.toks, map_append, map_sep, e.body_trunc, es.toks_trunc,
      es.isNil_trunc]

theorem Fields.toks_trunc : (fs : Fields) → fs.trunc.toks = fs.toks.map truncTok
  | .nil => rfl
  | .pos e fs => by
    simp only [Fields.trunc, Fields.toks, map_append, map_sep, e.body_trunc, fs.toks_trunc,
      fs.isNil_trunc]
  | .named x e fs => by
    simp only [Fields.trunc, Fields.toks, map_append, map_cons, map_sep, e.body_trunc,
      fs.toks_trunc, fs.isNil_trunc, truncTok]
  | .keyed k e fs => by
    simp only [Fields.trunc, Fields.toks, map_append, map_cons, map_sep, k.body_trunc,
      e.body_trunc, fs.toks_trunc, fs.isNil_trunc, truncTok]
end

mutual
theorem Expr.trunc_eq : (e : Expr) → e.trunc.node = e.node → e.trunc = e
  | .num _, _ | .nil, _ | .true, _ | .false, _ | .name _, _ => rfl
  | .str s, h => by
    injection h with h
    rw [Expr.trunc, h]
  | .index e k, h => by
    injection h with h1 h2
    rw [Expr.trunc, e.trunc_eq h1, k.trunc_eq h2]
  | .dot e x, h => by
    injection h with h1 h2
    rw [Expr.trunc, e.trunc_eq h1]
  | .call f args, h => by
    injection h with h1 h2
    rw [Expr.trunc, f.trunc_eq h1, args.trunc_eq h2]
  | .bin op a b, h => by
    injection h with h0 h1 h2
    rw [Expr.trunc, a.trunc_eq h1, b.trunc_eq h2]
  | .un op a, h => by
    injection h with h0 h1
    rw [Expr.trunc, a.trunc_eq h1]
  | .table fs, h => by
    injection h with h
    rw [Expr.trunc, fs.trunc_eq 1 h]

theorem Exprs.trunc_eq : (es : Exprs) → es.trunc.nodes = es.nodes → es.trunc = es
  | .nil, _ => rfl
  | .cons e es, h => by
    injection h with h1 h2
    rw [Exprs.trunc, e.trunc_eq h1, es.trunc_eq h2]

theorem Fields.trunc_eq : (fs : Fields) → (i : Int) → fs.trunc.nodes i = fs.nodes i →
    fs.trunc = fs
  | .nil, _, _ => rfl
  | .pos e fs, i, h => by
    injection h with h1 h2
    rw [Fields.trunc, e.trunc_eq (congrArg Prod.snd h1), fs.trunc_eq _ h2]
  | .named x e fs, i, h => by
    injection h with h1 h2
    rw [Fields.trunc, e.trunc_eq (congrArg Prod.snd h1), fs.trunc_eq _ h2]
  | .keyed k e fs, i, h => by
    injection h with h1 h2
    rw [Fields.trunc, k.trunc_eq (congrArg Prod.fst h1), e.trunc_eq (congrArg Prod.snd h1),
      fs.trunc_eq _ h2]
end

/-! ## The way back -/

/-- For every expression: lexing its text succeeds and parsing the tokens,
with any large enough depth, gives back its tree and consumes them all, if and only if no
literal in it is longer than the 1024 bytes of the lexer's buffer. -/
theorem lex_parse_print (e : Expr) :
    (∃ toks, lexAll (text e.body) = .ok toks ∧
        Settles (parseExpr · toks) (e.node, [.eof])) ↔
      ∀ s, Tok.str s ∈ e.body → s.length ≤ strBuf := by
  rw [lexAll_text e.spellable]
  constructor
  · rintro ⟨toks, hlex, hparse⟩ s hs
    have htoks := cutToks_eq_ok hlex
    rw [← e.body_trunc] at htoks
    rw [htoks] at hparse
    have hnode := congrArg Prod.fst ((parseExpr_body e.trunc).unique hparse)
    have hbody := e.body_trunc
    rw [e.trunc_eq hnode] at hbody
    have hfix : truncTok (.str s) = .str s :=
      map_inj_left.1 (hbody.symm.trans (map_id _).symm) _ hs
    have htake : s.take strBuf = s := Tok.str.inj hfix
    rw [← htake]
    exact length_take_le _ _
  · intro h
    exact ⟨_, cutToks_of_length h, parseExpr_body e⟩

/-- A literal of 1025 letters. -/
def longLiteral : Bytes := List.replicate 1025 97

/-- It comes back one letter shorter. -/
theorem lex_parse_print_longLiteral :
    ¬ ∀ e : Expr, ∃ toks, lexAll (text e.body) = .ok toks ∧
      Settles (parseExpr · toks) (e.node, [.eof]) := by
  intro h
  obtain ⟨toks, hlex, hparse⟩ := h (.str longLiteral)
  rw [lexAll_text (Expr.str longLiteral).spellable] at hlex
  have htoks := cutToks_eq_ok hlex
  rw [← (Expr.str longLiteral).body_trunc] at htoks
  rw [htoks] at hparse
  have hnode := congrArg Prod.fst ((parseExpr_body (Expr.str longLiteral).trunc).unique hparse)
  have hlen := congrArg List.length (Node.str.inj hnode)
  have hsize : longLiteral.length = 1025 := length_replicate
  rw [length_take, hsize] at hlen
  exact absurd hlen (by decide)

end AdventOS.Lua
