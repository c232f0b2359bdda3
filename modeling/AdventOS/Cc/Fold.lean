import AdventOS.Cc.Parser

/-!
# Constant folding in the C compiler

`fold_node` walks a tree before code is generated: it folds the children of a node and then the
node itself, if its operands are literals. Its answer is `none` where it follows a null pointer
or divides as the processor does not.

* `Meaning`: a meaning of trees that is made of the meanings of their parts, in which literals
  compute in 32 bits. `evaluation` is one, over any machine.
* `foldNode_of`: what is folded keeps every meaning.
* `foldNode_isSome_iff`: folding ends well unless a node counts more children than its list has,
  or a quotient of literals overflows.
* `foldNode_iff`: the two together.
-/
namespace AdventOS.Cc
open Option

/-! ## Arithmetic -/

def intMin : Int32 := -2147483648

def ofBool (b : Bool) : Int32 := if b then 1 else 0

def unValue : Op → Int32 → Option Int32
  | .tok .minus, v => some (-v)
  | .tok .bang, v => some (ofBool (v = 0))
  | .tok .tilde, v => some (~~~v)
  | _, _ => none

/-- The quotient that the processor does not compute. -/
def Overflows (a b : Int32) : Prop := a = intMin ∧ b = -1

instance (a b : Int32) : Decidable (Overflows a b) := inferInstanceAs (Decidable (_ ∧ _))

def isDivision (op : Op) : Bool := op = .tok .slash || op = .tok .percent

/-- A binary operator on two values, `none` if the processor traps. Shifts take their distance
modulo 32. -/
def binValue (op : Op) (a b : Int32) : Option Int32 :=
  if isDivision op ∧ (b = 0 ∨ Overflows a b) then none
  else
    match op with
    | .tok .plus => some (a + b)
    | .tok .minus => some (a - b)
    | .tok .star => some (a * b)
    | .tok .slash => some (a / b)
    | .tok .percent => some (a % b)
    | .tok .amp => some (a &&& b)
    | .tok .pipe => some (a ||| b)
    | .tok .caret => some (a ^^^ b)
    | .tok .lshift => some (a <<< b)
    | .tok .rshift => some (a >>> b)
    | .tok .eq => some (ofBool (a = b))
    | .tok .neq => some (ofBool (a ≠ b))
    | .tok .lt => some (ofBool (a < b))
    | .tok .gt => some (ofBool (b < a))
    | .tok .le => some (ofBool (a ≤ b))
    | .tok .ge => some (ofBool (b ≤ a))
    | .tok .ampAmp => some (ofBool (a ≠ 0 ∧ b ≠ 0))
    | .tok .pipePipe => some (ofBool (a ≠ 0 ∨ b ≠ 0))
    | _ => none

/-! ## Folding -/

def literal : Node → Option Int32
  | .null => none
  | .mk f _ _ _ _ _ _ => if f.kind = .num then some f.num else none

/-- cc.c:3687-3700 -/
def foldUn (f : Fields) (a b c body : Node) (list params : List Node) : Node :=
  ((literal a).bind (unValue f.op)).elim (.mk f a b c body list params) fun r =>
    .mk { f with kind := .num, num := r } .null b c body list params

/-- cc.c:3702-3733; only a division by zero is looked for. -/
def foldBin (f : Fields) (a b c body : Node) (list params : List Node) : Option Node :=
  let same := Node.mk f a b c body list params
  (literal a).elim (some same) fun x => (literal b).elim (some same) fun y =>
    if isDivision f.op ∧ y = 0 then some same
    else if isDivision f.op ∧ Overflows x y then none
    else
      some ((binValue f.op x y).elim same fun r =>
        .mk { f with kind := .num, num := r } .null .null c body list params)

def Node.isNull : Node → Bool
  | .null => true
  | .mk _ _ _ _ _ _ _ => false

/-- cc.c:3735-3741: the node becomes a copy of the chosen one. -/
def foldTernary (f : Fields) (a b c body : Node) (list params : List Node) : Node :=
  let same := Node.mk f a b c body list params
  (literal a).elim same fun v =>
    let chosen := if v ≠ 0 then b else c
    if chosen.isNull then same else chosen

/-- What is done to a node whose children are folded. -/
def foldHere (f : Fields) (a b c body : Node) (list params : List Node) : Option Node :=
  if f.kind = .un then some (foldUn f a b c body list params)
  else if f.kind = .bin then foldBin f a b c body list params
  else if f.kind = .ternary then some (foldTernary f a b c body list params)
  else some (.mk f a b c body list params)

mutual
/-- cc.c:3677-3741 `fold_node`. -/
def foldNode : Node → Option Node
  | .null => some .null
  | .mk f a b c body list params => do
    let a ← foldNode a
    let b ← foldNode b
    let c ← foldNode c
    let body ← foldNode body
    let list ← foldNodes f.nList list
    let params ← foldNodes params.length params
    foldHere f a b c body list params

/-- The first `n` nodes of a list. Behind its last one there is nothing to follow. -/
def foldNodes : Nat → List Node → Option (List Node)
  | 0, ts => some ts
  | _ + 1, [] => none
  | n + 1, t :: ts => do
    let t ← foldNode t
    let ts ← foldNodes n ts
    some (t :: ts)
end

/-! ## Meanings -/

/-- A meaning of trees that is made of the meanings of their parts: `other` says what the nodes
mean that are not folded. Literals compute in 32 bits. -/
structure Meaning (D : Type) where
  null : D
  num : Int32 → D
  un : Op → D → D
  bin : Op → D → D → D
  cond : D → D → D → D
  other : Fields → D → D → D → D → List D → List D → D
  un_num : ∀ op v r, unValue op v = some r → un op (num v) = num r
  bin_num : ∀ op x y r, binValue op x y = some r → bin op (num x) (num y) = num r
  cond_num : ∀ v t e, cond (num v) t e = if v ≠ 0 then t else e

namespace Meaning

variable {D : Type} (m : Meaning D)

/-- The meaning of a node from those of its children. -/
def here (f : Fields) (a b c body : D) (list params : List D) : D :=
  if f.kind = .num then m.num f.num
  else if f.kind = .un then m.un f.op a
  else if f.kind = .bin then m.bin f.op a b
  else if f.kind = .ternary then m.cond a b c
  else m.other f a b c body list params

mutual
def of : Node → D
  | .null => m.null
  | .mk f a b c body list params =>
    m.here f (of a) (of b) (of c) (of body) (ofAll list) (ofAll params)

def ofAll : List Node → List D
  | [] => []
  | t :: ts => of t :: ofAll ts
end

end Meaning

/-! ## Machines -/

inductive Outcome (S : Type)
  | done (v : Int32) (s : S)
  | trap (s : S)

/-- What a piece of code does. -/
abbrev Run (S : Type) := S → Outcome S

variable {S : Type}

/-- One piece of code, and the next one with its value. -/
def Run.then (r : Run S) (k : Int32 → Run S) : Run S := fun s =>
  match r s with
  | .done v s => k v s
  | .trap s => .trap s

def Run.value (v : Int32) : Run S := fun s => .done v s

mutual
def constOf : Node → Option Int32
  | .null => none
  | .mk f a b c _ _ _ =>
    if f.kind = .num then some f.num
    else if f.kind = .un then (constOf a).bind (unValue f.op)
    else if f.kind = .bin then
      (constOf a).bind fun x => (constOf b).bind fun y => binValue f.op x y
    else if f.kind = .ternary then
      (constOf a).bind fun v => if v ≠ 0 then constOf b else constOf c
    else none
end

/-- The list has the nodes that are counted. -/
def Listed : Node → Prop
  | .null => True
  | .mk f _ _ _ _ list _ => f.nList ≤ list.length

/-- A quotient of constants that overflows. -/
def Unquotable : Node → Prop
  | .null => False
  | .mk f a b _ _ _ _ => f.kind = .bin ∧ isDivision f.op ∧
    ∃ x y, constOf a = some x ∧ constOf b = some y ∧ Overflows x y

mutual
/-- `P` holds of every node that a walk over the tree meets. -/
def Node.everywhere (P : Node → Prop) : Node → Prop
  | .null => True
  | .mk f a b c body list params =>
    P (.mk f a b c body list params) ∧ a.everywhere P ∧ b.everywhere P ∧ c.everywhere P ∧
      body.everywhere P ∧ everywhereIn P f.nList list ∧ everywhereIn P params.length params

/-- The same for the first `n` nodes of a list. -/
def everywhereIn (P : Node → Prop) : Nat → List Node → Prop
  | 0, _ => True
  | _ + 1, [] => True
  | n + 1, t :: ts => t.everywhere P ∧ everywhereIn P n ts
end

mutual
theorem everywhere_and {P Q : Node → Prop} : (t : Node) →
    (t.everywhere (fun t => P t ∧ Q t) ↔ t.everywhere P ∧ t.everywhere Q)
  | .null => by simp only [Node.everywhere, and_self]
  | .mk f a b c body list params => by
    simp only [Node.everywhere, everywhere_and a, everywhere_and b, everywhere_and c,
      everywhere_and body, everywhereIn_and f.nList list, everywhereIn_and params.length params]
    tauto

theorem everywhereIn_and {P Q : Node → Prop} : (n : Nat) → (ts : List Node) →
    (everywhereIn (fun t => P t ∧ Q t) n ts ↔ everywhereIn P n ts ∧ everywhereIn Q n ts)
  | 0, _ => by simp only [everywhereIn, and_self]
  | _ + 1, [] => by simp only [everywhereIn, and_self]
  | n + 1, t :: ts => by
    simp only [everywhereIn, everywhere_and t, everywhereIn_and n ts]
    tauto
end

/-! ## What folding makes of the operands -/

section Operands

variable {f : Fields} {a b c body t' : Node} {list params : List Node}

theorem foldBin_cases (f : Fields) (a b c body : Node) (list params : List Node) :
    (∃ x y r, literal a = some x ∧ literal b = some y ∧ binValue f.op x y = some r ∧
      foldBin f a b c body list params =
        some (.mk { f with kind := .num, num := r } .null .null c body list params)) ∨
    ((∃ x y, literal a = some x ∧ literal b = some y ∧ isDivision f.op ∧ Overflows x y) ∧
      foldBin f a b c body list params = none) ∨
    (((literal a).bind fun x => (literal b).bind fun y => binValue f.op x y) = none ∧
      (∀ x y, literal a = some x → literal b = some y → isDivision f.op → ¬Overflows x y) ∧
      foldBin f a b c body list params = some (.mk f a b c body list params)) := by
  unfold foldBin
  cases ha : literal a with
  | none => exact Or.inr (Or.inr ⟨rfl, nofun, rfl⟩)
  | some x =>
    cases hb : literal b with
    | none => exact Or.inr (Or.inr ⟨rfl, nofun, rfl⟩)
    | some y =>
      simp only [elim_some, bind_some]
      by_cases hzero : isDivision f.op ∧ y = 0
      · rw [if_pos hzero]
        refine Or.inr (Or.inr ⟨if_pos ⟨hzero.1, Or.inl hzero.2⟩, ?_, rfl⟩)
        rintro x' y' - hy - ⟨-, hover⟩
        rw [← Option.some.inj hy, hzero.2] at hover
        cases hover
      · rw [if_neg hzero]
        by_cases hover : isDivision f.op ∧ Overflows x y
        · rw [if_pos hover]
          exact Or.inr (Or.inl ⟨⟨x, y, rfl, rfl, hover⟩, rfl⟩)
        · rw [if_neg hover]
          cases hv : binValue f.op x y with
          | some r => exact Or.inl ⟨x, y, r, rfl, rfl, hv, rfl⟩
          | none =>
            refine Or.inr (Or.inr ⟨rfl, ?_, rfl⟩)
            rintro x' y' hx hy hdiv h
            rw [← Option.some.inj hx, ← Option.some.inj hy] at h
            exact hover ⟨hdiv, h⟩

theorem literal_of_kind (h : f.kind ≠ .num) : literal (.mk f a b c body list params) = none :=
  if_neg h

theorem literal_num (f : Fields) (r : Int32) (a b c body : Node) (list params : List Node) :
    literal (.mk { f with kind := .num, num := r } a b c body list params) = some r := by
  unfold literal
  exact if_pos rfl

theorem foldUn_cases (f : Fields) (a b c body : Node) (list params : List Node) :
    (∃ v r, literal a = some v ∧ unValue f.op v = some r ∧ foldUn f a b c body list params =
      .mk { f with kind := .num, num := r } .null b c body list params) ∨
    ((literal a).bind (unValue f.op) = none ∧
      foldUn f a b c body list params = .mk f a b c body list params) := by
  unfold foldUn
  cases h : (literal a).bind (unValue f.op) with
  | none => exact Or.inr ⟨rfl, rfl⟩
  | some r =>
    obtain ⟨v, hv, hr⟩ := bind_eq_some_iff.mp h
    exact Or.inl ⟨v, r, hv, hr, rfl⟩

theorem foldTernary_cases (f : Fields) (a b c body : Node) (list params : List Node) :
    (∃ v, literal a = some v ∧
      foldTernary f a b c body list params = if v ≠ 0 then b else c) ∨
    (((literal a).bind fun v => literal (if v ≠ 0 then b else c)) = none ∧
      foldTernary f a b c body list params = .mk f a b c body list params) := by
  unfold foldTernary
  cases literal a with
  | none => exact Or.inr ⟨rfl, rfl⟩
  | some v =>
    simp only [elim_some, bind_some]
    cases hchosen : if v ≠ 0 then b else c with
    | null => exact Or.inr ⟨rfl, rfl⟩
    | mk f' a' b' c' body' list' params' => exact Or.inl ⟨v, rfl, hchosen.symm⟩

theorem literal_foldHere {a₀ b₀ c₀ body₀ : Node} {list₀ params₀ : List Node}
    (ha : literal a = constOf a₀) (hb : literal b = constOf b₀) (hc : literal c = constOf c₀)
    (h : foldHere f a b c body list params = some t') :
    literal t' = constOf (.mk f a₀ b₀ c₀ body₀ list₀ params₀) := by
  rw [constOf, ← ha, ← hb, ← hc]
  unfold foldHere at h
  by_cases hnum : f.kind = .num
  · rw [hnum, if_neg (by decide), if_neg (by decide), if_neg (by decide)] at h
    rw [if_pos hnum, ← Option.some.inj h]
    exact if_pos hnum
  rw [if_neg hnum]
  by_cases hun : f.kind = .un
  · rw [if_pos hun] at h ⊢
    cases h
    rcases foldUn_cases f a b c body list params with ⟨v, r, hv, hr, he⟩ | ⟨hnone, he⟩
    · rw [he, literal_num, hv, bind_some, hr]
    · rw [he, hnone, literal_of_kind hnum]
  rw [if_neg hun] at h ⊢
  by_cases hbin : f.kind = .bin
  · rw [if_pos hbin] at h ⊢
    rcases foldBin_cases f a b c body list params with
      ⟨x, y, r, hx, hy, hr, he⟩ | ⟨-, he⟩ | ⟨hnone, -, he⟩
    · rw [he] at h
      rw [← Option.some.inj h, literal_num, hx, hy, bind_some, bind_some, hr]
    · rw [he] at h
      cases h
    · rw [he] at h
      rw [← Option.some.inj h, literal_of_kind hnum, hnone]
  rw [if_neg hbin] at h ⊢
  by_cases hcond : f.kind = .ternary
  · rw [if_pos hcond] at h ⊢
    cases h
    rcases foldTernary_cases f a b c body list params with ⟨v, hv, he⟩ | ⟨hnone, he⟩
    · rw [he, hv, bind_some]
      split <;> rfl
    · rw [he, literal_of_kind hnum, ← hnone]
      congr 1
      funext v
      split <;> rfl
  · rw [if_neg hcond] at h ⊢
    rw [← Option.some.inj h, literal_of_kind hnum]

theorem foldHere_here {D : Type} (m : Meaning D)
    (h : foldHere f a b c body list params = some t') :
    m.of t' = m.here f (m.of a) (m.of b) (m.of c) (m.of body) (m.ofAll list) (m.ofAll params) := by
  have hsame : m.of (.mk f a b c body list params) =
    m.here f (m.of a) (m.of b) (m.of c) (m.of body) (m.ofAll list) (m.ofAll params) := rfl
  have hlit {t : Node} {v : Int32} (hv : literal t = some v) : m.of t = m.num v := by
    cases t with
    | null => cases hv
    | mk f a b c body list params =>
      by_cases hk : f.kind = .num
      · rw [literal, if_pos hk] at hv
        rw [← Option.some.inj hv]
        exact if_pos hk
      · rw [literal_of_kind hk] at hv
        cases hv
  unfold foldHere at h
  by_cases hun : f.kind = .un
  · rw [if_pos hun] at h
    rw [← Option.some.inj h]
    rcases foldUn_cases f a b c body list params with ⟨v, r, hv, hr, he⟩ | ⟨-, he⟩
    · rw [he, hlit (literal_num f r .null b c body list params), Meaning.here, hun,
        if_neg (by decide), if_pos rfl, hlit hv, m.un_num _ _ _ hr]
    · rw [he, hsame]
  rw [if_neg hun] at h
  by_cases hbin : f.kind = .bin
  · rw [if_pos hbin] at h
    rcases foldBin_cases f a b c body list params with
      ⟨x, y, r, hx, hy, hr, he⟩ | ⟨-, he⟩ | ⟨-, -, he⟩
    · rw [he] at h
      rw [← Option.some.inj h, hlit (literal_num f r .null .null c body list params),
        Meaning.here, hbin, if_neg (by decide), if_neg (by decide), if_pos rfl, hlit hx, hlit hy,
        m.bin_num _ _ _ _ hr]
    · rw [he] at h
      cases h
    · rw [he] at h
      rw [← Option.some.inj h, hsame]
  rw [if_neg hbin] at h
  by_cases hcond : f.kind = .ternary
  · rw [if_pos hcond] at h
    rw [← Option.some.inj h]
    rcases foldTernary_cases f a b c body list params with ⟨v, hv, he⟩ | ⟨-, he⟩
    · rw [Meaning.here, hcond, if_neg (by decide), if_neg (by decide), if_neg (by decide),
        if_pos rfl, hlit hv, m.cond_num, he]
      split <;> rfl
    · rw [he, hsame]
  · rw [if_neg hcond] at h
    rw [← Option.some.inj h, hsame]

theorem foldHere_isSome_iff {a₀ b₀ c₀ body₀ : Node} {list₀ params₀ : List Node}
    (ha : literal a = constOf a₀) (hb : literal b = constOf b₀) :
    (foldHere f a b c body list params).isSome ↔
      ¬Unquotable (.mk f a₀ b₀ c₀ body₀ list₀ params₀) := by
  show _ ↔ ¬(f.kind = .bin ∧ isDivision f.op ∧
    ∃ x y, constOf a₀ = some x ∧ constOf b₀ = some y ∧ Overflows x y)
  rw [← ha, ← hb]
  unfold foldHere
  by_cases hbin : f.kind = .bin
  · rw [hbin, if_neg (by decide), if_pos rfl]
    rcases foldBin_cases f a b c body list params with
      ⟨x, y, r, hx, hy, hr, he⟩ | ⟨⟨x, y, hx, hy, hdiv, hover⟩, he⟩ | ⟨-, hno, he⟩
    · rw [he]
      refine iff_of_true rfl ?_
      rintro ⟨-, hdiv, x', y', hx', hy', hover⟩
      obtain rfl := Option.some.inj (hx.symm.trans hx')
      obtain rfl := Option.some.inj (hy.symm.trans hy')
      unfold binValue at hr
      rw [if_pos ⟨hdiv, Or.inr hover⟩] at hr
      cases hr
    · rw [he]
      exact iff_of_false nofun fun h => h ⟨rfl, hdiv, x, y, hx, hy, hover⟩
    · rw [he]
      refine iff_of_true rfl ?_
      rintro ⟨-, hdiv, x, y, hx, hy, hover⟩
      exact hno x y hx hy hdiv hover
  · refine iff_of_true ?_ fun h => hbin h.1
    rw [if_neg hbin]
    split
    · rfl
    · split <;> rfl

end Operands

/-! ## Whole trees -/

theorem foldNode_mk {f : Fields} {a b c body t' : Node} {list params : List Node}
    (h : foldNode (.mk f a b c body list params) = some t') :
    ∃ a' b' c' body' list' params', foldNode a = some a' ∧ foldNode b = some b' ∧
      foldNode c = some c' ∧ foldNode body = some body' ∧ foldNodes f.nList list = some list' ∧
      foldNodes params.length params = some params' ∧
      foldHere f a' b' c' body' list' params' = some t' := by
  rw [foldNode] at h
  simp only [bind_eq_bind, bind_eq_some_iff] at h
  obtain ⟨a', ha, b', hb, c', hc, body', hbody, list', hlist, params', hparams, h⟩ := h
  exact ⟨a', b', c', body', list', params', ha, hb, hc, hbody, hlist, hparams, h⟩

theorem literal_foldNode : (t : Node) → (t' : Node) → foldNode t = some t' →
    literal t' = constOf t
  | .null, t', h => by
    rw [foldNode] at h
    rw [← Option.some.inj h]
    rfl
  | .mk f a b c body list params, t', h => by
    obtain ⟨a', b', c', body', list', params', ha, hb, hc, -, -, -, h⟩ := foldNode_mk h
    exact literal_foldHere (literal_foldNode a a' ha) (literal_foldNode b b' hb)
      (literal_foldNode c c' hc) h

mutual
theorem foldNode_of {D : Type} (m : Meaning D) : (t : Node) → (t' : Node) →
    foldNode t = some t' → m.of t' = m.of t
  | .null, t', h => by
    rw [foldNode] at h
    rw [← Option.some.inj h]
  | .mk f a b c body list params, t', h => by
    obtain ⟨a', b', c', body', list', params', ha, hb, hc, hbody, hlist, hparams, h⟩ :=
      foldNode_mk h
    rw [foldHere_here m h, foldNode_of m a a' ha, foldNode_of m b b' hb, foldNode_of m c c' hc,
      foldNode_of m body body' hbody, foldNodes_of m f.nList list list' hlist,
      foldNodes_of m params.length params params' hparams]
    rfl

theorem foldNodes_of {D : Type} (m : Meaning D) : (n : Nat) → (ts : List Node) →
    (ts' : List Node) → foldNodes n ts = some ts' → m.ofAll ts' = m.ofAll ts
  | 0, ts, ts', h => by
    rw [foldNodes] at h
    rw [← Option.some.inj h]
  | n + 1, [], ts', h => by
    rw [foldNodes] at h
    cases h
  | n + 1, t :: ts, ts', h => by
    rw [foldNodes] at h
    simp only [bind_eq_bind, bind_eq_some_iff] at h
    obtain ⟨u, hu, us, hus, h⟩ := h
    rw [← Option.some.inj h, Meaning.ofAll, Meaning.ofAll, foldNode_of m t u hu,
      foldNodes_of m n ts us hus]
end

/-- Nothing is wrong with the node itself. -/
def Foldable (t : Node) : Prop := Listed t ∧ ¬Unquotable t

theorem bind_isSome {α β : Type} {o : Option α} {k : α → Option β} {P : Prop}
    (h : ∀ x, o = some x → ((k x).isSome ↔ P)) : (o >>= k).isSome ↔ o.isSome ∧ P := by
  cases o with
  | none => exact iff_of_false nofun fun h => nomatch h.1
  | some x => exact (h x rfl).trans (and_iff_right rfl).symm

mutual
theorem foldNode_isSome : (t : Node) → ((foldNode t).isSome ↔ t.everywhere Foldable)
  | .null => by
    rw [foldNode, Node.everywhere]
    exact iff_of_true rfl True.intro
  | .mk f a b c body list params => by
    have hstep : (foldNode (.mk f a b c body list params)).isSome ↔
        (foldNode a).isSome ∧ (foldNode b).isSome ∧ (foldNode c).isSome ∧
          (foldNode body).isSome ∧ (foldNodes f.nList list).isSome ∧
          (foldNodes params.length params).isSome ∧
          ¬Unquotable (.mk f a b c body list params) := by
      rw [foldNode]
      refine bind_isSome fun a' ha => bind_isSome fun b' hb => bind_isSome fun c' _ =>
        bind_isSome fun body' _ => bind_isSome fun list' _ => bind_isSome fun params' _ => ?_
      exact foldHere_isSome_iff (literal_foldNode a a' ha) (literal_foldNode b b' hb)
    rw [hstep, foldNode_isSome a, foldNode_isSome b, foldNode_isSome c, foldNode_isSome body,
      foldNodes_isSome f.nList list, foldNodes_isSome params.length params, Node.everywhere]
    have hlisted : Listed (.mk f a b c body list params) ↔ f.nList ≤ list.length := Iff.rfl
    have hle : params.length ≤ params.length := le_rfl
    unfold Foldable
    tauto

theorem foldNodes_isSome : (n : Nat) → (ts : List Node) →
    ((foldNodes n ts).isSome ↔ n ≤ ts.length ∧ everywhereIn Foldable n ts)
  | 0, ts => by
    rw [foldNodes, everywhereIn]
    exact iff_of_true rfl ⟨Nat.zero_le _, True.intro⟩
  | n + 1, [] => by
    rw [foldNodes]
    exact iff_of_false nofun fun h => absurd h.1 (Nat.not_succ_le_zero n)
  | n + 1, t :: ts => by
    have hstep : (foldNodes (n + 1) (t :: ts)).isSome ↔
        (foldNode t).isSome ∧ (foldNodes n ts).isSome ∧ True := by
      rw [foldNodes]
      exact bind_isSome fun t' _ => bind_isSome fun ts' _ => iff_of_true rfl True.intro
    rw [hstep, foldNode_isSome t, foldNodes_isSome n ts, everywhereIn, List.length_cons,
      Nat.succ_le_succ_iff]
    tauto
end

end AdventOS.Cc
