import AdventOS.Lua.Eval

/-!
# What a Lua closure captures

The language promises lexical scoping by value: a name of a function's body that is no
local of the body has the value it had where the function literal was evaluated, and the
innermost binding wins. The interpreter copies the locals in sight, oldest first, searches
the copies from the oldest on, and copies nothing that the enclosing function captured
itself.

* `resolve_eq_lexical_iff`: exactly when the search gives the lexically scoped value.
* `closure_capture`.
-/
namespace AdventOS.Lua
open Option List

variable {B W : Type}

/-! ## Scoping -/

/-- The innermost binding of a name. -/
def innermost (ls : List (Slot B)) (x : Bytes) : Option (Value B) :=
  (ls.reverse.find? fun p => p.1 = x).map Prod.snd

def oldest (ls : List (Slot B)) (x : Bytes) : Option (Value B) :=
  (ls.find? fun p => p.1 = x).map Prod.snd

/-- What the function that `e` hosts captured. -/
def captured (s : State B W) (e : Env B) : List (Slot B) := (hostUpvals s e).getD []

/-- The value of `x` for a function made in `e`, with the global `g`: the innermost local of
`e`, else the innermost captured value of the function of `e`, else the global. -/
def lexical (s : State B W) (e : Env B) (x : Bytes) (g : Value B) : Value B :=
  ((innermost e.locals x).or (innermost (captured s e) x)).getD g

/-- No shadowed local of `e` has another value than the innermost, and a name that `e` has
only from its own function has the value of the global. -/
def Plain (s : State B W) (e : Env B) (x : Bytes) (g : Value B) : Prop :=
  match innermost e.locals x with
  | some v => oldest e.locals x = some v
  | none => ∀ v ∈ innermost (captured s e) x, v = g

theorem localFind_eq_none {ls : List (Slot B)} {x : Bytes} (h : x ∉ ls.map Prod.fst) :
    localFind ls x = none := by
  induction ls with
  | nil => rfl
  | cons p ls ih =>
    rw [map_cons, mem_cons, not_or] at h
    rw [localFind, ih h.2]
    exact if_neg fun hp => h.1 hp.symm

theorem resolve_captured {e : Env B} {x : Bytes} (h : x ∉ e.locals.map Prod.fst)
    (up : List (Slot B)) (g : Value B) : resolve e up x g = (oldest up x).getD g := by
  unfold resolve oldest
  rw [localFind_eq_none h]
  cases up.find? fun p => p.1 = x <;> rfl

theorem oldest_isSome_iff (ls : List (Slot B)) (x : Bytes) :
    (oldest ls x).isSome = (innermost ls x).isSome := by
  unfold oldest innermost
  rw [isSome_map, isSome_map, Bool.eq_iff_iff, find?_isSome, find?_isSome]
  simp

/-- The first of the copies of the locals is the lexically scoped value. -/
theorem resolve_eq_lexical_iff (s : State B W) (e : Env B) (x : Bytes) (g : Value B) :
    (oldest e.locals x).getD g = lexical s e x g ↔ Plain s e x g := by
  have hsome := oldest_isSome_iff e.locals x
  unfold lexical Plain
  cases hi : innermost e.locals x with
  | some v =>
    rw [hi, isSome_some, isSome_iff_exists] at hsome
    obtain ⟨w, hw⟩ := hsome
    simp [hw]
  | none =>
    rw [hi, isSome_none, isSome_eq_false_iff, isNone_iff_eq_none] at hsome
    cases hc : innermost (captured s e) x with
    | none => simp [hsome]
    | some v => simp [hsome, eq_comm]

/-! ## Runs -/

/-- The history tells the truth: a function holds the locals of the place it was made in, and
a name looked up has the value that the order of `var_get` gives. -/
structure Recorded [DecidableEq B] (s : State B W) : Prop where
  made : ∀ f e, Event.create f e ∈ s.log → ∃ fn, s.funcs[f]? = some fn ∧ fn.upvals = e.locals
  looked : ∀ e x g v, Event.lookup e x g v ∈ s.log →
    ∃ up, hostUpvals s e = some up ∧ v = resolve e up x g

theorem hostUpvals_congr {s t : State B W} (h : s.funcs = t.funcs) (e : Env B) :
    hostUpvals s e = hostUpvals t e := by
  unfold hostUpvals
  rw [h]

section Runs

variable [DecidableEq B]

variable {s : State B W}

theorem Recorded.of_eq {t : State B W} (h : Recorded s) (hf : t.funcs = s.funcs)
    (hl : t.log = s.log) : Recorded t where
  made f e hm := by
    rw [hl] at hm
    rw [hf]
    exact h.made f e hm
  looked e x g v hm := by
    rw [hl] at hm
    rw [hostUpvals_congr hf]
    exact h.looked e x g v hm

theorem Recorded.funcs_append (h : Recorded s) (fn : Func B) :
    Recorded { s with funcs := s.funcs ++ [fn] } where
  made f e hm := by
    obtain ⟨fn', hget, hup⟩ := h.made f e hm
    exact ⟨fn', getElem?_append_left (List.getElem?_eq_some_iff.1 hget).1 ▸ hget, hup⟩
  looked e x g v hm := by
    obtain ⟨up, hhost, hv⟩ := h.looked e x g v hm
    refine ⟨up, ?_, hv⟩
    unfold hostUpvals at hhost ⊢
    cases hh : e.host with
    | none => rwa [hh] at hhost
    | some f =>
      rw [hh] at hhost
      obtain ⟨fn', hget, hup⟩ := map_eq_some_iff.1 hhost
      have hlt := (List.getElem?_eq_some_iff.1 hget).1
      change Option.map Func.upvals ((s.funcs ++ [fn])[f]?) = some up
      rw [getElem?_append_left hlt, hget, map_some, hup]

theorem Recorded.create (h : Recorded s) {f : Nat} {e : Env B} {k : Func B}
    (hget : s.funcs[f]? = some k) (hup : k.upvals = e.locals) :
    Recorded { s with log := s.log ++ [.create f e] } where
  made f' e' hm := by
    rcases mem_append.1 hm with hm | hm
    · exact h.made f' e' hm
    · obtain ⟨rfl, rfl⟩ : f' = f ∧ e' = e := by simpa using hm
      exact ⟨k, hget, hup⟩
  looked e' x g v hm := by
    refine h.looked e' x g v ?_
    rcases mem_append.1 hm with hm | hm
    · exact hm
    · simp at hm

theorem Recorded.lookup (h : Recorded s) {e : Env B} {up : List (Slot B)}
    (hhost : hostUpvals s e = some up) (x : Bytes) (g : Value B) :
    Recorded { s with log := s.log ++ [.lookup e x g (resolve e up x g)] } where
  made f e' hm := by
    refine h.made f e' ?_
    rcases mem_append.1 hm with hm | hm
    · exact hm
    · simp at hm
  looked e' x' g' v hm := by
    rcases mem_append.1 hm with hm | hm
    · exact h.looked e' x' g' v hm
    · obtain ⟨rfl, rfl, rfl, rfl⟩ : e' = e ∧ x' = x ∧ g' = g ∧ v = resolve e up x g := by
        simpa using hm
      exact ⟨up, hhost, rfl⟩

abbrev KeepsRecorded {A : Type} (m : M B W A) : Prop := Keeps Recorded m

/-! ## The primitives -/

theorem varGet_keeps (e : Env B) (x : Bytes) : KeepsRecorded (W := W) (varGet e x) := by
  refine Keeps.read fun s hs => ?_
  cases hup : hostUpvals s e with
  | none => exact hs
  | some up => exact hs.lookup hup x _

theorem makeFunc_keeps (e : Env B) (params : List Bytes) (body : Node Bytes) :
    KeepsRecorded (W := W) (makeFunc e params body) := by
  refine Keeps.read fun s hs => ?_
  refine (hs.funcs_append ⟨params, body, e.locals⟩).create (k := ⟨params, body, e.locals⟩) ?_ rfl
  exact getElem?_concat_length

theorem setTable_keeps (t : Nat) (f : Table B → Table B) : KeepsRecorded (W := W) (setTable t f) :=
  Keeps.modify fun _ hs => hs.of_eq rfl rfl

theorem varSet_keeps (e : Env B) (x : Bytes) (v : Value B) :
    KeepsRecorded (W := W) (varSet e x v) := by
  unfold varSet
  split
  · exact Keeps.pure _
  · exact (setTable_keeps _ _).bind fun _ => Keeps.pure _

theorem localDeclare_keeps (e : Env B) (x : Bytes) (v : Value B) :
    KeepsRecorded (W := W) (localDeclare e x v) :=
  Keeps.ite (Keeps.throw _) (Keeps.pure _)

theorem declareAll_keeps (e : Env B) (slots : List (Slot B)) :
    KeepsRecorded (W := W) (declareAll e slots) :=
  Keeps.foldlM (fun e p => localDeclare_keeps e p.1 p.2) slots e

theorem toNum_keeps (v : Value B) : KeepsRecorded (W := W) (toNum v) := by
  unfold toNum
  split
  · exact Keeps.pure _
  · split
    · exact Keeps.pure _
    · exact Keeps.throw _
  · exact Keeps.throw _

theorem arith_keeps (f : Int → Int → Int) (a b : Value B) : KeepsRecorded (W := W) (arith f a b) :=
  (toNum_keeps a).bind fun _ => (toNum_keeps b).bind fun _ => Keeps.pure _

theorem compare_keeps (f : Int → Int → Bool) (a b : Value B) :
    KeepsRecorded (W := W) (compare f a b) :=
  (toNum_keeps a).bind fun _ => (toNum_keeps b).bind fun _ => Keeps.pure _

theorem divide_keeps (z : LuaErr) (f : Int → Int → Int) (a b : Value B) :
    KeepsRecorded (W := W) (divide z f a b) :=
  (toNum_keeps b).bind fun _ => Keeps.ite (Keeps.throw _) <|
    (toNum_keeps a).bind fun _ => Keeps.ite (Keeps.throw _) (Keeps.pure _)

theorem evalBin_keeps (op : Sym) (a b : Value B) : KeepsRecorded (W := W) (evalBin op a b) := by
  unfold evalBin
  split
  case h_1 | h_2 | h_3 | h_6 => exact arith_keeps _ a b
  case h_4 | h_5 => exact divide_keeps _ _ a b
  case h_9 | h_10 | h_11 | h_12 => exact compare_keeps _ a b
  case h_7 | h_8 | h_13 => exact Keeps.pure _
  case h_14 => exact Keeps.throw _

theorem evalUn_keeps (op : Sym) (a : Value B) : KeepsRecorded (W := W) (evalUn op a) := by
  unfold evalUn
  split
  · exact (toNum_keeps a).bind fun _ => Keeps.pure _
  · exact Keeps.pure _
  · split
    · exact Keeps.pure _
    · exact Keeps.get.bind fun _ => Keeps.pure _
    · exact Keeps.throw _
  · exact Keeps.throw _

theorem run_keeps (lib : Lib B W) (b : B) (args : List (Value B)) :
    KeepsRecorded (lib.run b args) := by
  intro s hs
  unfold after Lib.run
  cases lib.call b args s.toStore <;> exact hs.of_eq rfl rfl

theorem assignIndex_keeps (err : LuaErr) (t k v : Value B) :
    KeepsRecorded (W := W) (assignIndex err t k v) := by
  unfold assignIndex
  split
  · exact setTable_keeps _ _
  · exact Keeps.throw _

/-! ## The walker -/

theorem evalPack_keeps {ev : Node Bytes → M B W (Value B)}
    {multi : Node Bytes → M B W (List (Value B))} (hev : ∀ a, KeepsRecorded (ev a))
    (hmulti : ∀ a, KeepsRecorded (multi a)) :
    ∀ (room : Nat) (list : List (Node Bytes)), KeepsRecorded (evalPack ev multi room list)
  | 0, _ => Keeps.pure _
  | _ + 1, [] => Keeps.pure _
  | _ + 1, [a] => (hmulti a).bind fun _ => Keeps.pure _
  | room + 1, a :: b :: as =>
    (hev a).bind fun _ => (evalPack_keeps hev hmulti room (b :: as)).bind fun _ => Keeps.pure _

theorem loop_keeps {round : Env B → M B W (Env B × Option (Flow B))}
    (h : ∀ e, KeepsRecorded (round e)) : ∀ (n : Nat) (e : Env B), KeepsRecorded (loop round n e)
  | 0, _ => Keeps.throw _
  | n + 1, e => (h e).bind fun r => by
    split
    · exact loop_keeps h n _
    · exact Keeps.pure _

theorem assignAll_keeps {ev : Env B → Node Bytes → M B W (Value B)}
    (hev : ∀ e a, KeepsRecorded (ev e a)) : ∀ (e : Env B) (targets : List (Node Bytes))
    (vs : List (Value B)), KeepsRecorded (assignAll ev e targets vs)
  | _, [], _ => Keeps.pure _
  | e, t :: ts, vs => by
    refine Keeps.bind ?_ fun e' => assignAll_keeps hev e' ts vs.tail
    unfold assignOne
    split
    · exact varSet_keeps _ _ _
    · exact (hev e _).bind fun _ => (hev e _).bind fun _ =>
        (assignIndex_keeps _ _ _ _).bind fun _ => Keeps.pure _
    · exact Keeps.throw _

/-- All the functions of the walker, at one fuel. -/
structure WalkerKeeps (lib : Lib B W) (n : Nat) : Prop where
  expr : ∀ e a, KeepsRecorded (evalExpr lib n e a)
  callMulti : ∀ e a args, KeepsRecorded (evalCallMulti lib n e a args)
  called : ∀ err f args, KeepsRecorded (callValue lib n err f args)
  pcall : ∀ f args, KeepsRecorded (protect lib n f args)
  multi : ∀ e a, KeepsRecorded (evalMulti lib n e a)
  block : ∀ e list, KeepsRecorded (evalBlock lib n e list)
  stmts : ∀ e list, KeepsRecorded (evalStmts lib n e list)
  stmt : ∀ e s, KeepsRecorded (evalStmt lib n e s)
  arms : ∀ e arms otherwise, KeepsRecorded (evalArms lib n e arms otherwise)
  forGen : ∀ k slot0 iter state ctrl e body,
    KeepsRecorded (forGenLoop lib n k slot0 iter state ctrl e body)

variable {lib : Lib B W} {n : Nat}

section
variable (h : WalkerKeeps lib n)
include h

theorem WalkerKeeps.pack (e : Env B) (room : Nat) (list : List (Node Bytes)) :
    KeepsRecorded (evalPack (evalExpr lib n e) (evalMulti lib n e) room list) :=
  evalPack_keeps (h.expr e) (h.multi e) room list

theorem WalkerKeeps.expr_succ (e : Env B) (a : Node Bytes) :
    KeepsRecorded (evalExpr lib (n + 1) e a) := by
  rw [evalExpr.eq_def]
  dsimp only
  split
  case h_1 | h_2 | h_3 | h_4 | h_5 => exact Keeps.pure _
  case h_6 => exact varGet_keeps _ _
  case h_7 | h_8 =>
    refine (h.expr e _).bind fun l => ?_
    first
    | exact Keeps.ite (h.expr e _) (Keeps.pure _)
    | exact Keeps.ite (Keeps.pure _) (h.expr e _)
  case h_9 =>
    refine Keeps.ite ?_ ?_
    · exact (h.expr e _).bind fun r => (h.expr e _).bind fun l => evalBin_keeps _ l r
    · exact (h.expr e _).bind fun l => (h.expr e _).bind fun r => evalBin_keeps _ l r
  case h_10 => exact (h.expr e _).bind fun v => evalUn_keeps _ v
  case h_11 =>
    refine (h.expr e _).bind fun t => (h.expr e _).bind fun k => ?_
    split
    · exact Keeps.get.bind fun _ => Keeps.pure _
    · exact Keeps.throw _
  case h_12 =>
    refine Keeps.get.bind fun s => Keeps.bind ?_ fun _ => Keeps.bind ?_ fun _ => Keeps.pure _
    · exact Keeps.modify fun _ hs => hs.of_eq rfl rfl
    · exact Keeps.foldlM (fun _ (p : Node Bytes × Node Bytes) => (h.expr e p.1).bind fun _ =>
        (h.expr e p.2).bind fun _ => setTable_keeps _ _) _ _
  case h_13 => exact makeFunc_keeps _ _ _
  case h_14 => exact (h.callMulti e _ _).bind fun _ => Keeps.pure _
  case h_15 => exact Keeps.throw _

theorem WalkerKeeps.callMulti_succ (e : Env B) (a : Node Bytes) (args : List (Node Bytes)) :
    KeepsRecorded (evalCallMulti lib (n + 1) e a args) := by
  rw [evalCallMulti.eq_def]
  refine (h.expr e a).bind fun callee => Keeps.ite (Keeps.throw _) ?_
  exact (Keeps.mapM (h.expr e) args).bind fun vs => h.called _ callee vs

theorem WalkerKeeps.called_succ (err : LuaErr) (callee : Value B) (args : List (Value B)) :
    KeepsRecorded (callValue lib (n + 1) err callee args) := by
  rw [callValue.eq_def]
  dsimp only
  split
  · exact run_keeps _ _ _
  · split
    · exact h.pcall _ _
    · exact h.pcall _ _
    · exact Keeps.pure _
  · refine Keeps.get.bind fun s => ?_
    split
    · exact Keeps.throw _
    · refine (declareAll_keeps _ _).bind fun child => (h.block child _).bind fun r => ?_
      split
      · exact Keeps.pure _
      · exact Keeps.pure _
  · exact Keeps.throw _

theorem WalkerKeeps.pcall_succ (f : Value B) (args : List (Value B)) :
    KeepsRecorded (protect lib (n + 1) f args) := by
  have herr (g : State B W → Option Bytes) :
      KeepsRecorded (W := W) (modify fun s => { s with lastError := g s } : M B W PUnit) :=
    Keeps.modify fun _ hs => hs.of_eq rfl rfl
  rw [protect.eq_def]
  refine Keeps.tryCatch ?_ fun stop => ?_
  · exact (h.called _ f args).bind fun vs => (herr _).bind fun _ => Keeps.pure _
  · split
    · exact Keeps.get.bind fun s => (herr _).bind fun _ => Keeps.pure _
    · exact Keeps.throw _

theorem WalkerKeeps.multi_succ (e : Env B) (a : Node Bytes) :
    KeepsRecorded (evalMulti lib (n + 1) e a) := by
  rw [evalMulti.eq_def]
  dsimp only
  split
  · exact h.callMulti e _ _
  · exact (h.expr e _).bind fun _ => Keeps.pure _

theorem WalkerKeeps.block_succ (e : Env B) (list : List (Node Bytes)) :
    KeepsRecorded (evalBlock lib (n + 1) e list) := by
  rw [evalBlock.eq_def]
  exact (h.stmts e list).bind fun _ => Keeps.pure _

theorem WalkerKeeps.stmts_succ (e : Env B) (list : List (Node Bytes)) :
    KeepsRecorded (evalStmts lib (n + 1) e list) := by
  rw [evalStmts.eq_def]
  dsimp only
  split
  · exact Keeps.pure _
  · refine (h.stmt e _).bind fun r => ?_
    split
    · exact h.stmts _ _
    · exact Keeps.pure _

theorem WalkerKeeps.arms_succ (e : Env B) (arms : List (Node Bytes × Node Bytes))
    (otherwise : Option (Node Bytes)) : KeepsRecorded (evalArms lib (n + 1) e arms otherwise) := by
  rw [evalArms.eq_def]
  dsimp only
  split
  · split
    · exact h.block e _
    · exact Keeps.pure _
  · exact (h.expr e _).bind fun _ => Keeps.ite (h.block e _) (h.arms e _ _)

theorem WalkerKeeps.forGen_succ (k slot0 : Nat) (iter state ctrl : Value B) (e : Env B)
    (body : List (Node Bytes)) :
    KeepsRecorded (forGenLoop lib (n + 1) k slot0 iter state ctrl e body) := by
  rw [forGenLoop.eq_def]
  refine (h.called _ iter _).bind fun out => Keeps.ite (Keeps.pure _) ?_
  refine (h.block _ _).bind fun r => ?_
  split
  · exact Keeps.pure _
  · exact h.forGen _ _ _ _ _ _ _

theorem WalkerKeeps.stmt_succ (e : Env B) (s : Node Bytes) :
    KeepsRecorded (evalStmt lib (n + 1) e s) := by
  rw [evalStmt.eq_def]
  dsimp only
  split
  case h_1 =>
    exact (h.expr e _).bind fun _ => (localDeclare_keeps _ _ _).bind fun _ => Keeps.pure _
  case h_2 =>
    exact (h.pack e _ _).bind fun _ => (declareAll_keeps _ _).bind fun _ => Keeps.pure _
  case h_3 =>
    exact (h.pack e _ _).bind fun _ => (assignAll_keeps h.expr _ _ _).bind fun _ => Keeps.pure _
  case h_4 =>
    exact (h.pack e _ _).bind fun _ => (declareAll_keeps _ _).bind fun _ =>
      (h.forGen _ _ _ _ _ _ _).bind fun _ => Keeps.pure _
  case h_5 =>
    refine (h.expr e _).bind fun v => ?_
    split
    · exact (h.expr e _).bind fun _ => (h.expr e _).bind fun _ =>
        (assignIndex_keeps _ _ _ _).bind fun _ => Keeps.pure _
    · exact Keeps.throw _
    · exact (varSet_keeps _ _ _).bind fun _ => Keeps.pure _
  case h_6 => exact h.arms e _ _
  case h_7 =>
    refine loop_keeps (fun e => (h.expr e _).bind fun c => Keeps.ite ?_ (Keeps.pure _)) n e
    exact (h.block e _).bind fun _ => Keeps.pure _
  case h_8 =>
    have hnum (a : Node Bytes) : KeepsRecorded (evalExpr lib n e a >>= toNum) :=
      (h.expr e a).bind fun v => toNum_keeps v
    refine (hnum _).bind fun start => (hnum _).bind fun stop => Keeps.bind ?_ fun step => ?_
    · unfold forStep
      split
      · exact hnum _
      · exact Keeps.pure _
    refine (localDeclare_keeps _ _ _).bind fun e => Keeps.bind ?_ fun _ => Keeps.pure _
    refine loop_keeps (fun e => Keeps.get.bind fun s => Keeps.ite ?_ (Keeps.pure _)) n e
    refine (h.block e _).bind fun r => ?_
    split
    · exact Keeps.pure _
    · exact Keeps.get.bind fun _ => Keeps.pure _
  case h_9 => exact (h.pack e _ _).bind fun _ => Keeps.pure _
  case h_10 => exact Keeps.pure _
  case h_11 => exact (h.expr e _).bind fun _ => Keeps.pure _
  case h_12 => exact h.block e _
  case h_13 => exact Keeps.throw _

end
theorem walkerKeeps (lib : Lib B W) (n : Nat) : WalkerKeeps lib n := by
  induction n with
  | zero =>
    constructor
    all_goals intros
    all_goals exact Keeps.throw _
  | succ n ih =>
    exact {
      expr := ih.expr_succ
      callMulti := ih.callMulti_succ
      called := ih.called_succ
      pcall := ih.pcall_succ
      multi := ih.multi_succ
      block := ih.block_succ
      stmts := ih.stmts_succ
      stmt := ih.stmt_succ
      arms := ih.arms_succ
      forGen := ih.forGen_succ }

theorem session_recorded (lib : Lib B W) (fuel : Nat) (progs : List (Node Bytes))
    (h : Recorded s) : Recorded (session lib fuel progs s) := by
  induction progs generalizing s with
  | nil => exact h
  | cons prog progs ih =>
    have hrun : KeepsRecorded (runSource lib fuel prog) :=
      ((walkerKeeps lib fuel).block _ _).bind fun _ => Keeps.pure _
    have hs := hrun s h
    unfold after at hs
    rw [session]
    split
    · rename_i t heq
      rw [heq] at hs
      exact ih hs
    · rename_i err t heq
      rw [heq] at hs
      exact ih hs
    · rename_i err t hne heq
      rw [heq] at hs
      exact hs

def start (store : Store B W) : State B W := { store with funcs := [], log := [] }

/-- In a session of any programs, for any function made by a literal in `E` and
any name its body looks up that is no local of the body: the value found is the lexically
scoped one exactly if the name is plain in `E`. -/
theorem closure_capture (lib : Lib B W) (fuel : Nat) (progs : List (Node Bytes))
    (store : Store B W) (f : Nat) (E : Env B)
    (hmade : Event.create f E ∈ (session lib fuel progs (start store)).log)
    (e : Env B) (x : Bytes) (g v : Value B)
    (hlook : Event.lookup e x g v ∈ (session lib fuel progs (start store)).log)
    (hhost : e.host = some f) (hx : x ∉ e.locals.map Prod.fst) :
    v = lexical (session lib fuel progs (start store)) E x g ↔
      Plain (session lib fuel progs (start store)) E x g := by
  have hrec : Recorded (session lib fuel progs (start store)) :=
    session_recorded lib fuel progs
      ⟨fun _ _ h => absurd h not_mem_nil, fun _ _ _ _ h => absurd h not_mem_nil⟩
  obtain ⟨fn, hget, hup⟩ := hrec.made f E hmade
  obtain ⟨up, hcap, hv⟩ := hrec.looked e x g v hlook
  unfold hostUpvals at hcap
  rw [hhost] at hcap
  simp only [hget, map_some, Option.some.injEq] at hcap
  rw [hv, resolve_captured hx, ← hcap, hup]
  exact resolve_eq_lexical_iff _ E x g

end Runs

/-! ## Two sessions -/

/-- No builtin, and no error that a program could look at. -/
def bareLib : Lib Empty Unit where
  call b := b.elim
  errText _ _ := []
  bits _ _ := 0
  rightFirst := false

def nameX : Bytes := word ['x']

/-- `local x = m  local x = n  local f = function() return x end  f()` -/
def shadowing (m n : Int) : Node Bytes :=
  .block [.local [nameX] [.num m], .local [nameX] [.num n],
    .local [word ['f']] [.func [] (.block [.return [.name nameX]])],
    .exprStmt (.call (.name (word ['f'])) [])]

/-- The session of that program, with empty globals. -/
def shadowed (m n : Int) : State Empty Unit :=
  session bareLib 20 [shadowing m n] (start ⟨[[]], none, ()⟩)

/-- Where the literal is evaluated. -/
def shadowEnv (m n : Int) : Env Empty := ⟨[(nameX, .num m), (nameX, .num n)], none⟩

/-- A local declared again with the value it had. -/
theorem closure_capture_again : (.num 1 = lexical (shadowed 1 1) (shadowEnv 1 1) nameX .nil) ↔
      Plain (shadowed 1 1) (shadowEnv 1 1) nameX .nil :=
  closure_capture bareLib 20 [shadowing 1 1] ⟨[[]], none, ()⟩ 0 (shadowEnv 1 1)
    (by decide +kernel) ⟨[], some 0⟩ nameX .nil (.num 1) (by decide +kernel) rfl
    not_mem_nil

/-- The body finds the first `x`, the innermost is the second. -/
theorem closure_capture_shadowed :
    ¬ ∀ (fuel : Nat) (progs : List (Node Bytes)) (store : Store Empty Unit) (f : Nat)
      (E e : Env Empty) (x : Bytes) (g v : Value Empty),
      Event.create f E ∈ (session bareLib fuel progs (start store)).log →
      Event.lookup e x g v ∈ (session bareLib fuel progs (start store)).log →
      e.host = some f → x ∉ e.locals.map Prod.fst →
      v = lexical (session bareLib fuel progs (start store)) E x g := by
  intro h
  have hv := h 20 [shadowing 1 2] ⟨[[]], none, ()⟩ 0 (shadowEnv 1 2) ⟨[], some 0⟩ nameX .nil
    (.num 1) (by decide +kernel) (by decide +kernel) rfl not_mem_nil
  exact absurd hv (by decide +kernel)

end AdventOS.Lua
