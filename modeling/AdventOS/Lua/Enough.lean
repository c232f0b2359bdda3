import AdventOS.Core.Enough
import AdventOS.Lua.Eval

/-!
# Enough fuel for the evaluator

With more fuel a run of the evaluator goes on where it stopped for want of fuel, and is the
same otherwise (`walkerBelow`). So what a block does does not depend on a fuel: `Ends` says
that it comes to its end, and how, and `Ends.unique` that there is one end at most. A block
leaves the locals it has found, and no others (`Ends.length_eq`).
-/
namespace AdventOS.Lua
open List

variable {B W : Type}

/-- More fuel for a program of the evaluator. -/
abbrev Longer {A : Type} (m m' : M B W A) : Prop := Below Stop.fuel m m'

theorem evalPack_longer {ev ev' : Node Bytes → M B W (Value B)}
    {multi multi' : Node Bytes → M B W (List (Value B))} (hev : ∀ a, Longer (ev a) (ev' a))
    (hmulti : ∀ a, Longer (multi a) (multi' a)) :
    ∀ (room : Nat) (list : List (Node Bytes)),
      Longer (evalPack ev multi room list) (evalPack ev' multi' room list)
  | 0, _ => Below.refl _
  | _ + 1, [] => Below.refl _
  | _ + 1, [a] => (hmulti a).bind fun _ => Below.refl _
  | room + 1, a :: b :: as => (hev a).bind fun _ =>
      (evalPack_longer hev hmulti room (b :: as)).bind fun _ => Below.refl _

theorem loop_longer {round round' : Env B → M B W (Env B × Option (Flow B))}
    (h : ∀ e, Longer (round e) (round' e)) :
    ∀ (n : Nat) (e : Env B), Longer (loop round n e) (loop round' (n + 1) e)
  | 0, _ => Below.throw _
  | n + 1, e => by
    refine (h e).bind fun r => ?_
    split
    · exact loop_longer h n _
    · exact Below.refl _

section Walker

variable [DecidableEq B]

theorem assignAll_longer {ev ev' : Env B → Node Bytes → M B W (Value B)}
    (hev : ∀ e a, Longer (ev e a) (ev' e a)) :
    ∀ (e : Env B) (ts : List (Node Bytes)) (vs : List (Value B)),
      Longer (assignAll ev e ts vs) (assignAll ev' e ts vs)
  | _, [], _ => Below.refl _
  | e, t :: ts, vs => by
    refine Below.bind ?_ fun e => assignAll_longer hev e ts _
    unfold assignOne
    split
    · exact Below.refl _
    · exact (hev e _).bind fun _ => (hev e _).bind fun _ => Below.refl _
    · exact Below.refl _

/-- All the functions of the walker, at one fuel and at the next. -/
structure WalkerBelow (lib : Lib B W) (n : Nat) : Prop where
  expr : ∀ e a, Longer (evalExpr lib n e a) (evalExpr lib (n + 1) e a)
  callMulti : ∀ e a args, Longer (evalCallMulti lib n e a args) (evalCallMulti lib (n + 1) e a args)
  called : ∀ err f args, Longer (callValue lib n err f args) (callValue lib (n + 1) err f args)
  pcall : ∀ f args, Longer (protect lib n f args) (protect lib (n + 1) f args)
  multi : ∀ e a, Longer (evalMulti lib n e a) (evalMulti lib (n + 1) e a)
  block : ∀ e list, Longer (evalBlock lib n e list) (evalBlock lib (n + 1) e list)
  stmts : ∀ e list, Longer (evalStmts lib n e list) (evalStmts lib (n + 1) e list)
  stmt : ∀ e s, Longer (evalStmt lib n e s) (evalStmt lib (n + 1) e s)
  arms : ∀ e arms otherwise,
    Longer (evalArms lib n e arms otherwise) (evalArms lib (n + 1) e arms otherwise)
  forGen : ∀ k slot0 iter state ctrl e body,
    Longer (forGenLoop lib n k slot0 iter state ctrl e body)
      (forGenLoop lib (n + 1) k slot0 iter state ctrl e body)

variable {lib : Lib B W} {n : Nat}

section
variable (h : WalkerBelow lib n)
include h

theorem WalkerBelow.pack (e : Env B) (room : Nat) (list : List (Node Bytes)) :
    Longer (evalPack (evalExpr lib n e) (evalMulti lib n e) room list)
      (evalPack (evalExpr lib (n + 1) e) (evalMulti lib (n + 1) e) room list) :=
  evalPack_longer (h.expr e) (h.multi e) room list

theorem WalkerBelow.expr_succ (e : Env B) (a : Node Bytes) :
    Longer (evalExpr lib (n + 1) e a) (evalExpr lib (n + 1 + 1) e a) := by
  rw [evalExpr.eq_def lib (n + 1), evalExpr.eq_def lib (n + 1 + 1)]
  dsimp only
  split
  case h_1 | h_2 | h_3 | h_4 | h_5 | h_6 => exact Below.refl _
  case h_7 | h_8 =>
    refine (h.expr e _).bind fun l => ?_
    first
    | exact Below.ite (h.expr e _) (Below.refl _)
    | exact Below.ite (Below.refl _) (h.expr e _)
  case h_9 =>
    refine Below.ite ?_ ?_
    · exact (h.expr e _).bind fun r => (h.expr e _).bind fun l => Below.refl _
    · exact (h.expr e _).bind fun l => (h.expr e _).bind fun r => Below.refl _
  case h_10 => exact (h.expr e _).bind fun v => Below.refl _
  case h_11 =>
    refine (h.expr e _).bind fun t => (h.expr e _).bind fun k => Below.refl _
  case h_12 =>
    refine (Below.refl _).bind fun s => (Below.refl _).bind fun _ => Below.bind ?_ fun _ =>
      Below.refl _
    exact Below.foldlM (fun _ (p : Node Bytes × Node Bytes) => (h.expr e p.1).bind fun _ =>
        (h.expr e p.2).bind fun _ => Below.refl _) _ _
  case h_13 => exact Below.refl _
  case h_14 => exact (h.callMulti e _ _).bind fun _ => Below.refl _
  case h_15 => exact Below.refl _

theorem WalkerBelow.callMulti_succ (e : Env B) (a : Node Bytes) (args : List (Node Bytes)) :
    Longer (evalCallMulti lib (n + 1) e a args) (evalCallMulti lib (n + 1 + 1) e a args) := by
  rw [evalCallMulti.eq_def lib (n + 1), evalCallMulti.eq_def lib (n + 1 + 1)]
  refine (h.expr e a).bind fun callee => Below.ite (Below.refl _) ?_
  exact (Below.mapM (h.expr e) args).bind fun vs => h.called _ callee vs

theorem WalkerBelow.called_succ (err : LuaErr) (callee : Value B) (args : List (Value B)) :
    Longer (callValue lib (n + 1) err callee args) (callValue lib (n + 1 + 1) err callee args) := by
  rw [callValue.eq_def lib (n + 1), callValue.eq_def lib (n + 1 + 1)]
  dsimp only
  split
  · exact Below.refl _
  · split
    · exact h.pcall _ _
    · exact h.pcall _ _
    · exact Below.refl _
  · refine (Below.refl _).bind fun s => ?_
    split
    · exact Below.refl _
    · exact (Below.refl _).bind fun child => (h.block child _).bind fun r => Below.refl _
  · exact Below.refl _

theorem WalkerBelow.pcall_succ (f : Value B) (args : List (Value B)) :
    Longer (protect lib (n + 1) f args) (protect lib (n + 1 + 1) f args) := by
  rw [protect.eq_def lib (n + 1), protect.eq_def lib (n + 1 + 1)]
  refine Below.tryCatch ?_ fun s => rfl
  exact (h.called _ f args).bind fun vs => Below.refl _

theorem WalkerBelow.multi_succ (e : Env B) (a : Node Bytes) :
    Longer (evalMulti lib (n + 1) e a) (evalMulti lib (n + 1 + 1) e a) := by
  rw [evalMulti.eq_def lib (n + 1), evalMulti.eq_def lib (n + 1 + 1)]
  dsimp only
  split
  · exact h.callMulti e _ _
  · exact (h.expr e _).bind fun _ => Below.refl _

theorem WalkerBelow.block_succ (e : Env B) (list : List (Node Bytes)) :
    Longer (evalBlock lib (n + 1) e list) (evalBlock lib (n + 1 + 1) e list) := by
  rw [evalBlock.eq_def lib (n + 1), evalBlock.eq_def lib (n + 1 + 1)]
  exact (h.stmts e list).bind fun _ => Below.refl _

theorem WalkerBelow.stmts_succ (e : Env B) (list : List (Node Bytes)) :
    Longer (evalStmts lib (n + 1) e list) (evalStmts lib (n + 1 + 1) e list) := by
  rw [evalStmts.eq_def lib (n + 1), evalStmts.eq_def lib (n + 1 + 1)]
  dsimp only
  split
  · exact Below.refl _
  · refine (h.stmt e _).bind fun r => ?_
    split
    · exact h.stmts _ _
    · exact Below.refl _

theorem WalkerBelow.arms_succ (e : Env B) (arms : List (Node Bytes × Node Bytes))
    (otherwise : Option (Node Bytes)) :
    Longer (evalArms lib (n + 1) e arms otherwise) (evalArms lib (n + 1 + 1) e arms otherwise) := by
  rw [evalArms.eq_def lib (n + 1), evalArms.eq_def lib (n + 1 + 1)]
  dsimp only
  split
  · split
    · exact h.block e _
    · exact Below.refl _
  · exact (h.expr e _).bind fun _ => Below.ite (h.block e _) (h.arms e _ _)

theorem WalkerBelow.forGen_succ (k slot0 : Nat) (iter state ctrl : Value B) (e : Env B)
    (body : List (Node Bytes)) :
    Longer (forGenLoop lib (n + 1) k slot0 iter state ctrl e body)
      (forGenLoop lib (n + 1 + 1) k slot0 iter state ctrl e body) := by
  rw [forGenLoop.eq_def lib (n + 1), forGenLoop.eq_def lib (n + 1 + 1)]
  refine (h.called _ iter _).bind fun out => Below.ite (Below.refl _) ?_
  refine (h.block _ _).bind fun r => ?_
  split
  · exact Below.refl _
  · exact h.forGen _ _ _ _ _ _ _

theorem WalkerBelow.stmt_succ (e : Env B) (s : Node Bytes) :
    Longer (evalStmt lib (n + 1) e s) (evalStmt lib (n + 1 + 1) e s) := by
  have hnum (a : Node Bytes) :
      Longer (evalExpr lib n e a >>= toNum) (evalExpr lib (n + 1) e a >>= toNum) :=
    (h.expr e a).bind fun v => Below.refl _
  rw [evalStmt.eq_def lib (n + 1), evalStmt.eq_def lib (n + 1 + 1)]
  dsimp only
  split
  case h_1 => exact (h.expr e _).bind fun _ => Below.refl _
  case h_2 => exact (h.pack e _ _).bind fun _ => Below.refl _
  case h_3 =>
    exact (h.pack e _ _).bind fun _ => (assignAll_longer h.expr _ _ _).bind fun _ => Below.refl _
  case h_4 =>
    exact (h.pack e _ _).bind fun _ => (Below.refl _).bind fun _ =>
      (h.forGen _ _ _ _ _ _ _).bind fun _ => Below.refl _
  case h_5 =>
    refine (h.expr e _).bind fun v => ?_
    split
    · exact (h.expr e _).bind fun _ => (h.expr e _).bind fun _ => Below.refl _
    · exact Below.refl _
    · exact Below.refl _
  case h_6 => exact h.arms e _ _
  case h_7 =>
    refine loop_longer (fun e => (h.expr e _).bind fun c => Below.ite ?_ (Below.refl _)) n e
    exact (h.block e _).bind fun _ => Below.refl _
  case h_8 =>
    refine (hnum _).bind fun start => (hnum _).bind fun stop => Below.bind ?_ fun step => ?_
    · unfold forStep
      split
      · exact hnum _
      · exact Below.refl _
    refine (Below.refl _).bind fun e => Below.bind ?_ fun _ => Below.refl _
    refine loop_longer (fun e => (Below.refl _).bind fun s => Below.ite ?_ (Below.refl _)) n e
    exact (h.block e _).bind fun r => Below.refl _
  case h_9 => exact (h.pack e _ _).bind fun _ => Below.refl _
  case h_10 => exact Below.refl _
  case h_11 => exact (h.expr e _).bind fun _ => Below.refl _
  case h_12 => exact h.block e _
  case h_13 => exact Below.refl _

end
theorem walkerBelow (lib : Lib B W) (n : Nat) : WalkerBelow lib n := by
  induction n with
  | zero =>
    constructor
    all_goals intros
    all_goals exact Below.throw _
  | succ n ih =>
    exact {
      expr := ih.expr_succ
      callMulti := ih.callMulti_succ
      called := ih.called_succ
      pcall := ih.pcall_succ
      multi := ih.multi_succ
      block := ih.block_succ
      stmts := ih.stmts_succ
      stmt := ih.stmt_succ
      arms := ih.arms_succ
      forGen := ih.forGen_succ }

end Walker

/-! ## Locals -/

/-- No slot of `e` goes. -/
def Grows (e e' : Env B) : Prop := e.locals.length ≤ e'.locals.length

theorem Grows.refl (e : Env B) : Grows e e := le_refl _

theorem Grows.trans {e e' e'' : Env B} (h : Grows e e') (h' : Grows e' e'') : Grows e e'' :=
  le_trans h h'

theorem localDeclare_grows (e : Env B) (x : Bytes) (v : Value B) :
    Returns (Grows e) (localDeclare (W := W) e x v) := by
  refine Returns.ite (Returns.throw _) (Returns.pure ?_)
  unfold Grows
  rw [length_append]
  exact Nat.le_add_right _ _

theorem declareAll_grows (e : Env B) (slots : List (Slot B)) :
    Returns (Grows e) (declareAll (W := W) e slots) :=
  Returns.foldlM (P := Grows e)
    (fun e' p h => (localDeclare_grows e' p.1 p.2).mono fun _ h' => h.trans h') slots e
    (Grows.refl e)

theorem loop_grows {round : Env B → M B W (Env B × Option (Flow B))}
    (h : ∀ e, Returns (fun r => Grows e r.1) (round e)) :
    ∀ (n : Nat) (e : Env B), Returns (fun r => Grows e r.1) (loop round n e)
  | 0, _ => Returns.throw _
  | n + 1, e => by
    refine (h e).bind fun r hr => ?_
    split
    · exact (loop_grows h n _).mono fun _ h' => hr.trans h'
    · exact Returns.pure hr

theorem grows_take {e e' : Env B} (h : Grows e e') :
    Grows e { e' with locals := e'.locals.take e.locals.length } := by
  unfold Grows at h ⊢
  rw [length_take]
  omega

theorem bindVars_length (ls : List (Slot B)) (i : Nat) (vs : List (Value B)) (k : Nat) :
    (bindVars ls i vs k).length = ls.length := by
  induction k generalizing ls i vs with
  | zero => rfl
  | succ k ih =>
    rw [bindVars, ih, length_modify]

section Walker

variable [DecidableEq B] {lib : Lib B W} {n : Nat}

theorem varSet_grows (e : Env B) (x : Bytes) (v : Value B) :
    Returns (Grows e) (varSet (W := W) e x v) := by
  unfold varSet
  split
  · refine Returns.pure ?_
    unfold Grows
    rw [length_modify]
  · exact Returns.after fun _ => Returns.pure (Grows.refl e)

theorem assignAll_grows (ev : Env B → Node Bytes → M B W (Value B)) :
    ∀ (e : Env B) (ts : List (Node Bytes)) (vs : List (Value B)),
      Returns (Grows e) (assignAll ev e ts vs)
  | e, [], _ => Returns.pure (Grows.refl e)
  | e, t :: ts, vs => by
    refine Returns.bind (Q := Grows e) ?_ fun e' h =>
      (assignAll_grows ev e' ts _).mono fun _ h' => h.trans h'
    unfold assignOne
    split
    · exact varSet_grows _ _ _
    · exact Returns.after fun _ => Returns.after fun _ => Returns.after fun _ =>
        Returns.pure (Grows.refl e)
    · exact Returns.throw _

/-- The functions of the walker that return an environment, at one fuel. -/
structure WalkerGrows (lib : Lib B W) (n : Nat) : Prop where
  block : ∀ e list, Returns (fun r => r.1.locals.length = e.locals.length) (evalBlock lib n e list)
  stmts : ∀ e list, Returns (fun r => Grows e r.1) (evalStmts lib n e list)
  stmt : ∀ e s, Returns (fun r => Grows e r.1) (evalStmt lib n e s)
  arms : ∀ e arms otherwise, Returns (fun r => Grows e r.1) (evalArms lib n e arms otherwise)
  forGen : ∀ k slot0 iter state ctrl e body,
    Returns (fun r => Grows e r.1) (forGenLoop lib n k slot0 iter state ctrl e body)

theorem WalkerGrows.inner (h : WalkerGrows lib n) (e : Env B) (list : List (Node Bytes)) :
    Returns (fun r => Grows e r.1) (evalBlock lib n e list) :=
  (h.block e list).mono fun _ hr => le_of_eq hr.symm

theorem WalkerGrows.stmt_succ (h : WalkerGrows lib n) (e : Env B) (s : Node Bytes) :
    Returns (fun r => Grows e r.1) (evalStmt lib (n + 1) e s) := by
  rw [evalStmt.eq_def]
  dsimp only
  split
  case h_1 =>
    exact Returns.after fun _ => (localDeclare_grows _ _ _).bind fun _ h => Returns.pure h
  case h_2 => exact Returns.after fun _ => (declareAll_grows _ _).bind fun _ h => Returns.pure h
  case h_3 =>
    exact Returns.after fun _ => (assignAll_grows _ _ _ _).bind fun _ h => Returns.pure h
  case h_4 =>
    exact Returns.after fun _ => (declareAll_grows _ _).bind fun e' h' =>
      (h.forGen _ _ _ _ _ e' _).bind fun r hr => Returns.pure (grows_take (h'.trans hr))
  case h_5 =>
    refine Returns.after fun v => ?_
    split
    · exact Returns.after fun _ => Returns.after fun _ => Returns.after fun _ =>
        Returns.pure (Grows.refl e)
    · exact Returns.throw _
    · exact (varSet_grows _ _ _).bind fun _ h => Returns.pure h
  case h_6 => exact h.arms e _ _
  case h_7 =>
    refine loop_grows (fun e => Returns.after fun c => Returns.ite ?_ ?_) n e
    · exact (h.inner e _).bind fun _ hr => Returns.pure hr
    · exact Returns.pure (Grows.refl e)
  case h_8 =>
    refine Returns.after fun start => Returns.after fun stop => Returns.after fun step => ?_
    refine (localDeclare_grows _ _ _).bind fun e' h' => Returns.bind (Q := fun r => Grows e' r.1)
      ?_ fun r hr => Returns.pure (grows_take (h'.trans hr))
    refine loop_grows (fun e => Returns.after fun s => Returns.ite ?_ ?_) n e'
    · refine (h.inner e _).bind fun r hr => ?_
      split
      · exact Returns.pure hr
      · refine Returns.after fun _ => Returns.pure (hr.trans ?_)
        unfold Grows
        rw [length_modify]
    · exact Returns.pure (Grows.refl e)
  case h_9 => exact Returns.after fun _ => Returns.pure (Grows.refl e)
  case h_10 => exact Returns.pure (Grows.refl e)
  case h_11 => exact Returns.after fun _ => Returns.pure (Grows.refl e)
  case h_12 => exact h.inner e _
  case h_13 => exact Returns.throw _

theorem walkerGrows (lib : Lib B W) (n : Nat) : WalkerGrows lib n := by
  induction n with
  | zero =>
    constructor
    all_goals intros
    all_goals exact Returns.throw _
  | succ n h =>
    refine ⟨fun e list => ?_, fun e list => ?_, h.stmt_succ, fun e arms otherwise => ?_,
      fun k slot0 iter state ctrl e body => ?_⟩
    · rw [evalBlock.eq_def]
      refine (h.stmts e list).bind fun r hr => Returns.pure ?_
      rw [length_take]
      exact min_eq_left hr
    · rw [evalStmts.eq_def]
      dsimp only
      split
      · exact Returns.pure (Grows.refl e)
      · refine (h.stmt e _).bind fun r hr => ?_
        split
        · exact (h.stmts _ _).mono fun _ h' => hr.trans h'
        · exact Returns.pure hr
    · rw [evalArms.eq_def]
      dsimp only
      split
      · split
        · exact h.inner e _
        · exact Returns.pure (Grows.refl e)
      · exact Returns.after fun _ => Returns.ite (h.inner e _) (h.arms e _ _)
    · rw [forGenLoop.eq_def]
      refine Returns.after fun out => Returns.ite (Returns.pure (Grows.refl e)) ?_
      refine (h.inner _ _).bind fun r hr => ?_
      have hr' : Grows e r.1 := by
        unfold Grows at hr ⊢
        rwa [bindVars_length] at hr
      split
      · exact Returns.pure hr'
      · exact (h.forGen _ _ _ _ _ _ _).mono fun _ h' => hr'.trans h'

/-! ## Blocks that end -/

def Ends (lib : Lib B W) (body : List (Node Bytes)) (e : Env B) (s : State B W) (e' : Env B)
    (fl : Flow B) (s' : State B W) : Prop :=
  ∃ n, evalBlock lib n e body s = .ok (e', fl) s'

variable {body : List (Node Bytes)} {e e' e'' : Env B} {fl fl' : Flow B} {s s' s'' : State B W}

theorem Ends.unique (h : Ends lib body e s e' fl s') (h' : Ends lib body e s e'' fl' s'') :
    (e', fl) = (e'', fl') ∧ s' = s'' := by
  obtain ⟨m, hm⟩ := h
  obtain ⟨n, hn⟩ := h'
  exact Below.unique (fun n => (walkerBelow lib n).block e body) hm hn

theorem Ends.length_eq (h : Ends lib body e s e' fl s') : e'.locals.length = e.locals.length := by
  obtain ⟨n, hn⟩ := h
  exact (walkerGrows lib n).block e body s (e', fl) s' hn

end Walker

end AdventOS.Lua
