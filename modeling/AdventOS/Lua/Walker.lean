import AdventOS.Lua.Heap

/-!
# The tree walker over the heap (`user/lua.c`)

The evaluator of `Lua/Eval.lean` once more, as a program of heap operations. An expression
leaves its value on top of the temporaries; a call or a list of expressions leaves its
values, the last one on top, and gives their number. So the temporaries are, at any time,
what the C locals of the running functions hold: the values of a list that is being
evaluated, the arguments of a pending call under which a block runs, the iterator, state and
control value of a generic `for`.

The collector runs before a statement (`stmt`) and in `collectgarbage`. Nodes and slots name
a string of the tree by the number of its token.
-/
namespace AdventOS.Lua.Heap

variable {B W : Type}

/-- A program that a stop ends early. -/
abbrev Walk (B A : Type) := ExceptT Stop (Program (Op B) (Obs B)) A

/-! ## Single operations -/

def ask (o : Op B) : Walk B (Obs B) := do
  let r ← ExceptT.lift (Program.perform o)
  match r with
  | .stop s => throw s
  | r => return r

def act (o : Op B) : Walk B Unit := do
  let _ ← ask o
  return ()

def askNat (o : Op B) : Walk B Nat := do
  match ← ask o with
  | .nat n => return n
  | _ => throw .trap

def askNum (o : Op B) : Walk B Int := do
  match ← ask o with
  | .num n => return n
  | _ => throw .trap

def askKind (i : Nat) : Walk B (Kind B) := do
  match ← ask (.kind i) with
  | .kind k => return k
  | _ => throw .trap

def askFn (i : Nat) : Walk B (List Nat × Node Nat) := do
  match ← ask (.fnInfo i) with
  | .fn params body => return (params, body)
  | _ => throw .trap

def drop (n : Nat) : Walk B Unit := act (.slide 0 n)

def pushImm (i : Imm B) : Walk B Unit := act (.imm i)

/-- `v_truthy` of the value on top, which stays. -/
def askTruthy : Walk B Bool := do
  match ← ask .truthy with
  | .bool b => return b
  | _ => throw .trap

/-- `v_truthy` of the value on top, which goes. -/
def popTruthy : Walk B Bool := do
  let b ← askTruthy
  drop 1
  return b

/-- Value `j` of the `k` on top, or `nil` where there is none, with `above` on top of them. -/
def pick (k above j : Nat) : Walk B Unit :=
  if j < k then act (.copy (above + (k - 1 - j))) else pushImm .nil

/-- lua.c:326-329 `vs_first`: of `k` values the first stays. -/
def first (k : Nat) : Walk B Unit := if k = 0 then pushImm .nil else drop (k - 1)

/-- The locals `xs` from value `j` of the `k` on top on. -/
def declareFrom (e k : Nat) : Nat → List Nat → Walk B Unit
  | _, [] => return ()
  | j, x :: xs => do
    pick k 0 j
    act (.declare e x)
    declareFrom e k (j + 1) xs

/-- The loop variables: value `j` of the `k` on top goes to slot `i`, and so on. -/
def bindFrom (e k : Nat) : Nat → Nat → Nat → Walk B Unit
  | _, _, 0 => return ()
  | i, j, n + 1 => do
    pick k 0 j
    act (.setLocal e i)
    bindFrom e k (i + 1) (j + 1) n

/-! ## Parts of the walker -/

/-- lua.c:1252; the values of a `return` are on top. -/
inductive Flow
  | normal
  | break
  | ret (k : Nat)

def loopExit : Flow → Option Flow
  | .normal => none
  | .break => some .normal
  | .ret k => some (.ret k)

/-- The values of a flow, over which `n` temporaries go. -/
def under (fl : Flow) (n : Nat) : Walk B Unit :=
  match fl with
  | .ret k => act (.slide k n)
  | _ => drop n

def loop (round : Walk B (Option Flow)) : Nat → Walk B Flow
  | 0 => throw .fuel
  | n + 1 => do
    match ← round with
    | none => loop round n
    | some fl => return fl

/-- lua.c:1459-1473, with `ev` for single values and `multi` for the last. At
most `room` values are taken. -/
def evalPack (ev : Node Nat → Walk B Unit) (multi : Node Nat → Walk B Nat) :
    Nat → List (Node Nat) → Walk B Nat
  | 0, _ => return 0
  | _, [] => return 0
  | room, [a] => do
    let k ← multi a
    drop (k - room)
    return min k room
  | room + 1, a :: as => do
    ev a
    let k ← evalPack ev multi room as
    return k + 1

def forStep (ev : Node Nat → Walk B Unit) : Option (Node Nat) → Walk B Int
  | some c => do
    ev c
    askNum .toNum
  | none => return 1

def assignOne (ev : Node Nat → Walk B Unit) (e : Nat) : Node Nat → Walk B Unit
  | .name x => act (.varSet e x)
  | .index a b => do
    ev a
    ev b
    act (.tableSet 1 0 2 .assignTo)
    drop 3
  | _ => throw (.die .assignTo)

/-- The targets of an assignment from value `j` of the `k` on top on. -/
def assignFrom (ev : Node Nat → Walk B Unit) (e k : Nat) : Nat → List (Node Nat) → Walk B Unit
  | _, [] => return ()
  | j, t :: ts => do
    pick k 0 j
    assignOne ev e t
    assignFrom ev e k (j + 1) ts

/-! ## The walker -/

/-- lua.c:1960-1970: `true` in front of the `k` results of a protected call, in
place of the call. -/
def protectResults (k : Nat) : Walk B Nat := do
  act .clearError
  act (.insert k (.bool true))
  drop (k + 1 - maxRets)
  let k := min (k + 1) maxRets
  act (.slide k 1)
  return k

mutual
/-- lua.c:1346-1418 -/
def evalExpr (lib : Lib B W) (fuel e : Nat) (node : Node Nat) : Walk B Unit :=
  match fuel with
  | 0 => throw .fuel
  | n + 1 =>
    match node with
    | .nil => pushImm .nil
    | .true => pushImm (.bool true)
    | .false => pushImm (.bool false)
    | .num v => pushImm (.num v)
    | .str x => act (.strLit x)
    | .name x => act (.varGet e x)
    | .bin .tAnd a b => do
      evalExpr lib n e a
      if ← askTruthy then do
        drop 1
        evalExpr lib n e b
      else return ()
    | .bin .tOr a b => do
      evalExpr lib n e a
      if ← askTruthy then return ()
      else do
        drop 1
        evalExpr lib n e b
    | .bin op a b =>
      if lib.rightFirst then do
        evalExpr lib n e b
        evalExpr lib n e a
        act (.bin op true)
      else do
        evalExpr lib n e a
        evalExpr lib n e b
        act (.bin op false)
    | .un op a => do
      evalExpr lib n e a
      act (.un op)
    | .index a b => do
      evalExpr lib n e a
      evalExpr lib n e b
      act .tableGet
    | .table kv => do
      act .tableNew
      kv.forM fun p => do
        evalExpr lib n e p.1
        evalExpr lib n e p.2
        act (.tableSet 2 1 0 .indexOf)
        drop 2
    | .func params body => act (.func e params body)
    | .call a args => do
      let k ← evalCallMulti lib n e a args
      first k
    | _ => throw (.die .unknownNode)

/-- lua.c:1422-1445: the callee, and the arguments on top of it. -/
def evalCallMulti (lib : Lib B W) (fuel e : Nat) (a : Node Nat) (args : List (Node Nat)) :
    Walk B Nat :=
  match fuel with
  | 0 => throw .fuel
  | n + 1 => do
    evalExpr lib n e a
    if argsMax < args.length then throw (.die .tooManyArgs)
    else do
      args.forM (evalExpr lib n e)
      callValue lib n .callOf args.length

/-- The results of a call take the place of its arguments and of the callee under them; `err`
where it is no function. The `collectgarbage` builtin is lua.c:2124-2128 -/
def callValue (lib : Lib B W) (fuel : Nat) (err : LuaErr) (argc : Nat) : Walk B Nat :=
  match fuel with
  | 0 => throw .fuel
  | n + 1 => do
    match ← askKind argc with
    | .builtin (.lib b) => askNat (.lib b argc)
    | .builtin .collect => do
      act .collect
      drop (argc + 1)
      pushImm .nil
      return 1
    | .builtin .pcall => protect lib n argc
    | .fn => do
      let fn ← askFn argc
      let child ← askNat (.enter (some argc))
      declareFrom child argc 0 fn.1
      let fl ← evalBlock lib n child (blockList fn.2)
      act (.leave child)
      under fl (argc + 1)
      match fl with
      | .ret k => return k
      | _ => return 0
    | _ => throw (.die err)

/-- lua.c:1933-1979 `bi_pcall`: a call under an error frame. The environments
that an error leaves stay in the chain. -/
def protect (lib : Lib B W) (fuel argc : Nat) : Walk B Nat :=
  match fuel with
  | 0 => throw .fuel
  | n + 1 => do
    let callee : Kind B ← if argc = 0 then pure .nil else askKind (argc - 1)
    match callee with
    | .nil | .other => do
      drop (argc + 1)
      pushImm (.bool false)
      return 1
    | _ => do
      let depth ← askNat .depth
      tryCatch
        (do
          let k ← callValue lib n .callOf (argc - 1)
          protectResults k)
        fun
          | .die err => do
            act (.dropTo depth)
            act (.fail err)
            act (.slide 2 (argc + 1))
            return 2
          | stop => throw stop

/-- lua.c:1447-1455 -/
def evalMulti (lib : Lib B W) (fuel e : Nat) (node : Node Nat) : Walk B Nat :=
  match fuel with
  | 0 => throw .fuel
  | n + 1 =>
    match node with
    | .call a args => evalCallMulti lib n e a args
    | node => do
      evalExpr lib n e node
      return 1

/-- lua.c:1475-1664: the block drops the locals it declared. -/
def evalBlock (lib : Lib B W) (fuel e : Nat) (list : List (Node Nat)) : Walk B Flow :=
  match fuel with
  | 0 => throw .fuel
  | n + 1 => do
    let saved ← askNat (.locals e)
    let fl ← evalStmts lib n e list
    act (.truncate e saved)
    return fl

def evalStmts (lib : Lib B W) (fuel e : Nat) (list : List (Node Nat)) : Walk B Flow :=
  match fuel with
  | 0 => throw .fuel
  | n + 1 =>
    match list with
    | [] => return .normal
    | s :: list => do
      act .stmt
      match ← evalStmt lib n e s with
      | .normal => evalStmts lib n e list
      | fl => return fl

def evalStmt (lib : Lib B W) (fuel e : Nat) (stmt : Node Nat) : Walk B Flow :=
  match fuel with
  | 0 => throw .fuel
  | n + 1 =>
    match stmt with
    | .localFunc x fn => do
      evalExpr lib n e fn
      act (.declare e x)
      return .normal
    | .local names rhs => do
      let k ← evalPack (evalExpr lib n e) (evalMulti lib n e) maxRets rhs
      declareFrom e k 0 names
      drop k
      return .normal
    | .assign targets rhs => do
      let k ← evalPack (evalExpr lib n e) (evalMulti lib n e) maxRets rhs
      assignFrom (evalExpr lib n e) e k 0 targets
      drop k
      return .normal
    | .forGen vars rhs body => do
      let k ← evalPack (evalExpr lib n e) (evalMulti lib n e) maxRets rhs
      pick k 0 0
      pick k 1 1
      pick k 2 2
      act (.slide 3 k)
      let slot0 ← askNat (.locals e)
      declareFrom e 0 0 vars
      let fl ← forGenLoop lib n vars.length slot0 e (blockList body)
      act (.truncate e slot0)
      under fl 3
      return fl
    | .funcDecl x path fn => do
      evalExpr lib n e fn
      match path with
      | some (.index a b) => do
        evalExpr lib n e a
        evalExpr lib n e b
        act (.tableSet 1 0 2 .declParent)
        drop 3
        return .normal
      | some _ => throw (.die .declParent)
      | none => do
        act (.varSet e x)
        return .normal
    | .cond arms otherwise => evalArms lib n e arms otherwise
    | .while a body =>
      loop (do
        evalExpr lib n e a
        if ← popTruthy then do
          let fl ← evalBlock lib n e (blockList body)
          return loopExit fl
        else return some .normal) n
    | .forNum x a b c body => do
      evalExpr lib n e a
      let start ← askNum .toNum
      evalExpr lib n e b
      let stop ← askNum .toNum
      let step ← forStep (evalExpr lib n e) c
      let slot ← askNat (.locals e)
      pushImm (.num start)
      act (.declare e x)
      let fl ← loop (do
        let i ← askNum (.localNum e slot)
        if (0 < step ∧ i ≤ stop) ∨ (step < 0 ∧ stop ≤ i) then do
          let fl ← evalBlock lib n e (blockList body)
          match loopExit fl with
          | some fl => return some fl
          | none => do
            let i ← askNum (.localNum e slot)
            act (.setLocalNum e slot (wrap32 (i + step)))
            return none
        else return some .normal) n
      act (.truncate e slot)
      return fl
    | .return list => do
      let k ← evalPack (evalExpr lib n e) (evalMulti lib n e) maxRets list
      return .ret k
    | .break => return .break
    | .exprStmt a => do
      evalExpr lib n e a
      drop 1
      return .normal
    | .block list => evalBlock lib n e list
    | _ => throw (.die .unknownNode)

def evalArms (lib : Lib B W) (fuel e : Nat) (arms : List (Node Nat × Node Nat))
    (otherwise : Option (Node Nat)) : Walk B Flow :=
  match fuel with
  | 0 => throw .fuel
  | n + 1 =>
    match arms with
    | [] =>
      match otherwise with
      | some body => evalBlock lib n e (blockList body)
      | none => return .normal
    | arm :: arms => do
      evalExpr lib n e arm.1
      if ← popTruthy then evalBlock lib n e (blockList arm.2)
      else evalArms lib n e arms otherwise

/-- lua.c:1538-1592: the rounds of a generic `for`. The iterator, its state and
the control value stay under the call and the body. -/
def forGenLoop (lib : Lib B W) (fuel nVars slot0 e : Nat) (body : List (Node Nat)) : Walk B Flow :=
  match fuel with
  | 0 => throw .fuel
  | n + 1 => do
    act (.copy 2)
    act (.copy 2)
    act (.copy 2)
    let k ← callValue lib n .iterator 2
    let out : Kind B ← if k = 0 then pure .nil else askKind (k - 1)
    match out with
    | .nil => do
      drop k
      return .normal
    | _ => do
      bindFrom e k slot0 0 nVars
      act (.move (k - 1) k)
      drop k
      let fl ← evalBlock lib n e body
      match loopExit fl with
      | some fl => return fl
      | none => forGenLoop lib n nVars slot0 e body
end

/-! ## Programs -/

/-- What `install_stdlib` puts into the globals: a builtin, or a table of builtins. -/
inductive Entry (B : Type)
  | fn (b : Builtin B)
  | table (fields : List (Bytes × Builtin B))

/-- A builtin as a field of the table on top. -/
def installFn (name : Bytes) (b : Builtin B) : Walk B Unit := do
  act (.const name)
  pushImm (.builtin b)
  act (.tableSet 2 1 0 .indexOf)
  drop 2

/-- lua.c:2132-2170 `install_stdlib`, with the globals on top. -/
def install : List (Bytes × Entry B) → Walk B Unit
  | [] => return ()
  | (name, .fn b) :: es => do
    installFn name b
    install es
  | (name, .table fields) :: es => do
    act .tableNew
    fields.forM fun f => installFn f.1 f.2
    act (.const name)
    act (.tableSet 2 0 1 .indexOf)
    drop 2
    install es

/-- The text of a token that has one. -/
def Tok.text : Tok Bytes → Option Bytes
  | .str s => some s
  | .name s => some s
  | _ => none

/-- The tokens with the numbers of their strings, from `n` on. -/
def number : Nat → List (Tok Bytes) → List (Tok Nat)
  | _, [] => []
  | n, .str _ :: ts => .str n :: number (n + 1) ts
  | n, .name _ :: ts => .name n :: number (n + 1) ts
  | n, .num v :: ts => .num v :: number n ts
  | n, .sym t :: ts => .sym t :: number n ts
  | n, .eof :: ts => .eof :: number n ts

/-- How a program ends. -/
inductive Outcome
  | lex (e : LexErr)
  | parse
  | stop (s : Stop)
  | done
  deriving DecidableEq

/-- lua.c:2273-2281 `run_source`, behind the lexer. -/
def runParsed (lib : Lib B W) (fuel : Nat) (toks : List (Tok Bytes)) : Walk B Outcome := do
  (toks.filterMap Tok.text).forM fun s => act (.token s)
  match parseBlock fuel (number 0 toks) with
  | some (prog, [.eof]) => do
    let e ← askNat (.enter none)
    match ← evalBlock lib fuel e (blockList prog) with
    | .ret k => drop k
    | _ => pure ()
    act (.leave e)
    return .done
  | _ => return .parse

/-- lua.c:2318-2345 `main`: the standard library, and the program. -/
def main (lib : Lib B W) (globals : List (Bytes × Entry B)) (fuel : Nat) (src : Bytes) :
    Program (Op B) (Obs B) Outcome := do
  let r ← (do
    act .globals
    install globals
    drop 1
    match lexAll src with
    | .error e => return .lex e
    | .ok toks => runParsed lib fuel toks : Walk B Outcome).run
  match r with
  | .ok o => return o
  | .error s => return .stop s

/-- The machine behind `g_globals = table_new()`. -/
def start (world : W) (threshold : Nat) (enabled : Bool) : Mach B W where
  core := ⟨[⟨.table [], true⟩], [], 0, none, [], [], world⟩
  gc := ⟨fun _ => false, 1, threshold, enabled⟩

end AdventOS.Lua.Heap
