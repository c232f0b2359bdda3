import AdventOS.Core.Keeps
import AdventOS.Lua.Parser

/-!
# The evaluator of the Lua interpreter

The tree walker of `user/lua.c`. A string is its bytes; tables and functions are numbered
in the order of their creation, and a value names them by number. Storage reclamation is
left out: nothing is ever freed here.

The builtins other than `pcall` run no Lua code. They are a parameter, `Lib.call`, over
the tables and whatever else of the machine (`W`) they read and write. So are the text of
an error, which shows line numbers, the word that a value other than a number leaves in
the union when the loop of a numeric `for` reads it as one, and the order in which the C
compiler evaluates the two operands of an operator.

`fuel` bounds the depth of the C calls and the rounds of each loop. A run that exceeds it
stops where it is, so that the states of all fuels together are the states of the run.

`log` is a history: the function literals evaluated and the names looked up.
-/
namespace AdventOS.Lua

/-! ## Values and tables -/

inductive Builtin (B : Type)
  | pcall
  | lib (b : B)
  deriving DecidableEq

/-- lua.c:158-183 `struct value`. -/
inductive Value (B : Type)
  | nil
  | bool (b : Bool)
  | num (n : Int)
  | str (s : Bytes)
  | table (t : Nat)
  | fn (f : Nat)
  | builtin (b : Builtin B)
  deriving DecidableEq

/-- The pairs of `struct table`, in the order of insertion. -/
abbrev Table (B : Type) := List (Value B × Value B)

/-- A slot of `locals`, or a captured one: the name and the value. -/
abbrev Slot (B : Type) := Bytes × Value B

/-- lua.c:219-243 `struct func`. -/
structure Func (B : Type) where
  params : List Bytes
  body : Node Bytes
  upvals : List (Slot B)

/-- lua.c:1156-1179 `struct env`: the oldest local first, and the function
whose body runs. -/
structure Env (B : Type) where
  locals : List (Slot B)
  host : Option Nat
  deriving DecidableEq

/-- lua.c:1252 `struct ret`. -/
inductive Flow (B : Type)
  | normal
  | break
  | ret (vs : List (Value B))

inductive Event (B : Type)
  /-- The evaluation of a function literal, which makes function `f` in `e`. -/
  | create (f : Nat) (e : Env B)
  /-- A lookup of `x` in `e`, the global of that name, and the value found. -/
  | lookup (e : Env B) (x : Bytes) (global value : Value B)
  deriving DecidableEq

/-- The calls of `die`. -/
inductive LuaErr
  | expectedNumber | divideByZero | moduloByZero | lengthOf | indexOf | unknownNode
  | tooManyArgs | tooManyLocals | callOf | iterator | assignTo | declParent | lib
  deriving DecidableEq

/-- What ends a run early. Only `die` is caught. -/
inductive Stop
  | die (e : LuaErr)
  | exit
  | trap
  | fuel
  deriving DecidableEq

/-- What the builtins work on. -/
structure Store (B W : Type) where
  tables : List (Table B)
  lastError : Option Bytes
  world : W

structure State (B W : Type) extends Store B W where
  funcs : List (Func B)
  log : List (Event B)

abbrev M (B W : Type) := EStateM Stop (State B W)

/-- What the evaluator takes from outside. -/
structure Lib (B W : Type) where
  call : B → List (Value B) → EStateM Stop (Store B W) (List (Value B))
  errText : LuaErr → List (Event B) → Bytes
  bits : Value B → List (Event B) → Int
  rightFirst : Bool

variable {B W : Type}

/-- `value.as.n`, whatever the kind. -/
def Lib.asNum (lib : Lib B W) (log : List (Event B)) : Value B → Int
  | .num n => n
  | v => lib.bits v log

def truthy : Value B → Bool
  | .nil => .false
  | .bool b => b
  | _ => .true

def vsFirst (vs : List (Value B)) : Value B := vs.headD .nil

def maxRets : Nat := 8
def localsMax : Nat := 64
def argsMax : Nat := 16

section Tables

variable [DecidableEq B]

/-- lua.c:375-385 -/
def tableGet (t : Table B) (k : Value B) : Value B :=
  match t.find? fun p => p.1 = k with
  | some p => p.2
  | none => .nil

/-- lua.c:387-414 -/
def tableSet (t : Table B) (k v : Value B) : Table B :=
  if k = .nil then t
  else
    match t.findIdx? fun p => p.1 = k with
    | some i => if v = .nil then t.eraseIdx i else t.modify i fun p => (p.1, v)
    | none => if v = .nil then t else t ++ [(k, v)]

/-- The first of the indices from `i` on that `t` does not have, among the next `n`. -/
def tableLenFrom (t : Table B) (i : Int) : Nat → Int
  | 0 => i
  | n + 1 => if t.any fun p => p.1 = .num (i + 1) then tableLenFrom t (i + 1) n else i

/-- lua.c:416-426; `t` has no more indices than pairs. -/
def tableLen (t : Table B) : Int := tableLenFrom t 0 t.length

end Tables

/-! ## Names -/

/-- lua.c:1200-1211: the newest slot of that name. -/
def localFind : List (Slot B) → Bytes → Option Nat
  | [], _ => none
  | s :: ls, x =>
    match localFind ls x with
    | some i => some (i + 1)
    | none => if s.1 = x then some 0 else none

/-- `v_strz(name->data)`: the key of a global. -/
def globalKey (x : Bytes) : Value B := .str (x.takeWhile fun c => c != 0)

/-- The value of a slot, if there is one. -/
def slotValue (ls : List (Slot B)) (i : Nat) : Value B :=
  match ls[i]? with
  | some p => p.2
  | none => .nil

/-- The order of `var_get`: the newest local, the first captured slot, the global `g`. -/
def resolve (e : Env B) (upvals : List (Slot B)) (x : Bytes) (g : Value B) : Value B :=
  match localFind e.locals x with
  | some i => slotValue e.locals i
  | none =>
    match upvals.find? fun p => p.1 = x with
    | some p => p.2
    | none => g

/-- `g_globals` is the first table. -/
def globals (s : State B W) : Table B := s.tables.headD []

def record (e : Event B) : M B W Unit := modify fun s => { s with log := s.log ++ [e] }

def setTable (t : Nat) (f : Table B → Table B) : M B W Unit :=
  modify fun s => { s with tables := s.tables.modify t f }

/-- The captured slots of the function that `e` hosts. -/
def hostUpvals (s : State B W) (e : Env B) : Option (List (Slot B)) :=
  match e.host with
  | none => some []
  | some f => s.funcs[f]?.map Func.upvals

section Names

variable [DecidableEq B]

/-- lua.c:1213-1229 -/
def varGet (e : Env B) (x : Bytes) : M B W (Value B) := do
  let s ← get
  let g := tableGet (globals s) (globalKey x)
  match hostUpvals s e with
  | none => throw .trap
  | some upvals => do
    let v := resolve e upvals x g
    record (.lookup e x g v)
    return v

/-- lua.c:1231-1241 -/
def varSet (e : Env B) (x : Bytes) (v : Value B) : M B W (Env B) :=
  match localFind e.locals x with
  | some i => return { e with locals := e.locals.modify i fun p => (p.1, v) }
  | none => do
    setTable 0 fun t => tableSet t (globalKey x) v
    return e

end Names

/-- lua.c:1243-1248 -/
def localDeclare (e : Env B) (x : Bytes) (v : Value B) : M B W (Env B) :=
  if localsMax ≤ e.locals.length then throw (.die .tooManyLocals)
  else return { e with locals := e.locals ++ [(x, v)] }

/-- The names with their values, `nil` where there is none. -/
def pad : List Bytes → List (Value B) → List (Slot B)
  | [], _ => []
  | x :: xs, vs => (x, vsFirst vs) :: pad xs vs.tail

def declareAll (e : Env B) (slots : List (Slot B)) : M B W (Env B) :=
  slots.foldlM (fun e p => localDeclare e p.1 p.2) e

/-! ## Operators -/

/-- lua.c:1262-1270 -/
def toNum : Value B → M B W Int
  | .num n => return n
  | .str s =>
    match parseInt s with
    | some n => return n
    | none => throw (.die .expectedNumber)
  | _ => throw (.die .expectedNumber)

/-- lua.c:96-114 `format_int`; the least integer has no positive. -/
def formatInt (n : Int) : Bytes :=
  if n = -2 ^ 31 then [45]
  else if n < 0 then 45 :: word (Nat.toDigits 10 n.natAbs)
  else word (Nat.toDigits 10 n.natAbs)

/-- lua.c:1272-1283 -/
def toStr : Value B → Bytes
  | .str s => s
  | .num n => formatInt n
  | .nil => word ['n', 'i', 'l']
  | .bool true => word ['t', 'r', 'u', 'e']
  | .bool false => word ['f', 'a', 'l', 's', 'e']
  | .table _ => word ['t', 'a', 'b', 'l', 'e']
  | _ => word ['f', 'u', 'n', 'c', 't', 'i', 'o', 'n']

def arith (f : Int → Int → Int) (a b : Value B) : M B W (Value B) := do
  let m ← toNum a
  let n ← toNum b
  return .num (wrap32 (f m n))

def compare (f : Int → Int → Bool) (a b : Value B) : M B W (Value B) := do
  let m ← toNum a
  let n ← toNum b
  return .bool (f m n)

/-- Division and remainder: the processor traps on the quotient that does not fit. -/
def divide (zero : LuaErr) (f : Int → Int → Int) (a b : Value B) : M B W (Value B) := do
  let n ← toNum b
  if n = 0 then throw (.die zero)
  else do
    let m ← toNum a
    if m = -2 ^ 31 ∧ n = -1 then throw .trap else return .num (f m n)

/-- lua.c:1285-1331 -/
def evalBin [DecidableEq B] (op : Sym) (a b : Value B) : M B W (Value B) :=
  match op with
  | .tPlus => arith (· + ·) a b
  | .tMinus => arith (· - ·) a b
  | .tStar => arith (· * ·) a b
  | .tSlash => divide .divideByZero Int.tdiv a b
  | .tPercent => divide .moduloByZero Int.tmod a b
  | .tCaret => arith (fun m n => if n < 0 then 1 else m ^ n.toNat) a b
  | .tEq => return .bool (a = b)
  | .tNeq => return .bool (a ≠ b)
  | .tLt => compare (fun m n => m < n) a b
  | .tGt => compare (fun m n => n < m) a b
  | .tLe => compare (fun m n => m ≤ n) a b
  | .tGe => compare (fun m n => n ≤ m) a b
  | .tConcat => return .str (toStr a ++ toStr b)
  | _ => throw (.die .unknownNode)

/-- lua.c:1333-1344 -/
def evalUn [DecidableEq B] (op : Sym) (a : Value B) : M B W (Value B) :=
  match op with
  | .tMinus => do
    let n ← toNum a
    return .num (wrap32 (-n))
  | .tNot => return .bool !truthy a
  | .tHash =>
    match a with
    | .str s => return .num s.length
    | .table t => do
      let s ← get
      return .num (tableLen (s.tables.getD t []))
    | _ => throw (.die .lengthOf)
  | _ => throw (.die .unknownNode)

/-! ## The walker -/

def blockList : Node S → List (Node S)
  | .block list => list
  | _ => []

/-- A builtin of the library, on the part of the state it may touch. -/
def Lib.run (lib : Lib B W) (b : B) (args : List (Value B)) : M B W (List (Value B)) := fun s =>
  match lib.call b args s.toStore with
  | .ok vs t => .ok vs { s with toStore := t }
  | .error e t => .error e { s with toStore := t }

/-- lua.c:1389-1416 (`N_FUNC`): every local in sight is copied. -/
def makeFunc (e : Env B) (params : List Bytes) (body : Node Bytes) : M B W (Value B) := do
  let s ← get
  let f := s.funcs.length
  modify fun s => { s with funcs := s.funcs ++ [⟨params, body, e.locals⟩] }
  record (.create f e)
  return .fn f

/-- lua.c:1459-1473, with `ev` for single values and `multi` for the last. At
most `room` values are taken. -/
def evalPack (ev : Node Bytes → M B W (Value B)) (multi : Node Bytes → M B W (List (Value B))) :
    Nat → List (Node Bytes) → M B W (List (Value B))
  | 0, _ => return []
  | _, [] => return []
  | room, [a] => do
    let vs ← multi a
    return vs.take room
  | room + 1, a :: as => do
    let v ← ev a
    let vs ← evalPack ev multi room as
    return v :: vs

/-- A loop: `round` until it gives a flow, in at most `fuel` rounds. -/
def loop (round : Env B → M B W (Env B × Option (Flow B))) : Nat → Env B → M B W (Env B × Flow B)
  | 0, _ => throw .fuel
  | n + 1, e => do
    let r ← round e
    match r.2 with
    | none => loop round n r.1
    | some fl => return (r.1, fl)

def loopExit : Flow B → Option (Flow B)
  | .normal => none
  | .break => some .normal
  | .ret vs => some (.ret vs)

def forStep (ev : Node Bytes → M B W (Value B)) : Option (Node Bytes) → M B W Int
  | some c => ev c >>= toNum
  | none => return 1

/-- The values of the loop variables from slot `i` on. -/
def bindVars (ls : List (Slot B)) (i : Nat) (vs : List (Value B)) : Nat → List (Slot B)
  | 0 => ls
  | n + 1 => bindVars (ls.modify i fun p => (p.1, vsFirst vs)) (i + 1) vs.tail n

section Walker

variable [DecidableEq B]

/-- An indexed store: `t[k] = v`. -/
def assignIndex (err : LuaErr) (t k v : Value B) : M B W Unit :=
  match t with
  | .table t => setTable t fun t => tableSet t k v
  | _ => throw (.die err)

def assignOne (ev : Env B → Node Bytes → M B W (Value B)) (e : Env B) (target : Node Bytes)
    (v : Value B) : M B W (Env B) :=
  match target with
  | .name x => varSet e x v
  | .index a b => do
    let t ← ev e a
    let k ← ev e b
    assignIndex .assignTo t k v
    return e
  | _ => throw (.die .assignTo)

def assignAll (ev : Env B → Node Bytes → M B W (Value B)) :
    Env B → List (Node Bytes) → List (Value B) → M B W (Env B)
  | e, [], _ => return e
  | e, t :: ts, vs => do
    let e ← assignOne ev e t (vsFirst vs)
    assignAll ev e ts vs.tail

mutual
/-- lua.c:1346-1418 -/
def evalExpr (lib : Lib B W) (fuel : Nat) (e : Env B) (node : Node Bytes) : M B W (Value B) :=
  match fuel with
  | 0 => throw .fuel
  | n + 1 =>
    match node with
    | .nil => return .nil
    | .true => return .bool .true
    | .false => return .bool .false
    | .num v => return .num v
    | .str s => return .str s
    | .name x => varGet e x
    | .bin .tAnd a b => do
      let l ← evalExpr lib n e a
      if truthy l then evalExpr lib n e b else return l
    | .bin .tOr a b => do
      let l ← evalExpr lib n e a
      if truthy l then return l else evalExpr lib n e b
    | .bin op a b =>
      if lib.rightFirst then do
        let r ← evalExpr lib n e b
        let l ← evalExpr lib n e a
        evalBin op l r
      else do
        let l ← evalExpr lib n e a
        let r ← evalExpr lib n e b
        evalBin op l r
    | .un op a => do
      let v ← evalExpr lib n e a
      evalUn op v
    | .index a b => do
      let t ← evalExpr lib n e a
      let k ← evalExpr lib n e b
      match t with
      | .table t => do
        let s ← get
        return tableGet (s.tables.getD t []) k
      | _ => throw (.die .indexOf)
    | .table kv => do
      let s ← get
      let t := s.tables.length
      modify fun s => { s with tables := s.tables ++ [[]] }
      kv.foldlM (fun _ p => do
        let k ← evalExpr lib n e p.1
        let v ← evalExpr lib n e p.2
        setTable t fun t => tableSet t k v) ()
      return .table t
    | .func params body => makeFunc e params body
    | .call a args => do
      let vs ← evalCallMulti lib n e a args
      return vsFirst vs
    | _ => throw (.die .unknownNode)

/-- lua.c:1422-1445 -/
def evalCallMulti (lib : Lib B W) (fuel : Nat) (e : Env B) (a : Node Bytes)
    (args : List (Node Bytes)) : M B W (List (Value B)) :=
  match fuel with
  | 0 => throw .fuel
  | n + 1 => do
    let callee ← evalExpr lib n e a
    if argsMax < args.length then throw (.die .tooManyArgs)
    else do
      let vs ← args.mapM (evalExpr lib n e)
      callValue lib n .callOf callee vs

/-- A call of the value `callee`; `err` where it is no function. The `pcall` builtin is
lua.c:1883-1933 -/
def callValue (lib : Lib B W) (fuel : Nat) (err : LuaErr) (callee : Value B)
    (args : List (Value B)) : M B W (List (Value B)) :=
  match fuel with
  | 0 => throw .fuel
  | n + 1 =>
    match callee with
    | .builtin (.lib b) => lib.run b args
    | .builtin .pcall =>
      match args with
      | .fn f :: args => protect lib n (.fn f) args
      | .builtin b :: args => protect lib n (.builtin b) args
      | _ => return [.bool .false]
    | .fn f => do
      let s ← get
      match s.funcs[f]? with
      | none => throw .trap
      | some fn => do
        let child ← declareAll ⟨[], some f⟩ (pad fn.params args)
        let r ← evalBlock lib n child (blockList fn.body)
        match r.2 with
        | .ret vs => return vs
        | _ => return []
    | _ => throw (.die err)

/-- The body of `pcall`: a call under an error frame. -/
def protect (lib : Lib B W) (fuel : Nat) (callee : Value B) (args : List (Value B)) :
    M B W (List (Value B)) :=
  match fuel with
  | 0 => throw .fuel
  | n + 1 =>
    tryCatch
      (do
        let vs ← callValue lib n .callOf callee args
        modify fun s => { s with lastError := none }
        return (.bool .true :: vs).take maxRets)
      fun
        | .die err => do
          let s ← get
          let msg := lib.errText err s.log
          modify fun s => { s with lastError := some msg }
          return [.bool .false, .str msg]
        | stop => throw stop

/-- lua.c:1447-1455 -/
def evalMulti (lib : Lib B W) (fuel : Nat) (e : Env B) (node : Node Bytes) :
    M B W (List (Value B)) :=
  match fuel with
  | 0 => throw .fuel
  | n + 1 =>
    match node with
    | .call a args => evalCallMulti lib n e a args
    | node => do
      let v ← evalExpr lib n e node
      return [v]

/-- lua.c:1475-1664: the block drops the locals it declared. -/
def evalBlock (lib : Lib B W) (fuel : Nat) (e : Env B) (list : List (Node Bytes)) :
    M B W (Env B × Flow B) :=
  match fuel with
  | 0 => throw .fuel
  | n + 1 => do
    let r ← evalStmts lib n e list
    return ({ r.1 with locals := r.1.locals.take e.locals.length }, r.2)

def evalStmts (lib : Lib B W) (fuel : Nat) (e : Env B) (list : List (Node Bytes)) :
    M B W (Env B × Flow B) :=
  match fuel with
  | 0 => throw .fuel
  | n + 1 =>
    match list with
    | [] => return (e, .normal)
    | s :: list => do
      let r ← evalStmt lib n e s
      match r.2 with
      | .normal => evalStmts lib n r.1 list
      | fl => return (r.1, fl)

def evalStmt (lib : Lib B W) (fuel : Nat) (e : Env B) (stmt : Node Bytes) :
    M B W (Env B × Flow B) :=
  match fuel with
  | 0 => throw .fuel
  | n + 1 =>
    match stmt with
    | .localFunc x fn => do
      let v ← evalExpr lib n e fn
      let e ← localDeclare e x v
      return (e, .normal)
    | .local names rhs => do
      let vs ← evalPack (evalExpr lib n e) (evalMulti lib n e) maxRets rhs
      let e ← declareAll e (pad names vs)
      return (e, .normal)
    | .assign targets rhs => do
      let vs ← evalPack (evalExpr lib n e) (evalMulti lib n e) maxRets rhs
      let e ← assignAll (evalExpr lib n) e targets vs
      return (e, .normal)
    | .forGen vars rhs body => do
      let exprs ← evalPack (evalExpr lib n e) (evalMulti lib n e) maxRets rhs
      let slot0 := e.locals.length
      let e ← declareAll e (pad vars [])
      let r ← forGenLoop lib n vars.length slot0 (vsFirst exprs) (vsFirst exprs.tail)
        (vsFirst exprs.tail.tail) e (blockList body)
      return ({ r.1 with locals := r.1.locals.take slot0 }, r.2)
    | .funcDecl x path fn => do
      let v ← evalExpr lib n e fn
      match path with
      | some (.index a b) => do
        let t ← evalExpr lib n e a
        let k ← evalExpr lib n e b
        assignIndex .declParent t k v
        return (e, .normal)
      | some _ => throw (.die .declParent)
      | none => do
        let e ← varSet e x v
        return (e, .normal)
    | .cond arms otherwise => evalArms lib n e arms otherwise
    | .while a body =>
      loop (fun e => do
        let c ← evalExpr lib n e a
        if truthy c then do
          let r ← evalBlock lib n e (blockList body)
          return (r.1, loopExit r.2)
        else return (e, some .normal)) n e
    | .forNum x a b c body => do
      let start ← evalExpr lib n e a >>= toNum
      let stop ← evalExpr lib n e b >>= toNum
      let step ← forStep (evalExpr lib n e) c
      let slot := e.locals.length
      let e ← localDeclare e x (.num start)
      let r ← loop (fun e => do
        let s ← get
        let i := lib.asNum s.log (slotValue e.locals slot)
        if (0 < step ∧ i ≤ stop) ∨ (step < 0 ∧ stop ≤ i) then do
          let r ← evalBlock lib n e (blockList body)
          match loopExit r.2 with
          | some fl => return (r.1, some fl)
          | none => do
            let s ← get
            let i := lib.asNum s.log (slotValue r.1.locals slot)
            let next := Value.num (wrap32 (i + step))
            return ({ r.1 with locals := r.1.locals.modify slot fun p => (p.1, next) }, none)
        else return (e, some .normal)) n e
      return ({ r.1 with locals := r.1.locals.take slot }, r.2)
    | .return list => do
      let vs ← evalPack (evalExpr lib n e) (evalMulti lib n e) maxRets list
      return (e, .ret vs)
    | .break => return (e, .break)
    | .exprStmt a => do
      let _ ← evalExpr lib n e a
      return (e, .normal)
    | .block list => evalBlock lib n e list
    | _ => throw (.die .unknownNode)

def evalArms (lib : Lib B W) (fuel : Nat) (e : Env B) (arms : List (Node Bytes × Node Bytes))
    (otherwise : Option (Node Bytes)) : M B W (Env B × Flow B) :=
  match fuel with
  | 0 => throw .fuel
  | n + 1 =>
    match arms with
    | [] =>
      match otherwise with
      | some body => evalBlock lib n e (blockList body)
      | none => return (e, .normal)
    | arm :: arms => do
      let c ← evalExpr lib n e arm.1
      if truthy c then evalBlock lib n e (blockList arm.2)
      else evalArms lib n e arms otherwise

/-- lua.c:1538-1592: the rounds of a generic `for`. -/
def forGenLoop (lib : Lib B W) (fuel nVars slot0 : Nat) (iter state ctrl : Value B) (e : Env B)
    (body : List (Node Bytes)) : M B W (Env B × Flow B) :=
  match fuel with
  | 0 => throw .fuel
  | n + 1 => do
    let out ← callValue lib n .iterator iter [state, ctrl]
    if vsFirst out = .nil then return (e, .normal)
    else do
      let r ← evalBlock lib n { e with locals := bindVars e.locals slot0 out nVars } body
      match loopExit r.2 with
      | some fl => return (r.1, fl)
      | none => forGenLoop lib n nVars slot0 iter state (vsFirst out) r.1 body
end

/-- lua.c:2273-2281 `run_source`, behind the parser. -/
def runSource (lib : Lib B W) (fuel : Nat) (prog : Node Bytes) : M B W Unit := do
  let _ ← evalBlock lib fuel ⟨[], none⟩ (blockList prog)
  return ()

/-- lua.c:2283-2316 `repl`: one program after the other; an error ends the one
it is in. A script is the session of one program. -/
def session (lib : Lib B W) (fuel : Nat) : List (Node Bytes) → State B W → State B W
  | [], s => s
  | prog :: progs, s =>
    match runSource lib fuel prog s with
    | .ok _ s => session lib fuel progs s
    | .error (.die _) s => session lib fuel progs s
    | .error _ s => s

end Walker

end AdventOS.Lua
