import AdventOS.Core.MarkSweep
import AdventOS.Core.Program
import AdventOS.Lua.Eval

/-!
# The heap of the Lua interpreter and its collector (`user/lua.c`)

A string, a table or a function is an object with a number, and a value names it by number.
A freed object keeps its contents here: what counts is that no operation touches it, and an
operation that does traps.

What the interpreter holds apart from the heap is all in `Core`: the strings of the syntax
tree (by the index of their token), the chain of active environments, the last error, and in
`temps` the values that C locals of the running functions hold, the newest first. An
operation of the interpreter (`Op`) works on these, and never on an object number of its
own, so that whatever it gets hold of is held.

The builtins of the library are a parameter (`Lib`), over what they see of their arguments:
the values, the bytes of strings, and the pairs of tables. They can give back and store
these and new strings. The texts of errors, the union of a value that is no number, and the
order of operands are parameters as in the evaluator.
-/
namespace AdventOS.Lua.Heap

/-! ## Values and objects -/

inductive Builtin (B : Type)
  | pcall
  | collect
  | lib (b : B)
  deriving DecidableEq

inductive Val (B : Type)
  | nil
  | bool (b : Bool)
  | num (n : Int)
  | str (i : Nat)
  | table (i : Nat)
  | fn (i : Nat)
  | builtin (b : Builtin B)
  deriving DecidableEq

/-- The values that are no objects. -/
inductive Imm (B : Type)
  | nil
  | bool (b : Bool)
  | num (n : Int)
  | builtin (b : Builtin B)

def Imm.val {B : Type} : Imm B → Val B
  | .nil => .nil
  | .bool b => .bool b
  | .num n => .num n
  | .builtin b => .builtin b

/-- The objects that a value names. -/
def Val.refs {B : Type} : Val B → List Nat
  | .str i => [i]
  | .table i => [i]
  | .fn i => [i]
  | _ => []

/-- Names and syntax trees are given by the indices of their tokens. -/
inductive Obj (B : Type)
  | str (s : Bytes)
  | table (kv : List (Val B × Val B))
  | fn (params : List Nat) (body : Node Nat) (upvals : List (Nat × Val B))

/-- An object, and whether it is on one of the lists of the collector. -/
structure Cell (B : Type) where
  obj : Obj B
  tracked : Bool

def slotRefs {B : Type} (p : Nat × Val B) : List Nat := p.1 :: p.2.refs

/-- lua.c:2045-2061: the objects that `mark_table` and `mark_func` go on to. -/
def Obj.refs {B : Type} : Obj B → List Nat
  | .str _ => []
  | .table kv => kv.flatMap fun p => p.1.refs ++ p.2.refs
  | .fn _ _ up => up.flatMap slotRefs

structure Env (B : Type) where
  locals : List (Nat × Val B)
  host : Option Nat

def Env.refs {B : Type} (e : Env B) : List Nat := e.host.toList ++ e.locals.flatMap slotRefs

structure Core (B W : Type) where
  objs : List (Cell B)
  envs : List (Nat × Env B)
  nextEnv : Nat
  lastError : Option Nat
  ast : List Nat
  temps : List (Val B)
  world : W

/-- `freed` is ours. -/
structure Collector where
  freed : Nat → Bool
  count : Nat
  threshold : Nat
  enabled : Bool

structure Mach (B W : Type) where
  core : Core B W
  gc : Collector

variable {B W : Type}

namespace Core

variable (c : Core B W)

def refsAt (i : Nat) : List Nat := (c.objs[i]?).elim [] fun x => x.obj.refs

def trackedAt (i : Nat) : Bool := (c.objs[i]?).elim false fun x => x.tracked

def strOf (i : Nat) : Bytes :=
  match (c.objs[i]?).map Cell.obj with
  | some (.str s) => s
  | _ => []

def kvOf (i : Nat) : List (Val B × Val B) :=
  match (c.objs[i]?).map Cell.obj with
  | some (.table kv) => kv
  | _ => []

def upvalsOf (i : Nat) : List (Nat × Val B) :=
  match (c.objs[i]?).map Cell.obj with
  | some (.fn _ _ up) => up
  | _ => []

def envOf (e : Nat) : Env B := ((c.envs.find? fun p => p.1 = e).map Prod.snd).getD ⟨[], none⟩

/-- The value on position `i` of the temporaries. -/
def temp (i : Nat) : Val B := c.temps.getD i .nil

/-! ## The collector -/

/-- `g_globals`, the first object made; the chain of environments; `g_last_error`. -/
def roots : List Nat := 0 :: (c.envs.flatMap fun p => p.2.refs) ++ c.lastError.toList

/-- lua.c:2041-2080: what is marked behind the mark phase. -/
def marked : List Nat := markAll c.refsAt (c.objs.length + 1) c.roots

end Core

/-- lua.c:2067-2117 `gc_collect`. -/
def gcCollect (c : Core B W) (gc : Collector) : Collector :=
  if gc.enabled then
    { gc with
      freed := fun i => gc.freed i || (c.trackedAt i && !c.marked.contains i)
      count := 0
      threshold := min (gc.threshold * 2) 8192 }
  else gc

/-- lua.c:2119-2121 -/
def gcMaybeCollect (c : Core B W) (gc : Collector) : Collector :=
  if gc.threshold ≤ gc.count then gcCollect c gc else gc

/-! ## Moves -/

namespace Core

def push (v : Val B) (c : Core B W) : Core B W := { c with temps := v :: c.temps }

/-- `n` values under the top `k` go. -/
def slide (k n : Nat) (c : Core B W) : Core B W :=
  { c with temps := c.temps.take k ++ c.temps.drop (k + n) }

/-- A new object, with its value on top. -/
def allocStr (s : Bytes) (tracked : Bool) (c : Core B W) : Core B W :=
  { c with objs := c.objs ++ [⟨.str s, tracked⟩], temps := .str c.objs.length :: c.temps }

def allocToken (s : Bytes) (c : Core B W) : Core B W :=
  { c with objs := c.objs ++ [⟨.str s, true⟩], ast := c.ast ++ [c.objs.length] }

def allocTable (c : Core B W) : Core B W :=
  { c with objs := c.objs ++ [⟨.table [], true⟩], temps := .table c.objs.length :: c.temps }

def allocFn (params : List Nat) (body : Node Nat) (up : List (Nat × Val B)) (c : Core B W) :
    Core B W :=
  { c with objs := c.objs ++ [⟨.fn params body up, true⟩], temps := .fn c.objs.length :: c.temps }

def setObj (i : Nat) (f : Obj B → Obj B) (c : Core B W) : Core B W :=
  { c with objs := c.objs.modify i fun x => { x with obj := f x.obj } }

def setEnv (e : Nat) (f : Env B → Env B) (c : Core B W) : Core B W :=
  { c with envs := c.envs.map fun p => if p.1 = e then (p.1, f p.2) else p }

end Core

/-! ## Tables -/

section Tables

variable [DecidableEq B]

/-- lua.c:341-357: strings are compared by their bytes. -/
def veq (c : Core B W) : Val B → Val B → Bool
  | .str i, .str j => c.strOf i = c.strOf j
  | a, b => a = b

def findKey (c : Core B W) (kv : List (Val B × Val B)) (k : Val B) : Option Nat :=
  kv.findIdx? fun p => veq c p.1 k

/-- lua.c:381-385 -/
def tableGet (c : Core B W) (t : Nat) (k : Val B) : Val B :=
  ((findKey c (c.kvOf t) k).bind fun i => (c.kvOf t)[i]?).elim .nil Prod.snd

/-- lua.c:387-414 -/
def storeKv (c : Core B W) (k v : Val B) (kv : List (Val B × Val B)) : List (Val B × Val B) :=
  if k = .nil then kv
  else
    match findKey c kv k with
    | some i => if v = .nil then kv.eraseIdx i else kv.modify i fun p => (p.1, v)
    | none => if v = .nil then kv else kv ++ [(k, v)]

def Obj.onTable (f : List (Val B × Val B) → List (Val B × Val B)) : Obj B → Obj B
  | .table kv => .table (f kv)
  | o => o

def tableSet (t : Nat) (k v : Val B) (c : Core B W) : Core B W :=
  c.setObj t (Obj.onTable (storeKv c k v))

/-- lua.c:416-426 -/
def tableLenFrom (c : Core B W) (t : Nat) (i : Int) : Nat → Int
  | 0 => i
  | n + 1 =>
    if (findKey c (c.kvOf t) (.num (i + 1))).isSome then tableLenFrom c t (i + 1) n else i

end Tables

/-! ## Names -/

/-- The newest slot of that name. -/
def localFind (c : Core B W) : List (Nat × Val B) → Bytes → Option Nat
  | [], _ => none
  | s :: ls, x =>
    match localFind c ls x with
    | some i => some (i + 1)
    | none => if c.strOf s.1 = x then some 0 else none

/-- The captured slot of that name, if the environment hosts a function. -/
def upvalFind (c : Core B W) (e : Env B) (x : Bytes) : Option (Val B) :=
  e.host.bind fun f => ((c.upvalsOf f).find? fun p => c.strOf p.1 = x).map Prod.snd

/-- `v_strz(name->data)`. -/
def globalKey (x : Bytes) : Bytes := x.takeWhile fun b => b != 0

/-! ## Operators -/

/-- lua.c:1262-1270 -/
def toNum (c : Core B W) : Val B → Option Int
  | .num n => some n
  | .str i => parseInt (c.strOf i)
  | _ => none

/-- The bytes of `to_str`. -/
def strBytes (c : Core B W) : Val B → Bytes
  | .str i => c.strOf i
  | .num n => formatInt n
  | .nil => word ['n', 'i', 'l']
  | .bool true => word ['t', 'r', 'u', 'e']
  | .bool false => word ['f', 'a', 'l', 's', 'e']
  | .table _ => word ['t', 'a', 'b', 'l', 'e']
  | _ => word ['f', 'u', 'n', 'c', 't', 'i', 'o', 'n']

def isStr : Val B → Bool
  | .str _ => true
  | _ => false

def truthy : Val B → Bool
  | .nil => false
  | .bool b => b
  | _ => true

def arith (c : Core B W) (f : Int → Int → Imm B) (a b : Val B) : Except Stop (Imm B) :=
  match toNum c a, toNum c b with
  | some m, some n => .ok (f m n)
  | _, _ => .error (.die .expectedNumber)

/-- Division and remainder: the processor traps on the quotient that does not fit. -/
def divide (c : Core B W) (zero : LuaErr) (f : Int → Int → Int) (a b : Val B) :
    Except Stop (Imm B) :=
  match toNum c b with
  | none => .error (.die .expectedNumber)
  | some n =>
    if n = 0 then .error (.die zero)
    else
      match toNum c a with
      | none => .error (.die .expectedNumber)
      | some m => if m = -2 ^ 31 ∧ n = -1 then .error .trap else .ok (.num (f m n))

/-- lua.c:1285-1331, but `..`. -/
def evalBin [DecidableEq B] (c : Core B W) (op : Sym) (a b : Val B) : Except Stop (Imm B) :=
  match op with
  | .tPlus => arith c (fun m n => .num (wrap32 (m + n))) a b
  | .tMinus => arith c (fun m n => .num (wrap32 (m - n))) a b
  | .tStar => arith c (fun m n => .num (wrap32 (m * n))) a b
  | .tSlash => divide c .divideByZero Int.tdiv a b
  | .tPercent => divide c .moduloByZero Int.tmod a b
  | .tCaret => arith c (fun m n => .num (if n < 0 then 1 else wrap32 (m ^ n.toNat))) a b
  | .tEq => .ok (.bool (veq c a b))
  | .tNeq => .ok (.bool (!veq c a b))
  | .tLt => arith c (fun m n => .bool (m < n)) a b
  | .tGt => arith c (fun m n => .bool (n < m)) a b
  | .tLe => arith c (fun m n => .bool (m ≤ n)) a b
  | .tGe => arith c (fun m n => .bool (n ≤ m)) a b
  | _ => .error (.die .unknownNode)

/-- lua.c:1333-1344 -/
def evalUn [DecidableEq B] (c : Core B W) (op : Sym) (a : Val B) : Except Stop (Imm B) :=
  match op with
  | .tMinus =>
    match toNum c a with
    | some n => .ok (.num (wrap32 (-n)))
    | none => .error (.die .expectedNumber)
  | .tNot => .ok (.bool !truthy a)
  | .tHash =>
    match a with
    | .str i => .ok (.num (c.strOf i).length)
    | .table t => .ok (.num (tableLenFrom c t 0 (c.kvOf t).length))
    | _ => .error (.die .lengthOf)
  | _ => .error (.die .unknownNode)

/-! ## The library -/

/-- What a builtin sees of a value. -/
structure Shown (B : Type) where
  val : Val B
  bytes : Option Bytes

/-- What a builtin sees of an argument. -/
structure Arg (B : Type) extends Shown B where
  entries : List (Shown B × Shown B)

/-- What a builtin can give back or store: a value of no object, an argument, a key or a
value of a pair of an argument, the last error, one of the strings it has made. -/
inductive Src (B : Type)
  | imm (i : Imm B)
  | arg (i : Nat)
  | key (i j : Nat)
  | val (i j : Nat)
  | lastError
  | new (k : Nat)

/-- What a builtin does: the strings it makes, each on the list of the collector or not; the
pairs it stores in arguments that are tables; its results, or a stop. -/
structure Ret (B W : Type) where
  news : List (Bytes × Bool)
  stores : List (Nat × Src B × Src B)
  results : Except Stop (List (Src B))
  world : W

structure Lib (B W : Type) where
  call : B → List (Arg B) → Option Bytes → W → Ret B W
  errText : LuaErr → W → Bytes
  bits : Val B → Int
  rightFirst : Bool

def shown (c : Core B W) (v : Val B) : Shown B where
  val := v
  bytes :=
    match v with
    | .str i => some (c.strOf i)
    | _ => none

def argOf (c : Core B W) (v : Val B) : Arg B where
  toShown := shown c v
  entries :=
    match v with
    | .table t => (c.kvOf t).map fun p => (shown c p.1, shown c p.2)
    | _ => []

/-- The pairs of a table value. -/
def entriesOf (c : Core B W) : Val B → List (Val B × Val B)
  | .table t => c.kvOf t
  | _ => []

/-- What a builtin means: `args` in front of the call, and the strings made, the newest
first, on top of the temporaries of `c`. -/
def Src.pick (args : List (Val B)) (c : Core B W) (made : Nat) : Src B → Val B
  | .imm i => i.val
  | .arg i => args.getD i .nil
  | .key i j => ((entriesOf c (args.getD i .nil))[j]?).elim .nil Prod.fst
  | .val i j => ((entriesOf c (args.getD i .nil))[j]?).elim .nil Prod.snd
  | .lastError => (c.lastError).elim .nil Val.str
  | .new k => if k < made then c.temp (made - 1 - k) else .nil

/-! ## Operations -/

inductive Kind (B : Type)
  | nil
  | fn
  | builtin (b : Builtin B)
  | other

def Val.kind : Val B → Kind B
  | .nil => .nil
  | .fn _ => .fn
  | .builtin b => .builtin b
  | _ => .other

/-- What an operation tells the interpreter. -/
inductive Obs (B : Type)
  | unit
  | bool (b : Bool)
  | num (n : Int)
  | nat (n : Nat)
  | kind (k : Kind B)
  | fn (params : List Nat) (body : Node Nat)
  | stop (s : Stop)

/-- The operations of the interpreter on the heap. Positions are counted from the newest
temporary, names by the token, environments by their number. -/
inductive Op (B : Type)
  | imm (i : Imm B)
  | globals
  | const (s : Bytes)
  | token (s : Bytes)
  | strLit (x : Nat)
  | varGet (e x : Nat)
  | varSet (e x : Nat)
  | declare (e x : Nat)
  | locals (e : Nat)
  | truncate (e n : Nat)
  | setLocal (e i : Nat)
  | localNum (e i : Nat)
  | setLocalNum (e i : Nat) (n : Int)
  | truthy
  | toNum
  | copy (i : Nat)
  | move (i j : Nat)
  | slide (k n : Nat)
  | insert (k : Nat) (i : Imm B)
  | depth
  | dropTo (n : Nat)
  | bin (op : Sym) (swapped : Bool)
  | un (op : Sym)
  | tableNew
  | tableSet (t k v : Nat) (err : LuaErr)
  | tableGet
  | func (e : Nat) (params : List Nat) (body : Node Nat)
  | kind (i : Nat)
  | fnInfo (i : Nat)
  | enter (host : Option Nat)
  | leave (e : Nat)
  | lib (b : B) (argc : Nat)
  | stmt
  | collect
  | clearError
  | fail (err : LuaErr)

/-- What an operation tells, the core behind it, and how many allocations it counts. -/
abbrev Eff (B W : Type) := Obs B × Core B W × Nat

def stopped (s : Stop) (c : Core B W) : Eff B W := (.stop s, c, 0)

/-- The string of a token of the tree. -/
def withName (c : Core B W) (x : Nat) (f : Nat → Eff B W) : Eff B W :=
  (c.ast[x]?).elim (stopped .trap c) f

def setSlot (i : Nat) (v : Val B) (e : Env B) : Env B :=
  { e with locals := e.locals.modify i fun p => (p.1, v) }

/-- A value of no object takes the place of `n` temporaries. -/
def answer (n : Nat) (c : Core B W) : Except Stop (Imm B) → Eff B W
  | .ok i => (.unit, (c.slide 0 n).push i.val, 0)
  | .error s => stopped s c

section Effects

variable [DecidableEq B]

/-- lua.c:1213-1229. The key of a global is a string that nothing keeps. -/
def varGet (e x : Nat) (c : Core B W) : Eff B W :=
  withName c x fun i =>
    let env := c.envOf e
    match localFind c env.locals (c.strOf i) with
    | some j => (.unit, c.push ((env.locals[j]?).elim .nil Prod.snd), 0)
    | none =>
      match upvalFind c env (c.strOf i) with
      | some v => (.unit, c.push v, 0)
      | none =>
        let c₁ := c.allocStr (globalKey (c.strOf i)) true
        (.unit, (c₁.push (tableGet c₁ 0 (c₁.temp 0))).slide 1 1, 1)

/-- lua.c:1231-1241 -/
def varSet (e x : Nat) (c : Core B W) : Eff B W :=
  withName c x fun i =>
    match localFind c (c.envOf e).locals (c.strOf i) with
    | some j => (.unit, (c.setEnv e (setSlot j (c.temp 0))).slide 0 1, 0)
    | none =>
      let c₁ := c.allocStr (globalKey (c.strOf i)) true
      (.unit, (tableSet 0 (c₁.temp 0) (c₁.temp 1) c₁).slide 0 2, 1)

/-- lua.c:1243-1248 -/
def declare (e x : Nat) (c : Core B W) : Eff B W :=
  withName c x fun i =>
    if localsMax ≤ (c.envOf e).locals.length then stopped (.die .tooManyLocals) c
    else
      (.unit, (c.setEnv e fun env =>
        { env with locals := env.locals ++ [(i, c.temp 0)] }).slide 0 1, 0)

/-- The concatenation of `l` and `r`: operands that are no strings become strings first. -/
def concat (l r : Val B) (c : Core B W) : Eff B W :=
  let c₁ := if isStr l then c else c.allocStr (strBytes c l) true
  let c₂ := if isStr r then c₁ else c₁.allocStr (strBytes c r) true
  let made := (if isStr l then 0 else 1) + (if isStr r then 0 else 1)
  (.unit, (c₂.allocStr (strBytes c l ++ strBytes c r) false).slide 1 (made + 2), made)

def bin (op : Sym) (swapped : Bool) (c : Core B W) : Eff B W :=
  let l := c.temp (if swapped then 0 else 1)
  let r := c.temp (if swapped then 1 else 0)
  if op = .tConcat then concat l r c else answer 2 c (evalBin c op l r)

def makeAll : List (Bytes × Bool) → Core B W → Core B W
  | [], c => c
  | n :: ns, c => makeAll ns (c.allocStr n.1 n.2)

def storeAll (args : List (Val B)) (made : Nat) : List (Nat × Src B × Src B) → Core B W → Core B W
  | [], c => c
  | (i, k, v) :: ss, c =>
    storeAll args made ss (match args.getD i .nil with
        | .table t => tableSet t (k.pick args c made) (v.pick args c made) c
        | _ => c)

/-- The results of a builtin, the last one on top, `pushed` of them pushed already. -/
def pushAll (vs : List (Val B)) (c : Core B W) : Core B W :=
  { c with temps := vs.reverse ++ c.temps }

/-- A builtin of the library: its arguments and itself give way to the results. -/
def callLib (lib : Lib B W) (b : B) (argc : Nat) (c : Core B W) : Eff B W :=
  let args := (c.temps.take argc).reverse
  let r := lib.call b (args.map (argOf c)) (c.lastError.map c.strOf) c.world
  let c₁ := makeAll r.news { c with world := r.world }
  let made := r.news.length
  let count := (r.news.filter fun n => n.2).length
  let c₂ := storeAll args made r.stores c₁
  match r.results with
  | .error s => (.stop s, c₂, count)
  | .ok srcs =>
    let vs := srcs.map fun s => s.pick args c₂ made
    (.nat vs.length, (pushAll vs c₂).slide vs.length (made + argc + 1), count)

/-- What an operation does, but for the collector. -/
def effect (lib : Lib B W) (c : Core B W) : Op B → Eff B W
  | .imm i => (.unit, c.push i.val, 0)
  | .globals => (.unit, c.push (.table 0), 0)
  | .const s => (.unit, c.allocStr s true, 1)
  | .token s => (.unit, c.allocToken s, 1)
  | .strLit x => withName c x fun i => (.unit, c.allocStr (c.strOf i) true, 1)
  | .varGet e x => varGet e x c
  | .varSet e x => varSet e x c
  | .declare e x => declare e x c
  | .locals e => (.nat (c.envOf e).locals.length, c, 0)
  | .truncate e n =>
    (.unit, c.setEnv e fun env => { env with locals := env.locals.take n }, 0)
  | .setLocal e i => (.unit, (c.setEnv e (setSlot i (c.temp 0))).slide 0 1, 0)
  | .localNum e i =>
    (.num (match ((c.envOf e).locals[i]?).elim .nil Prod.snd with
      | .num n => n
      | v => lib.bits v), c, 0)
  | .setLocalNum e i n => (.unit, c.setEnv e (setSlot i (.num n)), 0)
  | .truthy => (.bool (truthy (c.temp 0)), c, 0)
  | .toNum => ((toNum c (c.temp 0)).elim (stopped (.die .expectedNumber) c)
      fun n => (.num n, c.slide 0 1, 0))
  | .copy i => (.unit, c.push (c.temp i), 0)
  | .move i j => (.unit, { c with temps := c.temps.set j (c.temp i) }, 0)
  | .slide k n => (.unit, c.slide k n, 0)
  | .insert k i =>
    (.unit, { c with temps := c.temps.take k ++ i.val :: c.temps.drop k }, 0)
  | .depth => (.nat c.temps.length, c, 0)
  | .dropTo n => (.unit, c.slide 0 (c.temps.length - n), 0)
  | .bin op swapped => bin op swapped c
  | .un op => answer 1 c (evalUn c op (c.temp 0))
  | .tableNew => (.unit, c.allocTable, 1)
  | .tableSet t k v err =>
    match c.temp t with
    | .table i => (.unit, tableSet i (c.temp k) (c.temp v) c, 0)
    | _ => stopped (.die err) c
  | .tableGet =>
    match c.temp 1 with
    | .table i => (.unit, (c.push (tableGet c i (c.temp 0))).slide 1 2, 0)
    | _ => stopped (.die .indexOf) c
  | .func e params body => (.unit, c.allocFn params body (c.envOf e).locals, 1)
  | .kind i => (.kind (c.temp i).kind, c, 0)
  | .fnInfo i =>
    match c.temp i with
    | .fn f =>
      match (c.objs[f]?).map Cell.obj with
      | some (.fn params body _) => (.fn params body, c, 0)
      | _ => stopped .trap c
    | _ => stopped .trap c
  | .enter host =>
    let f := host.bind fun i =>
      match c.temp i with
      | .fn f => some f
      | _ => none
    (.nat c.nextEnv, { c with envs := (c.nextEnv, ⟨[], f⟩) :: c.envs, nextEnv := c.nextEnv + 1 }, 0)
  | .leave e => (.unit, { c with envs := c.envs.filter fun p => p.1 ≠ e }, 0)
  | .lib b argc => callLib lib b argc c
  | .clearError => (.unit, { c with lastError := none }, 0)
  | .fail err =>
    let msg := lib.errText err c.world
    let c₁ := c.allocStr msg true
    let c₂ := ({ c₁ with lastError := some c.objs.length }.slide 0 1).push (.bool false)
    (.unit, c₂.allocStr msg true, 2)
  | .stmt => (.unit, c, 0)
  | .collect => (.unit, c, 0)

end Effects

/-! ## What an operation touches -/

def strKeys (kv : List (Val B × Val B)) : List Nat :=
  kv.flatMap fun p =>
    match p.1 with
    | .str i => [i]
    | _ => []

/-- A table and the keys that a search in it compares. -/
def touchTable (c : Core B W) (i : Nat) : List Nat := i :: strKeys (c.kvOf i)

/-- A value whose kind decides what is read: a string, or a table with its keys. -/
def touchVal (c : Core B W) : Val B → List Nat
  | .str i => [i]
  | .table i => touchTable c i
  | .fn i => [i]
  | _ => []

def touchName (c : Core B W) (e x : Nat) : List Nat :=
  (c.ast[x]?).toList ++ (c.envOf e).locals.map Prod.fst

/-- The objects that an operation may read or write. -/
def touched (c : Core B W) : Op B → List Nat
  | .strLit x => (c.ast[x]?).toList
  | .varGet e x =>
    touchName c e x ++ (c.envOf e).host.toList ++
      (c.envOf e).host.toList.flatMap (fun f => (c.upvalsOf f).map Prod.fst) ++ touchTable c 0
  | .varSet e x => touchName c e x ++ touchTable c 0
  | .toNum => touchVal c (c.temp 0)
  | .bin _ _ => touchVal c (c.temp 0) ++ touchVal c (c.temp 1)
  | .un _ => touchVal c (c.temp 0)
  | .tableSet t k _ _ => touchVal c (c.temp t) ++ touchVal c (c.temp k)
  | .tableGet => touchVal c (c.temp 0) ++ touchVal c (c.temp 1)
  | .fnInfo i => touchVal c (c.temp i)
  | .lib _ argc =>
    ((c.temps.take argc).flatMap fun v =>
      touchVal c v ++ (entriesOf c v).flatMap fun p => p.1.refs ++ p.2.refs) ++
      c.lastError.toList
  | _ => []

/-! ## Execution -/

def collectorOf (c : Core B W) (gc : Collector) (count : Nat) : Op B → Collector
  | .stmt => gcMaybeCollect c gc
  | .collect => gcCollect c gc
  | _ => { gc with count := gc.count + count }

/-- An operation; `none` is the use of a freed object. -/
def exec [DecidableEq B] (lib : Lib B W) (o : Op B) (m : Mach B W) : Option (Obs B × Mach B W) :=
  if (touched m.core o).any m.gc.freed then none
  else
    let r := effect lib m.core o
    some (r.1, ⟨r.2.1, collectorOf m.core m.gc r.2.2 o⟩)

end AdventOS.Lua.Heap
