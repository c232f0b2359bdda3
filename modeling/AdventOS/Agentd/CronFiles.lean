import AdventOS.Agentd.Cron
import AdventOS.Agentd.Reply
import AdventOS.Json.ReadBack

/-!
# The files of agentd's cron entries (`user/agentd.c`)

`cron.create` accepts an entry and writes it as a JSON object; every later state of the entry is
written the same way, and after a restart the file is parsed into an arena of 4096 bytes and its
fields are read back.

* `entry_restored`: a later state of an accepted entry is restored exactly when it `Survives`: no
  unsigned field is above 2147483649, the command and the arguments are ASCII, and the tree of the
  file fits the arena; and no number that is handed out afterwards is that of a restored entry;
* `late_entry_lost`: an entry due in the second half of the 32-bit seconds is accepted, and its
  file does not parse.
-/
namespace AdventOS.Agentd.CronFiles
open Json List Option
open Cron (Kind CronState)

/-! ## Entries -/

structure Limits where
  maxRssKb : UInt32
  maxCpuMs : UInt32
  maxFds : UInt32
  maxWallMs : UInt32
  deriving DecidableEq

def noLimits : Limits := ⟨0, 0, 0, 0⟩

/-- `struct cron_entry`, less `in_use` and the subscribers, which are not written. `args` are the
values that `args_raw` spells, none for the empty text. -/
structure Entry where
  id : Int32
  kind : Kind
  state : CronState
  fireAt : UInt32
  intervalSec : UInt32
  maxRuns : UInt32
  runCount : UInt32
  lastRunAt : UInt32
  lastExitCode : Int32
  lastJobId : Int32
  concurrent : Bool
  cmd : Bytes
  args : List Value
  policy : Bytes
  limits : Limits
  hasLimits : Bool

def cronCmdMax : Nat := 64
def cronArgsRawMax : Nat := 256
def cronPolMax : Nat := 16

/-- `(uint32_t)` of a `long`. -/
def toU32 (n : Int) : UInt32 := UInt32.ofNat (n % 2 ^ 32).toNat

/-! ## Keys and words -/

def kId := chars ['i', 'd']
def kKind := chars ['k', 'i', 'n', 'd']
def kState := chars ['s', 't', 'a', 't', 'e']
def kFireAt := chars ['f', 'i', 'r', 'e', '_', 'a', 't']
def kDelaySec := chars ['d', 'e', 'l', 'a', 'y', '_', 's', 'e', 'c']
def kIntervalSec := chars ['i', 'n', 't', 'e', 'r', 'v', 'a', 'l', '_', 's', 'e', 'c']
def kMaxRuns := chars ['m', 'a', 'x', '_', 'r', 'u', 'n', 's']
def kRunCount := chars ['r', 'u', 'n', '_', 'c', 'o', 'u', 'n', 't']
def kLastRunAt := chars ['l', 'a', 's', 't', '_', 'r', 'u', 'n', '_', 'a', 't']
def kLastExitCode :=
  chars ['l', 'a', 's', 't', '_', 'e', 'x', 'i', 't', '_', 'c', 'o', 'd', 'e']
def kLastJobId := chars ['l', 'a', 's', 't', '_', 'j', 'o', 'b', '_', 'i', 'd']
def kConcurrent := chars ['c', 'o', 'n', 'c', 'u', 'r', 'r', 'e', 'n', 't']
def kCmd := chars ['c', 'm', 'd']
def kArgs := chars ['a', 'r', 'g', 's']
def kPolicy := chars ['p', 'o', 'l', 'i', 'c', 'y']
def kLimits := chars ['l', 'i', 'm', 'i', 't', 's']
def kMaxRssKb := chars ['m', 'a', 'x', '_', 'r', 's', 's', '_', 'k', 'b']
def kMaxCpuMs := chars ['m', 'a', 'x', '_', 'c', 'p', 'u', '_', 'm', 's']
def kMaxFds := chars ['m', 'a', 'x', '_', 'f', 'd', 's']
def kMaxWallMs := chars ['m', 'a', 'x', '_', 'w', 'a', 'l', 'l', '_', 'm', 's']

/-- agentd.c:1875-1877 -/
def cronKindStr : Kind → Bytes
  | .recurring => chars ['r', 'e', 'c', 'u', 'r', 'r', 'i', 'n', 'g']
  | .oneshot => chars ['o', 'n', 'e', 's', 'h', 'o', 't']

/-- agentd.c:1867-1874 -/
def cronStateStr : CronState → Bytes
  | .sched => chars ['s', 'c', 'h', 'e', 'd', 'u', 'l', 'e', 'd']
  | .cancelled => chars ['c', 'a', 'n', 'c', 'e', 'l', 'l', 'e', 'd']
  | .expired => chars ['e', 'x', 'p', 'i', 'r', 'e', 'd']

/-- agentd.c:2147-2154 -/
def parseKind (s : Bytes) : Option Kind :=
  if s = cronKindStr .oneshot then some .oneshot
  else if s = cronKindStr .recurring then some .recurring
  else none

/-- Some letters of the word are looked at; agentd.c:2156-2161 -/
def parseState (s : Bytes) : Option CronState :=
  let ends := fun k : Nat => s[k]? = some 101 ∧ s[k + 1]? = some 100
  if s.length = 9 ∧ s[0]? = some 115 ∧ ends 7 then some .sched
  else if s.length = 9 ∧ s[0]? = some 99 ∧ ends 7 then some .cancelled
  else if s.length = 7 ∧ s[0]? = some 101 ∧ s[6]? = some 100 then some .expired
  else none

/-! ## Writing -/

/-- A member that is written under a condition. -/
def optional (c : Prop) [Decidable c] (key : Bytes) (v : Value) : List (Bytes × Value) :=
  if c then [(key, v)] else []

def limitsMembers (l : Limits) : List (Bytes × Value) :=
  optional (l.maxRssKb ≠ 0) kMaxRssKb (.num l.maxRssKb.toNat) ++
  (optional (l.maxCpuMs ≠ 0) kMaxCpuMs (.num l.maxCpuMs.toNat) ++
  (optional (l.maxFds ≠ 0) kMaxFds (.num l.maxFds.toNat) ++
    optional (l.maxWallMs ≠ 0) kMaxWallMs (.num l.maxWallMs.toNat)))

def entryMembers (e : Entry) : List (Bytes × Value) :=
  [(kId, .num e.id.toInt), (kKind, .str (cronKindStr e.kind)),
    (kState, .str (cronStateStr e.state)), (kFireAt, .num e.fireAt.toNat),
    (kIntervalSec, .num e.intervalSec.toNat), (kMaxRuns, .num e.maxRuns.toNat),
    (kRunCount, .num e.runCount.toNat), (kLastRunAt, .num e.lastRunAt.toNat),
    (kLastExitCode, .num e.lastExitCode.toInt), (kLastJobId, .num e.lastJobId.toInt),
    (kConcurrent, .bool e.concurrent), (kCmd, .str e.cmd), (kArgs, .arr e.args)] ++
  (optional (e.policy ≠ []) kPolicy (.str e.policy) ++
    optional (e.hasLimits = true) kLimits (.obj (limitsMembers e.limits)))

def entryTree (e : Entry) : Value := .obj (entryMembers e)

/-- The text of the file. `json_raw` puts `args_raw` where the rendered values stand, so the
writer's depth does not count theirs: the text is there when it fits the buffer.
agentd.c:1897-1953 -/
def cronPersist (e : Entry) : Option Bytes :=
  if (render (entryTree e)).length < 2048 then some (render (entryTree e)) else none

/-! ## Reading -/

/-- The value of the first member with the key; libjson.c:553-562 -/
def jsonObjGet (ms : List (Bytes × Value)) (key : Bytes) : Option Value :=
  (ms.find? fun m => m.1 = key).map Prod.snd

def asNum : Value → Option Int
  | .num n => some n
  | _ => none

def asStr : Value → Option Bytes
  | .str s => some s
  | _ => none

def asBool : Value → Option Bool
  | .bool b => some b
  | _ => none

def asArr : Value → Option (List Value)
  | .arr l => some l
  | _ => none

def asObj : Value → Option (List (Bytes × Value))
  | .obj l => some l
  | _ => none

def getNum (ms : List (Bytes × Value)) (key : Bytes) : Option Int :=
  (jsonObjGet ms key).bind asNum

def getStr (ms : List (Bytes × Value)) (key : Bytes) : Option Bytes :=
  (jsonObjGet ms key).bind asStr

mutual
/-- A tree as `emit_value` writes it: a key ends at its NUL. agentd.c:422-450 -/
def cutKeys : Value → Value
  | .null => .null
  | .bool b => .bool b
  | .num n => .num n
  | .str s => .str s
  | .arr l => .arr (itemsCutKeys l)
  | .obj l => .obj (membersCutKeys l)

def itemsCutKeys : List Value → List Value
  | [] => []
  | v :: vs => cutKeys v :: itemsCutKeys vs

def membersCutKeys : List (Bytes × Value) → List (Bytes × Value)
  | [] => []
  | (k, v) :: ms => (cString k, cutKeys v) :: membersCutKeys ms
end

/-- The values that are spelled in `args_raw`, none when they do not fit. -/
def reemit (l : List Value) : Option (List Value) :=
  (writeOut cronArgsRawMax (.arr l)).map fun _ => itemsCutKeys l

def loadLimits (ms : List (Bytes × Value)) : Limits :=
  { maxRssKb := toU32 ((getNum ms kMaxRssKb).getD 0)
    maxCpuMs := toU32 ((getNum ms kMaxCpuMs).getD 0)
    maxFds := toU32 ((getNum ms kMaxFds).getD 0)
    maxWallMs := toU32 ((getNum ms kMaxWallMs).getD 0) }

/-- One file of `cron_load_from_disk`, none when it is skipped;
agentd.c:2484-2549 -/
def loadMembers (ms : List (Bytes × Value)) : Option Entry :=
  if (Int32.ofInt ((getNum ms kId).getD 0)).toInt ≤ 0 then none
  else ((getStr ms kKind).bind parseKind).bind fun kind =>
    ((getStr ms kState).bind parseState).map fun state =>
      let limits := (((jsonObjGet ms kLimits).bind asObj).map loadLimits).getD noLimits
      { id := Int32.ofInt ((getNum ms kId).getD 0), kind, state
        fireAt := toU32 ((getNum ms kFireAt).getD 0)
        intervalSec := toU32 ((getNum ms kIntervalSec).getD 0)
        maxRuns := toU32 ((getNum ms kMaxRuns).getD 0)
        runCount := toU32 ((getNum ms kRunCount).getD 0)
        lastRunAt := toU32 ((getNum ms kLastRunAt).getD 0)
        lastExitCode := Int32.ofInt ((getNum ms kLastExitCode).getD 0)
        lastJobId := -1
        concurrent := ((jsonObjGet ms kConcurrent).bind asBool).getD false
        cmd := ((getStr ms kCmd).filter fun s => s.length < cronCmdMax).getD []
        policy := ((getStr ms kPolicy).filter fun s => s.length < cronPolMax).getD []
        args := (((jsonObjGet ms kArgs).bind asArr).bind reemit).getD []
        limits
        hasLimits := limits ≠ noLimits }

def loadEntry (raw : Bytes) : Option Entry :=
  ((jsonParse raw 4096).bind asObj).bind loadMembers

/-- The entries of the files, in the order of the directory, as many as the table holds;
agentd.c:2451-2557 -/
def cronLoadFromDisk (files : List Bytes) : List Entry := (files.filterMap loadEntry).take 32

/-- `g_cron_next_id` after the files are loaded, and some numbers later. -/
def handedOut (files : List Bytes) (k : Nat) : Int32 :=
  Int32.ofInt (((cronLoadFromDisk files).map fun e => e.id.toInt).foldl max 0 + 1 + k)

/-! ## Creating -/

/-- `f->type != JSON_NUM` refuses, an absent field is `d`. -/
def numOr (d : Int) (v : Option Value) : Option Int := v.elim (some d) asNum

/-- agentd.c:2134-2145 -/
def cronValidatePolicy (p : Bytes) : Bool :=
  p = [] || p = chars ['m', 'i', 'n', 'i', 'm', 'a', 'l'] ||
    p = chars ['c', 'o', 'm', 'p', 'u', 't', 'e'] || p = chars ['r', 'e', 'a', 'd', 'f', 's'] ||
    p = chars ['n', 'e', 't', 'c', 'l', 'i', 'e', 'n', 't']

/-- `fire_at`; agentd.c:2178-2194 -/
def createFireAt (now : UInt32) (ms : List (Bytes × Value)) : Option UInt32 :=
  (jsonObjGet ms kFireAt).elim
    ((jsonObjGet ms kDelaySec).elim (some now) fun d =>
      (asNum d).bind fun v => if v < 0 then none else some (now + toU32 v))
    fun f => if (jsonObjGet ms kDelaySec).isSome then none
      else (asNum f).bind fun v => if v < 0 then none else some (toU32 v)

/-- `interval_sec` and `max_runs`; agentd.c:2196-2211 -/
def createRuns (kind : Kind) (ms : List (Bytes × Value)) : Option (UInt32 × UInt32) :=
  if kind = .oneshot then some (0, 0)
  else ((jsonObjGet ms kIntervalSec).bind asNum).bind fun iv =>
    if iv < 1 then none
    else (numOr 0 (jsonObjGet ms kMaxRuns)).bind fun mr =>
      if mr < 0 then none else some (toU32 iv, toU32 mr)

/-- agentd.c:2231-2256 -/
def createLimits (ms : List (Bytes × Value)) : Option Limits :=
  (jsonObjGet ms kLimits).elim (some noLimits) fun l =>
    (asObj l).bind fun ls =>
      (numOr 0 (jsonObjGet ls kMaxRssKb)).bind fun rss =>
        (numOr 0 (jsonObjGet ls kMaxCpuMs)).bind fun cpu =>
          (numOr 0 (jsonObjGet ls kMaxFds)).bind fun fds =>
            (numOr 0 (jsonObjGet ls kMaxWallMs)).map fun wall =>
              ⟨toU32 rss, toU32 cpu, toU32 fds, toU32 wall⟩

/-- The new entry, none where it is refused: `g_cron_next_id` is `nextId`, the file is written
where it fits. agentd.c:2163-2302 -/
def cronCreate (now : UInt32) (nextId : Int32) (ms : List (Bytes × Value)) : Option Entry :=
  ((getStr ms kKind).bind parseKind).bind fun kind =>
    ((getStr ms kCmd).filter fun s => 0 < s.length ∧ s.length < cronCmdMax).bind fun cmd =>
      (createFireAt now ms).bind fun fireAt =>
        (createRuns kind ms).bind fun runs =>
          ((jsonObjGet ms kConcurrent).elim (some false) asBool).bind fun concurrent =>
            ((jsonObjGet ms kArgs).elim (some []) fun a => (asArr a).bind reemit).bind fun args =>
              (some ((getStr ms kPolicy).getD [])).bind fun policy =>
                if cronValidatePolicy policy = false then none
                else (createLimits ms).bind fun limits =>
                  (some
                    { id := nextId, kind, state := CronState.sched, fireAt, intervalSec := runs.1
                      maxRuns := runs.2, runCount := 0, lastRunAt := 0, lastExitCode := 0
                      lastJobId := -1, concurrent, cmd, args, policy, limits
                      hasLimits := limits ≠ noLimits : Entry }).filter fun e =>
                        (cronPersist e).isSome

/-- A later state of an entry: `cron_tick` and `cron.cancel` change its state, its times, its
count and its last job. -/
structure Later (e e' : Entry) : Prop where
  id : e'.id = e.id
  kind : e'.kind = e.kind
  intervalSec : e'.intervalSec = e.intervalSec
  maxRuns : e'.maxRuns = e.maxRuns
  concurrent : e'.concurrent = e.concurrent
  cmd : e'.cmd = e.cmd
  args : e'.args = e.args
  policy : e'.policy = e.policy
  limits : e'.limits = e.limits
  hasLimits : e'.hasLimits = e.hasLimits

/-- The file is written, it loads, and it gives the entry back but for the exit code and the
number of its last job. -/
def Restored (e : Entry) : Prop :=
  ∃ text r, cronPersist e = some text ∧ loadEntry text = some r ∧
    r = { e with lastExitCode := r.lastExitCode, lastJobId := r.lastJobId }

/-- The parser's guard. -/
def Passing (x : UInt32) : Prop := x.toNat ≤ 2147483649

/-- What an entry needs in order to come back. -/
structure Survives (e : Entry) : Prop where
  id : 0 < e.id.toInt
  fits : (render (entryTree e)).length < 2048
  arena : arenaNeed (render (entryTree e)) ≤ 4096
  times : Passing e.fireAt ∧ Passing e.lastRunAt
  counts : Passing e.intervalSec ∧ Passing e.maxRuns ∧ Passing e.runCount
  limits : Passing e.limits.maxRssKb ∧ Passing e.limits.maxCpuMs ∧ Passing e.limits.maxFds ∧
    Passing e.limits.maxWallMs
  cmd : Ascii e.cmd
  args : (∀ s ∈ itemsStrings e.args, Ascii s) ∧ ∀ k ∈ itemsKeys e.args, Ascii k

/-! ## Numbers through a text -/

theorem toU32_wrap32 (x : UInt32) : toU32 (wrap32 x.toNat) = x := by
  have hlt := x.toNat_lt
  have hmod : (wrap32 (x.toNat : Int) % 2 ^ 32).toNat = x.toNat := by
    unfold wrap32
    rw [Int.bmod_def]
    omega
  unfold toU32
  rw [hmod]
  exact UInt32.ofNat_toNat

theorem toU32_zero : toU32 0 = 0 := by simp [toU32]

theorem ofInt_wrap32 (n : Int32) : Int32.ofInt (wrap32 n.toInt) = n := by
  rw [wrap32_of_range n.le_toInt n.toInt_lt]
  exact Int32.ofInt_toInt n

theorem u32_written (x : UInt32) : -2 ^ 31 ≤ (x.toNat : Int) ∧ (x.toNat : Int) < 2 ^ 32 := by
  have hlt := x.toNat_lt
  omega

theorem i32_written (n : Int32) : -2 ^ 31 ≤ n.toInt ∧ n.toInt < 2 ^ 32 := by
  have h1 := n.le_toInt
  have h2 := n.toInt_lt
  omega

theorem i32_passing (n : Int32) : n.toInt ≤ 2147483649 := by
  have h2 := n.toInt_lt
  omega

/-! ## Keys that end at their NUL -/

theorem cString_cString (k : Bytes) : cString (cString k) = cString k :=
  cString_self (cString_nulFree k)

mutual
theorem emit_cutKeys : (j : Value) → ∀ w, emit (cutKeys j) w = emit j w
  | .null, _ => rfl
  | .bool _, _ => rfl
  | .num _, _ => rfl
  | .str _, _ => rfl
  | .arr l, _ => congrArg jsonArrEnd (emitItems_cutKeys l _)
  | .obj l, _ => congrArg jsonObjEnd (emitMembers_cutKeys l _)

theorem emitItems_cutKeys : (l : List Value) → ∀ w, emitItems (itemsCutKeys l) w = emitItems l w
  | [], _ => rfl
  | v :: vs, _ => by
    unfold itemsCutKeys emitItems
    rw [emit_cutKeys v, emitItems_cutKeys vs]

theorem emitMembers_cutKeys : (l : List (Bytes × Value)) → ∀ w,
    emitMembers (membersCutKeys l) w = emitMembers l w
  | [], _ => rfl
  | (k, v) :: ms, w => by
    have hkey : jsonKey w (cString k) = jsonKey w k := by
      unfold jsonKey
      rw [cString_cString]
    unfold membersCutKeys emitMembers
    rw [hkey, emit_cutKeys v, emitMembers_cutKeys ms]
end

mutual
theorem cutKeys_numbers : (j : Value) → (cutKeys j).numbers = j.numbers
  | .null => rfl
  | .bool _ => rfl
  | .num _ => rfl
  | .str _ => rfl
  | .arr l => itemsCutKeys_numbers l
  | .obj l => membersCutKeys_numbers l

theorem itemsCutKeys_numbers : (l : List Value) → itemsNumbers (itemsCutKeys l) = itemsNumbers l
  | [] => rfl
  | v :: vs => by
    unfold itemsCutKeys itemsNumbers
    rw [cutKeys_numbers v, itemsCutKeys_numbers vs]

theorem membersCutKeys_numbers : (l : List (Bytes × Value)) →
    membersNumbers (membersCutKeys l) = membersNumbers l
  | [] => rfl
  | (_, v) :: ms => by
    unfold membersCutKeys membersNumbers
    rw [cutKeys_numbers v, membersCutKeys_numbers ms]
end

mutual
theorem cutKeys_keys : (j : Value) → ∀ k ∈ (cutKeys j).keys, NulFree k
  | .null => forall_mem_nil _
  | .bool _ => forall_mem_nil _
  | .num _ => forall_mem_nil _
  | .str _ => forall_mem_nil _
  | .arr l => itemsCutKeys_keys l
  | .obj l => membersCutKeys_keys l

theorem itemsCutKeys_keys : (l : List Value) → ∀ k ∈ itemsKeys (itemsCutKeys l), NulFree k
  | [] => forall_mem_nil _
  | v :: vs => forall_mem_append.mpr ⟨cutKeys_keys v, itemsCutKeys_keys vs⟩

theorem membersCutKeys_keys : (l : List (Bytes × Value)) →
    ∀ k ∈ membersKeys (membersCutKeys l), NulFree k
  | [] => forall_mem_nil _
  | (k, v) :: ms => forall_mem_cons.mpr ⟨cString_nulFree k,
      forall_mem_append.mpr ⟨cutKeys_keys v, membersCutKeys_keys ms⟩⟩
end

mutual
theorem cutKeys_self : (j : Value) → (∀ k ∈ j.keys, NulFree k) → cutKeys j = j
  | .null, _ => rfl
  | .bool _, _ => rfl
  | .num _, _ => rfl
  | .str _, _ => rfl
  | .arr l, h => congrArg Tree.arr (itemsCutKeys_self l h)
  | .obj l, h => congrArg Tree.obj (membersCutKeys_self l h)

theorem itemsCutKeys_self : (l : List Value) → (∀ k ∈ itemsKeys l, NulFree k) →
    itemsCutKeys l = l
  | [], _ => rfl
  | v :: vs, h => by
    obtain ⟨hv, hvs⟩ := forall_mem_append.mp h
    exact congrArg₂ List.cons (cutKeys_self v hv) (itemsCutKeys_self vs hvs)

theorem membersCutKeys_self : (l : List (Bytes × Value)) → (∀ k ∈ membersKeys l, NulFree k) →
    membersCutKeys l = l
  | [], _ => rfl
  | (k, v) :: ms, h => by
    obtain ⟨hk, hrest⟩ := forall_mem_cons.mp h
    obtain ⟨hv, hms⟩ := forall_mem_append.mp hrest
    exact congrArg₂ List.cons (Prod.ext (cString_self hk) (cutKeys_self v hv))
      (membersCutKeys_self ms hms)
end

/-! ## The members that come back -/

/-- The members of the file's tree as the parser gives them. -/
def backMembers (l : List (Bytes × Value)) : List (Bytes × Value) :=
  membersReadBack (mapMembers wrap32 id l)

theorem backMembers_append (a b : List (Bytes × Value)) :
    backMembers (a ++ b) = backMembers a ++ backMembers b := by
  induction a with
  | nil => rfl
  | cons m a ih => exact congrArg (List.cons _) ih

variable {c : Prop} {key : Bytes} {v : Value} {a b ms : List (Bytes × Value)} {e : Entry}
  {P : Int → Prop}

theorem backMembers_optional [Decidable c] :
    backMembers (optional c key v) =
      optional c (doubled (cString key)) (readBack (wrapped v)) := by
  unfold optional
  split <;> rfl

theorem jsonObjGet_append (a b : List (Bytes × Value)) (key : Bytes) :
    jsonObjGet (a ++ b) key = (jsonObjGet a key).or (jsonObjGet b key) := by
  unfold jsonObjGet
  rw [List.find?_append]
  cases a.find? fun m => m.1 = key <;> rfl

theorem jsonObjGet_optional_self [Decidable c] :
    jsonObjGet (optional c key v) key = if c then some v else none := by
  unfold jsonObjGet optional
  by_cases hc : c <;> simp [hc]

theorem jsonObjGet_optional_ne [Decidable c] {k : Bytes}
    (hk : key ≠ k) : jsonObjGet (optional c key v) k = none := by
  unfold jsonObjGet optional
  by_cases hc : c <;> simp [hc, hk]

/-- A limit that is not written reads as 0, which is what it is. -/
theorem getNum_optional {x : UInt32} :
    toU32 ((getNum (optional (x ≠ 0) key (.num (wrap32 x.toNat))) key).getD 0) = x := by
  unfold getNum
  rw [jsonObjGet_optional_self]
  by_cases hx : x = 0
  · rw [if_neg (not_not.mpr hx), bind_none, getD_none, toU32_zero, hx]
  · rw [if_pos hx, bind_some, asNum, getD_some, toU32_wrap32]

theorem getNum_skip (h : jsonObjGet a key = none) :
    getNum (a ++ b) key = getNum b key := by
  unfold getNum
  rw [jsonObjGet_append, h, none_or]

theorem getNum_front (h : jsonObjGet b key = none) :
    getNum (a ++ b) key = getNum a key := by
  unfold getNum
  rw [jsonObjGet_append, h, or_none]

theorem jsonObjGet_append_none (ha : jsonObjGet a key = none) (hb : jsonObjGet b key = none) :
    jsonObjGet (a ++ b) key = none := by
  rw [jsonObjGet_append, ha, hb]
  rfl

theorem limits_back (l : Limits) : backMembers (limitsMembers l) =
    optional (l.maxRssKb ≠ 0) kMaxRssKb (.num (wrap32 l.maxRssKb.toNat)) ++
    (optional (l.maxCpuMs ≠ 0) kMaxCpuMs (.num (wrap32 l.maxCpuMs.toNat)) ++
    (optional (l.maxFds ≠ 0) kMaxFds (.num (wrap32 l.maxFds.toNat)) ++
      optional (l.maxWallMs ≠ 0) kMaxWallMs (.num (wrap32 l.maxWallMs.toNat)))) := by
  have h1 : doubled (cString kMaxRssKb) = kMaxRssKb := by decide
  have h2 : doubled (cString kMaxCpuMs) = kMaxCpuMs := by decide
  have h3 : doubled (cString kMaxFds) = kMaxFds := by decide
  have h4 : doubled (cString kMaxWallMs) = kMaxWallMs := by decide
  unfold limitsMembers
  rw [backMembers_append, backMembers_append, backMembers_append, backMembers_optional,
    backMembers_optional, backMembers_optional, backMembers_optional, h1, h2, h3, h4]
  rfl

theorem loadLimits_back (l : Limits) : loadLimits (backMembers (limitsMembers l)) = l := by
  have h12 : kMaxRssKb ≠ kMaxCpuMs := by decide
  have h13 : kMaxRssKb ≠ kMaxFds := by decide
  have h14 : kMaxRssKb ≠ kMaxWallMs := by decide
  have h23 : kMaxCpuMs ≠ kMaxFds := by decide
  have h24 : kMaxCpuMs ≠ kMaxWallMs := by decide
  have h34 : kMaxFds ≠ kMaxWallMs := by decide
  unfold loadLimits
  rw [limits_back]
  congr 1
  · rw [getNum_front (jsonObjGet_append_none (jsonObjGet_optional_ne h12.symm)
      (jsonObjGet_append_none (jsonObjGet_optional_ne h13.symm)
        (jsonObjGet_optional_ne h14.symm)))]
    exact getNum_optional
  · rw [getNum_skip (jsonObjGet_optional_ne h12),
      getNum_front (jsonObjGet_append_none (jsonObjGet_optional_ne h23.symm)
        (jsonObjGet_optional_ne h24.symm))]
    exact getNum_optional
  · rw [getNum_skip (jsonObjGet_optional_ne h13), getNum_skip (jsonObjGet_optional_ne h23),
      getNum_front (jsonObjGet_optional_ne h34.symm)]
    exact getNum_optional
  · rw [getNum_skip (jsonObjGet_optional_ne h14), getNum_skip (jsonObjGet_optional_ne h24),
      getNum_skip (jsonObjGet_optional_ne h34)]
    exact getNum_optional

def fixedBack (e : Entry) : List (Bytes × Value) :=
  [(kId, .num (wrap32 e.id.toInt)), (kKind, .str (doubled (cronKindStr e.kind))),
    (kState, .str (doubled (cronStateStr e.state))), (kFireAt, .num (wrap32 e.fireAt.toNat)),
    (kIntervalSec, .num (wrap32 e.intervalSec.toNat)), (kMaxRuns, .num (wrap32 e.maxRuns.toNat)),
    (kRunCount, .num (wrap32 e.runCount.toNat)), (kLastRunAt, .num (wrap32 e.lastRunAt.toNat)),
    (kLastExitCode, .num (wrap32 e.lastExitCode.toInt)),
    (kLastJobId, .num (wrap32 e.lastJobId.toInt)), (kConcurrent, .bool e.concurrent),
    (kCmd, .str (doubled e.cmd)), (kArgs, .arr (itemsReadBack (mapItems wrap32 id e.args)))]

theorem entry_back (e : Entry) : backMembers (entryMembers e) = fixedBack e ++
    (optional (e.policy ≠ []) kPolicy (.str (doubled e.policy)) ++
      optional (e.hasLimits = true) kLimits (.obj (backMembers (limitsMembers e.limits)))) := by
  have h1 : doubled (cString kPolicy) = kPolicy := by decide
  have h2 : doubled (cString kLimits) = kLimits := by decide
  unfold entryMembers
  rw [backMembers_append, backMembers_append, backMembers_optional, backMembers_optional, h1, h2]
  rfl

theorem parseKind_back (k : Kind) : parseKind (doubled (cronKindStr k)) = some k := by
  cases k <;> decide

theorem parseState_back (s : CronState) : parseState (doubled (cronStateStr s)) = some s := by
  cases s <;> decide

theorem get_policy (e : Entry) :
    jsonObjGet (backMembers (entryMembers e)) kPolicy =
      if e.policy ≠ [] then some (.str (doubled e.policy)) else none := by
  have hfixed : jsonObjGet (fixedBack e) kPolicy = none := rfl
  have hne : kLimits ≠ kPolicy := by decide
  rw [entry_back, jsonObjGet_append, jsonObjGet_append, hfixed, jsonObjGet_optional_ne hne,
    jsonObjGet_optional_self, none_or, or_none]

theorem get_limits (e : Entry) :
    jsonObjGet (backMembers (entryMembers e)) kLimits =
      if e.hasLimits = true then some (.obj (backMembers (limitsMembers e.limits))) else none := by
  have hfixed : jsonObjGet (fixedBack e) kLimits = none := rfl
  have hne : kPolicy ≠ kLimits := by decide
  rw [entry_back, jsonObjGet_append, jsonObjGet_append, hfixed, jsonObjGet_optional_ne hne,
    jsonObjGet_optional_self, none_or, none_or]

/-! ## Accepted entries -/

/-- What `cron.create` makes sure of, and no later state changes. -/
structure Valid (e : Entry) : Prop where
  cmd : 0 < e.cmd.length ∧ e.cmd.length < cronCmdMax
  policy : cronValidatePolicy e.policy = true
  hasLimits : e.hasLimits = decide (e.limits ≠ noLimits)
  numbers : ∀ n ∈ itemsNumbers e.args, Json.Fits n
  keys : ∀ k ∈ itemsKeys e.args, NulFree k
  fits : (writeOut cronArgsRawMax (.arr e.args)).isSome = true ∨ e.args = []

theorem policy_names {p : Bytes} (h : cronValidatePolicy p = true) :
    Ascii p ∧ p.length < cronPolMax := by
  unfold cronValidatePolicy at h
  simp only [Bool.or_eq_true, decide_eq_true_eq] at h
  obtain (((rfl | rfl) | rfl) | rfl) | rfl := h
  · exact ⟨fun c hc => (not_mem_nil hc).elim, by decide⟩
  all_goals
    refine ⟨?_, by decide⟩
    unfold Ascii
    decide +kernel

theorem reemit_spec {l args : List Value} (h : reemit l = some args) :
    args = itemsCutKeys l ∧ (writeOut cronArgsRawMax (.arr args)).isSome = true := by
  obtain ⟨text, htext, rfl⟩ := map_eq_some_iff.mp h
  refine ⟨rfl, ?_⟩
  have hemit : emit (.arr (itemsCutKeys l)) (jsonWInit cronArgsRawMax) =
      emit (.arr l) (jsonWInit cronArgsRawMax) := emit_cutKeys (.arr l) _
  unfold writeOut at htext ⊢
  rw [hemit]
  rw [htext]
  rfl

theorem reemit_self {l : List Value} (hk : ∀ k ∈ itemsKeys l, NulFree k)
    (h : (writeOut cronArgsRawMax (.arr l)).isSome = true) : reemit l = some l := by
  obtain ⟨text, htext⟩ := isSome_iff_exists.mp h
  unfold reemit
  rw [htext, map_some, itemsCutKeys_self l hk]

theorem numbers_of_get
    (h : jsonObjGet ms key = some v) : ∀ n ∈ v.numbers, n ∈ membersNumbers ms := by
  induction ms with
  | nil => cases h
  | cons m ms ih =>
    obtain ⟨k, w⟩ := m
    intro n hn
    unfold jsonObjGet at h
    rw [List.find?_cons] at h
    split at h
    · cases h
      exact mem_append_left _ hn
    · exact mem_append_right _ (ih h n hn)

theorem create_valid {now : UInt32} {nextId : Int32}
    (hms : ∀ n ∈ membersNumbers ms, Json.Fits n) (h : cronCreate now nextId ms = some e) :
    Valid e := by
  obtain ⟨kind, -, h⟩ := bind_eq_some_iff.mp h
  obtain ⟨cmd, hcmd, h⟩ := bind_eq_some_iff.mp h
  obtain ⟨fireAt, -, h⟩ := bind_eq_some_iff.mp h
  obtain ⟨runs, -, h⟩ := bind_eq_some_iff.mp h
  obtain ⟨concurrent, -, h⟩ := bind_eq_some_iff.mp h
  obtain ⟨args, hargs, h⟩ := bind_eq_some_iff.mp h
  obtain ⟨policy, -, h⟩ := bind_eq_some_iff.mp h
  split at h
  · cases h
  rename_i hpol
  obtain ⟨limits, -, h⟩ := bind_eq_some_iff.mp h
  obtain ⟨h, -⟩ := filter_eq_some_iff.mp h
  cases h
  have hlen : 0 < cmd.length ∧ cmd.length < cronCmdMax := by
    simpa using (filter_eq_some_iff.mp hcmd).2
  have hspelled : (∀ n ∈ itemsNumbers args, Json.Fits n) ∧ (∀ k ∈ itemsKeys args, NulFree k) ∧
      ((writeOut cronArgsRawMax (.arr args)).isSome = true ∨ args = []) := by
    cases hget : jsonObjGet ms kArgs with
    | none =>
      rw [hget] at hargs
      cases hargs
      exact ⟨forall_mem_nil _, forall_mem_nil _, .inr rfl⟩
    | some a =>
      rw [hget] at hargs
      obtain ⟨l, hl, hre⟩ := bind_eq_some_iff.mp hargs
      obtain ⟨rfl, hsome⟩ := reemit_spec hre
      refine ⟨?_, itemsCutKeys_keys l, .inl hsome⟩
      rw [itemsCutKeys_numbers]
      intro n hn
      unfold asArr at hl
      split at hl
      · cases hl
        exact hms n (numbers_of_get hget n hn)
      · cases hl
  exact
    { cmd := hlen
      policy := by simpa using hpol
      hasLimits := rfl
      numbers := hspelled.1
      keys := hspelled.2.1
      fits := hspelled.2.2 }

theorem Later.valid {e' : Entry} (h : Later e e') (hv : Valid e) : Valid e' where
  cmd := h.cmd ▸ hv.cmd
  policy := h.policy ▸ hv.policy
  hasLimits := by rw [h.hasLimits, h.limits, hv.hasLimits]
  numbers := h.args ▸ hv.numbers
  keys := h.args ▸ hv.keys
  fits := h.args ▸ hv.fits

/-! ## The round trip -/

theorem limits_restored (hv : Valid e) :
    (((jsonObjGet (backMembers (entryMembers e)) kLimits).bind asObj).map loadLimits).getD
      noLimits = e.limits := by
  rw [get_limits]
  by_cases hl : e.hasLimits = true
  · rw [if_pos hl, bind_some, asObj, map_some, loadLimits_back, getD_some]
  · rw [if_neg hl]
    have hd := hv.hasLimits
    have : e.limits = noLimits := by
      by_contra hne
      exact hl (hd.trans (decide_eq_true hne))
    exact this.symm

theorem policy_restored (hv : Valid e) :
    ((getStr (backMembers (entryMembers e)) kPolicy).filter fun s => s.length < cronPolMax).getD
      [] = e.policy := by
  obtain ⟨hascii, hlen⟩ := policy_names hv.policy
  unfold getStr
  rw [get_policy]
  by_cases hp : e.policy = []
  · rw [if_neg (not_not.mpr hp), hp]
    rfl
  · have hkeep : (some e.policy).filter (fun s => s.length < cronPolMax) = some e.policy :=
      filter_eq_some_iff.mpr ⟨rfl, by simpa using hlen⟩
    rw [if_pos hp, bind_some, asStr, (doubled_eq_iff _).mpr hascii, hkeep,
      getD_some]

/-- The command that is read: none when the decoded one is too long. -/
def cmdBack (e : Entry) : Bytes :=
  ((some (doubled e.cmd)).filter fun s => s.length < cronCmdMax).getD []

/-- The arguments that are read. -/
def argsBack (e : Entry) : List Value :=
  (reemit (itemsReadBack (mapItems wrap32 id e.args))).getD []

theorem jsonObjGet_of_mem
    (hnd : (ms.map Prod.fst).Nodup) (h : (key, v) ∈ ms) : jsonObjGet ms key = some v := by
  induction ms with
  | nil => cases h
  | cons m ms ih =>
    rw [map_cons, nodup_cons] at hnd
    unfold jsonObjGet
    rw [List.find?_cons]
    obtain rfl | h := mem_cons.mp h
    · rw [decide_eq_true rfl]
      rfl
    · have hne : m.1 ≠ key := by
        rintro rfl
        exact hnd.1 (mem_map.mpr ⟨_, h, rfl⟩)
      rw [decide_eq_false hne]
      exact ih hnd.2 h

theorem fixedBack_keys (e : Entry) : ((fixedBack e).map Prod.fst).Nodup := by
  show [kId, kKind, kState, kFireAt, kIntervalSec, kMaxRuns, kRunCount, kLastRunAt,
    kLastExitCode, kLastJobId, kConcurrent, kCmd, kArgs].Nodup
  decide

theorem get_fixed (h : (key, v) ∈ fixedBack e) :
    jsonObjGet (backMembers (entryMembers e)) key = some v := by
  rw [entry_back, jsonObjGet_append, jsonObjGet_of_mem (fixedBack_keys e) h]
  rfl

theorem getNum_fixed {n : Int} (h : (key, .num n) ∈ fixedBack e) :
    getNum (backMembers (entryMembers e)) key = some n := by
  unfold getNum
  rw [get_fixed h]
  rfl

theorem getStr_fixed {s : Bytes} (h : (key, .str s) ∈ fixedBack e) :
    getStr (backMembers (entryMembers e)) key = some s := by
  unfold getStr
  rw [get_fixed h]
  rfl

theorem loadMembers_of {id fire interval max count last code : Int}
    {kind state cmd policy : Bytes} {concurrent : Bool} {args : List Value} {k : Kind}
    {s : CronState} {limits : Limits} (hid : getNum ms kId = some id)
    (hkind : getStr ms kKind = some kind) (hk : parseKind kind = some k)
    (hstate : getStr ms kState = some state) (hs : parseState state = some s)
    (hfire : getNum ms kFireAt = some fire) (hint : getNum ms kIntervalSec = some interval)
    (hmax : getNum ms kMaxRuns = some max) (hcount : getNum ms kRunCount = some count)
    (hlast : getNum ms kLastRunAt = some last) (hcode : getNum ms kLastExitCode = some code)
    (hconc : jsonObjGet ms kConcurrent = some (.bool concurrent))
    (hcmd : getStr ms kCmd = some cmd) (hargs : jsonObjGet ms kArgs = some (.arr args))
    (hpol : ((getStr ms kPolicy).filter fun s => s.length < cronPolMax).getD [] = policy)
    (hlim : (((jsonObjGet ms kLimits).bind asObj).map loadLimits).getD noLimits = limits) :
    loadMembers ms =
      if (Int32.ofInt id).toInt ≤ 0 then none
      else some
        { id := Int32.ofInt id, kind := k, state := s, fireAt := toU32 fire
          intervalSec := toU32 interval, maxRuns := toU32 max, runCount := toU32 count
          lastRunAt := toU32 last, lastExitCode := Int32.ofInt code, lastJobId := -1, concurrent
          cmd := ((some cmd).filter fun s => s.length < cronCmdMax).getD []
          args := (reemit args).getD [], policy, limits, hasLimits := limits ≠ noLimits } := by
  have hkinds : (getStr ms kKind).bind parseKind = some k := by rw [hkind, bind_some, hk]
  have hstates : (getStr ms kState).bind parseState = some s := by
    rw [hstate, bind_some, hs]
  unfold loadMembers
  rw [hid, hkinds, hstates, hfire, hint, hmax, hcount, hlast, hcode, hconc, hcmd, hargs, hpol,
    hlim, bind_some, map_some]
  rfl

theorem loadMembers_back (hv : Valid e) :
    loadMembers (backMembers (entryMembers e)) =
      if e.id.toInt ≤ 0 then none
      else some { e with lastJobId := -1, cmd := cmdBack e, args := argsBack e } := by
  have hin : ∀ m ∈ fixedBack e, m ∈ fixedBack e := fun _ h => h
  simp only [fixedBack, forall_mem_cons] at hin
  obtain ⟨hid, hkind, hstate, hfire, hint, hmax, hcount, hlast, hcode, -, hconc, hcmd, hargs, -⟩ :=
    hin
  rw [loadMembers_of (getNum_fixed hid) (getStr_fixed hkind) (parseKind_back e.kind)
    (getStr_fixed hstate) (parseState_back e.state) (getNum_fixed hfire) (getNum_fixed hint)
    (getNum_fixed hmax) (getNum_fixed hcount) (getNum_fixed hlast) (getNum_fixed hcode)
    (get_fixed hconc) (getStr_fixed hcmd) (get_fixed hargs) (policy_restored hv)
    (limits_restored hv), ofInt_wrap32, toU32_wrap32, toU32_wrap32, toU32_wrap32, toU32_wrap32,
    toU32_wrap32, ofInt_wrap32, ← hv.hasLimits]
  rfl

theorem membersNumbers_append (a b : List (Bytes × Value)) :
    membersNumbers (a ++ b) = membersNumbers a ++ membersNumbers b := by
  induction a with
  | nil => rfl
  | cons m a ih =>
    show m.2.numbers ++ membersNumbers (a ++ b) = (m.2.numbers ++ membersNumbers a) ++ _
    rw [ih, append_assoc]

theorem optional_numbers [Decidable c] :
    (∀ n ∈ membersNumbers (optional c key v), P n) ↔ (c → ∀ n ∈ v.numbers, P n) := by
  unfold optional
  by_cases hc : c
  · rw [if_pos hc]
    show (∀ n ∈ v.numbers ++ [], P n) ↔ _
    rw [append_nil]
    exact ⟨fun h _ => h, fun h => h hc⟩
  · rw [if_neg hc]
    exact iff_of_true (forall_mem_nil _) fun h => absurd h hc

theorem limit_number {x : UInt32} (h0 : P 0) :
    (∀ n ∈ membersNumbers (optional (x ≠ 0) key (.num x.toNat)), P n) ↔ P x.toNat := by
  rw [optional_numbers]
  have hone : (∀ n ∈ (Tree.num (x.toNat : Int) : Value).numbers, P n) ↔ P x.toNat :=
    forall_mem_singleton
  rw [hone]
  refine ⟨fun h => ?_, fun h _ => h⟩
  by_cases hx : x = 0
  · rw [hx]
    exact h0
  · exact h hx

theorem limits_numbers {l : Limits} (h0 : P 0) :
    (∀ n ∈ membersNumbers (limitsMembers l), P n) ↔
      P l.maxRssKb.toNat ∧ P l.maxCpuMs.toNat ∧ P l.maxFds.toNat ∧ P l.maxWallMs.toNat := by
  unfold limitsMembers
  rw [membersNumbers_append, membersNumbers_append, membersNumbers_append, forall_mem_append,
    forall_mem_append, forall_mem_append, limit_number h0, limit_number h0,
    limit_number h0, limit_number h0]

theorem entry_numbers (h0 : P 0) (hv : Valid e) :
    (∀ n ∈ (entryTree e).numbers, P n) ↔
      (P e.id.toInt ∧ P e.fireAt.toNat ∧ P e.intervalSec.toNat ∧ P e.maxRuns.toNat ∧
        P e.runCount.toNat ∧ P e.lastRunAt.toNat ∧ P e.lastExitCode.toInt ∧ P e.lastJobId.toInt ∧
        ∀ n ∈ itemsNumbers e.args, P n) ∧
      P e.limits.maxRssKb.toNat ∧ P e.limits.maxCpuMs.toNat ∧ P e.limits.maxFds.toNat ∧
        P e.limits.maxWallMs.toNat := by
  have hpolicy : ∀ n ∈ membersNumbers (optional (e.policy ≠ []) kPolicy (.str e.policy)), P n :=
    optional_numbers.mpr fun _ => forall_mem_nil _
  have hlimits : (∀ n ∈ membersNumbers (optional (e.hasLimits = true) kLimits
      (.obj (limitsMembers e.limits))), P n) ↔ P e.limits.maxRssKb.toNat ∧
        P e.limits.maxCpuMs.toNat ∧ P e.limits.maxFds.toNat ∧ P e.limits.maxWallMs.toNat := by
    rw [optional_numbers]
    refine ⟨fun h => ?_, fun h _ => (limits_numbers h0).mpr h⟩
    by_cases hl : e.limits = noLimits
    · rw [hl]
      exact ⟨h0, h0, h0, h0⟩
    · exact (limits_numbers h0).mp (h (hv.hasLimits.trans (decide_eq_true hl)))
  show (∀ n ∈ membersNumbers (entryMembers e), P n) ↔ _
  unfold entryMembers
  rw [membersNumbers_append, membersNumbers_append, forall_mem_append,
    forall_mem_append, hlimits, and_iff_right hpolicy]
  refine and_congr_left fun _ => ?_
  have hfixed : membersNumbers [(kId, .num e.id.toInt), (kKind, .str (cronKindStr e.kind)),
      (kState, .str (cronStateStr e.state)), (kFireAt, .num e.fireAt.toNat),
      (kIntervalSec, .num e.intervalSec.toNat), (kMaxRuns, .num e.maxRuns.toNat),
      (kRunCount, .num e.runCount.toNat), (kLastRunAt, .num e.lastRunAt.toNat),
      (kLastExitCode, .num e.lastExitCode.toInt), (kLastJobId, .num e.lastJobId.toInt),
      (kConcurrent, .bool e.concurrent), (kCmd, .str e.cmd), (kArgs, .arr e.args)] =
      e.id.toInt :: e.fireAt.toNat :: e.intervalSec.toNat :: e.maxRuns.toNat ::
        e.runCount.toNat :: e.lastRunAt.toNat :: e.lastExitCode.toInt :: e.lastJobId.toInt ::
          (itemsNumbers e.args ++ []) := rfl
  rw [hfixed, append_nil]
  simp only [forall_mem_cons]

theorem cmdBack_eq_iff (hv : Valid e) : cmdBack e = e.cmd ↔ Ascii e.cmd := by
  obtain ⟨hpos, hlen⟩ := hv.cmd
  rw [← doubled_eq_iff]
  unfold cmdBack
  by_cases hshort : (doubled e.cmd).length < cronCmdMax
  · rw [filter_some, if_pos (decide_eq_true hshort), getD_some]
  · rw [filter_some, if_neg (by simpa using hshort), getD_none]
    refine iff_of_false ?_ ?_
    · intro h
      rw [← h] at hpos
      cases hpos
    · intro h
      rw [h] at hshort
      exact hshort hlen

theorem argsBack_eq_iff (hv : Valid e) :
    argsBack e = e.args ↔
      (∀ s ∈ itemsStrings e.args, Ascii s) ∧ ∀ k ∈ itemsKeys e.args, Ascii k := by
  have hsame : itemsReadBack e.args = e.args ↔
      (∀ s ∈ itemsStrings e.args, Ascii s) ∧ ∀ k ∈ itemsKeys e.args, Ascii k := by
    rw [itemsReadBack_eq_iff]
    refine and_congr_right fun _ => forall₂_congr fun k hk => ?_
    exact and_iff_left (hv.keys k hk)
  have hwritten : (writeOut cronArgsRawMax (.arr e.args)).isSome = true := by
    obtain h | h := hv.fits
    · exact h
    · rw [h]
      decide
  rw [← hsame]
  unfold argsBack
  rw [itemsWrapped_self e.args hv.numbers]
  by_cases hback : (writeOut cronArgsRawMax (.arr (itemsReadBack e.args))).isSome = true
  · rw [reemit_self (itemsReadBack_keys e.args) hback, getD_some]
  · have hnone : reemit (itemsReadBack e.args) = none := by
      unfold reemit
      rw [not_isSome_iff_eq_none.mp hback, map_none]
    rw [hnone, getD_none]
    refine iff_of_false ?_ ?_
    · intro h
      rw [← h] at hback
      exact hback (by decide)
    · intro h
      rw [h] at hback
      exact hback hwritten

theorem guard_iff (hv : Valid e) :
    (∀ n ∈ (entryTree e).numbers, n ≤ 2147483649) ↔
      (Passing e.fireAt ∧ Passing e.lastRunAt) ∧
      (Passing e.intervalSec ∧ Passing e.maxRuns ∧ Passing e.runCount) ∧
      Passing e.limits.maxRssKb ∧ Passing e.limits.maxCpuMs ∧ Passing e.limits.maxFds ∧
        Passing e.limits.maxWallMs := by
  have hcast : ∀ x : UInt32, (x.toNat : Int) ≤ 2147483649 ↔ Passing x := fun x => by
    unfold Passing
    omega
  have hargs : ∀ n ∈ itemsNumbers e.args, n ≤ 2147483649 := fun n hn => by
    have hfits := (hv.numbers n hn).2
    omega
  rw [entry_numbers (by decide) hv]
  simp only [hcast]
  constructor
  · rintro ⟨⟨-, hfire, hint, hmax, hcount, hlast, -⟩, hlimits⟩
    exact ⟨⟨hfire, hlast⟩, ⟨hint, hmax, hcount⟩, hlimits⟩
  · rintro ⟨⟨hfire, hlast⟩, ⟨hint, hmax, hcount⟩, hlimits⟩
    exact ⟨⟨i32_passing _, hfire, hint, hmax, hcount, hlast, i32_passing _, i32_passing _, hargs⟩,
      hlimits⟩

theorem entry_written (hv : Valid e) :
    ∀ n ∈ (entryTree e).numbers, -2 ^ 31 ≤ n ∧ n < 2 ^ 32 := by
  have hargs : ∀ n ∈ itemsNumbers e.args, -2 ^ 31 ≤ n ∧ n < 2 ^ 32 := fun n hn => by
    have hfits := hv.numbers n hn
    unfold Json.Fits at hfits
    omega
  exact (entry_numbers (by decide) hv).mpr
    ⟨⟨i32_written _, u32_written _, u32_written _, u32_written _, u32_written _, u32_written _,
      i32_written _, i32_written _, hargs⟩, u32_written _, u32_written _, u32_written _,
      u32_written _⟩

theorem loadEntry_render (hv : Valid e) :
    loadEntry (render (entryTree e)) =
      if (∀ n ∈ (entryTree e).numbers, n ≤ 2147483649) ∧
          arenaNeed (render (entryTree e)) ≤ 4096 then
        if e.id.toInt ≤ 0 then none
        else some { e with lastJobId := -1, cmd := cmdBack e, args := argsBack e }
      else none := by
  obtain ⟨hparsed, hrefused⟩ := parse_render (entry_written hv) 4096
  unfold loadEntry
  by_cases hok : (∀ n ∈ (entryTree e).numbers, n ≤ 2147483649) ∧
      arenaNeed (render (entryTree e)) ≤ 4096
  · have hobj : asObj (readBack (wrapped (entryTree e))) = some (backMembers (entryMembers e)) :=
      rfl
    rw [if_pos hok, hparsed hok, bind_some, hobj, bind_some, loadMembers_back hv]
  · rw [if_neg hok, hrefused hok]
    rfl

theorem restored_iff (hv : Valid e) : Restored e ↔ Survives e := by
  have hguard := guard_iff hv
  have hload := loadEntry_render hv
  constructor
  · rintro ⟨text, r, htext, hr, heq⟩
    unfold cronPersist at htext
    split at htext
    swap
    · cases htext
    rename_i hfits
    cases htext
    rw [hload] at hr
    split at hr
    swap
    · cases hr
    rename_i hok
    split at hr
    · cases hr
    cases hr
    obtain ⟨htimes, hcounts, hlimits⟩ := hguard.mp hok.1
    exact
      { id := by omega
        fits := hfits
        arena := hok.2
        times := htimes
        counts := hcounts
        limits := hlimits
        cmd := (cmdBack_eq_iff hv).mp (congrArg Entry.cmd heq)
        args := (argsBack_eq_iff hv).mp (congrArg Entry.args heq) }
  · intro hs
    have hid := hs.id
    have hok := hguard.mpr ⟨hs.times, hs.counts, hs.limits⟩
    refine ⟨render (entryTree e), { e with lastJobId := -1, cmd := cmdBack e, args := argsBack e },
      if_pos hs.fits, ?_, ?_⟩
    · rw [hload, if_pos ⟨hok, hs.arena⟩, if_neg (by omega)]
    · rw [(cmdBack_eq_iff hv).mpr hs.cmd, (argsBack_eq_iff hv).mpr hs.args]

/-! ## Numbers that are handed out -/

theorem foldl_max_le {l : List Int} :
    ∀ {a : Int}, a ≤ l.foldl max a ∧ ∀ n ∈ l, n ≤ l.foldl max a := by
  induction l with
  | nil => exact fun {a} => ⟨le_refl a, forall_mem_nil _⟩
  | cons n l ih =>
    intro a
    obtain ⟨hstart, hall⟩ := ih (a := max a n)
    rw [foldl_cons, forall_mem_cons]
    exact ⟨(le_max_left a n).trans hstart, (le_max_right a n).trans hstart, hall⟩

theorem foldl_max_lt {l : List Int} {b : Int} (hl : ∀ n ∈ l, n < b) :
    ∀ {a : Int}, a < b → l.foldl max a < b := by
  induction l with
  | nil => exact fun h => h
  | cons n l ih =>
    obtain ⟨hn, hl⟩ := forall_mem_cons.mp hl
    exact fun ha => ih hl (max_lt ha hn)

theorem loaded_positive {files : List Bytes} {x : Entry} (hx : x ∈ cronLoadFromDisk files) :
    0 < x.id.toInt := by
  obtain ⟨raw, -, hraw⟩ := mem_filterMap.mp (mem_of_mem_take hx)
  obtain ⟨ms, -, hms⟩ := bind_eq_some_iff.mp hraw
  unfold loadMembers at hms
  split at hms
  · cases hms
  rename_i hpos
  obtain ⟨kind, -, hms⟩ := bind_eq_some_iff.mp hms
  obtain ⟨state, -, rfl⟩ := map_eq_some_iff.mp hms
  exact lt_of_not_ge hpos

/-- Until the counter comes round, no restored number is given to a new entry. -/
theorem handedOut_fresh {files : List Bytes} {k : Nat} (hk : k < 2 ^ 31) {x : Entry}
    (hx : x ∈ cronLoadFromDisk files) : handedOut files k ≠ x.id := by
  have hids : ∀ n ∈ (cronLoadFromDisk files).map fun e => e.id.toInt, n < 2 ^ 31 := by
    intro n hn
    obtain ⟨y, -, rfl⟩ := mem_map.mp hn
    exact y.id.toInt_lt
  have hle := foldl_max_le (a := 0) |>.2 _ (mem_map_of_mem (f := fun e => e.id.toInt) hx)
  have hlt := foldl_max_lt hids (a := 0) (by decide)
  have hpos := loaded_positive hx
  intro heq
  have hmod := congrArg Int32.toInt heq
  unfold handedOut at hmod
  rw [Int32.toInt_ofInt, Int.bmod_def, Int32.size] at hmod
  omega

/-- **Restart.** A later state of an accepted entry is written and restored exactly when it
`Survives`, and no number that is handed out afterwards is that of a restored entry. -/
theorem entry_restored (now : UInt32) (nextId : Int32) (ms : List (Bytes × Value))
    (e e' : Entry) (hms : ∀ n ∈ membersNumbers ms, Json.Fits n)
    (hc : cronCreate now nextId ms = some e) (hl : Later e e') :
    (Restored e' ↔ Survives e') ∧
      ∀ files k, k < 2 ^ 31 → ∀ x ∈ cronLoadFromDisk files, handedOut files k ≠ x.id :=
  ⟨restored_iff (hl.valid (create_valid hms hc)), fun _ _ hk _ hx => handedOut_fresh hk hx⟩

/-- `{"kind":"oneshot","cmd":"x"}` with a time. -/
def oneshot (key : Bytes) (n : Int) : List (Bytes × Value) :=
  [(kKind, .str (cronKindStr .oneshot)), (kCmd, .str (chars ['x'])), (key, .num n)]

theorem oneshot_fits {k : Bytes} {n : Int} (h : Json.Fits n) :
    ∀ m ∈ membersNumbers (oneshot k n), Json.Fits m := fun _ hm => mem_singleton.mp hm ▸ h

/-- An entry of the near future. -/
theorem early_entry_restored :
    ∃ e, cronCreate 1700000000 7 (oneshot kFireAt 1700000060) = some e ∧
      (Restored e ↔ Survives e) ∧
      ∀ files k, k < 2 ^ 31 → ∀ x ∈ cronLoadFromDisk files, handedOut files k ≠ x.id := by
  have hsome : (cronCreate 1700000000 7 (oneshot kFireAt 1700000060)).isSome = true := by
    decide +kernel
  obtain ⟨e, he⟩ := isSome_iff_exists.mp hsome
  exact ⟨e, he, entry_restored 1700000000 7 _ e e
    (oneshot_fits (by unfold Json.Fits; decide)) he
    ⟨rfl, rfl, rfl, rfl, rfl, rfl, rfl, rfl, rfl, rfl⟩⟩

/-- A delay of 2147483647 seconds is accepted, and the entry is lost. -/
theorem late_entry_lost :
    ¬∀ (now : UInt32) (nextId : Int32) (ms : List (Bytes × Value)) (e e' : Entry),
      (∀ n ∈ membersNumbers ms, Json.Fits n) → cronCreate now nextId ms = some e → Later e e' →
        Restored e' := by
  intro h
  have hms := oneshot_fits (k := kDelaySec) (n := 2147483647) (by unfold Json.Fits; decide)
  have hfire : (cronCreate 1700000000 7 (oneshot kDelaySec 2147483647)).map Entry.fireAt =
      some 3847483647 := by decide +kernel
  obtain ⟨e, he, hfire⟩ := map_eq_some_iff.mp hfire
  have hrestored := h 1700000000 7 _ e e hms he ⟨rfl, rfl, rfl, rfl, rfl, rfl, rfl, rfl, rfl, rfl⟩
  have htime := ((restored_iff (create_valid hms he)).mp hrestored).times.1
  rw [hfire] at htime
  exact absurd htime (by unfold Passing; decide)

end AdventOS.Agentd.CronFiles
