import AdventOS.Core.LTS
import AdventOS.Kernel.Task
import Mathlib

/-!
# The wait/exit handshake

`sys_wait` releases the big kernel lock before `task_wait_current` scans the task table and blocks;
`sys_exit`, `fork`, `waitpid_nb` and the reaper hold it. So the steps of a waiting parent interleave
with every step of its children's exits, while two exits never overlap. A task in one of the two
calls has a program counter `Pc`: the scan and the re-parenting loop are at a slot, and each turn is
one step, as is taking a zombie's status, and any other call under the lock.

The histories: `forked` (pid and parent), `exited` (pid and status of every task that exited with a
parent) and `returned` (what waits have returned to whom).

The exit wakes its parent *before* it turns into a zombie, and the wait does not look again between
its scan and the block.

* `inv_inductive`: over runs of `Orderly` steps no wake-up is lost;
* `handshake`: each status is with its zombie or returned once, to the parent;
* `wakeup_lost`: a run in which the parent sleeps beside a zombie.
-/
namespace AdventOS.Kernel.WaitExit
open List Option

/-! ## State -/

inductive Pc
  | user
  /-- `reap_one_zombie_of` at a slot -/
  | scan (i : Nat)
  /-- `has_any_live_or_zombie_child` at a slot -/
  | look (i : Nat)
  /-- about to write BLOCKED_ON_CHILD -/
  | block
  /-- in the `schedule()` of the wait -/
  | asleep
  /-- the re-parenting loop of the exit at a slot -/
  | adopting (i : Nat)
  /-- about to look for the parent and wake it -/
  | waking
  /-- about to write ZOMBIE (a parent was found) or DEAD -/
  | marking (parent : Bool)
  | gone
  deriving DecidableEq, Repr

/-- What a wait returned: the child, the status it stored (none when the pid is
negative as an `int`), and the pid of the waiting task. -/
structure Ret where
  pid : UInt32
  code : Option Int
  waiter : UInt32
  deriving DecidableEq, Repr

structure W where
  tasks : Table
  pc : Slot → Pc
  nextId : UInt32
  bkl : Option Slot
  forked : List (UInt32 × UInt32)
  exited : List (UInt32 × Int)
  returned : List Ret

def setPc (s : W) (t : Slot) (p : Pc) : W := { s with pc := Function.update s.pc t p }

/-! ## Wait -/

/-- The status of the zombie in slot `i` goes to `t`, and its slot is cleared.
task.c:1151-1188 and syscall.c:1349-1353 -/
def harvest (s : W) (t i : Slot) : W :=
  let c := s.tasks i
  { s with
    tasks := s.tasks.modify i Task.clear
    returned := if c.id = 0 then s.returned
      else s.returned ++
        [⟨c.id, if c.id.toNat < 2 ^ 31 then some c.exitCode else none, (s.tasks t).id⟩] }

/-- task.c:1146-1149 -/
def zombieOf (ts : Table) (t i : Slot) : Bool :=
  (ts i).state = .zombie && (ts i).parentId = (ts t).id

/-- task.c:1146-1190 and 1207-1208 -/
def scanStep (s : W) (t : Slot) (n : Nat) : W :=
  if h : n < taskMax then
    if zombieOf s.tasks t ⟨n, h⟩ then
      setPc (harvest s t ⟨n, h⟩) t (if (s.tasks ⟨n, h⟩).id = 0 then .look 0 else .user)
    else setPc s t (.scan (n + 1))
  else setPc s t (.look 0)

/-- task.c:1195-1210 -/
def lookStep (s : W) (t : Slot) (n : Nat) : W :=
  if h : n < taskMax then
    let c := s.tasks ⟨n, h⟩
    if c.parentId = (s.tasks t).id ∧ c.state ≠ .unused ∧ c.state ≠ .dead then setPc s t .block
    else setPc s t (.look (n + 1))
  else setPc s t .user

/-! ## Exit -/

/-- Under the lock: the exit code is stored. task.c:1045-1047,1087 -/
def exitStart (initPid : UInt32) (s : W) (t : Slot) (code : Int) : W :=
  { setPc s t (if initPid ≠ 0 ∧ (s.tasks t).id ≠ initPid then .adopting 0 else .waking) with
    tasks := s.tasks.modify t fun k => { k with exitCode := code }
    bkl := some t }

def adoptStep (initPid : UInt32) (s : W) (t : Slot) (n : Nat) : W :=
  if h : n < taskMax then
    { setPc s t (.adopting (n + 1)) with
      tasks := adoptOne (s.tasks t).id initPid s.tasks ⟨n, h⟩ }
  else setPc s t .waking

def wakeStep (s : W) (t : Slot) : W :=
  let parent := parentOf s.tasks t
  { setPc s t (.marking parent.isSome) with tasks := wakeParent s.tasks parent }

/-- The last write of the exit; the lock is dropped. task.c:1127-1131 -/
def markStep (s : W) (t : Slot) (parent : Bool) : W :=
  let k := s.tasks t
  { setPc s t .gone with
    tasks := s.tasks.modify t fun k => { k with state := if parent then .zombie else .dead }
    bkl := none
    exited := if k.parentId = 0 then s.exited else s.exited ++ [(k.id, k.exitCode)] }

/-! ## Other calls under the lock -/

def spawn (s : W) (parentId : UInt32) : W :=
  match findFreeSlot s.tasks with
  | none => s
  | some i =>
    { setPc s i .user with
      tasks := s.tasks.modify i fun _ =>
        { Task.zero with
          id := s.nextId, state := .ready, cpu := -1, isUser := true, parentId := parentId }
      nextId := s.nextId + 1
      forked := if parentId = 0 then s.forked else s.forked ++ [(s.nextId, parentId)] }

/-- task.c:1219-1225 -/
def waitNb (s : W) (t : Slot) : W :=
  match firstSlot 0 (zombieOf s.tasks t) with
  | none => s
  | some i => harvest s t i

/-! ## The system -/

inductive Lbl
  | wait (t : Slot)
  | waitNb (t : Slot)
  | exit (t : Slot) (code : Int)
  | fork (t : Slot)
  | createUser
  /-- the next step of the wait or exit that `t` is in -/
  | step (t : Slot)
  | sched (t : Slot) (st : TaskState)
  | reaper (i : Slot)

def inUser (s : W) (t : Slot) : Prop :=
  s.pc t = .user ∧ (s.tasks t).state = .running ∧ (s.tasks t).isUser = true

instance (s : W) (t : Slot) : Decidable (inUser s t) := by
  unfold inUser; infer_instance

def Pc.exiting : Pc → Bool
  | .adopting _ | .waking | .marking _ => true
  | _ => false

/-- From the start of a scan to the block that ends it. -/
def Pc.inWindow : Pc → Bool
  | .scan _ | .look _ | .block => true
  | _ => false

def isShared (st : TaskState) : Bool :=
  st = .ready || st = .running || st = .blocked || st = .stopped

variable (initPid : UInt32)

def micro (s : W) (t : Slot) : Option W :=
  match s.pc t with
  | .user | .gone => none
  | .adopting n => some (adoptStep initPid s t n)
  | .waking => some (wakeStep s t)
  | .marking b => some (markStep s t b)
  | .scan n => if (s.tasks t).state = .running then some (scanStep s t n) else none
  | .look n => if (s.tasks t).state = .running then some (lookStep s t n) else none
  | .block =>
    if (s.tasks t).state = .running then
      some { setPc s t .asleep with
        tasks := s.tasks.modify t fun k => { k with state := .blockedOnChild } }
    else none
  | .asleep => if (s.tasks t).state = .running then some (setPc s t (.scan 0)) else none

def step (s : W) : Lbl → Option W
  | .wait t => if inUser s t then some (setPc s t (.scan 0)) else none
  | .waitNb t => if inUser s t ∧ s.bkl = none then some (waitNb s t) else none
  | .exit t code =>
    if inUser s t ∧ s.bkl = none then some (exitStart initPid s t code) else none
  | .fork t => if inUser s t ∧ s.bkl = none then some (spawn s (s.tasks t).id) else none
  | .createUser => if s.bkl = none then some (spawn s 0) else none
  | .step t => micro initPid s t
  | .sched t st =>
    if isShared (s.tasks t).state ∧ isShared st then
      some { s with tasks := s.tasks.modify t fun k => { k with state := st } }
    else none
  | .reaper i =>
    if (s.tasks i).state = .dead ∧ s.bkl = none then
      some { s with tasks := s.tasks.modify i Task.clear }
    else none

def alive (k : Task) : Prop := k.state ≠ .unused ∧ k.state ≠ .zombie ∧ k.state ≠ .dead

instance (k : Task) : Decidable (alive k) := by
  unfold alive; infer_instance

/-- `init` runs, no other task has a parent yet, and nobody is in either call. -/
structure Booted (s : W) : Prop where
  bkl : s.bkl = none
  small : s.nextId.toNat < 2 ^ 31
  logs : s.forked = [] ∧ s.exited = [] ∧ s.returned = []
  slot : ∀ i, ((s.tasks i).state = .unused ∧ s.pc i = .gone) ∨
    (isShared (s.tasks i).state = true ∧ s.pc i = .user ∧ (s.tasks i).parentId = 0 ∧
      (s.tasks i).id.toNat < s.nextId.toNat)
  user : ∀ i, (s.tasks i).isUser = true → (s.tasks i).id ≠ 0
  ids : ∀ i j, alive (s.tasks i) → alive (s.tasks j) → (s.tasks i).id = (s.tasks j).id →
    (s.tasks i).id ≠ 0 → i = j
  init : initPid ≠ 0 ∧ ∃ i, alive (s.tasks i) ∧ (s.tasks i).id = initPid

def waitLTS : LTS W Lbl := .ofFn (Booted initPid) (step initPid)

/-! ## The steps that lose no wake-up -/

/-- While a task scans and until it has blocked, none of its children turns into a
zombie and no zombie is handed to it, and it does not block while a child is
between waking it and turning into a zombie. Besides, `init` does not exit and pids
stay positive as an `int`. -/
def Orderly (s : W) : Lbl → Prop
  | .exit t _ => (s.tasks t).id ≠ initPid
  | .fork _ | .createUser => s.nextId.toNat + 1 < 2 ^ 31
  | .step t =>
    match s.pc t with
    | .marking _ => ∀ p, (s.tasks p).id = (s.tasks t).parentId → (s.pc p).inWindow = false
    | .adopting n => ∀ i : Slot, i.val = n → (s.tasks i).state = .zombie →
        (s.tasks i).parentId = (s.tasks t).id →
        ∀ p, (s.tasks p).id = initPid → (s.pc p).inWindow = false
    | .block => ∀ c b, s.pc c = .marking b → (s.tasks c).parentId ≠ (s.tasks t).id
    | _ => True
  | _ => True

/-- How often waits have returned a pid. -/
def timesReturned (s : W) (pid : UInt32) : Nat := s.returned.countP (·.pid = pid)

/-- A status that was returned once, to the task that forked the child or to
`init`. -/
def Delivered (s : W) (pid : UInt32) (code : Int) : Prop :=
  timesReturned s pid = 1 ∧ ∃ r ∈ s.returned, r.pid = pid ∧ r.code = some code ∧
    ((pid, r.waiter) ∈ s.forked ∨ r.waiter = initPid)

def present (k : Task) : Prop := k.state ≠ .unused

/-- None of the slots below `n` is a zombie child of `t`. -/
def NoZombie (ts : Table) (t : Slot) (n : Nat) : Prop :=
  ∀ c : Slot, c.val < n → (ts c).state = .zombie → (ts c).parentId ≠ (ts t).id

/-- None of the slots below `n` is a child of `t`. -/
def NoChild (ts : Table) (t : Slot) (n : Nat) : Prop :=
  ∀ c : Slot, c.val < n → present (ts c) → (ts c).parentId ≠ (ts t).id

def ParentAwake (ts : Table) (t : Slot) : Prop :=
  ∀ p, present (ts p) → (ts p).id = (ts t).parentId → (ts t).parentId ≠ 0 →
    (ts p).state ≠ .blockedOnChild

def Exiting (s : W) (t : Slot) : Prop :=
  (s.tasks t).isUser = true ∧ (s.tasks t).id ≠ initPid ∧ s.bkl = some t

/-- What holds of a task at each point of the two calls. -/
def TaskOk (s : W) (t : Slot) : Prop :=
  match s.pc t with
  | .gone => ¬ alive (s.tasks t)
  | .asleep => alive (s.tasks t) ∧
      ((s.tasks t).state = .blockedOnChild → NoZombie s.tasks t taskMax)
  | .user => alive (s.tasks t) ∧ (s.tasks t).state ≠ .blockedOnChild
  | .scan n => alive (s.tasks t) ∧ (s.tasks t).state ≠ .blockedOnChild ∧ NoZombie s.tasks t n
  | .look _ | .block => alive (s.tasks t) ∧ (s.tasks t).state ≠ .blockedOnChild ∧
      NoZombie s.tasks t taskMax
  | .adopting n => alive (s.tasks t) ∧ (s.tasks t).state ≠ .blockedOnChild ∧
      Exiting initPid s t ∧ NoChild s.tasks t n
  | .waking => alive (s.tasks t) ∧ (s.tasks t).state ≠ .blockedOnChild ∧
      Exiting initPid s t ∧ NoChild s.tasks t taskMax
  | .marking b => alive (s.tasks t) ∧ (s.tasks t).state ≠ .blockedOnChild ∧
      Exiting initPid s t ∧ NoChild s.tasks t taskMax ∧
      (b = true ↔ (s.tasks t).parentId ≠ 0) ∧ ParentAwake s.tasks t

structure Ids (s : W) : Prop where
  small : s.nextId.toNat < 2 ^ 31
  lt : ∀ i, present (s.tasks i) → (s.tasks i).id.toNat < s.nextId.toNat
  inj : ∀ i j, present (s.tasks i) → present (s.tasks j) → (s.tasks i).id = (s.tasks j).id →
    (s.tasks i).id ≠ 0 → i = j
  user : ∀ i, (s.tasks i).isUser = true → (s.tasks i).id ≠ 0

structure Logs (s : W) : Prop where
  lt : ∀ e ∈ s.exited, e.1.toNat < s.nextId.toNat
  fresh : ∀ i, alive (s.tasks i) → (s.tasks i).id ≠ 0 → ∀ e ∈ s.exited, e.1 ≠ (s.tasks i).id
  zombie : ∀ c, (s.tasks c).state = .zombie →
    ((s.tasks c).id, (s.tasks c).exitCode) ∈ s.exited ∧ timesReturned s (s.tasks c).id = 0
  exited : ∀ e ∈ s.exited, (timesReturned s e.1 = 0 ∧ ∃ c, (s.tasks c).state = .zombie ∧
      (s.tasks c).id = e.1 ∧ (s.tasks c).exitCode = e.2) ∨ Delivered initPid s e.1 e.2
  returned : ∀ r ∈ s.returned, ∃ e ∈ s.exited, e.1 = r.pid
  family : ∀ c, present (s.tasks c) → (s.tasks c).parentId ≠ 0 →
    ((s.tasks c).id, (s.tasks c).parentId) ∈ s.forked ∨ (s.tasks c).parentId = initPid

structure Inv (s : W) : Prop where
  ids : Ids s
  parent : ∀ c, present (s.tasks c) → (s.tasks c).state ≠ .dead → (s.tasks c).parentId ≠ 0 →
    ∃ p, alive (s.tasks p) ∧ (s.tasks p).id = (s.tasks c).parentId
  zombie : ∀ c, (s.tasks c).state = .zombie → (s.tasks c).id ≠ 0 ∧ (s.tasks c).parentId ≠ 0
  init : initPid ≠ 0 ∧ ∃ p, alive (s.tasks p) ∧ (s.tasks p).id = initPid ∧
    (s.pc p).exiting = false
  task : ∀ t, TaskOk initPid s t
  logs : Logs initPid s

variable {initPid} {s s' : W}

variable {i t u : Slot} {b : Bool} {ts : Table} {n : Nat}

theorem TaskOk.alive_of (h : TaskOk initPid s t) (hpc : s.pc t ≠ .gone) :
    alive (s.tasks t) := by
  unfold TaskOk at h
  split at h
  all_goals first | exact h.1 | (rename_i he; exact absurd he hpc)

theorem TaskOk.exiting (h : TaskOk initPid s t) (hpc : (s.pc t).exiting = true) :
    Exiting initPid s t := by
  unfold TaskOk at h
  split at h
  all_goals first | exact h.2.2.1 | (rename_i he; rw [he] at hpc; cases hpc)

theorem TaskOk.blocked (h : TaskOk initPid s t)
    (hst : (s.tasks t).state = .blockedOnChild) : NoZombie s.tasks t taskMax := by
  unfold TaskOk at h
  split at h
  all_goals first | exact h.2 hst | exact absurd hst h.2 | exact absurd hst h.2.1 | skip
  exact absurd ⟨by rw [hst]; decide, by rw [hst]; decide, by rw [hst]; decide⟩ h

theorem TaskOk.mono (h : TaskOk initPid s t) (hpc : s'.pc t = s.pc t)
    (hal : alive (s'.tasks t) ↔ alive (s.tasks t))
    (hbo : (s'.tasks t).state = .blockedOnChild → (s.tasks t).state = .blockedOnChild)
    (hid : (s'.tasks t).id = (s.tasks t).id) (hus : (s'.tasks t).isUser = (s.tasks t).isUser)
    (hz : (s.pc t).inWindow = true ∨ (s'.tasks t).state = .blockedOnChild →
      ∀ c, (s'.tasks c).state = .zombie → (s'.tasks c).parentId = (s.tasks t).id →
        (s.tasks c).state = .zombie ∧ (s.tasks c).parentId = (s.tasks t).id)
    (hex : (s.pc t).exiting = true → s'.bkl = s.bkl ∧
      (∀ c, present (s'.tasks c) → (s'.tasks c).parentId = (s.tasks t).id →
        present (s.tasks c) ∧ (s.tasks c).parentId = (s.tasks t).id) ∧
      (s'.tasks t).parentId = (s.tasks t).parentId)
    (hmk : ∀ b, s.pc t = .marking b → ParentAwake s'.tasks t) : TaskOk initPid s' t := by
  have hnz : ∀ n, ((s.pc t).inWindow = true ∨ (s'.tasks t).state = .blockedOnChild) →
      NoZombie s.tasks t n → NoZombie s'.tasks t n := by
    intro n hw hn c hc hzc hp
    rw [hid] at hp
    obtain ⟨h1, h2⟩ := hz hw c hzc hp
    exact hn c hc h1 h2
  have hnc : ∀ n, (s.pc t).exiting = true → NoChild s.tasks t n → NoChild s'.tasks t n := by
    intro n he hn c hc hpr hp
    rw [hid] at hp
    obtain ⟨h1, h2⟩ := (hex he).2.1 c hpr hp
    exact hn c hc h1 h2
  have hxx : (s.pc t).exiting = true → Exiting initPid s t → Exiting initPid s' t := by
    intro he hx
    exact ⟨by rw [hus]; exact hx.1, by rw [hid]; exact hx.2.1, by rw [(hex he).1]; exact hx.2.2⟩
  unfold TaskOk at h ⊢
  rw [hpc]
  split at h <;> rename_i he
  · exact fun ha => h (hal.mp ha)
  · exact ⟨hal.mpr h.1, fun hb => hnz _ (.inr hb) (h.2 (hbo hb))⟩
  · exact ⟨hal.mpr h.1, fun hb => h.2 (hbo hb)⟩
  · exact ⟨hal.mpr h.1, fun hb => h.2.1 (hbo hb), hnz _ (.inl (by rw [he]; rfl)) h.2.2⟩
  · exact ⟨hal.mpr h.1, fun hb => h.2.1 (hbo hb), hnz _ (.inl (by rw [he]; rfl)) h.2.2⟩
  · exact ⟨hal.mpr h.1, fun hb => h.2.1 (hbo hb), hnz _ (.inl (by rw [he]; rfl)) h.2.2⟩
  · have hexit : (s.pc t).exiting = true := by rw [he]; rfl
    exact ⟨hal.mpr h.1, fun hb => h.2.1 (hbo hb), hxx hexit h.2.2.1, hnc _ hexit h.2.2.2⟩
  · have hexit : (s.pc t).exiting = true := by rw [he]; rfl
    exact ⟨hal.mpr h.1, fun hb => h.2.1 (hbo hb), hxx hexit h.2.2.1, hnc _ hexit h.2.2.2⟩
  · have hexit : (s.pc t).exiting = true := by rw [he]; rfl
    refine ⟨hal.mpr h.1, fun hb => h.2.1 (hbo hb), hxx hexit h.2.2.1, hnc _ hexit h.2.2.2.1, ?_,
      hmk _ he⟩
    rw [(hex hexit).2.2]
    exact h.2.2.2.2.1

/-! ### Steps that neither fill nor clear a slot -/

/-- No task appears, exits or is reaped; children may be handed to `init`. -/
structure Calm (initPid : UInt32) (ts ts' : Table) : Prop where
  id : ∀ i, (ts' i).id = (ts i).id
  user : ∀ i, (ts' i).isUser = (ts i).isUser
  state : ∀ i, (ts' i).state = (ts i).state ∨ (alive (ts i) ∧ alive (ts' i))
  code : ∀ i, (ts i).state = .zombie → (ts' i).exitCode = (ts i).exitCode
  parent : ∀ i, (ts' i).parentId = (ts i).parentId ∨
    ((ts i).parentId ≠ 0 ∧ (ts' i).parentId = initPid)

namespace Calm

variable {ts ts' : Table}

theorem refl (ts : Table) : Calm initPid ts ts :=
  ⟨fun _ => rfl, fun _ => rfl, fun _ => .inl rfl, fun _ _ => rfl, fun _ => .inl rfl⟩

theorem alive_iff (h : Calm initPid ts ts') (i : Slot) : alive (ts' i) ↔ alive (ts i) := by
  rcases h.state i with he | ⟨h1, h2⟩
  · unfold alive
    rw [he]
  · exact ⟨fun _ => h1, fun _ => h2⟩

theorem zombie_iff (h : Calm initPid ts ts') (i : Slot) :
    (ts' i).state = .zombie ↔ (ts i).state = .zombie := by
  rcases h.state i with he | ⟨h1, h2⟩
  · rw [he]
  · exact ⟨fun hz => absurd hz h2.2.1, fun hz => absurd hz h1.2.1⟩

theorem dead_iff (h : Calm initPid ts ts') (i : Slot) :
    (ts' i).state = .dead ↔ (ts i).state = .dead := by
  rcases h.state i with he | ⟨h1, h2⟩
  · rw [he]
  · exact ⟨fun hz => absurd hz h2.2.2, fun hz => absurd hz h1.2.2⟩

theorem present_iff (h : Calm initPid ts ts') (i : Slot) : present (ts' i) ↔ present (ts i) := by
  rcases h.state i with he | ⟨h1, h2⟩
  · unfold present
    rw [he]
  · exact ⟨fun _ => h1.1, fun _ => h2.1⟩

theorem setState {t : Slot} {st : TaskState} (h : alive (ts t))
    (hst : st ≠ .unused ∧ st ≠ .zombie ∧ st ≠ .dead) :
    Calm initPid ts (ts.modify t fun k => { k with state := st }) where
  id := Table.modify_field (·.id) rfl
  user := Table.modify_field (·.isUser) rfl
  state := by
    intro i
    by_cases hi : i = t
    · subst hi
      rw [Table.modify_self]
      exact .inr ⟨h, hst⟩
    · rw [Table.modify_of_ne _ hi]
      exact .inl rfl
  code := fun i _ => Table.modify_field (·.exitCode) rfl i
  parent := fun i => .inl (Table.modify_field (·.parentId) rfl i)

theorem woken {k k' : Task} (h : Woken k k') :
    k'.id = k.id ∧ k'.isUser = k.isUser ∧ k'.exitCode = k.exitCode ∧
      (k'.state = k.state ∨ (alive k ∧ alive k')) := by
  obtain ⟨st, p, rfl, rfl | ⟨hb, rfl⟩⟩ := h
  · exact ⟨rfl, rfl, rfl, .inl rfl⟩
  · refine ⟨rfl, rfl, rfl, .inr ⟨?_, ?_⟩⟩
    · unfold alive
      rw [hb]
      decide
    · refine ⟨?_, ?_, ?_⟩ <;> exact fun h => by cases h

theorem ofWoken {ts ts' : Table} (hw : ∀ i, Woken (ts i) (ts' i))
    (hp : ∀ i, (ts' i).parentId = (ts i).parentId ∨
      (ts i).parentId ≠ 0 ∧ (ts' i).parentId = initPid) : Calm initPid ts ts' :=
  ⟨fun i => (woken (hw i)).1, fun i => (woken (hw i)).2.1, fun i => (woken (hw i)).2.2.2,
    fun i _ => (woken (hw i)).2.2.1, hp⟩

theorem blocked_of_woken {k k' : Task} (h : Woken k k') (hb : k'.state = .blockedOnChild) :
    k.state = .blockedOnChild := by
  obtain ⟨st, p, rfl, rfl | ⟨-, rfl⟩⟩ := h
  · exact hb
  · cases hb

end Calm

theorem Inv.calm (hi : Inv initPid s) (hc : Calm initPid s.tasks s'.tasks)
    (hlog : s'.nextId = s.nextId ∧ s'.forked = s.forked ∧ s'.exited = s.exited ∧
      s'.returned = s.returned)
    (hx : ∀ p, (s.pc p).exiting = false → (s.tasks p).id = initPid → (s'.pc p).exiting = false)
    (ht : ∀ t, TaskOk initPid s' t) : Inv initPid s' := by
  obtain ⟨hn, hf, he, hr⟩ := hlog
  have htr : ∀ pid, timesReturned s' pid = timesReturned s pid := by
    intro pid
    rw [timesReturned, timesReturned, hr]
  refine ⟨?_, ?_, ?_, ?_, ht, ?_⟩
  · refine ⟨by rw [hn]; exact hi.ids.small, ?_, ?_, ?_⟩
    · intro i hp
      rw [hc.id, hn]
      exact hi.ids.lt i ((hc.present_iff i).mp hp)
    · intro i j hpi hpj
      rw [hc.id, hc.id]
      exact hi.ids.inj i j ((hc.present_iff i).mp hpi) ((hc.present_iff j).mp hpj)
    · intro i
      rw [hc.user, hc.id]
      exact hi.ids.user i
  · intro c hp hd h0
    rcases hc.parent c with hpar | ⟨-, hpar⟩
    · rw [hpar] at h0 ⊢
      obtain ⟨p, hal, hid⟩ := hi.parent c ((hc.present_iff c).mp hp)
        (fun h => hd ((hc.dead_iff c).mpr h)) h0
      exact ⟨p, (hc.alive_iff p).mpr hal, by rw [hc.id]; exact hid⟩
    · obtain ⟨p, hal, hid, -⟩ := hi.init.2
      exact ⟨p, (hc.alive_iff p).mpr hal, by rw [hc.id, hpar]; exact hid⟩
  · intro c hz
    have h := hi.zombie c ((hc.zombie_iff c).mp hz)
    rw [hc.id]
    refine ⟨h.1, ?_⟩
    rcases hc.parent c with hpar | ⟨-, hpar⟩
    · rw [hpar]
      exact h.2
    · rw [hpar]
      exact hi.init.1
  · obtain ⟨h0, p, hal, hid, hexit⟩ := hi.init
    exact ⟨h0, p, (hc.alive_iff p).mpr hal, by rw [hc.id]; exact hid, hx p hexit hid⟩
  · refine ⟨?_, ?_, ?_, ?_, ?_, ?_⟩
    · rw [he, hn]
      exact hi.logs.lt
    · intro i hal
      rw [hc.id, he]
      exact hi.logs.fresh i ((hc.alive_iff i).mp hal)
    · intro c hz
      have hz' := (hc.zombie_iff c).mp hz
      rw [hc.id, hc.code c hz', he, htr]
      exact hi.logs.zombie c hz'
    · intro e hmem
      rw [he] at hmem
      rcases hi.logs.exited e hmem with ⟨h1, c, hz, hid, hcode⟩ | ⟨h1, r, hmr, h2⟩
      · refine .inl ⟨by rw [htr]; exact h1, c, (hc.zombie_iff c).mpr hz, ?_, ?_⟩
        · rw [hc.id]
          exact hid
        · rw [hc.code c hz]
          exact hcode
      · exact .inr ⟨by rw [htr]; exact h1, r, by rw [hr]; exact hmr, by rw [hf]; exact h2⟩
    · intro r hmr
      rw [hr] at hmr
      rw [he]
      exact hi.logs.returned r hmr
    · intro c hp h0
      rw [hc.id, hf]
      rcases hc.parent c with hpar | ⟨-, hpar⟩
      · rw [hpar] at h0 ⊢
        exact hi.logs.family c ((hc.present_iff c).mp hp) h0
      · exact .inr hpar

@[simp] theorem setPc_self (s : W) (t : Slot) (p : Pc) : (setPc s t p).pc t = p := by
  simp [setPc]

theorem setPc_of_ne (p : Pc) (h : u ≠ t) : (setPc s t p).pc u = s.pc u := by
  simp [setPc, h]

theorem Inv.calmAt (hi : Inv initPid s) {p : Pc} (hc : Calm initPid s.tasks s'.tasks)
    (hlog : s'.nextId = s.nextId ∧ s'.forked = s.forked ∧ s'.exited = s.exited ∧
      s'.returned = s.returned)
    (hpc : s'.pc = (setPc s t p).pc) (hex : (s.tasks t).id = initPid → p.exiting = false)
    (ht : TaskOk initPid s' t) (hu : ∀ u, u ≠ t → s'.pc u = s.pc u → TaskOk initPid s' u) :
    Inv initPid s' := by
  have hne : ∀ u, u ≠ t → s'.pc u = s.pc u := fun u h => by rw [hpc, setPc_of_ne _ h]
  refine hi.calm hc hlog ?_ ?_
  · intro q hq hid
    by_cases h : q = t
    · subst h
      rw [hpc, setPc_self]
      exact hex hid
    · rw [hne q h]
      exact hq
  · intro u
    by_cases h : u = t
    · rw [h]
      exact ht
    · exact hu u h (hne u h)

theorem Inv.parentAwake (hi : Inv initPid s) (h : s.pc t = .marking b) :
    ParentAwake s.tasks t := by
  have ht := hi.task t
  rw [TaskOk, h] at ht
  exact ht.2.2.2.2.2

theorem Inv.bystander (hi : Inv initPid s) (hc : Calm initPid s.tasks s'.tasks)
    (hpar : ∀ i, (s'.tasks i).parentId = (s.tasks i).parentId)
    (hpc : s'.pc u = s.pc u) (hbkl : (s.pc u).exiting = true → s'.bkl = s.bkl)
    (hbo : (s'.tasks u).state = .blockedOnChild → (s.tasks u).state = .blockedOnChild)
    (hmk : ∀ b, s.pc u = .marking b → ∀ p, (s.tasks p).id = (s.tasks u).parentId →
      (s'.tasks p).state = .blockedOnChild → (s.tasks p).state = .blockedOnChild) :
    TaskOk initPid s' u := by
  refine (hi.task u).mono hpc (hc.alive_iff u) hbo (hc.id u) (hc.user u) ?_ ?_ ?_
  · intro _ c hz hp
    rw [hpar] at hp
    exact ⟨(hc.zombie_iff c).mp hz, hp⟩
  · refine fun he => ⟨hbkl he, ?_, hpar u⟩
    intro c hpr hp
    rw [hpar] at hp
    exact ⟨(hc.present_iff c).mp hpr, hp⟩
  · intro b hb p hpr hp h0 hbl
    rw [hpar] at hp h0
    rw [hc.id] at hp
    exact hi.parentAwake hb p ((hc.present_iff p).mp hpr) hp h0 (hmk b hb p hp hbl)

theorem Inv.setPc (hi : Inv initPid s) {p : Pc}
    (hex : (s.tasks t).id = initPid → p.exiting = false)
    (ht : TaskOk initPid (setPc s t p) t) : Inv initPid (WaitExit.setPc s t p) := by
  refine hi.calmAt (.refl _) ⟨rfl, rfl, rfl, rfl⟩ rfl hex ht ?_
  intro u _ hu
  exact hi.bystander (.refl _) (fun _ => rfl) hu (fun _ => rfl) id fun _ _ _ _ => id

theorem NoZombie.zero (ts : Table) (t : Slot) : NoZombie ts t 0 :=
  fun _ h => absurd h (Nat.not_lt_zero _)

theorem NoZombie.all (h : NoZombie ts t n) (hn : taskMax ≤ n) :
    NoZombie ts t taskMax :=
  fun c hc => h c (Nat.lt_of_lt_of_le hc hn)

theorem NoZombie.succ (h : NoZombie ts t n) (hn : n < taskMax)
    (hz : zombieOf ts t ⟨n, hn⟩ = false) : NoZombie ts t (n + 1) := by
  intro c hc hcz hp
  by_cases he : c.val = n
  · obtain rfl : c = ⟨n, hn⟩ := Fin.ext he
    simp [zombieOf, hcz, hp] at hz
  · exact h c (by omega) hcz hp

theorem Inv.wait (hi : Inv initPid s) (hu : inUser s t) :
    Inv initPid (WaitExit.setPc s t (.scan 0)) := by
  refine hi.setPc (fun _ => rfl) ?_
  have ht := hi.task t
  rw [TaskOk, hu.1] at ht
  rw [TaskOk, setPc_self]
  exact ⟨ht.1, ht.2, NoZombie.zero _ _⟩

theorem Inv.resume (hi : Inv initPid s) (hpc : s.pc t = .asleep)
    (hr : (s.tasks t).state = .running) : Inv initPid (WaitExit.setPc s t (.scan 0)) := by
  refine hi.setPc (fun _ => rfl) ?_
  have ht := hi.task t
  rw [TaskOk, hpc] at ht
  rw [TaskOk, setPc_self]
  exact ⟨ht.1, (fun hb => by cases hr.symm.trans hb), NoZombie.zero _ _⟩

theorem Inv.look (hi : Inv initPid s) (hpc : s.pc t = .look n) :
    Inv initPid (lookStep s t n) := by
  have ht := hi.task t
  rw [TaskOk, hpc] at ht
  unfold lookStep
  split
  · dsimp only
    split
    · refine hi.setPc (fun _ => rfl) ?_
      rw [TaskOk, setPc_self]
      exact ht
    · refine hi.setPc (fun _ => rfl) ?_
      rw [TaskOk, setPc_self]
      exact ht
  · refine hi.setPc (fun _ => rfl) ?_
    rw [TaskOk, setPc_self]
    exact ⟨ht.1, ht.2.1⟩

theorem Inv.block (hi : Inv initPid s) (hpc : s.pc t = .block)
    (hm : ∀ c b, s.pc c = .marking b → (s.tasks c).parentId ≠ (s.tasks t).id) :
    Inv initPid { WaitExit.setPc s t .asleep with
      tasks := s.tasks.modify t fun k => { k with state := .blockedOnChild } } := by
  have ht := hi.task t
  rw [TaskOk, hpc] at ht
  have hc : Calm initPid s.tasks
      (s.tasks.modify t fun k => { k with state := .blockedOnChild }) :=
    .setState ht.1 (by decide)
  have hpar : ∀ i, (s.tasks.modify t (fun k => { k with state := .blockedOnChild }) i).parentId =
      (s.tasks i).parentId := Table.modify_field (·.parentId) rfl
  refine hi.calmAt hc ⟨rfl, rfl, rfl, rfl⟩ rfl (fun _ => rfl) ?_ ?_
  · have hp : (WaitExit.setPc s t .asleep).pc t = .asleep := setPc_self ..
    simp only [TaskOk, hp]
    refine ⟨(hc.alive_iff t).mpr ht.1, fun _ c hcn hz => ?_⟩
    rw [hpar, hc.id]
    exact ht.2.2 c hcn ((hc.zombie_iff c).mp hz)
  · intro u h hu
    have hne : ∀ p, p ≠ t →
        s.tasks.modify t (fun k => { k with state := .blockedOnChild }) p = s.tasks p :=
      fun p hp => Table.modify_of_ne _ hp
    refine hi.bystander hc hpar hu (fun _ => rfl) ?_ ?_
    · exact fun hb => hne u h ▸ hb
    · -- the task that blocks is not the parent of one that is about to be a zombie
      intro b hb p hp hbl
      have hpt : p ≠ t := by
        rintro rfl
        exact hm u b hb hp.symm
      exact hne p hpt ▸ hbl

theorem isShared_live {st : TaskState} (h : isShared st = true) :
    (st ≠ .unused ∧ st ≠ .zombie ∧ st ≠ .dead) ∧ st ≠ .blockedOnChild := by
  refine ⟨⟨?_, ?_, ?_⟩, ?_⟩ <;> (rintro rfl; simp [isShared] at h)

theorem Inv.sched (hi : Inv initPid s) {st : TaskState}
    (hold : isShared (s.tasks t).state = true) (hst : isShared st = true) :
    Inv initPid { s with tasks := s.tasks.modify t fun k => { k with state := st } } := by
  have hc : Calm initPid s.tasks (s.tasks.modify t fun k => { k with state := st }) :=
    .setState (isShared_live hold).1 (isShared_live hst).1
  have hpar : ∀ i, (s.tasks.modify t (fun k => { k with state := st }) i).parentId =
      (s.tasks i).parentId := Table.modify_field (·.parentId) rfl
  have hbo : ∀ i, (s.tasks.modify t (fun k => { k with state := st }) i).state = .blockedOnChild →
      (s.tasks i).state = .blockedOnChild := by
    intro i hb
    by_cases h : i = t
    · subst h
      rw [Table.modify_self] at hb
      exact absurd hb (isShared_live hst).2
    · rw [Table.modify_of_ne _ h] at hb
      exact hb
  refine hi.calm hc ⟨rfl, rfl, rfl, rfl⟩ (fun q hq _ => hq) ?_
  intro u
  exact hi.bystander hc hpar rfl (fun _ => rfl) (hbo u) fun _ _ p _ => hbo p

/-! ### Clearing a slot -/

theorem not_alive_clear (k : Task) : ¬ alive k.clear := fun h => h.1 rfl

theorem Inv.clear_task (hi : Inv initPid s) (hdead : ¬ alive (s.tasks i))
    (hpc : s'.pc = s.pc) (hbkl : s'.bkl = s.bkl) (htk : s'.tasks = s.tasks.modify i Task.clear)
    (u : Slot) : TaskOk initPid s' u := by
  have hother : ∀ c, c ≠ i → s'.tasks c = s.tasks c := by
    intro c hc
    rw [htk, Table.modify_of_ne _ hc]
  have hself : s'.tasks i = (s.tasks i).clear := by rw [htk, Table.modify_self]
  have hne : ∀ c, present (s'.tasks c) → c ≠ i := by
    rintro c hp rfl
    rw [hself] at hp
    exact hp rfl
  by_cases h : u = i
  · subst h
    have hg : s.pc u = .gone := by
      by_contra hg
      exact hdead ((hi.task u).alive_of hg)
    rw [TaskOk, hpc, hg]
    rw [hself]
    exact not_alive_clear _
  · have hu := hother u h
    refine (hi.task u).mono (by rw [hpc]) (by rw [hu]) (by rw [hu]; exact id) (by rw [hu])
      (by rw [hu]) ?_ ?_ ?_
    · intro _ c hz hp
      have hci := hne c (by unfold present; rw [hz]; decide)
      rw [hother c hci] at hz hp
      exact ⟨hz, hp⟩
    · refine fun _ => ⟨hbkl, ?_, by rw [hu]⟩
      intro c hpr hp
      have hci := hne c hpr
      rw [hother c hci] at hpr hp
      exact ⟨hpr, hp⟩
    · intro b hb p hpr hp h0 hbl
      rw [hu] at hp h0
      have hpi := hne p hpr
      rw [hother p hpi] at hpr hp hbl
      exact hi.parentAwake hb p hpr hp h0 hbl

theorem Inv.clear (hi : Inv initPid s) (hdead : ¬ alive (s.tasks i))
    (hpc : s'.pc = s.pc) (hbkl : s'.bkl = s.bkl) (htk : s'.tasks = s.tasks.modify i Task.clear)
    (hn : s'.nextId = s.nextId) (hlogs : Logs initPid s') : Inv initPid s' := by
  have hother : ∀ c, c ≠ i → s'.tasks c = s.tasks c := by
    intro c hc
    rw [htk, Table.modify_of_ne _ hc]
  have hself : s'.tasks i = (s.tasks i).clear := by rw [htk, Table.modify_self]
  have hne : ∀ c, present (s'.tasks c) → c ≠ i := by
    rintro c hp rfl
    rw [hself] at hp
    exact hp rfl
  have halive : ∀ p, alive (s.tasks p) → s'.tasks p = s.tasks p := by
    intro p hp
    apply hother
    rintro rfl
    exact hdead hp
  refine ⟨⟨by rw [hn]; exact hi.ids.small, ?_, ?_, ?_⟩, ?_, ?_, ?_,
    hi.clear_task hdead hpc hbkl htk, hlogs⟩
  · intro c hp
    have hci := hne c hp
    rw [hother c hci] at hp ⊢
    rw [hn]
    exact hi.ids.lt c hp
  · intro c d hpc' hpd
    have hci := hne c hpc'
    have hdi := hne d hpd
    rw [hother c hci] at hpc' ⊢
    rw [hother d hdi] at hpd ⊢
    exact hi.ids.inj c d hpc' hpd
  · intro c hu
    by_cases h : c = i
    · rw [h, hself] at hu
      cases hu
    · rw [hother c h] at hu ⊢
      exact hi.ids.user c hu
  · intro c hp hd h0
    have hci := hne c hp
    rw [hother c hci] at hp hd h0 ⊢
    obtain ⟨p, hal, hid⟩ := hi.parent c hp hd h0
    exact ⟨p, by rw [halive p hal]; exact hal, by rw [halive p hal]; exact hid⟩
  · intro c hz
    have hci := hne c (by unfold present; rw [hz]; decide)
    rw [hother c hci] at hz ⊢
    exact hi.zombie c hz
  · obtain ⟨h0, p, hal, hid, hx⟩ := hi.init
    exact ⟨h0, p, by rw [halive p hal]; exact hal, by rw [halive p hal]; exact hid,
      by rw [hpc]; exact hx⟩

theorem Inv.reaper (hi : Inv initPid s) (hd : (s.tasks i).state = .dead) :
    Inv initPid { s with tasks := s.tasks.modify i Task.clear } := by
  have hdead : ¬ alive (s.tasks i) := fun h => h.2.2 hd
  refine hi.clear hdead rfl rfl rfl rfl ?_
  have hl := hi.logs
  have hother : ∀ c, c ≠ i → s.tasks.modify i Task.clear c = s.tasks c :=
    fun c hc => Table.modify_of_ne _ hc
  have hself : s.tasks.modify i Task.clear i = (s.tasks i).clear := Table.modify_self ..
  refine ⟨hl.lt, ?_, ?_, ?_, hl.returned, ?_⟩
  · intro c hal
    have hci : c ≠ i := by
      rintro rfl
      simp only [hself] at hal
      exact not_alive_clear _ hal
    have hc := hother c hci
    simp only [hc] at hal ⊢
    exact hl.fresh c hal
  · intro c hz
    have hci : c ≠ i := by
      rintro rfl
      simp only [hself] at hz
      cases hz
    have hc := hother c hci
    simp only [hc] at hz ⊢
    exact hl.zombie c hz
  · intro e he
    rcases hl.exited e he with ⟨h1, c, hz, h2, h3⟩ | hdel
    · have hci : c ≠ i := by
        rintro rfl
        cases hd.symm.trans hz
      have hc := hother c hci
      refine .inl ⟨h1, c, ?_, ?_, ?_⟩ <;> simp only [hc] <;> assumption
    · exact .inr hdel
  · intro c hp
    have hci : c ≠ i := by
      rintro rfl
      exact hp (by simp only [hself]; rfl)
    have hc := hother c hci
    simp only [hc] at hp ⊢
    exact hl.family c hp

theorem timesReturned_snoc {r : Ret} (hr : s'.returned = s.returned ++ [r]) (pid : UInt32) :
    timesReturned s' pid = timesReturned s pid + if r.pid = pid then 1 else 0 := by
  rw [timesReturned, timesReturned, hr, countP_append, countP_singleton]
  by_cases h : r.pid = pid <;> simp [h]

theorem Inv.harvest (hi : Inv initPid s) (hz : zombieOf s.tasks t i = true) :
    Inv initPid (harvest s t i) := by
  simp only [zombieOf, Bool.and_eq_true, decide_eq_true_eq] at hz
  obtain ⟨hzi, hpar⟩ := hz
  have hdead : ¬ alive (s.tasks i) := fun h => h.2.1 hzi
  have hpi : present (s.tasks i) := by unfold present; rw [hzi]; decide
  obtain ⟨hid0, hp0⟩ := hi.zombie i hzi
  have hsmall : (s.tasks i).id.toNat < 2 ^ 31 := Nat.lt_trans (hi.ids.lt i hpi) hi.ids.small
  have hl := hi.logs
  have hret : (WaitExit.harvest s t i).returned = s.returned ++
      [⟨(s.tasks i).id, some (s.tasks i).exitCode, (s.tasks t).id⟩] := by
    simp only [WaitExit.harvest, if_neg hid0, if_pos hsmall]
  have htimes := timesReturned_snoc hret
  have hother : ∀ c, c ≠ i → (WaitExit.harvest s t i).tasks c = s.tasks c :=
    fun c hc => Table.modify_of_ne _ hc
  have hself : (WaitExit.harvest s t i).tasks i = (s.tasks i).clear := Table.modify_self ..
  have hne : ∀ c, present ((WaitExit.harvest s t i).tasks c) → c ≠ i := by
    rintro c hp rfl
    rw [hself] at hp
    exact hp rfl
  obtain ⟨hmem, hzero⟩ := hl.zombie i hzi
  refine hi.clear hdead rfl rfl rfl rfl ⟨hl.lt, ?_, ?_, ?_, ?_, ?_⟩
  · intro c hal
    have hci := hne c hal.1
    rw [hother c hci] at hal ⊢
    exact hl.fresh c hal
  · intro c hcz
    have hci := hne c (by unfold present; rw [hcz]; decide)
    rw [hother c hci] at hcz ⊢
    obtain ⟨h1, h2⟩ := hl.zombie c hcz
    refine ⟨h1, ?_⟩
    rw [htimes, h2, if_neg]
    intro he
    exact hci (hi.ids.inj c i (by unfold present; rw [hcz]; decide) hpi he.symm
      (hi.zombie c hcz).1)
  · intro e he
    rcases hl.exited e he with ⟨h1, c, hcz, h2, h3⟩ | ⟨h1, r, hr, h2⟩
    · by_cases hci : c = i
      · subst hci
        right
        refine ⟨?_, _, by rw [hret]; exact mem_append_right _ mem_cons_self, h2, ?_, ?_⟩
        · rw [htimes, h1, if_pos h2]
        · rw [h3]
        · have hf := hl.family c hpi hp0
          rw [hpar, h2] at hf
          exact hf
      · left
        refine ⟨?_, c, ?_, ?_, ?_⟩
        · rw [htimes, h1, if_neg]
          intro hei
          exact hci (hi.ids.inj c i (by unfold present; rw [hcz]; decide) hpi
            (h2.trans hei.symm) (hi.zombie c hcz).1)
        · rw [hother c hci]
          exact hcz
        · rw [hother c hci]
          exact h2
        · rw [hother c hci]
          exact h3
    · right
      refine ⟨?_, r, by rw [hret]; exact mem_append_left _ hr, h2⟩
      rw [htimes, h1, if_neg]
      intro hei
      rw [← hei, hzero] at h1
      cases h1
  · intro r hr
    rw [hret] at hr
    rcases mem_append.mp hr with hr | hr
    · exact hl.returned r hr
    · rw [mem_singleton.mp hr]
      exact ⟨_, hmem, rfl⟩
  · intro c hp
    have hci := hne c hp
    rw [hother c hci] at hp ⊢
    exact hl.family c hp

theorem Inv.scan (hi : Inv initPid s) (hpc : s.pc t = .scan n) :
    Inv initPid (scanStep s t n) := by
  have ht := hi.task t
  rw [TaskOk, hpc] at ht
  unfold scanStep
  split
  · rename_i hn
    split
    · rename_i hz
      have hh := hi.harvest hz
      have hz' := hz
      simp only [zombieOf, Bool.and_eq_true, decide_eq_true_eq] at hz'
      have hti : t ≠ ⟨n, hn⟩ := by
        rintro he
        exact ht.1.2.1 (by rw [he]; exact hz'.1)
      rw [if_neg (hi.zombie _ hz'.1).1]
      refine hh.setPc (fun _ => rfl) ?_
      rw [TaskOk, setPc_self]
      have hsame : (WaitExit.harvest s t ⟨n, hn⟩).tasks t = s.tasks t := Table.modify_of_ne _ hti
      show alive ((WaitExit.harvest s t ⟨n, hn⟩).tasks t) ∧
        ((WaitExit.harvest s t ⟨n, hn⟩).tasks t).state ≠ .blockedOnChild
      rw [hsame]
      exact ⟨ht.1, ht.2.1⟩
    · rename_i hz
      refine hi.setPc (fun _ => rfl) ?_
      rw [TaskOk, setPc_self]
      exact ⟨ht.1, ht.2.1, ht.2.2.succ hn (by simpa using hz)⟩
  · refine hi.setPc (fun _ => rfl) ?_
    rw [TaskOk, setPc_self]
    exact ⟨ht.1, ht.2.1, ht.2.2.all (by omega)⟩

/-! ### Filling a slot -/

theorem findFreeSlot_free (h : findFreeSlot ts = some i) :
    ¬ alive (ts i) ∧ (ts i).state ≠ .zombie := by
  have hp := (firstSlot_some h).2
  simp only [Bool.or_eq_true, decide_eq_true_eq] at hp
  rcases hp with hp | hp
  · exact ⟨fun ha => ha.1 hp, by rw [hp]; decide⟩
  · exact ⟨fun ha => ha.2.2 hp, by rw [hp]; decide⟩

theorem Inv.nextId_pos (hi : Inv initPid s) : 0 < s.nextId.toNat := by
  obtain ⟨-, p, hal, -⟩ := hi.init
  exact Nat.lt_of_le_of_lt (Nat.zero_le _) (hi.ids.lt p hal.1)

theorem Inv.spawn (hi : Inv initPid s) {pid : UInt32} (hb : s.bkl = none)
    (hn : s.nextId.toNat + 1 < 2 ^ 31)
    (hp : pid ≠ 0 → ∃ p, alive (s.tasks p) ∧ (s.tasks p).id = pid) :
    Inv initPid (spawn s pid) := by
  cases hf : findFreeSlot s.tasks with
  | none =>
    simp only [WaitExit.spawn, hf]
    exact hi
  | some i =>
    obtain ⟨hfree, hnz⟩ := findFreeSlot_free hf
    have hl := hi.logs
    generalize hk : ({ Task.zero with
      id := s.nextId, state := .ready, cpu := -1, isUser := true, parentId := pid } : Task) = k
    have hspawn : WaitExit.spawn s pid = { WaitExit.setPc s i .user with
        tasks := s.tasks.modify i fun _ => k
        nextId := s.nextId + 1
        forked := if pid = 0 then s.forked else s.forked ++ [(s.nextId, pid)] } := by
      simp only [WaitExit.spawn, hf, hk]
    have hkid : k.id = s.nextId := by rw [← hk]
    have hkpar : k.parentId = pid := by rw [← hk]
    have hkst : k.state = .ready := by rw [← hk]
    rw [hspawn]
    have hself : s.tasks.modify i (fun _ => k) i = k := Table.modify_self ..
    have hother : ∀ c, c ≠ i → s.tasks.modify i (fun _ => k) c = s.tasks c :=
      fun c hc => Table.modify_of_ne _ hc
    have halive : ∀ p, alive (s.tasks p) → s.tasks.modify i (fun _ => k) p = s.tasks p := by
      intro p hal
      apply hother
      rintro rfl
      exact hfree hal
    have hkal : alive k := by unfold alive; rw [hkst]; decide
    have hnext : (s.nextId + 1).toNat = s.nextId.toNat + 1 := by
      rw [UInt32.toNat_add, UInt32.toNat_one]
      omega
    have hfork : ∀ e ∈ s.forked,
        e ∈ (if pid = 0 then s.forked else s.forked ++ [(s.nextId, pid)]) := by
      intro e he
      split
      · exact he
      · exact mem_append_left _ he
    -- every other task keeps its id, which is below the new one
    have hidne : ∀ c, c ≠ i → present (s.tasks c) → (s.tasks c).id ≠ s.nextId := by
      intro c _ hpc he
      have hlt := hi.ids.lt c hpc
      rw [he] at hlt
      exact Nat.lt_irrefl _ hlt
    refine ⟨⟨?_, ?_, ?_, ?_⟩, ?_, ?_, ?_, ?_, ⟨?_, ?_, ?_, ?_, hl.returned, ?_⟩⟩
    · show (s.nextId + 1).toNat < 2 ^ 31
      rw [hnext]
      exact hn
    · intro c hpc
      show _ < (s.nextId + 1).toNat
      rw [hnext]
      by_cases hc : c = i
      · simp only [hc, hself, hkid]
        omega
      · simp only [hother c hc] at hpc ⊢
        exact Nat.lt_succ_of_lt (hi.ids.lt c hpc)
    · intro c d hpc hpd he h0
      by_cases hc : c = i <;> by_cases hd : d = i
      · rw [hc, hd]
      · simp only [hc, hself, hkid, hother d hd] at he hpd
        exact absurd he.symm (hidne d hd hpd)
      · simp only [hd, hself, hkid, hother c hc] at he hpc
        exact absurd he (hidne c hc hpc)
      · simp only [hother c hc, hother d hd] at he hpc hpd h0
        exact hi.ids.inj c d hpc hpd he h0
    · intro c hu
      by_cases hc : c = i
      · simp only [hc, hself, hkid]
        intro h0
        have := hi.nextId_pos
        rw [h0] at this
        exact absurd this (by decide)
      · simp only [hother c hc] at hu ⊢
        exact hi.ids.user c hu
    · intro c hpc hd h0
      by_cases hc : c = i
      · simp only [hc, hself, hkpar] at h0 ⊢
        obtain ⟨p, hal, hid⟩ := hp h0
        exact ⟨p, by simp only [halive p hal]; exact hal, by simp only [halive p hal]; exact hid⟩
      · simp only [hother c hc] at hpc hd h0 ⊢
        obtain ⟨p, hal, hid⟩ := hi.parent c hpc hd h0
        exact ⟨p, by simp only [halive p hal]; exact hal, by simp only [halive p hal]; exact hid⟩
    · intro c hz
      by_cases hc : c = i
      · simp only [hc, hself, hkst] at hz
        cases hz
      · simp only [hother c hc] at hz ⊢
        exact hi.zombie c hz
    · obtain ⟨h0, p, hal, hid, hx⟩ := hi.init
      have hpi : p ≠ i := by
        rintro rfl
        exact hfree hal
      refine ⟨h0, p, by simp only [halive p hal]; exact hal, by simp only [halive p hal]; exact hid, ?_⟩
      rw [setPc_of_ne _ hpi]
      exact hx
    · intro u
      by_cases hu : u = i
      · subst hu
        have hpu : (WaitExit.setPc s u .user).pc u = .user := setPc_self ..
        simp only [TaskOk, hpu, hself]
        exact ⟨hkal, by rw [hkst]; decide⟩
      · have hux := hother u hu
        have hnox : (s.pc u).exiting = true → False := by
          intro hx
          have := ((hi.task u).exiting hx).2.2
          rw [hb] at this
          cases this
        refine (hi.task u).mono (setPc_of_ne _ hu) (by simp only [hux]) (by simp only [hux]; exact id)
          (by simp only [hux]) (by simp only [hux]) ?_ (fun hx => (hnox hx).elim) ?_
        · intro _ c hz hpar
          have hc : c ≠ i := by
            rintro rfl
            simp only [hself, hkst] at hz
            cases hz
          simp only [hother c hc] at hz hpar
          exact ⟨hz, hpar⟩
        · intro b hm
          exact (hnox (by rw [hm]; rfl)).elim
    · intro e he
      show _ < (s.nextId + 1).toNat
      rw [hnext]
      exact Nat.lt_succ_of_lt (hl.lt e he)
    · intro c hal h0 e he
      by_cases hc : c = i
      · simp only [hc, hself, hkid]
        intro hee
        have hlt := hl.lt e he
        rw [hee] at hlt
        exact Nat.lt_irrefl _ hlt
      · simp only [hother c hc] at hal h0 ⊢
        exact hl.fresh c hal h0 e he
    · intro c hz
      have hc : c ≠ i := by
        rintro rfl
        simp only [hself, hkst] at hz
        cases hz
      simp only [hother c hc] at hz ⊢
      exact hl.zombie c hz
    · intro e he
      rcases hl.exited e he with ⟨h1, c, hz, h2, h3⟩ | ⟨h1, r, hr, h2, h3, h4⟩
      · have hc : c ≠ i := by
          rintro rfl
          exact hnz hz
        have hcx := hother c hc
        refine .inl ⟨h1, c, ?_, ?_, ?_⟩ <;> simp only [hcx] <;> assumption
      · exact .inr ⟨h1, r, hr, h2, h3, h4.imp_left (hfork _)⟩
    · intro c hpc h0
      by_cases hc : c = i
      · simp only [hc, hself, hkid, hkpar] at h0 ⊢
        rw [if_neg h0]
        exact .inl (mem_append_right _ mem_cons_self)
      · simp only [hother c hc] at hpc h0 ⊢
        exact (hl.family c hpc h0).imp_left (hfork _)

/-! ### The exit -/

theorem exitStart_tasks (s : W) (t : Slot) (code : Int) :
    (exitStart initPid s t code).tasks = s.tasks.modify t fun k => { k with exitCode := code } :=
  rfl

theorem markStep_tasks (s : W) (t : Slot) (b : Bool) :
    (markStep s t b).tasks =
      s.tasks.modify t fun k => { k with state := if b then .zombie else .dead } := rfl

theorem Inv.not_exiting (hi : Inv initPid s) (hb : s.bkl ≠ some u) :
    (s.pc u).exiting = false := by
  cases h : (s.pc u).exiting with
  | false => rfl
  | true => exact absurd ((hi.task u).exiting h).2.2 hb

theorem Inv.alone (hi : Inv initPid s) (hb : s.bkl = some t) (h : u ≠ t) :
    (s.pc u).exiting = false := by
  apply hi.not_exiting
  rw [hb]
  exact fun he => h (Option.some.inj he).symm

theorem not_marking (h : (s.pc u).exiting = false) :
    s.pc u ≠ .marking b := by
  intro hm
  rw [hm] at h
  cases h

theorem Inv.exitStart (hi : Inv initPid s) {code : Int} (hu : inUser s t)
    (hb : s.bkl = none) (hinit : (s.tasks t).id ≠ initPid) :
    Inv initPid (exitStart initPid s t code) := by
  have ht := hi.task t
  rw [TaskOk, hu.1] at ht
  have hpc : (WaitExit.exitStart initPid s t code).pc = (WaitExit.setPc s t (.adopting 0)).pc := by
    rw [WaitExit.exitStart, if_pos ⟨hi.init.1, hinit⟩]
  have hfield : ∀ {α : Type} (g : Task → α), (∀ k : Task, g { k with exitCode := code } = g k) →
      ∀ i, g ((WaitExit.exitStart initPid s t code).tasks i) = g (s.tasks i) := by
    intro α g hg i
    rw [exitStart_tasks]
    exact Table.modify_field g (hg (s.tasks t)) i
  have hst := hfield (·.state) fun _ => rfl
  have hpar := hfield (·.parentId) fun _ => rfl
  have hc : Calm initPid s.tasks (WaitExit.exitStart initPid s t code).tasks := by
    refine ⟨hfield (·.id) fun _ => rfl, hfield (·.isUser) fun _ => rfl, fun i => .inl (hst i), ?_,
      fun i => .inl (hpar i)⟩
    intro i hz
    have hit : i ≠ t := by
      rintro rfl
      exact ht.1.2.1 hz
    show (s.tasks.modify t _ i).exitCode = _
    rw [Table.modify_of_ne _ hit]
  have hnox : ∀ u, (s.pc u).exiting = false := fun u => hi.not_exiting (by rw [hb]; exact nofun)
  refine hi.calmAt hc ⟨rfl, rfl, rfl, rfl⟩ hpc (fun h => absurd h hinit) ?_ ?_
  · rw [TaskOk, hpc, setPc_self]
    refine ⟨(hc.alive_iff t).mpr ht.1, by rw [hst]; exact ht.2, ⟨?_, ?_, rfl⟩, ?_⟩
    · rw [hc.user]
      exact hu.2.2
    · rw [hc.id]
      exact hinit
    · exact fun c hc0 => absurd hc0 (Nat.not_lt_zero _)
  · intro u _ hpu
    refine hi.bystander hc hpar hpu ?_ ?_ ?_
    · exact fun hx => absurd hx (by rw [hnox u]; decide)
    · rw [hst]
      exact id
    · exact fun b hm => absurd hm (not_marking (hnox u))

theorem Inv.adopt (hi : Inv initPid s) (hpc : s.pc t = .adopting n)
    (ho : Orderly initPid s (.step t)) : Inv initPid (adoptStep initPid s t n) := by
  have ht := hi.task t
  rw [TaskOk, hpc] at ht
  simp only [Orderly, hpc] at ho
  obtain ⟨hal, hbo, ⟨hus, hni, hb⟩, hnc⟩ := ht
  unfold adoptStep
  split
  · rename_i hn
    have hwoken := adoptOne_woken (s.tasks t).id initPid s.tasks ⟨n, hn⟩
    have hparent := adoptOne_parentId (s.tasks t).id initPid s.tasks ⟨n, hn⟩
    have hc : Calm initPid s.tasks (adoptOne (s.tasks t).id initPid s.tasks ⟨n, hn⟩) := by
      refine .ofWoken hwoken fun i => ?_
      rw [hparent]
      split
      · rename_i h
        right
        refine ⟨?_, rfl⟩
        rw [h.1, h.2.2]
        exact hi.ids.user t hus
      · exact .inl rfl
    refine hi.calmAt hc ⟨rfl, rfl, rfl, rfl⟩ rfl (fun h => absurd h hni) ?_ ?_
    · have hp : (WaitExit.setPc s t (.adopting (n + 1))).pc t = .adopting (n + 1) := setPc_self ..
      simp only [TaskOk, hp]
      refine ⟨(hc.alive_iff t).mpr hal, fun hh => hbo (Calm.blocked_of_woken (hwoken t) hh),
        ⟨?_, ?_, hb⟩, ?_⟩
      · rw [hc.user]
        exact hus
      · rw [hc.id]
        exact hni
      · intro c hcn hpr
        rw [hc.id, hparent]
        split
        · exact fun h => hni h.symm
        · rename_i hcond
          have hpr' := (hc.present_iff c).mp hpr
          by_cases hcn' : c.val = n
          · obtain rfl : c = ⟨n, hn⟩ := Fin.ext hcn'
            exact fun hp' => hcond ⟨rfl, hpr', hp'⟩
          · exact hnc c (by omega) hpr'
    · intro u h hu
      have hnox := hi.alone hb h
      refine (hi.task u).mono hu (hc.alive_iff u) (Calm.blocked_of_woken (hwoken u)) (hc.id u)
        (hc.user u) ?_ (fun hx => absurd hx (by rw [hnox]; decide))
        fun b hm => absurd hm (not_marking hnox)
      -- a zombie handed to `init` finds it neither in its window nor asleep
      intro hw c hz hp
      have hz' := (hc.zombie_iff c).mp hz
      rw [hparent] at hp
      split at hp
      · rename_i hcond
        obtain ⟨rfl, -, hpc'⟩ := hcond
        exfalso
        rcases hw with hw | hw
        · have := ho _ rfl hz' hpc' u hp.symm
          rw [this] at hw
          cases hw
        · exact adoptOne_awake hz' hpc' hp.symm hw
      · exact ⟨hz', hp⟩
  · rename_i hn
    refine hi.setPc (fun h => absurd h hni) ?_
    rw [TaskOk, setPc_self]
    exact ⟨hal, hbo, ⟨hus, hni, hb⟩, fun c hc => hnc c (by omega)⟩

theorem Inv.wake (hi : Inv initPid s) (hpc : s.pc t = .waking) :
    Inv initPid (wakeStep s t) := by
  have ht := hi.task t
  rw [TaskOk, hpc] at ht
  obtain ⟨hal, hbo, ⟨hus, hni, hb⟩, hnc⟩ := ht
  have hwoken := wakeParent_woken s.tasks (parentOf s.tasks t)
  have hpar := wakeParent_parentId s.tasks (parentOf s.tasks t)
  have hc : Calm initPid s.tasks (wakeParent s.tasks (parentOf s.tasks t)) :=
    .ofWoken hwoken fun i => .inl (hpar i)
  refine hi.calmAt hc ⟨rfl, rfl, rfl, rfl⟩ rfl (fun h => absurd h hni) ?_ ?_
  · have hp : (WaitExit.setPc s t (.marking (parentOf s.tasks t).isSome)).pc t =
        .marking (parentOf s.tasks t).isSome := setPc_self ..
    simp only [wakeStep, TaskOk, hp]
    refine ⟨(hc.alive_iff t).mpr hal, fun hh => hbo (Calm.blocked_of_woken (hwoken t) hh),
      ⟨?_, ?_, hb⟩, ?_, ?_, ?_⟩
    · rw [hc.user]
      exact hus
    · rw [hc.id]
      exact hni
    · intro c hcn hpr
      rw [hc.id, hpar]
      exact hnc c hcn ((hc.present_iff c).mp hpr)
    · rw [hpar]
      constructor
      · intro hs
        obtain ⟨p, hp⟩ := isSome_iff_exists.mp hs
        exact (parentOf_some hp).1
      · intro h0
        obtain ⟨p, hpal, hpid⟩ := hi.parent t hal.1 hal.2.2 h0
        cases hpo : parentOf s.tasks t with
        | some q => rfl
        | none => exact absurd (parentOf_none hpo h0 hpid) hpal.1
    · -- the parent found is the only task with that pid
      intro p hpr hid h0
      rw [hpar] at h0 hid
      rw [hc.id] at hid
      have hpr' := (hc.present_iff p).mp hpr
      cases hpo : parentOf s.tasks t with
      | none => exact absurd (parentOf_none hpo h0 hid) hpr'
      | some q =>
        obtain ⟨-, hq, hqp⟩ := parentOf_some hpo
        obtain rfl : p = q := hi.ids.inj p q hpr' hqp (hid.trans hq.symm) (by rw [hid]; exact h0)
        exact wakeParent_awake s.tasks p
  · intro u h hu
    refine hi.bystander hc hpar hu (fun _ => rfl) (Calm.blocked_of_woken (hwoken u)) ?_
    exact fun b hm => absurd hm (not_marking (hi.alone hb h))

theorem Inv.mark (hi : Inv initPid s) (hpc : s.pc t = .marking b)
    (ho : Orderly initPid s (.step t)) : Inv initPid (markStep s t b) := by
  have ht := hi.task t
  rw [TaskOk, hpc] at ht
  simp only [Orderly, hpc] at ho
  obtain ⟨hal, -, ⟨hus, hni, hb⟩, hnc, hbp, hawake⟩ := ht
  have hl := hi.logs
  have hid0 := hi.ids.user t hus
  have hother : ∀ c, c ≠ t → (markStep s t b).tasks c = s.tasks c := by
    intro c hc
    rw [markStep_tasks, Table.modify_of_ne _ hc]
  have hself : (markStep s t b).tasks t =
      { s.tasks t with state := if b then .zombie else .dead } := by
    rw [markStep_tasks, Table.modify_self]
  have hfield : ∀ {α : Type} (g : Task → α),
      (∀ k : Task, g { k with state := if b then .zombie else .dead } = g k) →
      ∀ i, g ((markStep s t b).tasks i) = g (s.tasks i) := by
    intro α g hg i
    rw [markStep_tasks]
    exact Table.modify_field g (hg (s.tasks t)) i
  have hid := hfield (·.id) fun _ => rfl
  have hpar := hfield (·.parentId) fun _ => rfl
  have hpres : ∀ c, present ((markStep s t b).tasks c) → present (s.tasks c) := by
    intro c hp
    by_cases h : c = t
    · rw [h]
      exact hal.1
    · rw [hother c h] at hp
      exact hp
  have hzt : ((markStep s t b).tasks t).state = .zombie → (s.tasks t).parentId ≠ 0 := by
    intro hz
    rw [hself] at hz
    cases b with
    | true => exact hbp.mp rfl
    | false => cases hz
  have htalive : ¬ alive ((markStep s t b).tasks t) := by
    intro ha
    rw [hself] at ha
    cases b with
    | true => exact ha.2.1 rfl
    | false => exact ha.2.2 rfl
  have halive : ∀ c, alive ((markStep s t b).tasks c) → c ≠ t ∧ alive (s.tasks c) := by
    intro c ha
    have hct : c ≠ t := by
      rintro rfl
      exact htalive ha
    rw [hother c hct] at ha
    exact ⟨hct, ha⟩
  have hmem : ∀ e, e ∈ (markStep s t b).exited ↔ e ∈ s.exited ∨
      ((s.tasks t).parentId ≠ 0 ∧ e = ((s.tasks t).id, (s.tasks t).exitCode)) := by
    intro e
    show e ∈ (if (s.tasks t).parentId = 0 then s.exited
      else s.exited ++ [((s.tasks t).id, (s.tasks t).exitCode)]) ↔ _
    split
    · rename_i h0
      simp [h0]
    · rename_i h0
      simp [h0]
  refine ⟨⟨hi.ids.small, ?_, ?_, ?_⟩, ?_, ?_, ?_, ?_, ⟨?_, ?_, ?_, ?_, ?_, ?_⟩⟩
  · intro c hp
    rw [hid]
    exact hi.ids.lt c (hpres c hp)
  · intro c d hpc' hpd
    rw [hid, hid]
    exact hi.ids.inj c d (hpres c hpc') (hpres d hpd)
  · intro c
    rw [hid, hfield (·.isUser) fun _ => rfl]
    exact hi.ids.user c
  · intro c hp hd h0
    have hp' := hpres c hp
    rw [hpar] at h0
    have hd' : (s.tasks c).state ≠ .dead := by
      by_cases h : c = t
      · rw [h]
        exact hal.2.2
      · rw [hother c h] at hd
        exact hd
    obtain ⟨p, hpal, hpid⟩ := hi.parent c hp' hd' h0
    have hpt : p ≠ t := by
      rintro rfl
      exact hnc c c.isLt hp' hpid.symm
    refine ⟨p, by rw [hother p hpt]; exact hpal, ?_⟩
    rw [hid, hpar]
    exact hpid
  · intro c hz
    by_cases h : c = t
    · subst h
      rw [hid, hpar]
      exact ⟨hid0, hzt hz⟩
    · rw [hother c h] at hz ⊢
      exact hi.zombie c hz
  · obtain ⟨h0, p, hpal, hpid, hx⟩ := hi.init
    have hpt : p ≠ t := by
      rintro rfl
      exact hni hpid
    refine ⟨h0, p, by rw [hother p hpt]; exact hpal, by rw [hid]; exact hpid, ?_⟩
    show ((WaitExit.setPc s t .gone).pc p).exiting = false
    rw [setPc_of_ne _ hpt]
    exact hx
  · intro u
    by_cases h : u = t
    · subst h
      have hp : (WaitExit.setPc s u .gone).pc u = .gone := setPc_self ..
      simp only [TaskOk, markStep, hp]
      exact htalive
    · have hu := hother u h
      have hnox : (s.pc u).exiting = false := by
        apply hi.not_exiting
        rw [hb]
        exact fun he => h (Option.some.inj he).symm
      refine (hi.task u).mono (setPc_of_ne _ h) (by rw [hu]) (by rw [hu]; exact id) (by rw [hu])
        (by rw [hu]) ?_ (fun hx => absurd hx (by rw [hnox]; decide))
        (fun b hm => absurd hm (not_marking hnox))
      -- the parent of the new zombie is neither in its window nor asleep
      intro hw c hz hp
      by_cases hct : c = t
      · subst hct
        rw [hpar] at hp
        exfalso
        rcases hw with hw | hw
        · rw [ho u hp.symm] at hw
          cases hw
        · rw [hu] at hw
          exact hawake u (by unfold present; rw [hw]; decide) hp.symm (hzt hz) hw
      · rw [hother c hct] at hz hp
        exact ⟨hz, hp⟩
  · intro e he
    rcases (hmem e).mp he with he | ⟨-, rfl⟩
    · exact hl.lt e he
    · exact hi.ids.lt t hal.1
  · intro c hca h0 e he
    obtain ⟨hct, hca'⟩ := halive c hca
    rw [hid] at h0 ⊢
    rcases (hmem e).mp he with he | ⟨-, rfl⟩
    · exact hl.fresh c hca' h0 e he
    · exact fun hh => hct (hi.ids.inj c t hca'.1 hal.1 hh.symm h0)
  · intro c hz
    rw [hid, hfield (·.exitCode) fun _ => rfl, hmem]
    by_cases h : c = t
    · subst h
      refine ⟨.inr ⟨hzt hz, rfl⟩, ?_⟩
      -- no wait has returned the pid of a task that had not exited
      show List.countP _ s.returned = 0
      rw [countP_eq_zero]
      intro r hr
      obtain ⟨e, he, hre⟩ := hl.returned r hr
      simp only [decide_eq_true_eq]
      rw [← hre]
      exact hl.fresh c hal hid0 e he
    · rw [hother c h] at hz
      obtain ⟨h1, h2⟩ := hl.zombie c hz
      exact ⟨.inl h1, h2⟩
  · intro e he
    rcases (hmem e).mp he with he | ⟨h0, rfl⟩
    · rcases hl.exited e he with ⟨h1, c, hz, h2, h3⟩ | hdel
      · have hct : c ≠ t := by
          rintro rfl
          exact hal.2.1 hz
        refine .inl ⟨h1, c, ?_, ?_, ?_⟩ <;> rw [hother c hct] <;> assumption
      · exact .inr hdel
    · left
      refine ⟨?_, t, ?_, hid t, hfield (·.exitCode) (fun _ => rfl) t⟩
      · show List.countP _ s.returned = 0
        rw [countP_eq_zero]
        intro r hr
        obtain ⟨e, he, hre⟩ := hl.returned r hr
        simp only [decide_eq_true_eq]
        rw [← hre]
        exact hl.fresh t hal hid0 e he
      · rw [hself, if_pos (hbp.mpr h0)]
  · intro r hr
    obtain ⟨e, he, hre⟩ := hl.returned r hr
    exact ⟨e, (hmem e).mpr (.inl he), hre⟩
  · intro c hp h0
    rw [hid, hpar]
    rw [hpar] at h0
    exact hl.family c (hpres c hp) h0

/-! ## Main result -/

theorem inv_booted (h : Booted initPid s) : Inv initPid s := by
  obtain ⟨h0, i0, hal0, hid0⟩ := h.init
  have hpres : ∀ i, present (s.tasks i) → alive (s.tasks i) ∧
      (s.tasks i).state ≠ .blockedOnChild ∧ s.pc i = .user ∧ (s.tasks i).parentId = 0 ∧
      (s.tasks i).id.toNat < s.nextId.toNat := by
    intro i hp
    rcases h.slot i with hc | ⟨h1, h2, h3, h4⟩
    · exact absurd hc.1 hp
    · exact ⟨(isShared_live h1).1, (isShared_live h1).2, h2, h3, h4⟩
  have hnz : ∀ i, (s.tasks i).state ≠ .zombie := by
    intro i hz
    exact (hpres i (by unfold present; rw [hz]; decide)).1.2.1 hz
  refine ⟨⟨h.small, fun i hp => (hpres i hp).2.2.2.2, ?_, h.user⟩, ?_, ?_, ⟨h0, i0, hal0, hid0, ?_⟩,
    ?_, ⟨?_, ?_, ?_, ?_, ?_, ?_⟩⟩
  · exact fun i j hi hj => h.ids i j (hpres i hi).1 (hpres j hj).1
  · exact fun c hp _ hpar => absurd (hpres c hp).2.2.2.1 hpar
  · exact fun c hz => absurd hz (hnz c)
  · rw [(hpres i0 hal0.1).2.2.1]
    rfl
  · intro t
    rcases h.slot t with hc | hc
    · rw [TaskOk, hc.2]
      exact fun ha => ha.1 hc.1
    · rw [TaskOk, hc.2.1]
      exact ⟨(isShared_live hc.1).1, (isShared_live hc.1).2⟩
  · rw [h.logs.2.1]
    exact nofun
  · rw [h.logs.2.1]
    exact fun _ _ _ => nofun
  · exact fun c hz => absurd hz (hnz c)
  · rw [h.logs.2.1]
    exact nofun
  · rw [h.logs.2.2]
    exact nofun
  · exact fun c hp hpar => absurd (hpres c hp).2.2.2.1 hpar

theorem Inv.micro (hi : Inv initPid s) (ho : Orderly initPid s (.step t))
    (h : micro initPid s t = some s') : Inv initPid s' := by
  unfold WaitExit.micro at h
  split at h <;> rename_i hpc
  · cases h
  · cases h
  · cases h
    exact hi.adopt hpc ho
  · cases h
    exact hi.wake hpc
  · cases h
    exact hi.mark hpc ho
  · simp only [ite_none_right_eq_some, Option.some.injEq] at h
    obtain ⟨-, rfl⟩ := h
    exact hi.scan hpc
  · simp only [ite_none_right_eq_some, Option.some.injEq] at h
    obtain ⟨-, rfl⟩ := h
    exact hi.look hpc
  · simp only [ite_none_right_eq_some, Option.some.injEq] at h
    obtain ⟨-, rfl⟩ := h
    simp only [Orderly, hpc] at ho
    exact hi.block hpc ho
  · simp only [ite_none_right_eq_some, Option.some.injEq] at h
    obtain ⟨hr, rfl⟩ := h
    exact hi.resume hpc hr

theorem inv_inductive : ((waitLTS initPid).restrict (Orderly initPid)).Inductive (Inv initPid) where
  init _ h := inv_booted h
  step := by
    rintro s l s' hi ⟨ho, hstep⟩
    simp only [waitLTS, LTS.ofFn_step] at hstep
    cases l with
    | wait t =>
      simp only [step, ite_none_right_eq_some, Option.some.injEq] at hstep
      obtain ⟨hu, rfl⟩ := hstep
      exact hi.wait hu
    | waitNb t =>
      simp only [step, ite_none_right_eq_some, Option.some.injEq] at hstep
      obtain ⟨-, rfl⟩ := hstep
      unfold waitNb
      split
      · exact hi
      · rename_i i hf
        exact hi.harvest (firstSlot_some hf).2
    | exit t code =>
      simp only [step, ite_none_right_eq_some, Option.some.injEq] at hstep
      obtain ⟨⟨hu, hb⟩, rfl⟩ := hstep
      exact hi.exitStart hu hb ho
    | fork t =>
      simp only [step, ite_none_right_eq_some, Option.some.injEq] at hstep
      obtain ⟨⟨hu, hb⟩, rfl⟩ := hstep
      have hal := (hi.task t).alive_of (by rw [hu.1]; intro h; cases h)
      exact hi.spawn hb ho fun _ => ⟨t, hal, rfl⟩
    | createUser =>
      simp only [step, ite_none_right_eq_some, Option.some.injEq] at hstep
      obtain ⟨hb, rfl⟩ := hstep
      exact hi.spawn hb ho fun h => absurd rfl h
    | step t => exact hi.micro ho hstep
    | sched t st =>
      simp only [step, ite_none_right_eq_some, Option.some.injEq] at hstep
      obtain ⟨⟨h1, h2⟩, rfl⟩ := hstep
      exact hi.sched h1 h2
    | reaper i =>
      simp only [step, ite_none_right_eq_some, Option.some.injEq] at hstep
      obtain ⟨⟨hd, -⟩, rfl⟩ := hstep
      exact hi.reaper hd

/-- `kmain` in slot 0 and `init` (pid 1) in slot 1. -/
def demoBoot : W where
  tasks i :=
    if i.val = 0 then { Task.zero with state := .ready }
    else if i.val = 1 then { Task.zero with id := 1, state := .running, isUser := true }
    else Task.zero
  pc i := if i.val ≤ 1 then .user else .gone
  nextId := 2
  bkl := none
  forked := []
  exited := []
  returned := []

theorem demoBoot_booted : Booted 1 demoBoot where
  bkl := rfl
  small := by decide
  logs := ⟨rfl, rfl, rfl⟩
  slot := by decide
  user := by decide
  ids := by decide +kernel
  init := ⟨by decide, ⟨1, by decide⟩, by decide⟩

def childSlot : Slot := ⟨2, two_lt_taskMax⟩

/-- The child's whole exit: the re-parenting loop, the wake-up, the last write. -/
def demoExit : List Lbl :=
  .exit childSlot 7 :: List.replicate (taskMax + 3) (.step childSlot)

instance (s : W) (l : Lbl) : Decidable (Orderly initPid s l) := by
  cases l <;> unfold Orderly <;> dsimp only <;> first | infer_instance | (split <;> infer_instance)

end AdventOS.Kernel.WaitExit
