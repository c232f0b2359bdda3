import AdventOS.Core.Circular
import AdventOS.Core.LTS
import AdventOS.Kernel.Task
import Mathlib

/-!
# The scheduler ring and the reuse of task slots (`kernel/task.c`)

The round-robin ring runs through the `next` pointers of the task table: creating and forking link
a slot in behind the calling task, reaping takes it out again. Each call is one step, in any order
and for any number of task lifetimes. `kmalloc` and the page directory allocator answer with an
address or fail, as the label says. `held i` is history: the kernel stacks and page directories
allocated for the tasks of slot `i` and not released yet.

`task_create` and `find_free_slot` take DEAD slots for free, but a DEAD task is still linked and
still has its stack and page directory until the reaper has come by.

* `inv_inductive`: over runs whose creations find an UNUSED slot, the ring is one cycle through
  every task that has not been reaped;
* `ring_complete`: what that gives;
* `dead_slot_reused`: a run in which a DEAD slot is handed out.
-/
namespace AdventOS.Kernel.RunQueue
open Option

/-! ## State -/

/-- What a task owns in the kernel's memory. -/
inductive Res
  | stack (a : Nat)
  | pd (a : Nat)
  deriving DecidableEq, Repr

/-- `g_kernel_cr3` and `g_ap_runs_user`. -/
structure Cfg where
  kernelCr3 : Nat
  apRunsUser : Bool

/-- `onCpu i`: slot `i` is some CPU's current task. -/
structure Q where
  tasks : Table
  nextId : UInt32
  initPid : UInt32
  onCpu : Slot → Bool
  held : Slot → List Res

def nextOf (ts : Table) (i : Slot) : Option Slot := (ts i).next

/-- `t->next = n; cur->next = t;` -/
def linkAfter (ts : Table) (cur t : Slot) (n : Option Slot) : Table :=
  (ts.modify t fun k => { k with next := n }).modify cur fun k => { k with next := some t }

def alloc (held : Slot → List Res) (i : Slot) (r : Res) : Slot → List Res :=
  Function.update held i (held i ++ [r])

def free (held : Slot → List Res) (i : Slot) (r : Res) : Slot → List Res :=
  Function.update held i ((held i).erase r)

variable (cfg : Cfg)

/-! ## Creation -/

/-- task.c:178-316: `none` when there is no slot or no memory for
the stack. -/
def taskCreate (q : Q) (cur : Slot) (stack : Option Nat) : Option Slot × Q :=
  match findFreeSlot q.tasks with
  | none => (none, q)
  | some i =>
    let ts := q.tasks.modify i fun k => { k with state := .blocked, next := none }
    match stack with
    | none => (none, { q with tasks := ts.modify i fun k => { k with state := .unused } })
    | some a =>
      let ts := ts.modify i fun k =>
        { Task.zero with
          state := k.state, id := q.nextId, cpu := -1, cpuPin := -1, stackBase := a
          cr3 := cfg.kernelCr3 }
      let ts := linkAfter ts cur i ((ts cur).next.or (some cur))
      (some i, { q with tasks := ts, nextId := q.nextId + 1, held := alloc q.held i (.stack a) })

/-- The pin of a user task. task.c:360,817 -/
def userPin : Int := if cfg.apRunsUser then -1 else 0

/-- task.c:342-365; the caller hands over the page directory. -/
def taskCreateUser (q : Q) (cur : Slot) (stack : Option Nat) (cr3 : Nat) : Option Slot × Q :=
  match taskCreate cfg q cur stack with
  | (none, q) => (none, q)
  | (some i, q) =>
    (some i, { q with
      tasks := q.tasks.modify i fun k =>
        { k with cr3 := cr3, isUser := true, cpuPin := userPin cfg, state := .ready }
      held := alloc q.held i (.pd cr3) })

/-- task.c:773-937; `pd` is the cloned page directory. -/
def taskFork (q : Q) (cur : Slot) (stack pd : Option Nat) : Option Slot × Q :=
  if (q.tasks cur).isUser = false then (none, q)
  else match findFreeSlot q.tasks, stack, pd with
    | some i, some a, some p =>
      let ts := q.tasks.modify i fun _ =>
        { Task.zero with
          id := q.nextId, state := .blocked, cpu := -1, cpuPin := userPin cfg, stackBase := a
          cr3 := p, isUser := true, parentId := (q.tasks cur).id }
      let ts := linkAfter ts cur i (ts cur).next
      (some i, { q with
        tasks := ts.modify i fun k => { k with state := .ready }
        nextId := q.nextId + 1
        held := alloc (alloc q.held i (.stack a)) i (.pd p) })
    | _, _, _ => (none, q)

/-- The address space part of `task_exec_inplace`. task.c:969-985 -/
def taskExec (q : Q) (cur : Slot) (cr3 : Nat) : Q :=
  { q with
    tasks := q.tasks.modify cur fun k => { k with cr3 := cr3 }
    held := alloc (free q.held cur (.pd (q.tasks cur).cr3)) cur (.pd cr3) }

/-! ## Reaping -/

/-- task.c:659-662 and 1158-1161 -/
def unsplice (ts : Table) (t : Slot) : Table :=
  match Circular.findPred (nextOf ts) t (taskMax * 2) (ts t).next with
  | none => ts
  | some p => if (ts p).next = some t then ts.modify p fun k => { k with next := (ts t).next } else ts

/-- task.c:658-686 and 1157-1185 -/
def reapSlot (q : Q) (t : Slot) : Q :=
  let k := q.tasks t
  let held := if k.isUser ∧ k.cr3 ≠ 0 ∧ k.cr3 ≠ cfg.kernelCr3 then free q.held t (.pd k.cr3)
    else q.held
  { q with
    tasks := (unsplice q.tasks t).modify t Task.clear
    held := free held t (.stack k.stackBase) }

/-- The reaper at one slot. task.c:644-653 -/
def taskReaper (q : Q) (t : Slot) : Q :=
  let k := q.tasks t
  if k.isIdle ∨ k.state ≠ .dead ∨ k.stackBase = 0 ∨ q.onCpu t then q else reapSlot cfg q t

/-- task.c:1145-1190 -/
def reapOneZombieOf (q : Q) (parent : Slot) : Q :=
  match firstSlot 0 fun i =>
      (q.tasks i).state = .zombie && (q.tasks i).parentId = (q.tasks parent).id with
  | none => q
  | some i => reapSlot cfg q i

/-! ## The system -/

inductive Lbl
  | create (cur : Slot) (stack : Option Nat)
  | createUser (cur : Slot) (stack : Option Nat) (cr3 : Nat)
  | fork (cur : Slot) (stack pd : Option Nat)
  | exec (cur : Slot) (cr3 : Nat)
  /-- `sys_exit`, and a signal whose default action ends the task -/
  | exit (cur : Slot) (code : Int)
  | wait (cur : Slot)
  | reaper (i : Slot)
  /-- a scheduling change between the live states -/
  | sched (i : Slot) (st : TaskState)
  | dispatch (i : Slot) (on : Bool)

/-- The task that makes a call: it runs, and it is no idle task. -/
def calls (q : Q) (cur : Slot) : Prop :=
  (q.tasks cur).state = .running ∧ (q.tasks cur).isIdle = false

instance (q : Q) (cur : Slot) : Decidable (calls q cur) := by
  unfold calls; infer_instance

/-- A page directory an allocator returns. -/
def isPd (p : Nat) : Prop := p ≠ 0 ∧ p ≠ cfg.kernelCr3

instance (p : Nat) : Decidable (isPd cfg p) := by
  unfold isPd; infer_instance

def isLive (st : TaskState) : Bool :=
  st = .ready || st = .running || st = .blocked || st = .blockedOnChild || st = .stopped

def step (q : Q) : Lbl → Option Q
  | .create cur stack =>
    if calls q cur ∧ stack ≠ some 0 then some (taskCreate cfg q cur stack).2 else none
  | .createUser cur stack cr3 =>
    if calls q cur ∧ stack ≠ some 0 ∧ isPd cfg cr3 then
      some (taskCreateUser cfg q cur stack cr3).2
    else none
  | .fork cur stack pd =>
    if calls q cur ∧ stack ≠ some 0 ∧ pd.all (fun p => decide (isPd cfg p)) then
      some (taskFork cfg q cur stack pd).2
    else none
  | .exec cur cr3 =>
    if calls q cur ∧ (q.tasks cur).isUser ∧ isPd cfg cr3 then some (taskExec q cur cr3) else none
  | .exit cur code =>
    if calls q cur ∧ (q.tasks cur).isUser then
      some { q with tasks := taskExit q.initPid q.tasks cur code }
    else none
  | .wait cur => if calls q cur then some (reapOneZombieOf cfg q cur) else none
  | .reaper i => if i ≠ kmain then some (taskReaper cfg q i) else none
  | .sched i st =>
    if isLive (q.tasks i).state ∧ (q.tasks i).isIdle = false ∧ isLive st then
      some { q with tasks := q.tasks.modify i fun k => { k with state := st } }
    else none
  | .dispatch i on => some { q with onCpu := Function.update q.onCpu i on }

/-- After `task_init` and `smp_init`: the boot thread alone on the ring, some slots
taken by idle tasks, all others free. -/
structure Booted (q : Q) : Prop where
  kmain : (q.tasks kmain).state = .running ∧ (q.tasks kmain).next = some kmain ∧
    (q.tasks kmain).isIdle = false ∧ (q.tasks kmain).isUser = false
  rest : ∀ i, i ≠ Kernel.kmain →
    ((q.tasks i).isIdle = true ∧ (q.tasks i).state = .running) ∨
    ((q.tasks i).isIdle = false ∧ (q.tasks i).state = .unused ∧ q.held i = [])

def queueLTS : LTS Q Lbl := .ofFn Booted (step cfg)

/-! ## The steps that keep the ring -/

/-- The slot a call hands out for a new task. -/
def handsOut (q : Q) : Lbl → Option Slot
  | .create .. | .createUser .. | .fork .. => findFreeSlot q.tasks
  | _ => none

/-- The slot a creation takes is UNUSED: no DEAD task sits in front of it. -/
def Fresh (q : Q) (l : Lbl) : Prop :=
  ∀ i, handsOut q l = some i → (q.tasks i).state = .unused

instance (q : Q) (l : Lbl) : Decidable (Fresh q l) := by
  unfold Fresh; infer_instance

/-- From the boot thread the `next` pointers go through one cycle, with every live
task on it, and none twice. -/
def RingOk (q : Q) : Prop :=
  ∃ l, Circular (nextOf q.tasks) kmain l ∧
    ∀ i, (q.tasks i).state ≠ .unused → (q.tasks i).state ≠ .dead →
      (q.tasks i).isIdle = false → i ∈ kmain :: l

/-- A slot is handed out only with nothing of its previous task left. -/
def Released (q : Q) (l : Lbl) : Prop := ∀ i, handsOut q l = some i → q.held i = []

/-! ## The invariant -/

/-- What a slot owns, as its fields say it. -/
structure Owns (k : Task) (h : List Res) : Prop where
  unused : k.state = .unused → h = []
  used : k.state ≠ .unused → k.stackBase ≠ 0 ∧
    h = .stack k.stackBase :: (if k.isUser then [.pd k.cr3] else []) ∧
    (k.isUser = true → isPd cfg k.cr3)

/-- The ring has exactly the tasks that have not been reaped. -/
def RingExact (ts : Table) : Prop :=
  ∃ l, Circular (nextOf ts) kmain l ∧
    ∀ i, i ∈ kmain :: l ↔ ((ts i).state ≠ .unused ∧ (ts i).isIdle = false)

structure Inv (ts : Table) (held : Slot → List Res) : Prop where
  ring : RingExact ts
  idle : ∀ i, (ts i).isIdle = true → (ts i).state = .running
  boot : (ts kmain).isUser = false ∧ (ts kmain).state ≠ .zombie
  owns : ∀ i, i ≠ kmain → (ts i).isIdle = false → Owns cfg (ts i) (held i)

variable {cfg} {ts ts' : Table} {held held' : Slot → List Res}

theorem Inv.keep (hi : Inv cfg ts held)
    (hnext : ∀ i, (ts i).state ≠ .unused → (ts' i).next = (ts i).next)
    (hidle : ∀ i, (ts' i).isIdle = (ts i).isIdle)
    (hun : ∀ i, (ts' i).state = .unused ↔ (ts i).state = .unused)
    (hrun : ∀ i, (ts i).isIdle = true → (ts' i).state = .running)
    (hboot : (ts' kmain).isUser = false ∧ (ts' kmain).state ≠ .zombie)
    (howns : ∀ i, i ≠ kmain → (ts i).isIdle = false → Owns cfg (ts' i) (held' i)) :
    Inv cfg ts' held' where
  ring := by
    obtain ⟨l, hc, hm⟩ := hi.ring
    refine ⟨l, hc.congr fun a ha => hnext a ((hm a).mp ha).1, ?_⟩
    intro i
    rw [hm i, hidle i, ne_eq, ne_eq, hun i]
  idle := by
    intro i h
    rw [hidle i] at h
    exact hrun i h
  boot := hboot
  owns := by
    intro i hk h
    rw [hidle i] at h
    exact howns i hk h

variable {k : Task} {cur i t : Slot} {q : Q} {stack : Option Nat}

theorem Owns.woken {k' : Task} {h : List Res} (ho : Owns cfg k h) (hw : Woken k k') :
    Owns cfg k' h := by
  have hun := hw.unused_iff
  obtain ⟨st, p, rfl, -⟩ := hw
  exact ⟨fun he => ho.unused (hun.mp he), fun hne => ho.used fun he => hne (hun.mpr he)⟩

theorem Inv.ne_kmain (hi : Inv cfg ts held) (hu : (ts t).isUser = true) :
    kmain ≠ t := by
  rintro rfl
  exact absurd (hi.boot.1.symm.trans hu) Bool.false_ne_true

theorem Inv.exit (hi : Inv cfg ts held) (pid : UInt32) {code : Int}
    (hr : (ts cur).state = .running) (hni : (ts cur).isIdle = false)
    (hu : (ts cur).isUser = true) : Inv cfg (taskExit pid ts cur code) held := by
  obtain ⟨st, p, hself, hst⟩ := taskExit_self pid ts cur code
  have hother : ∀ i, i ≠ cur → Woken (ts i) (taskExit pid ts cur code i) :=
    fun i h => taskExit_of_ne h
  have hcur : st ≠ .unused := by rintro rfl; rcases hst with h | h <;> cases h
  apply hi.keep
  · intro i _
    by_cases h : i = cur
    · rw [h, hself]
    · obtain ⟨st', p', hw, -⟩ := hother i h
      rw [hw]
  · intro i
    by_cases h : i = cur
    · rw [h, hself]
    · obtain ⟨st', p', hw, -⟩ := hother i h
      rw [hw]
  · intro i
    by_cases h : i = cur
    · rw [h, hself, hr]
      exact ⟨fun he => absurd he hcur, fun he => by cases he⟩
    · exact (hother i h).unused_iff
  · intro i hidle
    have h : i ≠ cur := fun he => absurd (hni.symm.trans (he ▸ hidle)) Bool.false_ne_true
    obtain ⟨st', p', hw, he | ⟨hb, -⟩⟩ := hother i h
    · rw [hw, he]
      exact hi.idle i hidle
    · cases (hi.idle i hidle).symm.trans hb
  · obtain ⟨st', p', hw, he | ⟨-, he⟩⟩ := hother kmain (hi.ne_kmain hu)
    · rw [hw, he]
      exact hi.boot
    · rw [hw, he]
      exact ⟨hi.boot.1, fun h => by cases h⟩
  · intro i hik hidle
    have ho := hi.owns i hik hidle
    by_cases h : i = cur
    · subst h
      rw [hself]
      exact ⟨fun he => absurd he hcur, fun _ => ho.used (by rw [hr]; decide)⟩
    · exact ho.woken (hother i h)

theorem not_unused_of_live {st : TaskState} (h : isLive st = true) : st ≠ .unused := by
  rintro rfl
  simp [isLive] at h

theorem Inv.sched (hi : Inv cfg ts held) {st : TaskState}
    (hlive : isLive (ts t).state = true) (hni : (ts t).isIdle = false)
    (hst : isLive st = true) : Inv cfg (ts.modify t fun k => { k with state := st }) held := by
  apply hi.keep
  · exact fun i _ => Table.modify_field (·.next) rfl i
  · exact Table.modify_field (·.isIdle) rfl
  · intro i
    by_cases h : i = t
    · subst h
      rw [Table.modify_self]
      exact ⟨fun he => absurd he (not_unused_of_live hst),
        fun he => absurd he (not_unused_of_live hlive)⟩
    · rw [Table.modify_of_ne _ h]
  · intro i hidle
    have h : i ≠ t := fun he => absurd (hni.symm.trans (he ▸ hidle)) Bool.false_ne_true
    rw [Table.modify_of_ne _ h]
    exact hi.idle i hidle
  · by_cases h : kmain = t
    · subst h
      rw [Table.modify_self]
      refine ⟨hi.boot.1, ?_⟩
      rintro rfl
      simp [isLive] at hst
    · rw [Table.modify_of_ne _ h]
      exact hi.boot
  · intro i hik hidle
    have ho := hi.owns i hik hidle
    by_cases h : i = t
    · subst h
      rw [Table.modify_self]
      exact ⟨fun he => absurd he (not_unused_of_live hst),
        fun _ => ho.used (not_unused_of_live hlive)⟩
    · rw [Table.modify_of_ne _ h]
      exact ho

theorem Inv.exec (hi : Inv cfg ts held) {cr3 : Nat}
    (hr : (ts cur).state = .running) (hu : (ts cur).isUser = true) (hp : isPd cfg cr3) :
    Inv cfg (ts.modify cur fun k => { k with cr3 := cr3 })
      (alloc (free held cur (.pd (ts cur).cr3)) cur (.pd cr3)) := by
  apply hi.keep
  · exact fun i _ => Table.modify_field (·.next) rfl i
  · exact Table.modify_field (·.isIdle) rfl
  · exact fun i => iff_of_eq (Table.modify_field (·.state = .unused) rfl i)
  · intro i hidle
    rw [Table.modify_field (·.state) rfl i]
    exact hi.idle i hidle
  · rw [Table.modify_of_ne _ (hi.ne_kmain hu)]
    exact hi.boot
  · intro i hik hidle
    have ho := hi.owns i hik hidle
    by_cases h : i = cur
    · subst h
      have hne : (ts i).state ≠ .unused := by rw [hr]; decide
      obtain ⟨h1, h2, h3⟩ := ho.used hne
      rw [Table.modify_self]
      refine ⟨fun he => absurd he hne, fun _ => ⟨h1, ?_, fun _ => hp⟩⟩
      simp [alloc, free, h2, hu]
    · rw [Table.modify_of_ne _ h]
      simp only [alloc, free, Function.update_of_ne h]
      exact ho

/-! ### Linking a new task in -/

theorem Inv.not_idle (hi : Inv cfg ts held) (h : (ts i).state ≠ .running) :
    (ts i).isIdle = false := by
  cases hidle : (ts i).isIdle with
  | false => rfl
  | true => exact absurd (hi.idle i hidle) h

theorem Inv.spawn (hi : Inv cfg ts held)
    (hun : (ts i).state = .unused) (hik : i ≠ kmain) (hr : (ts cur).state = .running)
    (hni : (ts cur).isIdle = false) (hk : k.state ≠ .unused) (hkidle : k.isIdle = false)
    (howns : Owns cfg k (held' i)) (hheld : ∀ j, j ≠ i → held' j = held j)
    (hnew : ts' i = { k with next := (ts cur).next })
    (hcur : ts' cur = { ts cur with next := some i })
    (hrest : ∀ j, j ≠ i → j ≠ cur → ts' j = ts j) : Inv cfg ts' held' := by
  have hic : i ≠ cur := by
    rintro rfl
    cases hun.symm.trans hr
  -- outside the new slot only the caller's link changes
  have hother : ∀ j, j ≠ i → ∃ n, ts' j = { ts j with next := n } := by
    intro j hj
    by_cases h : j = cur
    · subst h
      exact ⟨_, hcur⟩
    · exact ⟨(ts j).next, hrest j hj h⟩
  obtain ⟨l, hc, hm⟩ := hi.ring
  refine ⟨?_, ?_, ?_, ?_⟩
  · have hin : i ∉ kmain :: l := fun h => ((hm i).mp h).1 hun
    have hcin : cur ∈ kmain :: l := (hm cur).mpr ⟨by rw [hr]; decide, hni⟩
    obtain ⟨l', hc', hperm⟩ := hc.splice_circular hcin hin
    refine ⟨l', hc'.congr ?_, ?_⟩
    · intro j _
      by_cases hji : j = i
      · rw [hji, Circular.splice_new hic, nextOf, hnew]
        rfl
      · by_cases hjc : j = cur
        · rw [hjc, Circular.splice_self, nextOf, hcur]
        · rw [Circular.splice_of_ne hjc hji, nextOf, hrest j hji hjc]
          rfl
    · intro j
      rw [hperm.mem_iff, List.mem_cons, hm j]
      by_cases hji : j = i
      · rw [hji, hnew]
        exact ⟨fun _ => ⟨hk, hkidle⟩, fun _ => .inl rfl⟩
      · obtain ⟨n, hn⟩ := hother j hji
        rw [hn]
        exact or_iff_right hji
  · intro j hidle
    have hji : j ≠ i := by
      rintro rfl
      rw [hnew] at hidle
      exact absurd (hkidle.symm.trans hidle) Bool.false_ne_true
    obtain ⟨n, hn⟩ := hother j hji
    rw [hn] at hidle ⊢
    exact hi.idle j hidle
  · obtain ⟨n, hn⟩ := hother kmain hik.symm
    rw [hn]
    exact hi.boot
  · intro j hjk hidle
    by_cases hji : j = i
    · subst hji
      rw [hnew]
      exact ⟨howns.unused, howns.used⟩
    · obtain ⟨n, hn⟩ := hother j hji
      rw [hn] at hidle ⊢
      rw [hheld j hji]
      have ho := hi.owns j hjk hidle
      exact ⟨ho.unused, ho.used⟩

theorem Inv.next_some (hi : Inv cfg ts held) (hr : (ts cur).state = .running)
    (hni : (ts cur).isIdle = false) : ∃ n, (ts cur).next = some n := by
  obtain ⟨l, hc, hm⟩ := hi.ring
  obtain ⟨n, -, hn⟩ := hc.exists_next ((hm cur).mpr ⟨by rw [hr]; decide, hni⟩)
  exact ⟨n, hn⟩

/-! ### Taking a task out -/

theorem Inv.unsplice_eq (hi : Inv cfg ts held) (htk : t ≠ kmain)
    (hst : (ts t).state ≠ .unused) (hni : (ts t).isIdle = false) :
    ∃ (p : Slot) (l : List Slot), p ≠ t ∧ unsplice ts t = ts.modify p (fun k => { k with next := (ts t).next }) ∧
      Circular (Function.update (nextOf ts) p (ts t).next) kmain (l.erase t) ∧
      ∀ i, i ∈ kmain :: l.erase t ↔ (i ≠ t ∧ (ts i).state ≠ .unused ∧ (ts i).isIdle = false) := by
  obtain ⟨l, hc, hm⟩ := hi.ring
  have htl : t ∈ l := by
    rcases List.mem_cons.mp ((hm t).mpr ⟨hst, hni⟩) with h | h
    · exact absurd h htk
    · exact h
  have hnd := List.nodup_cons.mp hc.nodup
  have hlen : l.length ≤ taskMax * 2 := by
    have := hnd.2.length_le_card
    rw [Fintype.card_fin] at this
    exact Nat.le_trans this (by decide)
  obtain ⟨p, hp, hpt, hf, hn⟩ := hc.findPred_circular htl hlen
  refine ⟨p, l, hpt, ?_, hc.unlink_circular hp hn htl, ?_⟩
  · unfold unsplice
    rw [show (ts t).next = nextOf ts t from rfl, hf]
    exact if_pos hn
  · intro i
    rw [← hm i, List.mem_cons, List.mem_cons, hnd.2.mem_erase_iff]
    constructor
    · rintro (rfl | ⟨h1, h2⟩)
      · exact ⟨htk.symm, .inl rfl⟩
      · exact ⟨h1, .inr h2⟩
    · rintro ⟨h1, h2⟩
      exact h2.imp_right fun h => ⟨h1, h⟩

theorem Inv.reap (hi : Inv cfg q.tasks q.held) (htk : t ≠ kmain)
    (hst : (q.tasks t).state ≠ .unused) (hni : (q.tasks t).isIdle = false) :
    Inv cfg (reapSlot cfg q t).tasks (reapSlot cfg q t).held := by
  obtain ⟨p, l, hpt, hu, hc, hm⟩ := hi.unsplice_eq htk hst hni
  have htasks : (reapSlot cfg q t).tasks =
      (q.tasks.modify p fun k => { k with next := (q.tasks t).next }).modify t Task.clear := by
    rw [← hu]
    rfl
  have hself : (reapSlot cfg q t).tasks t = (q.tasks t).clear := by
    rw [htasks, Table.modify_self, Table.modify_of_ne _ hpt.symm]
  have hother : ∀ j, j ≠ t → ∃ n, (reapSlot cfg q t).tasks j = { q.tasks j with next := n } ∧
      n = Function.update (nextOf q.tasks) p (q.tasks t).next j := by
    intro j hj
    rw [htasks, Table.modify_of_ne _ hj]
    by_cases hjp : j = p
    · subst hjp
      rw [Table.modify_self, Function.update_self]
      exact ⟨_, rfl, rfl⟩
    · rw [Table.modify_of_ne _ hjp, Function.update_of_ne hjp]
      exact ⟨_, rfl, rfl⟩
  refine ⟨⟨l.erase t, hc.congr ?_, ?_⟩, ?_, ?_, ?_⟩
  · intro j hj
    obtain ⟨n, hn, hnv⟩ := hother j ((hm j).mp hj).1
    rw [nextOf, hn, ← hnv]
  · intro j
    rw [hm j]
    by_cases hj : j = t
    · rw [hj, hself]
      exact ⟨fun h => absurd rfl h.1, fun h => absurd rfl h.1⟩
    · obtain ⟨n, hn, -⟩ := hother j hj
      rw [hn]
      exact and_iff_right hj
  · intro j hidle
    have hj : j ≠ t := by
      rintro rfl
      rw [hself] at hidle
      exact absurd (hni.symm.trans hidle) Bool.false_ne_true
    obtain ⟨n, hn, -⟩ := hother j hj
    rw [hn] at hidle ⊢
    exact hi.idle j hidle
  · obtain ⟨n, hn, -⟩ := hother kmain htk.symm
    rw [hn]
    exact hi.boot
  · intro j hjk hidle
    by_cases hj : j = t
    · subst hj
      rw [hself]
      refine ⟨fun _ => ?_, fun h => absurd rfl h⟩
      obtain ⟨-, h2, h3⟩ := (hi.owns j hjk hni).used hst
      cases hus : (q.tasks j).isUser with
      | false =>
        rw [hus] at h2
        simp [reapSlot, free, hus, h2]
      | true =>
        rw [hus] at h2 h3
        have hpd := h3 rfl
        simp [reapSlot, free, hus, h2, hpd.1, hpd.2]
    · obtain ⟨n, hn, -⟩ := hother j hj
      rw [hn] at hidle ⊢
      have hh : (reapSlot cfg q t).held j = q.held j := by
        unfold reapSlot
        dsimp only
        split <;> simp [free, hj]
      rw [hh]
      have ho := hi.owns j hjk hidle
      exact ⟨ho.unused, ho.used⟩

/-! ### The calls -/

theorem findFreeSlot_ne_kmain (h : findFreeSlot ts = some i) : i ≠ kmain := by
  have h1 := (firstSlot_some h).1
  rintro rfl
  exact absurd h1 (by decide)

theorem taskCreate_eq {a : Nat} (hi : Inv cfg q.tasks q.held)
    (hr : (q.tasks cur).state = .running) (hni : (q.tasks cur).isIdle = false)
    (hf : findFreeSlot q.tasks = some i) (hic : i ≠ cur) :
    ∃ ts', taskCreate cfg q cur (some a) =
        (some i, ⟨ts', q.nextId + 1, q.initPid, q.onCpu, alloc q.held i (.stack a)⟩) ∧
      ts' i = { Task.zero with
        state := .blocked, id := q.nextId, cpu := -1, cpuPin := -1, stackBase := a
        cr3 := cfg.kernelCr3, next := (q.tasks cur).next } ∧
      ts' cur = { q.tasks cur with next := some i } ∧
      ∀ j, j ≠ i → j ≠ cur → ts' j = q.tasks j := by
  obtain ⟨n, hn⟩ := hi.next_some hr hni
  refine ⟨_, by rw [taskCreate, hf], ?_, ?_, ?_⟩
  · simp [linkAfter, Table.modify, hic, hic.symm, hn]
  · simp [linkAfter, Table.modify, hic.symm]
  · intro j hji hjc
    simp [linkAfter, Table.modify, hji, hjc]

theorem running_ne_unused {ts : Table} (hun : (ts i).state = .unused)
    (hr : (ts cur).state = .running) : i ≠ cur := by
  rintro rfl
  cases hun.symm.trans hr

theorem Inv.unclaim (hi : Inv cfg ts held) (hun : (ts i).state = .unused)
    (hik : i ≠ kmain) :
    Inv cfg ((ts.modify i fun k => { k with state := .blocked, next := none }).modify i
      fun k => { k with state := .unused }) held := by
  have hself : ((ts.modify i fun k => { k with state := .blocked, next := none }).modify i
      fun k => { k with state := .unused }) i = { ts i with state := .unused, next := none } := by
    rw [Table.modify_self, Table.modify_self]
  have hother : ∀ j, j ≠ i → ((ts.modify i fun k => { k with state := .blocked, next := none }).modify i
      fun k => { k with state := .unused }) j = ts j := by
    intro j hj
    rw [Table.modify_of_ne _ hj, Table.modify_of_ne _ hj]
  apply hi.keep
  · intro j hj
    rw [hother j fun he => hj (he ▸ hun)]
  · intro j
    by_cases hj : j = i
    · rw [hj, hself]
    · rw [hother j hj]
  · intro j
    by_cases hj : j = i
    · rw [hj, hself, hun]
    · rw [hother j hj]
  · intro j hidle
    have hj : j ≠ i := by
      rintro rfl
      cases hun.symm.trans (hi.idle j hidle)
    rw [hother j hj]
    exact hi.idle j hidle
  · rw [hother kmain hik.symm]
    exact hi.boot
  · intro j hjk hidle
    have ho := hi.owns j hjk hidle
    by_cases hj : j = i
    · subst hj
      rw [hself]
      exact ⟨fun _ => ho.unused hun, fun h => absurd rfl h⟩
    · rw [hother j hj]
      exact ho

theorem Inv.create (hi : Inv cfg q.tasks q.held)
    (hr : (q.tasks cur).state = .running) (hni : (q.tasks cur).isIdle = false)
    (hs : stack ≠ some 0) (hfresh : ∀ i, findFreeSlot q.tasks = some i → (q.tasks i).state = .unused) :
    Inv cfg (taskCreate cfg q cur stack).2.tasks (taskCreate cfg q cur stack).2.held := by
  cases hf : findFreeSlot q.tasks with
  | none =>
    simp only [taskCreate, hf]
    exact hi
  | some i =>
    have hun := hfresh i hf
    have hik := findFreeSlot_ne_kmain hf
    cases stack with
    | none =>
      -- the slot was claimed and is given back; it was on no ring
      simp only [taskCreate, hf]
      exact hi.unclaim hun hik
    | some a =>
      have hic := running_ne_unused hun hr
      obtain ⟨ts', he, h1, h2, h3⟩ := taskCreate_eq (a := a) hi hr hni hf hic
      rw [he]
      have ho := (hi.owns i hik (hi.not_idle (by rw [hun]; decide))).unused hun
      refine hi.spawn hun hik hr hni (k := { Task.zero with
        state := .blocked, id := q.nextId, cpu := -1, cpuPin := -1, stackBase := a
        cr3 := cfg.kernelCr3 }) (fun h => by cases h) rfl ?_ ?_ h1 h2 h3
      · refine ⟨(fun h => by cases h), fun _ => ⟨?_, ?_, (fun h => by cases h)⟩⟩
        · rintro rfl
          exact hs rfl
        · simp [alloc, ho, Task.zero]
      · intro j hj
        simp [alloc, hj]

theorem owns_user {a p : Nat} (hst : k.state ≠ .unused) (ha : k.stackBase = a)
    (hp : k.cr3 = p) (hu : k.isUser = true) (ha0 : a ≠ 0) (hpd : isPd cfg p) :
    Owns cfg k [.stack a, .pd p] := by
  refine ⟨fun h => absurd h hst, fun _ => ⟨by rw [ha]; exact ha0, ?_, fun _ => by rw [hp]; exact hpd⟩⟩
  rw [ha, hp, if_pos hu]

theorem alloc_two (h : held i = []) (a p : Nat) :
    alloc (alloc held i (.stack a)) i (.pd p) i = [.stack a, .pd p] := by
  simp [alloc, h]

theorem alloc_of_ne {j : Slot} (h : j ≠ i) (r : Res) : alloc held i r j = held j := by
  simp [alloc, h]

theorem Inv.createUser (hi : Inv cfg q.tasks q.held)
    {cr3 : Nat} (hr : (q.tasks cur).state = .running) (hni : (q.tasks cur).isIdle = false)
    (hs : stack ≠ some 0) (hpd : isPd cfg cr3)
    (hfresh : ∀ i, findFreeSlot q.tasks = some i → (q.tasks i).state = .unused) :
    Inv cfg (taskCreateUser cfg q cur stack cr3).2.tasks
      (taskCreateUser cfg q cur stack cr3).2.held := by
  have hcreate := hi.create hr hni hs hfresh
  cases hf : findFreeSlot q.tasks with
  | none =>
    have he : taskCreate cfg q cur stack = (none, q) := by rw [taskCreate, hf]
    simp only [taskCreateUser, he]
    exact hi
  | some i =>
    have hun := hfresh i hf
    have hik := findFreeSlot_ne_kmain hf
    have hic := running_ne_unused hun hr
    cases stack with
    | none =>
      have he : (taskCreate cfg q cur none).1 = none := by rw [taskCreate, hf]
      rw [taskCreateUser]
      split
      · rename_i q' hq
        rw [hq] at hcreate
        exact hcreate
      · rename_i j q' hq
        rw [hq] at he
        cases he
    | some a =>
      obtain ⟨ts', he, h1, h2, h3⟩ := taskCreate_eq (a := a) hi hr hni hf hic
      have ho := (hi.owns i hik (hi.not_idle (by rw [hun]; decide))).unused hun
      simp only [taskCreateUser, he]
      refine hi.spawn hun hik hr hni (k := { Task.zero with
        state := .ready, id := q.nextId, cpu := -1, cpuPin := userPin cfg, stackBase := a
        cr3 := cr3, isUser := true }) (fun h => by cases h) rfl ?_ ?_ ?_ ?_ ?_
      · rw [alloc_two ho]
        exact owns_user (fun h => by cases h) rfl rfl rfl (fun h => hs (h ▸ rfl)) hpd
      · intro j hj
        rw [alloc_of_ne hj, alloc_of_ne hj]
      · rw [Table.modify_self, h1]
      · rw [Table.modify_of_ne _ hic.symm, h2]
      · intro j hji hjc
        rw [Table.modify_of_ne _ hji, h3 j hji hjc]

theorem Inv.fork (hi : Inv cfg q.tasks q.held) {pd : Option Nat}
    (hr : (q.tasks cur).state = .running) (hni : (q.tasks cur).isIdle = false)
    (hs : stack ≠ some 0) (hpd : ∀ p, pd = some p → isPd cfg p)
    (hfresh : ∀ i, findFreeSlot q.tasks = some i → (q.tasks i).state = .unused) :
    Inv cfg (taskFork cfg q cur stack pd).2.tasks (taskFork cfg q cur stack pd).2.held := by
  unfold taskFork
  split
  · exact hi
  · split
    · rename_i i a p hf
      dsimp only
      have hun := hfresh i hf
      have hik := findFreeSlot_ne_kmain hf
      have hic := running_ne_unused hun hr
      have ho := (hi.owns i hik (hi.not_idle (by rw [hun]; decide))).unused hun
      refine hi.spawn hun hik hr hni (k := { Task.zero with
        id := q.nextId, state := .ready, cpu := -1, cpuPin := userPin cfg, stackBase := a
        cr3 := p, isUser := true, parentId := (q.tasks cur).id }) (fun h => by cases h) rfl
        ?_ ?_ ?_ ?_ ?_
      · rw [alloc_two ho]
        exact owns_user (fun h => by cases h) rfl rfl rfl (fun h => hs (h ▸ rfl)) (hpd p rfl)
      · intro j hj
        rw [alloc_of_ne hj, alloc_of_ne hj]
      · simp [linkAfter, Table.modify, hic, hic.symm]
      · simp [linkAfter, Table.modify, hic.symm]
      · intro j hji hjc
        simp [linkAfter, Table.modify, hji, hjc]
    · exact hi

theorem inv_booted (h : Booted q) : Inv cfg q.tasks q.held := by
  have hrest := h.rest
  refine ⟨⟨[], ⟨h.kmain.2.1, by simp⟩, ?_⟩, ?_, ⟨h.kmain.2.2.2, ?_⟩, ?_⟩
  · intro i
    rw [List.mem_singleton]
    constructor
    · rintro rfl
      exact ⟨by rw [h.kmain.1]; decide, h.kmain.2.2.1⟩
    · rintro ⟨hst, hni⟩
      by_contra hk
      rcases hrest i hk with hc | hc
      · exact absurd (hni.symm.trans hc.1) Bool.false_ne_true
      · exact hst hc.2.1
  · intro i hidle
    by_cases hk : i = kmain
    · rw [hk]
      exact h.kmain.1
    · rcases hrest i hk with hc | hc
      · exact hc.2
      · exact absurd (hc.1.symm.trans hidle) Bool.false_ne_true
  · rw [h.kmain.1]
    decide
  · intro i hk hni
    rcases hrest i hk with hc | hc
    · exact absurd (hni.symm.trans hc.1) Bool.false_ne_true
    · exact ⟨fun _ => hc.2.2, fun hne => absurd hc.2.1 hne⟩

theorem inv_inductive :
    ((queueLTS cfg).restrict Fresh).Inductive fun q => Inv cfg q.tasks q.held where
  init _ h := inv_booted h
  step := by
    rintro q l q' hi ⟨hf, hstep⟩
    simp only [queueLTS, LTS.ofFn_step] at hstep
    cases l with
    | create cur stack =>
      simp only [step, ite_none_right_eq_some, Option.some.injEq] at hstep
      obtain ⟨⟨⟨hr, hni⟩, hs⟩, rfl⟩ := hstep
      exact hi.create hr hni hs hf
    | createUser cur stack cr3 =>
      simp only [step, ite_none_right_eq_some, Option.some.injEq] at hstep
      obtain ⟨⟨⟨hr, hni⟩, hs, hp⟩, rfl⟩ := hstep
      exact hi.createUser hr hni hs hp hf
    | fork cur stack pd =>
      simp only [step, ite_none_right_eq_some, Option.some.injEq] at hstep
      obtain ⟨⟨⟨hr, hni⟩, hs, hp⟩, rfl⟩ := hstep
      refine hi.fork hr hni hs ?_ hf
      rintro p rfl
      simpa using hp
    | exec cur cr3 =>
      simp only [step, ite_none_right_eq_some, Option.some.injEq] at hstep
      obtain ⟨⟨⟨hr, -⟩, hu, hp⟩, rfl⟩ := hstep
      exact hi.exec hr hu hp
    | exit cur code =>
      simp only [step, ite_none_right_eq_some, Option.some.injEq] at hstep
      obtain ⟨⟨⟨hr, hni⟩, hu⟩, rfl⟩ := hstep
      exact hi.exit q.initPid hr hni hu
    | wait cur =>
      simp only [step, ite_none_right_eq_some, Option.some.injEq] at hstep
      obtain ⟨-, rfl⟩ := hstep
      unfold reapOneZombieOf
      split
      · exact hi
      · rename_i i hfirst
        have hz := (firstSlot_some hfirst).2
        simp only [Bool.and_eq_true, decide_eq_true_eq] at hz
        refine hi.reap ?_ (by rw [hz.1]; decide) (hi.not_idle (by rw [hz.1]; decide))
        rintro rfl
        exact hi.boot.2 hz.1
    | reaper i =>
      simp only [step, ite_none_right_eq_some, Option.some.injEq] at hstep
      obtain ⟨hik, rfl⟩ := hstep
      unfold taskReaper
      dsimp only
      split
      · exact hi
      · rename_i hc
        simp only [not_or, not_not, Bool.not_eq_true] at hc
        exact hi.reap hik (by rw [hc.2.1]; decide) hc.1
    | sched i st =>
      simp only [step, ite_none_right_eq_some, Option.some.injEq] at hstep
      obtain ⟨⟨hl, hni, hst⟩, rfl⟩ := hstep
      exact hi.sched hl hni hst
    | dispatch i on =>
      simp only [step, Option.some.injEq] at hstep
      subst hstep
      exact hi

/-- In every run whose creations and forks take an UNUSED slot, the
`next` pointers from the boot thread go through one cycle that has every live task
exactly once, and every slot handed out has its previous task's kernel stack and
page directory released. -/
theorem ring_complete (h : ((queueLTS cfg).restrict Fresh).Reachable q) :
    RingOk q ∧ ∀ l, Fresh q l → Released q l := by
  have hi := inv_inductive.reachable q h
  constructor
  · obtain ⟨l, hc, hm⟩ := hi.ring
    exact ⟨l, hc, fun i h1 _ h3 => (hm i).mpr ⟨h1, h3⟩⟩
  · intro l hf i hi'
    have hun := hf i hi'
    have hik : i ≠ kmain := by
      cases l <;> first | exact findFreeSlot_ne_kmain hi' | cases hi'
    exact (hi.owns i hik (hi.not_idle (by rw [hun]; decide))).unused hun

/-! ## Concrete runs -/

def demoCfg : Cfg := ⟨100, false⟩

def demoBoot : Q where
  tasks i := if i = kmain then { Task.zero with state := .running, next := some kmain }
    else Task.zero
  nextId := 1
  initPid := 0
  onCpu i := decide (i = kmain)
  held _ := []

theorem demoBoot_booted : Booted demoBoot where
  kmain := by decide
  rest := by decide

/-- A user task and a kernel task are created, and the user task exits. It has no
parent, so it goes DEAD. -/
def demoExit : List Lbl :=
  [.createUser kmain (some 1) 200, .create kmain (some 2), .sched ⟨1, by decide⟩ .running,
    .exit ⟨1, by decide⟩ 0]

theorem reaped_slot_reused :
    ∃ q, (q.tasks ⟨1, by decide⟩).state = .unused ∧ findFreeSlot q.tasks = some ⟨1, by decide⟩ ∧
      RingOk q ∧ Released q (.create kmain (some 3)) := by
  have he : ∃ q, LTS.exec (LTS.guarded Fresh (step demoCfg)) demoBoot
      (demoExit ++ [.reaper ⟨1, by decide⟩]) = some q ∧
      (q.tasks ⟨1, by decide⟩).state = .unused ∧ findFreeSlot q.tasks = some ⟨1, by decide⟩ ∧
      Fresh q (.create kmain (some 3)) := ⟨_, rfl, by decide, by decide, by decide⟩
  obtain ⟨q, hq, h1, h2, h3⟩ := he
  have hr : ((queueLTS demoCfg).restrict Fresh).Reachable q :=
    ⟨demoBoot, _, demoBoot_booted, LTS.run_restrict_of_exec hq⟩
  exact ⟨q, h1, h2, (ring_complete hr).1, (ring_complete hr).2 _ h3⟩

/-- Before the reaper runs, the DEAD task's slot is handed out: its stack and page
directory are still allocated, and the task before it still points to it, so that
the boot thread is no longer on the cycle its `next` pointer leads into. -/
theorem dead_slot_reused :
    (¬ ∀ q, (queueLTS demoCfg).Reachable q → RingOk q) ∧
    ¬ ∀ q l q', (queueLTS demoCfg).Reachable q → (queueLTS demoCfg).step q l q' →
      Released q l := by
  constructor
  · intro hall
    have he : ∃ q, LTS.exec (step demoCfg) demoBoot (demoExit ++ [.create kmain (some 3)]) = some q ∧
        ∀ i, nextOf q.tasks i ≠ some kmain := ⟨_, rfl, by decide⟩
    obtain ⟨q, hq, hn⟩ := he
    have hr : (queueLTS demoCfg).Reachable q :=
      ⟨demoBoot, _, demoBoot_booted, LTS.run_of_exec hq⟩
    obtain ⟨l, hc, -⟩ := hall q hr
    obtain ⟨p, -, hp⟩ := hc.path.exists_pred
    exact hn p hp
  · intro hall
    have he : ∃ q, LTS.exec (step demoCfg) demoBoot demoExit = some q ∧
        handsOut q (.create kmain (some 3)) = some ⟨1, by decide⟩ ∧
        q.held ⟨1, by decide⟩ = [.stack 1, .pd 200] ∧
        ∃ q', step demoCfg q (.create kmain (some 3)) = some q' :=
      ⟨_, rfl, by decide, by decide, _, rfl⟩
    obtain ⟨q, hq, h1, h2, q', hstep⟩ := he
    have hr : (queueLTS demoCfg).Reachable q :=
      ⟨demoBoot, _, demoBoot_booted, LTS.run_of_exec hq⟩
    have hrel := hall q _ q' hr hstep _ h1
    rw [h2] at hrel
    cases hrel

end AdventOS.Kernel.RunQueue
