import AdventOS.Core.LTS
import AdventOS.Kernel.Task

/-!
# CPU assignment by `schedule()` (`kernel/task.c`)

Every CPU calls `schedule()` from its timer tick or when its task gives up the processor; the
scheduler lock makes each call one step. Between calls the running tasks block, stop or exit, and
other CPUs wake, create, pin and reap tasks. `next` pointers are arbitrary: what `pick_next_ready`
may return does not depend on the shape of the ring.

A task that has blocked is still the current task of its CPU until that CPU calls `schedule()`.
`mutex_unlock`, `task_exit_current` or `SIGCONT` on another CPU may mark it READY in this window,
and the next `schedule()` anywhere may then pick it up a second time.

* `inv_inductive`: over runs of `Settled` steps the assignment is sound;
* `schedule_assigns_cpus`: what that gives, state by state and call by call;
* `early_wake_runs_twice`: a run in which one task is current on two CPUs.
-/
namespace AdventOS.Kernel.Schedule
open Option

/-! ## The per-CPU records -/

/-- `MAX_CPUS`. smp.h:28 -/
def maxCpus : Nat := 8

abbrev CpuId := Fin maxCpus

/-- The scheduling fields of `struct cpu_local`. -/
structure Cpu where
  current : Option Slot
  idle : Option Slot
  deriving DecidableEq, Repr

structure Sys where
  tasks : Table
  cpus : CpuId → Cpu

def setTask (s : Sys) (i : Slot) (f : Task → Task) : Sys :=
  { s with tasks := s.tasks.modify i f }

def setCurrent (s : Sys) (c : CpuId) (t : Slot) : Sys :=
  { s with cpus := Function.update s.cpus c { s.cpus c with current := some t } }

@[simp] theorem setTask_cpus (s : Sys) (i : Slot) (f : Task → Task) :
    (setTask s i f).cpus = s.cpus := rfl
@[simp] theorem setTask_tasks (s : Sys) (i : Slot) (f : Task → Task) :
    (setTask s i f).tasks = s.tasks.modify i f := rfl
@[simp] theorem setCurrent_tasks (s : Sys) (c : CpuId) (t : Slot) :
    (setCurrent s c t).tasks = s.tasks := rfl
@[simp] theorem setCurrent_self (s : Sys) (c : CpuId) (t : Slot) :
    ((setCurrent s c t).cpus c).current = some t := by
  simp [setCurrent]
@[simp] theorem setCurrent_idle (s : Sys) (c d : CpuId) (t : Slot) :
    ((setCurrent s c t).cpus d).idle = (s.cpus d).idle := by
  by_cases h : d = c
  · subst h; simp [setCurrent]
  · simp [setCurrent, h]

variable {s : Sys} {c d : CpuId} {j t : Slot}

theorem setCurrent_of_ne (t : Slot) (h : d ≠ c) :
    ((setCurrent s c t).cpus d).current = (s.cpus d).current := by
  simp [setCurrent, h]

/-! ## schedule -/

/-- task.c:398-402 -/
def pickableBy (t : Task) (c : CpuId) : Bool :=
  t.state = .ready && (t.cpuPin = -1 || t.cpuPin = (c.val : Int))

/-- The ring walk of `pick_next_ready`, with `safety` turns left.
task.c:428-434 -/
def ringWalk (ts : Table) (c : CpuId) (start : Slot) : Nat → Slot → Option Slot
  | 0, _ => none
  | safety + 1, t =>
    if pickableBy (ts t) c then some t
    else
      let t' := (ts t).next.getD start
      if safety = 0 ∨ t' = start then none else ringWalk ts c start safety t'

/-- task.c:418-437 -/
def pickNextReady (ts : Table) (c : CpuId) (start : Option Slot) : Option Slot :=
  match start with
  | none => firstSlot 0 fun i => pickableBy (ts i) c
  | some start =>
    (ringWalk ts c start (taskMax * 2) start).or
      (if pickableBy (ts start) c then some start else none)

/-- task.c:451 -/
def prevOf (s : Sys) (c : CpuId) : Slot := (s.cpus c).current.getD kmain

/-- A RUNNING task goes back to READY before the pick. task.c:461-464 -/
def demote (s : Sys) (t : Slot) : Sys :=
  if (s.tasks t).state = .running ∧ (s.tasks t).isIdle = false then
    setTask s t fun k => { k with state := .ready, cpu := -1 }
  else s

/-- The pick of `schedule()` on CPU `c`: anchored at the previous task unless that
is an idle task. task.c:466-467 -/
def pick (s : Sys) (c : CpuId) : Option Slot :=
  let prev := prevOf s c
  let ts := (demote s prev).tasks
  pickNextReady ts c (if (ts prev).isIdle then none else (ts prev).next)

/-- task.c:472-475; the BSP's `idle` is never set. -/
def fallback (s : Sys) (c : CpuId) : Slot := (s.cpus c).idle.getD kmain

/-- task.c:439-563, up to the switch of stacks and address spaces -/
def schedule (s : Sys) (c : CpuId) : Sys :=
  let prev := prevOf s c
  let next := (pick s c).getD (fallback s c)
  let s' := setTask (demote s prev) next fun k => { k with state := .running, cpu := c.val }
  if next = prev then s' else setCurrent s' c next

/-! ## The system -/

inductive Lbl
  /-- CPU `c` calls `schedule()` -/
  | schedule (c : CpuId)
  /-- the task running on `c` blocks, waits for a child, stops or exits:
  mutex.c:42, task.c:1214, signal.c:171, task.c:1127-1131 -/
  | leave (c : CpuId) (st : TaskState)
  /-- mutex.c:60, task.c:324,1099,1121, signal.c:99,
  ptrace.c:215 -/
  | wake (t : Slot)
  | pin (t : Slot) (p : Int)
  /-- a free slot becomes a new, still BLOCKED task -/
  | create (i : Slot) (p : Int)
  /-- a DEAD or ZOMBIE task's slot is cleared -/
  | reap (i : Slot)
  /-- `g_tasks[i].next` is rewritten by a splice -/
  | link (i : Slot) (n : Option Slot)

def hasLeft (st : TaskState) : Bool :=
  st = .blocked || st = .blockedOnChild || st = .stopped || st = .zombie || st = .dead

def isWaiting (st : TaskState) : Bool :=
  st = .blocked || st = .blockedOnChild || st = .stopped

/-- One step; `none` when it cannot happen. A CPU without a current task has not
been started. Idle tasks only halt, so they never leave the processor themselves,
and the boot thread and the idle tasks are pinned once, at start-up. -/
def step (s : Sys) : Lbl → Option Sys
  | .schedule c => if (s.cpus c).current.isSome then some (schedule s c) else none
  | .leave c st =>
    match (s.cpus c).current with
    | none => none
    | some t =>
      if (s.tasks t).isIdle = false ∧ hasLeft st then
        some (setTask s t fun k => { k with state := st })
      else none
  | .wake t =>
    if isWaiting (s.tasks t).state then
      some (setTask s t fun k => { k with state := .ready })
    else none
  | .pin t p =>
    if t ≠ kmain ∧ (s.tasks t).isIdle = false then
      some (setTask s t fun k => { k with cpuPin := p })
    else none
  | .create i p =>
    if i ≠ kmain ∧ ((s.tasks i).state = .unused ∨ (s.tasks i).state = .dead) then
      some (setTask s i fun k => { k with state := .blocked, cpu := -1, cpuPin := p, isIdle := false })
    else none
  | .reap i =>
    if (s.tasks i).state = .dead ∨ (s.tasks i).state = .zombie then
      some (setTask s i fun k => { k with state := .unused, next := none })
    else none
  | .link i n => some (setTask s i fun k => { k with next := n })

/-- An idle task of CPU `c` as `task_init_ap_idle` leaves it. -/
def IdleOf (c : CpuId) (t : Task) : Prop :=
  t.state = .running ∧ t.cpu = c.val ∧ t.cpuPin = c.val ∧ t.isIdle = true

/-- After `task_init` and `smp_init`: the boot thread on CPU 0, each started AP in
its own idle task. -/
structure Booted (s : Sys) : Prop where
  bsp : s.cpus ⟨0, by decide⟩ = ⟨some kmain, none⟩
  kmain : (s.tasks kmain).state = .running ∧ (s.tasks kmain).cpu = 0 ∧
    (s.tasks kmain).cpuPin = 0 ∧ (s.tasks kmain).isIdle = false
  ap : ∀ c : CpuId, c.val ≠ 0 → (s.cpus c).current = (s.cpus c).idle ∧
    ∀ i, (s.cpus c).idle = some i → IdleOf c (s.tasks i)
  rest : ∀ i, (s.tasks i).isIdle = true → (s.tasks i).state = .running

def schedLTS : LTS Sys Lbl := .ofFn Booted step

/-! ## The steps that keep the assignment -/

def isCurrent (s : Sys) (t : Slot) : Prop := ∃ c, (s.cpus c).current = some t

instance (s : Sys) (t : Slot) : Decidable (isCurrent s t) := by
  unfold isCurrent; infer_instance

/-- A task is woken or its slot reused only after its CPU has switched away from
it, it is not pinned elsewhere while it runs, and where `schedule()` finds nothing
to run the fallback task has not blocked. -/
def Settled (s : Sys) : Lbl → Prop
  | .schedule c => (pick s c).isSome = true ∨ (s.tasks (fallback s c)).state.runnable
  | .wake t => ¬ isCurrent s t
  | .create i _ => ¬ isCurrent s i
  | .pin t p => p = -1 ∨ ∀ c : CpuId, (s.cpus c).current = some t → p = c.val
  | _ => True

instance (s : Sys) (l : Lbl) : Decidable (Settled s l) := by
  cases l <;> unfold Settled <;> infer_instance

/-- Each task is current on at most one CPU; a current task that has not blocked,
stopped or exited is RUNNING on that CPU; a pinned task is current on its CPU only. -/
structure CpuAssignment (s : Sys) : Prop where
  one : ∀ c d t, (s.cpus c).current = some t → (s.cpus d).current = some t → c = d
  running : ∀ c t, (s.cpus c).current = some t → (s.tasks t).state.runnable →
    (s.tasks t).state = .running ∧ (s.tasks t).cpu = c.val
  pinned : ∀ c t, (s.cpus c).current = some t → (s.tasks t).cpuPin ≠ -1 →
    (s.tasks t).cpuPin = c.val

/-- What a call of `schedule()` on `c` selects: a task that was READY or RUNNING,
and that is now RUNNING on `c`. -/
def Dispatched (s : Sys) (c : CpuId) (s' : Sys) : Prop :=
  ∃ t, (s'.cpus c).current = some t ∧ (s.tasks t).state.runnable ∧
    (s'.tasks t).state = .running ∧ (s'.tasks t).cpu = c.val

/-! ## The invariant -/

structure Inv (s : Sys) : Prop where
  assign : CpuAssignment s
  fallPin : ∀ c, (s.cpus c).current.isSome = true →
    (s.tasks (fallback s c)).cpuPin = c.val ∧
      (fallback s c = kmain ∨ (s.tasks (fallback s c)).isIdle = true)
  idle : ∀ i, (s.tasks i).isIdle = true → (s.tasks i).state = .running

theorem pickableBy_iff {t : Task} :
    pickableBy t c = true ↔ t.state = .ready ∧ (t.cpuPin = -1 ∨ t.cpuPin = c.val) := by
  simp [pickableBy]

theorem ringWalk_pickable {ts : Table} {start r : Slot} {n : Nat}
    (h : ringWalk ts c start n t = some r) : pickableBy (ts r) c = true := by
  induction n generalizing t with
  | zero => cases h
  | succ n ih =>
    simp only [ringWalk] at h
    split at h
    · rename_i hp
      cases h
      exact hp
    · split at h
      · cases h
      · exact ih h

theorem pickNextReady_pickable {ts : Table} {start : Option Slot} {r : Slot}
    (h : pickNextReady ts c start = some r) : pickableBy (ts r) c = true := by
  unfold pickNextReady at h
  split at h
  · exact (firstSlot_some h).2
  · rcases or_eq_some_iff.mp h with hw | ⟨-, hw⟩
    · exact ringWalk_pickable hw
    · split at hw
      · rename_i hp
        cases hw
        exact hp
      · cases hw

theorem demote_cpus (s : Sys) (t : Slot) : (demote s t).cpus = s.cpus := by
  unfold demote
  split <;> rfl

theorem demote_of_ne (h : j ≠ t) :
    (demote s t).tasks j = s.tasks j := by
  unfold demote
  split
  · rw [setTask_tasks, Table.modify_of_ne _ h]
  · rfl

theorem demote_field {α : Type} (g : Task → α)
    (hg : ∀ k : Task, g { k with state := .ready, cpu := -1 } = g k) (j : Slot) :
    g ((demote s t).tasks j) = g (s.tasks j) := by
  unfold demote
  split
  · rw [setTask_tasks]
    exact Table.modify_field g (hg (s.tasks t)) j
  · rfl

theorem demote_ready (h : ((demote s t).tasks j).state = .ready) :
    (s.tasks j).state.runnable := by
  by_cases hj : j = t
  · subst hj
    unfold demote at h
    split at h
    · rename_i hr
      exact .inr hr.1
    · exact .inl h
  · rw [demote_of_ne hj] at h
    exact .inl h

/-- What `schedule()` selects: a task that was READY or RUNNING and whose pin
admits the CPU, and that no other CPU runs. -/
theorem selected (hi : Inv s) (hc : (s.cpus c).current.isSome = true)
    (hs : Settled s (.schedule c)) (ht : (pick s c).getD (fallback s c) = t) :
    (s.tasks t).state.runnable ∧ ((s.tasks t).cpuPin = -1 ∨ (s.tasks t).cpuPin = c.val) ∧
      ∀ d, (s.cpus d).current = some t → d = c := by
  cases hp : pick s c with
  | some r =>
    rw [hp, getD_some] at ht
    subst ht
    have hpick := pickableBy_iff.mp (pickNextReady_pickable hp)
    rw [demote_field (·.cpuPin) (fun _ => rfl)] at hpick
    refine ⟨demote_ready hpick.1, hpick.2, ?_⟩
    intro d hd
    -- a task current on another CPU is not demoted by this call, so it is not READY
    by_cases hprev : r = prevOf s c
    · obtain ⟨t, ht⟩ := isSome_iff_exists.mp hc
      have hr : r = t := by rw [hprev, prevOf, ht, getD_some]
      exact hi.assign.one d c t (hr ▸ hd) ht
    · rw [demote_of_ne hprev] at hpick
      have hrun := (hi.assign.running d r hd (.inl hpick.1)).1
      rw [hpick.1] at hrun
      cases hrun
  | none =>
    rw [hp, getD_none] at ht
    subst ht
    have hfb := (hi.fallPin c hc).1
    refine ⟨?_, .inr hfb, ?_⟩
    · rcases hs with hs | hs
      · rw [hp] at hs
        cases hs
      · exact hs
    · intro d hd
      have hpin := hi.assign.pinned d _ hd (by rw [hfb]; omega)
      rw [hfb] at hpin
      exact Fin.ext (by omega)

/-! ### Writes to one task -/

/-- A write to one task keeps the invariant when the task, where it is current,
stays RUNNING there or leaves, keeps to its pin, and is no fallback task whose pin
or kind changes. -/
theorem Inv.setTask (hi : Inv s) {f : Task → Task}
    (hrun : ∀ c, (s.cpus c).current = some t → (f (s.tasks t)).state.runnable →
      (f (s.tasks t)).state = .running ∧ (f (s.tasks t)).cpu = c.val)
    (hpin : ∀ c, (s.cpus c).current = some t → (f (s.tasks t)).cpuPin ≠ -1 →
      (f (s.tasks t)).cpuPin = c.val)
    (hfix : t = kmain ∨ (s.tasks t).isIdle = true →
      (f (s.tasks t)).cpuPin = (s.tasks t).cpuPin ∧ (f (s.tasks t)).isIdle = (s.tasks t).isIdle)
    (hidle : (f (s.tasks t)).isIdle = true → (f (s.tasks t)).state = .running) :
    Inv (setTask s t f) where
  assign :=
    { one := hi.assign.one
      running := by
        intro c j hj
        rw [setTask_tasks]
        by_cases h : j = t
        · subst h
          rw [Table.modify_self]
          exact hrun c hj
        · rw [Table.modify_of_ne f h]
          exact hi.assign.running c j hj
      pinned := by
        intro c j hj
        rw [setTask_tasks]
        by_cases h : j = t
        · subst h
          rw [Table.modify_self]
          exact hpin c hj
        · rw [Table.modify_of_ne f h]
          exact hi.assign.pinned c j hj }
  fallPin := by
    intro c hc
    have hold := hi.fallPin c hc
    have hfb : fallback (Schedule.setTask s t f) c = fallback s c := rfl
    rw [hfb, setTask_tasks]
    by_cases h : fallback s c = t
    · rw [h] at hold ⊢
      rw [Table.modify_self, (hfix hold.2).1, (hfix hold.2).2]
      exact hold
    · rw [Table.modify_of_ne f h]
      exact hold
  idle := by
    intro i
    rw [setTask_tasks]
    by_cases h : i = t
    · subst h
      rw [Table.modify_self]
      exact hidle
    · rw [Table.modify_of_ne f h]
      exact hi.idle i

theorem not_runnable_of_left {st : TaskState} (h : hasLeft st = true) : ¬ st.runnable := by
  intro hr
  rcases hr with rfl | rfl <;> simp [hasLeft] at h

theorem Inv.leave (hi : Inv s) {st : TaskState}
    (hidle : (s.tasks t).isIdle = false) (hst : hasLeft st = true) :
    Inv (Schedule.setTask s t fun k => { k with state := st }) := by
  apply hi.setTask
  · intro c hc hr
    exact absurd hr (not_runnable_of_left hst)
  · exact fun c hc => hi.assign.pinned c t hc
  · exact fun _ => ⟨rfl, rfl⟩
  · intro h
    exact absurd (hidle.symm.trans h) Bool.false_ne_true

theorem Inv.wake (hi : Inv s) (hw : isWaiting (s.tasks t).state = true)
    (hc : ¬ isCurrent s t) :
    Inv (Schedule.setTask s t fun k => { k with state := .ready }) := by
  apply hi.setTask
  · exact fun c h => absurd ⟨c, h⟩ hc
  · exact fun c h => absurd ⟨c, h⟩ hc
  · exact fun _ => ⟨rfl, rfl⟩
  · intro h
    rw [hi.idle t h] at hw
    simp [isWaiting] at hw

theorem Inv.pin (hi : Inv s) {p : Int} (hk : t ≠ kmain)
    (hidle : (s.tasks t).isIdle = false)
    (hp : p = -1 ∨ ∀ c : CpuId, (s.cpus c).current = some t → p = c.val) :
    Inv (Schedule.setTask s t fun k => { k with cpuPin := p }) := by
  apply hi.setTask
  · exact fun c hc => hi.assign.running c t hc
  · intro c hc hne
    rcases hp with hp | hp
    · exact absurd hp hne
    · exact hp c hc
  · rintro (h | h)
    · exact absurd h hk
    · exact absurd (hidle.symm.trans h) Bool.false_ne_true
  · intro h
    exact absurd (hidle.symm.trans h) Bool.false_ne_true

theorem Inv.create (hi : Inv s) {i : Slot} {p : Int} (hk : i ≠ kmain)
    (hfree : (s.tasks i).state = .unused ∨ (s.tasks i).state = .dead) (hc : ¬ isCurrent s i) :
    Inv (Schedule.setTask s i fun k =>
      { k with state := .blocked, cpu := -1, cpuPin := p, isIdle := false }) := by
  apply hi.setTask
  · exact fun c h => absurd ⟨c, h⟩ hc
  · exact fun c h => absurd ⟨c, h⟩ hc
  · rintro (h | h)
    · exact absurd h hk
    · rw [hi.idle i h] at hfree
      rcases hfree with hf | hf <;> cases hf
  · exact fun h => absurd h Bool.false_ne_true

theorem Inv.reap (hi : Inv s) {i : Slot}
    (hst : (s.tasks i).state = .dead ∨ (s.tasks i).state = .zombie) :
    Inv (Schedule.setTask s i fun k => { k with state := .unused, next := none }) := by
  have hni : (s.tasks i).isIdle = true → False := by
    intro h
    rw [hi.idle i h] at hst
    rcases hst with hf | hf <;> cases hf
  apply hi.setTask
  · rintro c - (h | h) <;> cases h
  · exact fun c hc => hi.assign.pinned c i hc
  · exact fun _ => ⟨rfl, rfl⟩
  · exact fun h => (hni h).elim

/-! ### The call -/

theorem demote_idle (h : (s.tasks j).isIdle = true) :
    (demote s t).tasks j = s.tasks j := by
  by_cases hj : j = t
  · subst hj
    unfold demote
    rw [if_neg (fun hc => absurd (hc.2.symm.trans h) Bool.false_ne_true)]
  · exact demote_of_ne hj

theorem schedule_tasks (s : Sys) (c : CpuId) :
    (schedule s c).tasks = (demote s (prevOf s c)).tasks.modify ((pick s c).getD (fallback s c))
      fun k => { k with state := .running, cpu := c.val } := by
  unfold schedule
  dsimp only
  split <;> rfl

theorem schedule_current (hc : (s.cpus c).current.isSome = true) :
    ((schedule s c).cpus c).current = some ((pick s c).getD (fallback s c)) := by
  obtain ⟨t, ht⟩ := isSome_iff_exists.mp hc
  unfold schedule
  dsimp only
  split
  · rename_i h
    rw [setTask_cpus, demote_cpus, ht, h, prevOf, ht, getD_some]
  · rw [setCurrent_self]

theorem schedule_other (h : d ≠ c) :
    ((schedule s c).cpus d).current = (s.cpus d).current := by
  unfold schedule
  dsimp only
  split
  · rw [setTask_cpus, demote_cpus]
  · rw [setCurrent_of_ne _ h, setTask_cpus, demote_cpus]

theorem schedule_fallback (s : Sys) (c d : CpuId) :
    fallback (schedule s c) d = fallback s d := by
  unfold fallback schedule
  dsimp only
  split
  · rw [setTask_cpus, demote_cpus]
  · rw [setCurrent_idle, setTask_cpus, demote_cpus]

theorem schedule_task_other (hi : Inv s)
    (hc : (s.cpus c).current.isSome = true) (hs : Settled s (.schedule c)) (hne : d ≠ c)
    (ht : (s.cpus d).current = some t) : (schedule s c).tasks t = s.tasks t := by
  have hsel : t ≠ (pick s c).getD (fallback s c) := by
    intro h
    exact hne ((selected hi hc hs h.symm).2.2 d ht)
  obtain ⟨p, hp⟩ := isSome_iff_exists.mp hc
  have hprev : t ≠ prevOf s c := by
    intro h
    rw [prevOf, hp, getD_some] at h
    exact hne (hi.assign.one d c t ht (h ▸ hp))
  rw [schedule_tasks, Table.modify_of_ne _ hsel, demote_of_ne hprev]

theorem Inv.schedule (hi : Inv s) (hc : (s.cpus c).current.isSome = true)
    (hs : Settled s (.schedule c)) : Inv (schedule s c) := by
  have hfield : ∀ {α : Type} (g : Task → α) (_ : ∀ k : Task, g { k with state := .ready, cpu := -1 } = g k)
      (_ : ∀ k : Task, g { k with state := .running, cpu := c.val } = g k) (j : Slot),
      g ((Schedule.schedule s c).tasks j) = g (s.tasks j) := by
    intro α g h1 h2 j
    rw [schedule_tasks, Table.modify_field g (h2 _), demote_field g h1]
  have hpinF := hfield (·.cpuPin) (fun _ => rfl) (fun _ => rfl)
  have hidleF := hfield (·.isIdle) (fun _ => rfl) (fun _ => rfl)
  generalize hn : (pick s c).getD (fallback s c) = next at *
  obtain ⟨-, hpin, hone⟩ := selected hi hc hs hn
  refine ⟨⟨?_, ?_, ?_⟩, ?_, ?_⟩
  · -- another CPU's current task is not the one selected here
    intro a b t ha hb
    by_cases hac : a = c <;> by_cases hbc : b = c
    · rw [hac, hbc]
    · rw [hac, schedule_current hc, hn] at ha
      rw [schedule_other hbc] at hb
      cases ha
      exact absurd (hone b hb) hbc
    · rw [hbc, schedule_current hc, hn] at hb
      rw [schedule_other hac] at ha
      cases hb
      exact absurd (hone a ha) hac
    · rw [schedule_other hac] at ha
      rw [schedule_other hbc] at hb
      exact hi.assign.one a b t ha hb
  · intro d t ht hr
    by_cases hd : d = c
    · rw [hd, schedule_current hc, hn] at ht
      cases ht
      rw [schedule_tasks, hn, Table.modify_self, hd]
      exact ⟨rfl, rfl⟩
    · rw [schedule_other hd] at ht
      rw [schedule_task_other hi hc hs hd ht] at hr ⊢
      exact hi.assign.running d t ht hr
  · intro d t ht hne
    rw [hpinF] at hne ⊢
    by_cases hd : d = c
    · rw [hd, schedule_current hc, hn] at ht
      cases ht
      rcases hpin with hpin | hpin
      · exact absurd hpin hne
      · rw [hd, hpin]
    · rw [schedule_other hd] at ht
      exact hi.assign.pinned d t ht hne
  · intro d hd
    rw [schedule_fallback, hpinF, hidleF]
    apply hi.fallPin d
    by_cases hdc : d = c
    · rw [hdc]
      exact hc
    · rw [schedule_other hdc] at hd
      exact hd
  · intro i hidle
    rw [hidleF] at hidle
    rw [schedule_tasks, hn]
    by_cases h : i = next
    · rw [h, Table.modify_self]
    · rw [Table.modify_of_ne _ h, demote_idle hidle]
      exact hi.idle i hidle

theorem inv_booted (h : Booted s) : Inv s := by
  have hcur : ∀ (c : CpuId) (t : Slot), (s.cpus c).current = some t →
      (s.tasks t).state = .running ∧ (s.tasks t).cpu = c.val ∧ (s.tasks t).cpuPin = c.val := by
    intro c t ht
    by_cases hc : c.val = 0
    · obtain rfl : c = ⟨0, by decide⟩ := Fin.ext hc
      rw [h.bsp] at ht
      cases ht
      exact ⟨h.kmain.1, h.kmain.2.1, h.kmain.2.2.1⟩
    · obtain ⟨he, hi⟩ := h.ap c hc
      obtain ⟨h1, h2, h3, -⟩ := hi t (he ▸ ht)
      exact ⟨h1, h2, h3⟩
  refine ⟨⟨?_, ?_, ?_⟩, ?_, h.rest⟩
  · intro c d t hc hd
    have h1 := (hcur c t hc).2.2
    have h2 := (hcur d t hd).2.2
    rw [h1] at h2
    exact Fin.ext (by omega)
  · exact fun c t ht _ => ⟨(hcur c t ht).1, (hcur c t ht).2.1⟩
  · exact fun c t ht _ => (hcur c t ht).2.2
  · intro c hc
    by_cases h0 : c.val = 0
    · obtain rfl : c = ⟨0, by decide⟩ := Fin.ext h0
      have hf : fallback s ⟨0, by decide⟩ = kmain := by rw [fallback, h.bsp]; rfl
      rw [hf]
      exact ⟨h.kmain.2.2.1, .inl rfl⟩
    · obtain ⟨he, hi⟩ := h.ap c h0
      obtain ⟨t, ht⟩ := isSome_iff_exists.mp hc
      rw [he] at ht
      have hf : fallback s c = t := by rw [fallback, ht]; rfl
      obtain ⟨-, -, h3, h4⟩ := hi t ht
      rw [hf]
      exact ⟨h3, .inr h4⟩

theorem inv_inductive : (schedLTS.restrict Settled).Inductive Inv where
  init _ h := inv_booted h
  step := by
    rintro s l s' hi ⟨hs, hstep⟩
    simp only [schedLTS, LTS.ofFn_step] at hstep
    cases l with
    | schedule c =>
      simp only [step, ite_none_right_eq_some, Option.some.injEq] at hstep
      obtain ⟨hc, rfl⟩ := hstep
      exact hi.schedule hc hs
    | leave c st =>
      simp only [step] at hstep
      split at hstep
      · cases hstep
      · simp only [ite_none_right_eq_some, Option.some.injEq] at hstep
        obtain ⟨⟨hidle, hst⟩, rfl⟩ := hstep
        exact hi.leave hidle hst
    | wake t =>
      simp only [step, ite_none_right_eq_some, Option.some.injEq] at hstep
      obtain ⟨hw, rfl⟩ := hstep
      exact hi.wake hw hs
    | pin t p =>
      simp only [step, ite_none_right_eq_some, Option.some.injEq] at hstep
      obtain ⟨⟨hk, hidle⟩, rfl⟩ := hstep
      exact hi.pin hk hidle hs
    | create i p =>
      simp only [step, ite_none_right_eq_some, Option.some.injEq] at hstep
      obtain ⟨⟨hk, hfree⟩, rfl⟩ := hstep
      exact hi.create hk hfree hs
    | reap i =>
      simp only [step, ite_none_right_eq_some, Option.some.injEq] at hstep
      obtain ⟨hst, rfl⟩ := hstep
      exact hi.reap hst
    | link i n =>
      simp only [step, Option.some.injEq] at hstep
      subst hstep
      exact hi.setTask (fun c => hi.assign.running c i) (fun c => hi.assign.pinned c i)
        (fun _ => ⟨rfl, rfl⟩) (hi.idle i)

/-- In every run in which no task is woken or replaced while a CPU is
still on it, none is pinned elsewhere while it runs, and the fallback task of a
`schedule()` that finds nothing has not blocked: each task is current on at most
one CPU and RUNNING there until it leaves, pinned tasks stay on their CPU, and
every call selects a READY or RUNNING task. -/
theorem schedule_assigns_cpus (h : (schedLTS.restrict Settled).Reachable s) :
    CpuAssignment s ∧ ∀ c s', Settled s (.schedule c) → schedLTS.step s (.schedule c) s' →
      CpuAssignment s' ∧ Dispatched s c s' := by
  have hi := inv_inductive.reachable s h
  refine ⟨hi.assign, ?_⟩
  intro c s' hs hstep
  simp only [schedLTS, LTS.ofFn_step, step, ite_none_right_eq_some,
    Option.some.injEq] at hstep
  obtain ⟨hc, rfl⟩ := hstep
  refine ⟨(hi.schedule hc hs).assign, _, schedule_current hc, (selected hi hc hs rfl).1, ?_⟩
  rw [schedule_tasks, Table.modify_self]
  exact ⟨rfl, rfl⟩

/-! ## A concrete run -/

/-- Two CPUs after start-up; the ring goes from the boot thread to slot 2. -/
def demoSys : Sys where
  tasks i :=
    if i.val = 0 then { Task.zero with state := .running, next := some ⟨2, two_lt_taskMax⟩ }
    else if i.val = 1 then
      { Task.zero with state := .running, cpu := 1, cpuPin := 1, isIdle := true }
    else Task.zero
  cpus c :=
    if c.val = 0 then ⟨some kmain, none⟩
    else if c.val = 1 then ⟨some ⟨1, one_lt_taskMax⟩, some ⟨1, one_lt_taskMax⟩⟩
    else ⟨none, none⟩

theorem demoSys_booted : Booted demoSys where
  bsp := by decide
  kmain := by decide
  ap := by unfold IdleOf; decide
  rest := by decide

/-- A new task is dispatched on CPU 1. -/
def demoStart : List Lbl :=
  [.create ⟨2, by decide⟩ (-1), .wake ⟨2, by decide⟩, .schedule ⟨1, by decide⟩]

theorem dispatched_on_one_cpu :
    ∃ s, (s.cpus ⟨1, by decide⟩).current = some ⟨2, by decide⟩ ∧
      (s.cpus ⟨0, by decide⟩).current = some kmain ∧ CpuAssignment s := by
  have he : ∃ s, LTS.exec (LTS.guarded Settled step) demoSys demoStart = some s ∧
      (s.cpus ⟨1, by decide⟩).current = some ⟨2, by decide⟩ ∧
      (s.cpus ⟨0, by decide⟩).current = some kmain := ⟨_, rfl, by decide, by decide⟩
  obtain ⟨s, hs, h1, h0⟩ := he
  have hr : (schedLTS.restrict Settled).Reachable s :=
    ⟨demoSys, demoStart, demoSys_booted, LTS.run_restrict_of_exec hs⟩
  exact ⟨s, h1, h0, (schedule_assigns_cpus hr).1⟩

/-- The task on CPU 1 blocks on a mutex; before CPU 1 calls `schedule()` the holder
on CPU 0 unlocks it, and CPU 0's next call picks the task up while CPU 1 still runs
it. -/
theorem early_wake_runs_twice : ¬ ∀ s, schedLTS.Reachable s → CpuAssignment s := by
  intro hall
  have he : ∃ s, LTS.exec step demoSys (demoStart ++
      [.leave ⟨1, by decide⟩ .blocked, .wake ⟨2, by decide⟩, .schedule ⟨0, by decide⟩]) = some s ∧
      (s.cpus ⟨1, by decide⟩).current = some ⟨2, by decide⟩ ∧
      (s.cpus ⟨0, by decide⟩).current = some ⟨2, by decide⟩ := ⟨_, rfl, by decide, by decide⟩
  obtain ⟨s, hs, h1, h0⟩ := he
  have hr : schedLTS.Reachable s := ⟨demoSys, _, demoSys_booted, LTS.run_of_exec hs⟩
  have hone := (hall s hr).one _ _ _ h1 h0
  exact absurd hone (by decide)

end AdventOS.Kernel.Schedule
