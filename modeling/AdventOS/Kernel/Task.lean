import Mathlib

/-!
# The task table

`g_tasks[TASK_MAX]` (`kernel/task.c`) with the fields that scheduling, the
round-robin ring and the wait/exit handshake read, and the per-CPU records that
point into it. A slot is an index into the table; the `next` pointers thread the
ring through it.

The three modules over this one each take one protocol: `Schedule` (which CPU
runs which task), `RunQueue` (the ring and the reuse of slots) and `WaitExit`
(a parent's wait against its children's exits).
-/
namespace AdventOS.Kernel

/-- task.h:75-84 -/
inductive TaskState
  | unused
  | ready
  | running
  | blocked
  | dead
  | blockedOnChild
  | zombie
  | stopped
  deriving DecidableEq, Repr

/-- A task that may run, now or when it is next picked. -/
def TaskState.runnable (st : TaskState) : Prop := st = .ready ∨ st = .running

instance (st : TaskState) : Decidable st.runnable := by
  unfold TaskState.runnable; infer_instance

/-- `TASK_MAX`. task.h:13 -/
def taskMax : Nat := 32

abbrev Slot := Fin taskMax

theorem one_lt_taskMax : 1 < taskMax := by decide

theorem two_lt_taskMax : 2 < taskMax := by decide

/-- The boot thread's slot, `g_tasks[0]`. -/
def kmain : Slot := ⟨0, by decide⟩

/-- The fields of `struct task` that these modules use; `cpu` and `cpuPin` are -1
for "none". `stackBase` and `cr3` are addresses, 0 for `NULL`.
task.h:86-132 -/
structure Task where
  id : UInt32
  state : TaskState
  next : Option Slot
  cpu : Int
  cpuPin : Int
  isIdle : Bool
  isUser : Bool
  stackBase : Nat
  cr3 : Nat
  parentId : UInt32
  exitCode : Int
  deriving DecidableEq, Repr

/-- A slot that `memset` has cleared. -/
def Task.zero : Task := ⟨0, .unused, none, 0, 0, false, false, 0, 0, 0, 0⟩

abbrev Table := Slot → Task

/-- Writing some fields of the task in one slot. -/
def Table.modify (ts : Table) (i : Slot) (f : Task → Task) : Table :=
  Function.update ts i (f (ts i))

@[simp] theorem Table.modify_self (ts : Table) (i : Slot) (f : Task → Task) :
    ts.modify i f i = f (ts i) := by
  simp [Table.modify]

variable {ts : Table} {i p t : Slot}

theorem Table.modify_of_ne {j : Slot} (f : Task → Task) (h : j ≠ i) : ts.modify i f j = ts j := by
  simp [Table.modify, h]

theorem Table.modify_field {α : Type} {f : Task → Task} (g : Task → α)
    (h : g (f (ts i)) = g (ts i)) (j : Slot) : g (ts.modify i f j) = g (ts j) := by
  by_cases hj : j = i
  · subst hj
    rw [modify_self, h]
  · rw [modify_of_ne f hj]

/-- The first slot of a C loop `for (i = lo; i < TASK_MAX; i++)` that meets a test. -/
def firstSlot (lo : Nat) (p : Slot → Bool) : Option Slot :=
  (List.finRange taskMax).find? fun i => decide (lo ≤ i.val) && p i

theorem firstSlot_some {lo : Nat} {p : Slot → Bool} (h : firstSlot lo p = some i) :
    lo ≤ i.val ∧ p i = true := by
  have h' := List.find?_some h
  simpa using h'

theorem firstSlot_none {lo : Nat} {p : Slot → Bool} (h : firstSlot lo p = none) (i : Slot)
    (hi : lo ≤ i.val) : p i = false := by
  have h' := List.find?_eq_none.mp h i (List.mem_finRange i)
  simpa [hi] using h'

/-- `find_free_slot`: DEAD slots count as free. task.c:709-717 -/
def findFreeSlot (ts : Table) : Option Slot :=
  firstSlot 1 fun i => (ts i).state = .unused || (ts i).state = .dead

/-! ## Exit -/

/-- `init` is woken when it is blocked waiting for a child.
task.c:1096-1101 -/
def wakeInit (ts : Table) (initPid : UInt32) : Table := fun j =>
  if (ts j).id = initPid ∧ (ts j).state = .blockedOnChild then
    { ts j with state := .ready }
  else ts j

/-- One turn of the re-parenting loop of the task with pid `me`.
task.c:1089-1104 -/
def adoptOne (me initPid : UInt32) (ts : Table) (i : Slot) : Table :=
  if (ts i).state = .unused then ts
  else if (ts i).parentId = me then
    if (ts i).state = .zombie then
      wakeInit (ts.modify i fun k => { k with parentId := initPid }) initPid
    else ts.modify i fun k => { k with parentId := initPid }
  else ts

/-- task.c:1087-1106 -/
def adopt (me initPid : UInt32) (ts : Table) : Table :=
  if initPid ≠ 0 ∧ me ≠ initPid then
    (List.finRange taskMax).foldl (adoptOne me initPid) ts
  else ts

/-- The slot of a task's parent; any slot that is not UNUSED will do.
task.c:1109-1118 -/
def parentOf (ts : Table) (t : Slot) : Option Slot :=
  if (ts t).parentId ≠ 0 then
    firstSlot 0 fun i => (ts i).id = (ts t).parentId && (ts i).state ≠ .unused
  else none

/-- task.c:1120-1122 -/
def wakeParent (ts : Table) (parent : Option Slot) : Table :=
  match parent with
  | none => ts
  | some p =>
    if (ts p).state = .blockedOnChild then ts.modify p fun k => { k with state := .ready } else ts

/-- The scheduling part of `task_exit_current`. task.c:1045-1132 -/
def taskExit (initPid : UInt32) (ts : Table) (t : Slot) (exitCode : Int) : Table :=
  let ts := ts.modify t fun k => { k with exitCode := exitCode }
  let ts := adopt (ts t).id initPid ts
  let parent := parentOf ts t
  (wakeParent ts parent).modify t fun k =>
    { k with state := if parent.isSome then .zombie else .dead }

/-- What re-parenting and waking may change in a task: its parent, and
BLOCKED_ON_CHILD into READY. -/
def Woken (k k' : Task) : Prop :=
  ∃ st p, k' = { k with state := st, parentId := p } ∧
    (st = k.state ∨ (k.state = .blockedOnChild ∧ st = .ready))

theorem Woken.refl (k : Task) : Woken k k := ⟨k.state, k.parentId, rfl, .inl rfl⟩

theorem Woken.trans {k k' k'' : Task} (h : Woken k k') (h' : Woken k' k'') : Woken k k'' := by
  obtain ⟨st, p, rfl, hst⟩ := h
  obtain ⟨st', p', rfl, hst'⟩ := h'
  refine ⟨st', p', rfl, ?_⟩
  rcases hst' with rfl | ⟨hb, rfl⟩
  · exact hst
  · rcases hst with hst | ⟨-, hst⟩
    · exact .inr ⟨hst.symm.trans hb, rfl⟩
    · cases hst.symm.trans hb

theorem Woken.unused_iff {k k' : Task} (h : Woken k k') :
    k'.state = .unused ↔ k.state = .unused := by
  obtain ⟨st, p, rfl, rfl | ⟨hb, rfl⟩⟩ := h
  · exact Iff.rfl
  · rw [hb]
    simp

theorem wakeInit_woken (ts : Table) (pid : UInt32) (i : Slot) :
    Woken (ts i) (wakeInit ts pid i) := by
  unfold wakeInit
  split
  · rename_i h
    exact ⟨.ready, (ts i).parentId, rfl, .inr ⟨h.2, rfl⟩⟩
  · exact .refl _

theorem modify_parent_woken (ts : Table) (j : Slot) (p : UInt32) (i : Slot) :
    Woken (ts i) (ts.modify j (fun k => { k with parentId := p }) i) := by
  by_cases h : i = j
  · subst h
    rw [Table.modify_self]
    exact ⟨(ts i).state, p, rfl, .inl rfl⟩
  · rw [Table.modify_of_ne _ h]
    exact .refl _

theorem adoptOne_woken (me pid : UInt32) (ts : Table) (j i : Slot) :
    Woken (ts i) (adoptOne me pid ts j i) := by
  unfold adoptOne
  split
  · exact .refl _
  · split
    · have h1 := modify_parent_woken ts j pid i
      split
      · exact h1.trans (wakeInit_woken _ pid i)
      · exact h1
    · exact .refl _

theorem adopt_woken (me pid : UInt32) (ts : Table) (i : Slot) :
    Woken (ts i) (adopt me pid ts i) := by
  unfold adopt
  split
  · generalize List.finRange taskMax = js
    induction js generalizing ts with
    | nil => exact .refl _
    | cons j js ih => exact (adoptOne_woken me pid ts j i).trans (ih _)
  · exact .refl _

theorem wakeParent_woken (ts : Table) (parent : Option Slot) (i : Slot) :
    Woken (ts i) (wakeParent ts parent i) := by
  unfold wakeParent
  split
  · exact .refl _
  · rename_i p
    split
    · rename_i hp
      by_cases h : i = p
      · subst h
        rw [Table.modify_self]
        exact ⟨.ready, (ts i).parentId, rfl, .inr ⟨hp, rfl⟩⟩
      · rw [Table.modify_of_ne _ h]
        exact .refl _
    · exact .refl _

theorem adoptOne_parentId (me pid : UInt32) (ts : Table) (j i : Slot) :
    (adoptOne me pid ts j i).parentId =
      if i = j ∧ (ts j).state ≠ .unused ∧ (ts j).parentId = me then pid else (ts i).parentId := by
  have hwake : ∀ ts' : Table, (wakeInit ts' pid i).parentId = (ts' i).parentId := by
    intro ts'
    unfold wakeInit
    split <;> rfl
  have hmod : (ts.modify j (fun k => { k with parentId := pid }) i).parentId =
      if i = j then pid else (ts i).parentId := by
    by_cases h : i = j
    · rw [h, Table.modify_self, if_pos rfl]
    · rw [Table.modify_of_ne _ h, if_neg h]
  unfold adoptOne
  split
  · rename_i hu
    rw [if_neg fun h => h.2.1 hu]
  · rename_i hu
    split
    · rename_i hp
      have hc : (if i = j ∧ (ts j).state ≠ .unused ∧ (ts j).parentId = me then pid
          else (ts i).parentId) = if i = j then pid else (ts i).parentId := by
        simp [hu, hp]
      rw [hc]
      split
      · rw [hwake, hmod]
      · exact hmod
    · rename_i hp
      rw [if_neg fun h => hp h.2.2]

theorem adoptOne_awake {me pid : UInt32} {j : Slot}
    (hz : (ts j).state = .zombie) (hp : (ts j).parentId = me) (hid : (ts p).id = pid) :
    (adoptOne me pid ts j p).state ≠ .blockedOnChild := by
  unfold adoptOne
  rw [if_neg (by rw [hz]; decide), if_pos hp, if_pos hz]
  have hid' : (ts.modify j (fun k => { k with parentId := pid }) p).id = pid := by
    rw [Table.modify_field (·.id) rfl]
    exact hid
  unfold wakeInit
  split
  · exact fun h => by cases h
  · rename_i hn
    exact fun hb => hn ⟨hid', hb⟩

theorem parentOf_some (h : parentOf ts t = some p) :
    (ts t).parentId ≠ 0 ∧ (ts p).id = (ts t).parentId ∧ (ts p).state ≠ .unused := by
  unfold parentOf at h
  split at h
  · rename_i h0
    have hp := (firstSlot_some h).2
    simp only [Bool.and_eq_true, decide_eq_true_eq] at hp
    exact ⟨h0, hp.1, hp.2⟩
  · cases h

theorem parentOf_none (h : parentOf ts t = none)
    (h0 : (ts t).parentId ≠ 0) (hp : (ts p).id = (ts t).parentId) : (ts p).state = .unused := by
  rw [parentOf, if_pos h0] at h
  have := firstSlot_none h p (Nat.zero_le _)
  simpa [hp] using this

theorem wakeParent_parentId (ts : Table) (parent : Option Slot) (i : Slot) :
    (wakeParent ts parent i).parentId = (ts i).parentId := by
  unfold wakeParent
  split
  · rfl
  · split
    · exact Table.modify_field (·.parentId) rfl i
    · rfl

theorem wakeParent_awake (ts : Table) (p : Slot) :
    (wakeParent ts (some p) p).state ≠ .blockedOnChild := by
  unfold wakeParent
  dsimp only
  split
  · rw [Table.modify_self]
    exact fun h => by cases h
  · rename_i h
    exact h

theorem taskExit_of_ne {pid : UInt32} {code : Int} (h : i ≠ t) :
    Woken (ts i) (taskExit pid ts t code i) := by
  unfold taskExit
  rw [Table.modify_of_ne _ h]
  have h1 := adopt_woken (ts.modify t (fun k => { k with exitCode := code }) t).id pid
    (ts.modify t fun k => { k with exitCode := code }) i
  rw [Table.modify_of_ne _ h] at h1
  exact h1.trans (wakeParent_woken _ _ i)

theorem taskExit_self (pid : UInt32) (ts : Table) (t : Slot) (code : Int) :
    ∃ st p, taskExit pid ts t code t = { ts t with state := st, parentId := p, exitCode := code } ∧
      (st = .zombie ∨ st = .dead) := by
  unfold taskExit
  rw [Table.modify_self]
  have h1 := adopt_woken (ts.modify t (fun k => { k with exitCode := code }) t).id pid
    (ts.modify t fun k => { k with exitCode := code }) t
  obtain ⟨st, p, hw, -⟩ := h1.trans (wakeParent_woken _ _ t)
  rw [hw, Table.modify_self]
  refine ⟨_, p, rfl, ?_⟩
  split
  · exact .inl rfl
  · exact .inr rfl

/-! ## Clearing a slot -/

/-- What reaping leaves in the slot. task.c:672-680 and 1172-1180 -/
def Task.clear (k : Task) : Task :=
  { k with state := .unused, stackBase := 0, cr3 := 0, isUser := false, next := none }

end AdventOS.Kernel
