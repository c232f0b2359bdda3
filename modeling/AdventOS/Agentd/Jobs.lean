import Mathlib

/-!
# agentd's job table (`user/agentd.c`)

Eight slots; a job is named by its slot number, and a slot is used again once its job has
exited. `serial` is history: it tells the jobs apart that have had the same slot.
-/
namespace AdventOS.Agentd.Jobs
open Function List

inductive JobState
  | free
  | run
  | exit
  deriving DecidableEq, Repr

/-- `struct job`, less its pipes' descriptors, the rings and the texts. -/
structure Job where
  state : JobState
  pid : Nat
  exitCode : Int
  outEof : Bool
  errEof : Bool
  reaped : Bool
  subMask : UInt32
  serial : Nat
  deriving DecidableEq, Repr

def jobMax : Nat := 8

/-- `g_jobs`, of which the slots below `jobMax` are used. -/
abbrev Table := Nat → Job

def Job.none : Job := ⟨.free, 0, 0, false, false, false, 0, 0⟩

/-- agentd.c:1382-1398 -/
def jobClear (j : Job) : Job :=
  { j with
    state := .free
    pid := 0
    exitCode := 0
    outEof := false
    errEof := false
    reaped := false
    subMask := 0 }

/-- agentd.c:1367-1380. (A recycled slot is marked free there; its only caller clears
the slot next.) -/
def jobAllocSlot (t : Table) : Option Nat :=
  ((List.range jobMax).find? fun i => (t i).state = .free).or
    ((List.range jobMax).find? fun i => (t i).state = .exit)

/-- How `spawn_recorded_job` goes: it refuses its arguments, a pipe or the fork fails after a slot
was taken, or the child runs. -/
inductive Spawn
  | refused
  | failed
  | started (pid : Nat)
  deriving DecidableEq

/-- A job of agentd's own count `births`, just started. -/
def Job.started (pid births : Nat) : Job :=
  { jobClear Job.none with state := .run, pid, serial := births }

/-- The table after `spawn_recorded_job`. agentd.c:1504-1531 -/
def spawnTable (t : Table) (births : Nat) (o : Spawn) : Table :=
  match o with
  | .refused => t
  | .failed => (jobAllocSlot t).elim t fun slot => update t slot (jobClear (t slot))
  | .started pid =>
    (jobAllocSlot t).elim t fun slot => update t slot (Job.started pid births)

/-- What `spawn_recorded_job` returns. -/
def spawnSlot (t : Table) (o : Spawn) : Option Nat :=
  match o with
  | .refused => none
  | .failed => none
  | .started _ => jobAllocSlot t

/-- agentd.c:2067-2070 -/
def jobIsRunning (t : Table) (jobId : Int) : Bool :=
  if jobId < 0 ∨ jobId ≥ jobMax then false else (t jobId.toNat).state = .run

/-! ## What they do -/

variable {births i slot : Nat} {t : Table} {o : Spawn}

theorem scan_some {n : Nat} {p : Nat → Bool} (h : (List.range n).find? p = some i) :
    i < n ∧ p i = true :=
  ⟨mem_range.mp (mem_of_find?_eq_some h), find?_some h⟩

theorem scan_none {n : Nat} {p : Nat → Bool} (h : (List.range n).find? p = none) (hi : i < n) :
    p i = false :=
  Bool.eq_false_iff.mpr (find?_eq_none.mp h i (mem_range.mpr hi))

theorem jobAllocSlot_spec (h : jobAllocSlot t = some slot) :
    slot < jobMax ∧ (t slot).state ≠ .run := by
  rcases Option.or_eq_some_iff.mp h with h | ⟨_, h⟩
  · have hs := find?_some h
    refine ⟨mem_range.mp (mem_of_find?_eq_some h), ?_⟩
    rw [of_decide_eq_true hs]
    decide
  · have hs := find?_some h
    refine ⟨mem_range.mp (mem_of_find?_eq_some h), ?_⟩
    rw [of_decide_eq_true hs]
    decide

theorem spawnSlot_some (h : spawnSlot t o = some slot) :
    ∃ pid, o = .started pid ∧ jobAllocSlot t = some slot := by
  cases o with
  | refused => cases h
  | failed => cases h
  | started pid => exact ⟨pid, rfl, h⟩

theorem spawnTable_started {pid : Nat} (h : jobAllocSlot t = some slot) :
    spawnTable t births (.started pid) = update t slot (Job.started pid births) := by
  unfold spawnTable
  rw [h]
  rfl

theorem spawnTable_failed (h : jobAllocSlot t = some slot) :
    spawnTable t births .failed = update t slot (jobClear (t slot)) := by
  unfold spawnTable
  rw [h]
  rfl

theorem spawnTable_full (h : jobAllocSlot t = none) : spawnTable t births o = t := by
  unfold spawnTable
  rw [h]
  cases o <;> rfl

theorem spawnTable_run (h : (spawnTable t births o i).state = .run) :
    spawnTable t births o i = t i ∨
      spawnSlot t o = some i ∧ (spawnTable t births o i).serial = births := by
  cases hs : jobAllocSlot t with
  | none => exact .inl (congrFun (spawnTable_full hs) i)
  | some slot =>
    cases o with
    | refused => exact .inl rfl
    | failed =>
      rw [spawnTable_failed hs] at h ⊢
      by_cases hi : i = slot
      · subst hi
        rw [update_self] at h
        cases h
      · exact .inl (update_of_ne hi _ _)
    | started pid =>
      rw [spawnTable_started hs]
      by_cases hi : i = slot
      · subst hi
        rw [update_self]
        exact .inr ⟨hs, rfl⟩
      · exact .inl (update_of_ne hi _ _)

theorem spawnTable_keeps (h : (t i).state = .run) : spawnTable t births o i = t i := by
  cases hs : jobAllocSlot t with
  | none => exact congrFun (spawnTable_full hs) i
  | some slot =>
    have hne : i ≠ slot := by
      rintro rfl
      exact (jobAllocSlot_spec hs).2 h
    cases o with
    | refused => rfl
    | failed =>
      rw [spawnTable_failed hs]
      exact update_of_ne hne _ _
    | started pid =>
      rw [spawnTable_started hs]
      exact update_of_ne hne _ _

theorem spawnTable_exit
    (h : (spawnTable t births o i).state = .exit) : spawnTable t births o i = t i := by
  cases hs : jobAllocSlot t with
  | none => exact congrFun (spawnTable_full hs) i
  | some slot =>
    by_cases hi : i = slot
    · subst hi
      cases o with
      | refused => rfl
      | failed =>
        rw [spawnTable_failed hs, update_self] at h
        cases h
      | started pid =>
        rw [spawnTable_started hs, update_self] at h
        cases h
    · cases o with
      | refused => rfl
      | failed =>
        rw [spawnTable_failed hs]
        exact update_of_ne hi _ _
      | started pid =>
        rw [spawnTable_started hs]
        exact update_of_ne hi _ _

end AdventOS.Agentd.Jobs
