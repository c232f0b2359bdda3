import AdventOS.Core.LTS
import AdventOS.Core.Ring

/-!
# Pipes (`kernel/pipe.c`)

One pipe from `pipe_new` on, shared by any number of tasks. A syscall holds the big kernel lock,
which is dropped only in `task_yield`, so a step is what a task does between two yields: a call
from its start to its return or its first yield, or a call that yielded, from there on. Reader and
writer ends are closed and duplicated at any point in between. `accepted` and `returned` are what
the writes stored and what the reads gave back so far.

* `Sys.Inv`: what was returned, followed by the ring, is what was accepted;
* `pipe_semantics`.
-/
namespace AdventOS.Kernel.Pipe
open List

/-- pipe.c:6-20, with `PIPE_BUF_SZ` = 1024. -/
structure PipeObj where
  inUse : Bool
  readRefs : Nat
  writeRefs : Nat
  ring : Ring UInt8 1024

theorem pipeBufSz_pos : 0 < 1024 := by decide

/-- pipe.c:28-39 -/
def pipeNew : PipeObj := ⟨true, 1, 1, Ring.empty 0 pipeBufSz_pos⟩

/-- pipe.c:48-50 -/
def tryFree (p : PipeObj) : PipeObj :=
  if p.readRefs = 0 ∧ p.writeRefs = 0 then { p with inUse := false } else p

/-- pipe.c:45 -/
def pipeIncRead (p : PipeObj) : PipeObj :=
  if p.inUse then { p with readRefs := p.readRefs + 1 } else p

/-- pipe.c:46 -/
def pipeIncWrite (p : PipeObj) : PipeObj :=
  if p.inUse then { p with writeRefs := p.writeRefs + 1 } else p

/-- pipe.c:52-56 -/
def pipeCloseRead (p : PipeObj) : PipeObj :=
  if p.inUse then tryFree { p with readRefs := p.readRefs - 1 } else p

/-- pipe.c:58-62 -/
def pipeCloseWrite (p : PipeObj) : PipeObj :=
  if p.inUse then tryFree { p with writeRefs := p.writeRefs - 1 } else p

/-- pipe.c:70-76 -/
def pipeReadAvail (p : PipeObj) : Int :=
  if ¬ p.inUse then -1
  else if p.ring.head ≠ p.ring.tail then 1
  else if p.writeRefs = 0 then 1
  else 0

/-- The loop condition of `pipe_read`. pipe.c:84 -/
def readBlocks (p : PipeObj) : Prop := p.ring.head = p.ring.tail ∧ 0 < p.writeRefs

instance (p : PipeObj) : Decidable (readBlocks p) := by unfold readBlocks; infer_instance

/-- Where the loop of `pipe_write` stops. -/
inductive WriteStop
  | finished
  | noReader
  | full
  deriving DecidableEq

/-- pipe.c:103-118: how many bytes were stored, and why it stops. -/
def writeLoop (p : PipeObj) : List UInt8 → PipeObj × Nat × WriteStop
  | [] => (p, 0, .finished)
  | x :: xs =>
    if p.readRefs = 0 then (p, 0, .noReader)
    else if p.ring.full then (p, 0, .full)
    else
      let r := writeLoop { p with ring := p.ring.push x } xs
      (r.1, r.2.1 + 1, r.2.2)

/-! ## The system -/

/-- A call that yielded: a read of `n` bytes, or a write of `buf` of which `copied`
bytes are stored. -/
inductive Call
  | reading (n : Int)
  | writing (buf : List UInt8) (copied : Nat)
  deriving DecidableEq

structure Sys where
  pipe : PipeObj
  calls : Nat → Option Call
  accepted : List UInt8
  returned : List UInt8

/-- What a step means for the task that makes it. -/
inductive Outcome
  | none
  | blocked
  | badIdx
  | readRet (n : Int) (out : List UInt8)
  | writeRet (buf : List UInt8) (ret : Int)

/-- Task `t` calls, or continues a call after a yield; or an end is closed or
duplicated (`close`, `fork`, `dup2`, exit). -/
inductive Step
  | read (t : Nat) (n : Int)
  | write (t : Nat) (buf : List UInt8)
  | resume (t : Nat)
  | closeRead
  | closeWrite
  | incRead
  | incWrite

def setCall (s : Sys) (t : Nat) (c : Option Call) : Sys :=
  { s with calls := Function.update s.calls t c }

/-- pipe.c:82-94: from the loop condition on. -/
def readFrom (s : Sys) (t : Nat) (n : Int) : Sys × Outcome :=
  if readBlocks s.pipe then (setCall s t (some (.reading n)), .blocked)
  else
    let r := s.pipe.ring.popN n.toNat
    ({ setCall s t none with
        pipe := { s.pipe with ring := r.2 }
        returned := s.returned ++ r.1 }, .readRet n r.1)

/-- pipe.c:101-119: from the loop condition on, with `copied` bytes
already stored. -/
def writeFrom (s : Sys) (t : Nat) (buf : List UInt8) (copied : Nat) : Sys × Outcome :=
  let r := writeLoop s.pipe (buf.drop copied)
  let done := copied + r.2.1
  let s' := { s with pipe := r.1, accepted := s.accepted ++ (buf.drop copied).take r.2.1 }
  match r.2.2 with
  | .full => (setCall s' t (some (.writing buf done)), .blocked)
  | .finished => (setCall s' t none, .writeRet buf done)
  | .noReader => (setCall s' t none, .writeRet buf (if 0 < done then done else -1))

def Sys.step (s : Sys) : Step → Option (Sys × Outcome)
  | .read t n =>
    if s.calls t = none then
      if s.pipe.inUse then some (readFrom s t n) else some (s, .badIdx)
    else none
  | .write t buf =>
    if s.calls t = none then
      if s.pipe.inUse then some (writeFrom s t buf 0) else some (s, .writeRet buf (-1))
    else none
  | .resume t =>
    match s.calls t with
    | none => none
    | some (.reading n) => some (readFrom s t n)
    | some (.writing buf copied) => some (writeFrom s t buf copied)
  | .closeRead => some ({ s with pipe := pipeCloseRead s.pipe }, .none)
  | .closeWrite => some ({ s with pipe := pipeCloseWrite s.pipe }, .none)
  | .incRead => some ({ s with pipe := pipeIncRead s.pipe }, .none)
  | .incWrite => some ({ s with pipe := pipeIncWrite s.pipe }, .none)

def boot : Sys := ⟨pipeNew, fun _ => none, [], []⟩

def pipeLTS : LTS Sys Step := LTS.ofFn (· = boot) fun s l => (s.step l).map Prod.fst

/-! ## The writer's loop -/

theorem writeLoop_contents (p : PipeObj) (l : List UInt8) :
    (writeLoop p l).1.ring.contents = p.ring.contents ++ l.take (writeLoop p l).2.1 := by
  induction l generalizing p with
  | nil => simp [writeLoop]
  | cons x xs ih =>
    unfold writeLoop
    split
    · simp
    split
    · simp
    · rename_i hfull
      rw [ih, p.ring.contents_push x (by simpa using hfull), take_succ_cons,
        append_assoc, singleton_append]

theorem writeLoop_refs (p : PipeObj) (l : List UInt8) :
    (writeLoop p l).1.inUse = p.inUse ∧ (writeLoop p l).1.readRefs = p.readRefs ∧
      (writeLoop p l).1.writeRefs = p.writeRefs := by
  induction l generalizing p with
  | nil => exact ⟨rfl, rfl, rfl⟩
  | cons x xs ih =>
    unfold writeLoop
    split
    · exact ⟨rfl, rfl, rfl⟩
    split
    · exact ⟨rfl, rfl, rfl⟩
    · exact ih { p with ring := p.ring.push x }

variable {p : PipeObj} {s s' : Sys} {l : Step} {o : Outcome} {t : Nat} {n : Int}

theorem writeLoop_noReader {l : List UInt8} (h : (writeLoop p l).2.2 = .noReader) :
    p.readRefs = 0 := by
  induction l generalizing p with
  | nil => cases h
  | cons x xs ih =>
    unfold writeLoop at h
    split at h
    · assumption
    split at h
    · cases h
    · exact ih (p := { p with ring := p.ring.push x }) h

/-! ## The invariant -/

/-- What was returned, followed by what is in the ring, is what was accepted; a
pipe that was freed has no ends left. -/
structure Sys.Inv (s : Sys) : Prop where
  flow : s.accepted = s.returned ++ s.pipe.ring.contents
  freed : s.pipe.inUse = false → s.pipe.readRefs = 0

theorem Inv.setCall (hi : s.Inv) (t : Nat) (c : Option Call) : (setCall s t c).Inv :=
  ⟨hi.flow, hi.freed⟩

theorem Inv.readFrom (hi : s.Inv) (t : Nat) (n : Int) : (readFrom s t n).1.Inv := by
  unfold Pipe.readFrom
  split
  · exact Inv.setCall hi t _
  · obtain ⟨h1, h2⟩ := s.pipe.ring.contents_popN n.toNat
    refine ⟨?_, hi.freed⟩
    dsimp only [Pipe.setCall]
    rw [h1, h2, append_assoc, take_append_drop]
    exact hi.flow

theorem Inv.writeFrom (hi : s.Inv) (t : Nat) (buf : List UInt8) (copied : Nat) :
    (writeFrom s t buf copied).1.Inv := by
  obtain ⟨hu, hr, -⟩ := writeLoop_refs s.pipe (buf.drop copied)
  have hinv : ({ s with
      pipe := (writeLoop s.pipe (buf.drop copied)).1
      accepted := s.accepted ++
        (buf.drop copied).take (writeLoop s.pipe (buf.drop copied)).2.1 } : Sys).Inv := by
    refine ⟨?_, ?_⟩
    · rw [writeLoop_contents, hi.flow, append_assoc]
    · rw [hu, hr]
      exact hi.freed
  unfold Pipe.writeFrom
  dsimp only
  split
  · exact Inv.setCall hinv t _
  · exact Inv.setCall hinv t _
  · exact Inv.setCall hinv t _

theorem Inv.ends (hi : s.Inv) (hring : p.ring = s.pipe.ring)
    (hfreed : p.inUse = false → p.readRefs = 0) : ({ s with pipe := p } : Sys).Inv := by
  refine ⟨?_, hfreed⟩
  rw [hring]
  exact hi.flow

theorem tryFree_ring (p : PipeObj) : (tryFree p).ring = p.ring := by
  unfold tryFree
  split <;> rfl

theorem tryFree_freed (hu : p.inUse = true) (h : (tryFree p).inUse = false) :
    (tryFree p).readRefs = 0 := by
  unfold tryFree at h ⊢
  split at h
  · rename_i hz
    rw [if_pos hz]
    exact hz.1
  · rw [hu] at h
    cases h

theorem pipeCloseRead_ends (p : PipeObj) : (pipeCloseRead p).ring = p.ring ∧
    ((p.inUse = false → p.readRefs = 0) → (pipeCloseRead p).inUse = false →
      (pipeCloseRead p).readRefs = 0) := by
  unfold pipeCloseRead
  split
  · rename_i hu
    exact ⟨tryFree_ring _, fun _ => tryFree_freed hu⟩
  · exact ⟨rfl, id⟩

theorem pipeCloseWrite_ends (p : PipeObj) : (pipeCloseWrite p).ring = p.ring ∧
    ((p.inUse = false → p.readRefs = 0) → (pipeCloseWrite p).inUse = false →
      (pipeCloseWrite p).readRefs = 0) := by
  unfold pipeCloseWrite
  split
  · rename_i hu
    exact ⟨tryFree_ring _, fun _ => tryFree_freed hu⟩
  · exact ⟨rfl, id⟩

theorem pipeIncRead_ends (p : PipeObj) : (pipeIncRead p).ring = p.ring ∧
    ((p.inUse = false → p.readRefs = 0) → (pipeIncRead p).inUse = false →
      (pipeIncRead p).readRefs = 0) := by
  unfold pipeIncRead
  split
  · rename_i hu
    refine ⟨rfl, fun _ h => ?_⟩
    rw [show p.inUse = false from h] at hu
    cases hu
  · exact ⟨rfl, id⟩

theorem pipeIncWrite_ends (p : PipeObj) : (pipeIncWrite p).ring = p.ring ∧
    ((p.inUse = false → p.readRefs = 0) → (pipeIncWrite p).inUse = false →
      (pipeIncWrite p).readRefs = 0) := by
  unfold pipeIncWrite
  split
  · exact ⟨rfl, id⟩
  · exact ⟨rfl, id⟩

/-- All a step can do: run a call from its loop on, refuse a call on a freed pipe,
or change the ends. -/
theorem step_cases (hs : s.step l = some (s', o)) :
    (∃ t n, readFrom s t n = (s', o)) ∨ (∃ t buf k, writeFrom s t buf k = (s', o)) ∨
      (s' = s ∧ s.pipe.inUse = false ∧ (o = .badIdx ∨ ∃ buf, o = .writeRet buf (-1))) ∨
      (∃ p, s' = { s with pipe := p } ∧ o = .none ∧ p.ring = s.pipe.ring ∧
        ((s.pipe.inUse = false → s.pipe.readRefs = 0) → p.inUse = false → p.readRefs = 0)) := by
  cases l with
  | read t n =>
    dsimp only [Sys.step] at hs
    by_cases hc : s.calls t = none
    · rw [if_pos hc] at hs
      by_cases hu : s.pipe.inUse = true
      · rw [if_pos hu] at hs
        exact .inl ⟨t, n, Option.some.inj hs⟩
      · rw [if_neg hu] at hs
        cases hs
        exact .inr (.inr (.inl ⟨rfl, by simpa using hu, .inl rfl⟩))
    · rw [if_neg hc] at hs
      cases hs
  | write t buf =>
    dsimp only [Sys.step] at hs
    by_cases hc : s.calls t = none
    · rw [if_pos hc] at hs
      by_cases hu : s.pipe.inUse = true
      · rw [if_pos hu] at hs
        exact .inr (.inl ⟨t, buf, 0, Option.some.inj hs⟩)
      · rw [if_neg hu] at hs
        cases hs
        exact .inr (.inr (.inl ⟨rfl, by simpa using hu, .inr ⟨buf, rfl⟩⟩))
    · rw [if_neg hc] at hs
      cases hs
  | resume t =>
    dsimp only [Sys.step] at hs
    cases hc : s.calls t with
    | none =>
      rw [hc] at hs
      cases hs
    | some c =>
      rw [hc] at hs
      cases c with
      | reading n => exact .inl ⟨t, n, Option.some.inj hs⟩
      | writing buf k => exact .inr (.inl ⟨t, buf, k, Option.some.inj hs⟩)
  | closeRead =>
    cases hs
    exact .inr (.inr (.inr ⟨_, rfl, rfl, pipeCloseRead_ends _⟩))
  | closeWrite =>
    cases hs
    exact .inr (.inr (.inr ⟨_, rfl, rfl, pipeCloseWrite_ends _⟩))
  | incRead =>
    cases hs
    exact .inr (.inr (.inr ⟨_, rfl, rfl, pipeIncRead_ends _⟩))
  | incWrite =>
    cases hs
    exact .inr (.inr (.inr ⟨_, rfl, rfl, pipeIncWrite_ends _⟩))

theorem Inv.step (hi : s.Inv) (hs : s.step l = some (s', o)) : s'.Inv := by
  rcases step_cases hs with ⟨t, n, h⟩ | ⟨t, buf, k, h⟩ | ⟨rfl, -, -⟩ | ⟨p, rfl, -, hring, hfreed⟩
  · have := Inv.readFrom hi t n
    rw [h] at this
    exact this
  · have := Inv.writeFrom hi t buf k
    rw [h] at this
    exact this
  · exact hi
  · exact Inv.ends hi hring (hfreed hi.freed)

theorem inv_inductive : pipeLTS.Inductive Sys.Inv where
  init s h := by
    cases h
    exact ⟨by simp [boot, pipeNew], fun h => by cases h⟩
  step s l s' hi hs := by
    obtain ⟨⟨t, o⟩, ht, rfl⟩ := Option.map_eq_some_iff.1 hs
    exact Inv.step hi ht

/-! ## What the calls report -/

theorem readFrom_outcome
    (h : readFrom s t n = (s', o)) : o = .blocked ∨ ∃ out, o = .readRet n out := by
  unfold readFrom at h
  split at h
  · cases h
    exact .inl rfl
  · cases h
    exact .inr ⟨_, rfl⟩

/-- A write blocks, or returns the number of its bytes that are stored, or returns
-1 and there is no reader. -/
theorem writeFrom_outcome {buf : List UInt8} {k : Nat} (h : writeFrom s t buf k = (s', o)) :
    o = .blocked ∨ ∃ ret, o = .writeRet buf ret ∧ (0 ≤ ret ∨ s.pipe.readRefs = 0) := by
  unfold writeFrom at h
  dsimp only at h
  split at h
  · cases h
    exact .inl rfl
  · cases h
    exact .inr ⟨_, rfl, .inl (by omega)⟩
  · rename_i hstop
    cases h
    exact .inr ⟨_, rfl, .inr (writeLoop_noReader hstop)⟩

theorem readFrom_eof (hn : 0 < n) (h : readFrom s t n = (s', .readRet n [])) :
    s.pipe.writeRefs = 0 ∧ s.pipe.ring.contents = [] := by
  unfold readFrom at h
  split at h
  · cases h
  rename_i hgate
  have hout : (s.pipe.ring.popN n.toNat).1 = [] := by
    have := congrArg Prod.snd h
    simpa using this
  rw [(s.pipe.ring.contents_popN n.toNat).1] at hout
  have hempty : s.pipe.ring.contents = [] := by
    rcases take_eq_nil_iff.1 hout with h0 | h0
    · omega
    · exact h0
  have hcount : s.pipe.ring.count = 0 := by
    rw [← Ring.length_contents, hempty]
    rfl
  have heq := (Ring.empty_iff s.pipe.ring).2 hcount
  refine ⟨?_, hempty⟩
  by_contra hw
  exact hgate ⟨heq, by omega⟩

theorem read_eof (hn : 0 < n) (hs : s.step l = some (s', .readRet n [])) :
    s.pipe.writeRefs = 0 ∧ s.pipe.ring.contents = [] := by
  rcases step_cases hs with ⟨t, m, h⟩ | ⟨t, buf, k, h⟩ | ⟨-, -, h | ⟨buf, h⟩⟩ | ⟨p, -, h, -⟩
  · rcases readFrom_outcome h with ho | ⟨out, ho⟩
    · cases ho
    · cases ho
      exact readFrom_eof hn h
  · rcases writeFrom_outcome h with ho | ⟨ret, ho, -⟩
    · cases ho
    · cases ho
  · cases h
  · cases h
  · cases h

theorem write_fails {buf : List UInt8} (hi : s.Inv)
    (hs : s.step l = some (s', .writeRet buf (-1))) : s.pipe.readRefs = 0 := by
  rcases step_cases hs with ⟨t, m, h⟩ | ⟨t, buf, k, h⟩ | ⟨-, hu, -⟩ | ⟨p, -, h, -⟩
  · rcases readFrom_outcome h with ho | ⟨out, ho⟩
    · cases ho
    · cases ho
  · rcases writeFrom_outcome h with ho | ⟨ret, ho, hret⟩
    · cases ho
    · cases ho
      rcases hret with h0 | h0
      · omega
      · exact h0
  · exact hi.freed hu
  · cases h

theorem readAvail_iff (hu : p.inUse = true) : pipeReadAvail p = 1 ↔ ¬ readBlocks p := by
  unfold pipeReadAvail readBlocks
  rw [if_neg (by simpa using hu)]
  by_cases hne : p.ring.head = p.ring.tail
  · by_cases hw : p.writeRefs = 0
    · simp [hne, hw]
    · have hpos : 0 < p.writeRefs := by omega
      simp [hne, hw, hpos]
  · simp [hne]

theorem read_blocks_iff (hc : s.calls t = none) (hu : s.pipe.inUse = true)
    (n : Int) : (∃ s', s.step (.read t n) = some (s', .blocked)) ↔ readBlocks s.pipe := by
  dsimp only [Sys.step]
  rw [if_pos hc, if_pos hu]
  unfold readFrom
  split
  · rename_i hb
    exact ⟨fun _ => hb, fun _ => ⟨_, rfl⟩⟩
  · rename_i hb
    refine ⟨fun ⟨s', h⟩ => ?_, fun h => absurd h hb⟩
    cases h

theorem read_returns {out : List UInt8} (hs : s.step l = some (s', .readRet n out)) :
    s'.returned = s.returned ++ out ∧ out.length ≤ n.toNat := by
  rcases step_cases hs with ⟨t, m, h⟩ | ⟨t, buf, k, h⟩ | ⟨-, -, h | ⟨buf, h⟩⟩ | ⟨p, -, h, -⟩
  · unfold readFrom at h
    split at h
    · cases h
    · cases h
      refine ⟨rfl, ?_⟩
      rw [(s.pipe.ring.contents_popN _).1]
      exact length_take_le _ _
  · rcases writeFrom_outcome h with ho | ⟨ret, ho, -⟩
    · cases ho
    · cases ho
  · cases h
  · cases h
  · cases h

/-- In every interleaving: the reads have returned a prefix of what
the writes stored, in order, each read adding what it returns; a read that asked for bytes returns none only when
there is no writer and the ring is empty; a write returns -1 only when there is no
reader; and on a pipe in use `pipe_read_avail` is 1 exactly when a read by any task
that is not in a call does not block. -/
theorem pipe_semantics (s : Sys) (h : pipeLTS.Reachable s) : s.returned <+: s.accepted ∧
    (∀ l s' n out, s.step l = some (s', .readRet n out) → s'.returned = s.returned ++ out) ∧
    (∀ l s' n, 0 < n → s.step l = some (s', .readRet n []) →
      s.pipe.writeRefs = 0 ∧ s.pipe.ring.contents = []) ∧
    (∀ l s' buf, s.step l = some (s', .writeRet buf (-1)) → s.pipe.readRefs = 0) ∧
    (s.pipe.inUse = true → ∀ t n, s.calls t = none →
      (pipeReadAvail s.pipe = 1 ↔ ¬ ∃ s', s.step (.read t n) = some (s', .blocked))) := by
  have hi := inv_inductive.reachable s h
  refine ⟨⟨_, hi.flow.symm⟩, fun l s' n out hs => (read_returns hs).1, ?_,
    fun l s' buf hs => write_fails hi hs, ?_⟩
  · intro l s' n hn hs
    exact read_eof hn hs
  · intro hu t n hc
    rw [readAvail_iff hu, read_blocks_iff hc hu n]

/-- Two bytes are written and one is read. -/
theorem pipe_semantics_two_bytes :
    (LTS.exec (fun s l => (Sys.step s l).map Prod.fst) boot [.write 0 [7, 8], .read 1 1]).map
        (fun s => (s.returned, s.accepted)) = some ([7], [7, 8]) ∧
      ∃ s : Sys, s.returned = [7] ∧ s.returned <+: s.accepted := by
  have hrun : (LTS.exec (fun s l => (Sys.step s l).map Prod.fst) boot
      [.write 0 [7, 8], .read 1 1]).map (fun s => (s.returned, s.accepted))
        = some ([7], [7, 8]) := by
    decide +kernel
  refine ⟨hrun, ?_⟩
  obtain ⟨s, hs, he⟩ := Option.map_eq_some_iff.1 hrun
  exact ⟨s, congrArg Prod.fst he, (pipe_semantics s ⟨boot, _, rfl, LTS.run_of_exec hs⟩).1⟩

end AdventOS.Kernel.Pipe
