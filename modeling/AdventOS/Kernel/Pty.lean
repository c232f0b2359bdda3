import AdventOS.Core.LTS
import AdventOS.Core.Ring

/-!
# Pseudo-terminals (`kernel/pty.c`)

The table of ptys, shared by any number of tasks. As for pipes, a step is what a task does between
two yields. `holders` are the tasks with a descriptor for an end, once for each descriptor; a call
is made through one, and a task that is inside a call closes nothing.

`accepted` are the bytes that the writes on a side took, each with what the line discipline saw;
`returned` are the bytes that the reads on a side gave back; `signals` is what was sent to process
groups. `pty_new` starts all three afresh for its slot.

* `Inv.step`: what every step keeps;
* `pty_semantics`: bytes come in order, only signal characters are left out, end-of-file means
  that the other end is gone, and a slot is free exactly when it has no references.
-/
namespace AdventOS.Kernel.Pty
open Function List

def ptyMax : Nat := 4

theorem ptyBufSz_pos : 0 < 4096 := by decide

/-- `PTY_MODE_ISIG` -/
def isig (mode : Nat) : Bool := mode.testBit 0

inductive Side
  | master
  | slave
  deriving DecidableEq, Repr

def Side.other : Side → Side
  | .master => .slave
  | .slave => .master

/-- pty.c:7-28, with `PTY_BUF_SZ` = 4096; `refs` and `input` of a side are its
reference count and the ring that it drains. -/
structure PtyObj where
  inUse : Bool
  refs : Side → Nat
  input : Side → Ring UInt8 4096
  fgPgrp : Int
  mode : Nat

/-- A slot that is zero. -/
def ptyZero : PtyObj := ⟨false, fun _ => 0, fun _ => Ring.empty 0 ptyBufSz_pos, 0, 0⟩

/-- The slot that `pty_new` hands out. pty.c:38-44 -/
def ptyFresh : PtyObj := { ptyZero with inUse := true, refs := fun _ => 1, mode := 1 }

/-- pty.c:58-60 -/
def tryFree (p : PtyObj) : PtyObj :=
  if p.refs .master = 0 ∧ p.refs .slave = 0 then { p with inUse := false } else p

def setRefs (p : PtyObj) (side : Side) (n : Nat) : PtyObj :=
  { p with refs := update p.refs side n }

/-- pty.c:55-56 -/
def ptyInc (side : Side) (p : PtyObj) : PtyObj :=
  if p.inUse then setRefs p side (p.refs side + 1) else p

def sighup : Nat := 1

/-- pty.c:62-79 -/
def ptyCloseMaster (p : PtyObj) : PtyObj × List (Int × Nat) :=
  if p.inUse then
    let p := setRefs p .master (p.refs .master - 1)
    (tryFree p, if p.refs .master = 0 ∧ p.fgPgrp > 0 then [(p.fgPgrp, sighup)] else [])
  else (p, [])

/-- pty.c:81-85 -/
def ptyCloseSlave (p : PtyObj) : PtyObj :=
  if p.inUse then tryFree (setRefs p .slave (p.refs .slave - 1)) else p

def ptyClose : Side → PtyObj → PtyObj × List (Int × Nat)
  | .master => ptyCloseMaster
  | .slave => fun p => (ptyCloseSlave p, [])

/-- The signal of a control character. pty.c:171-174 -/
def sigOf (b : UInt8) : Option Nat :=
  if b = 0x03 then some 2 else if b = 0x1C then some 3 else if b = 0x1A then some 20 else none

/-- A byte that a write took: it was stored, or became a signal to the foreground group. -/
structure Entry where
  byte : UInt8
  isig : Bool
  fg : Int
  removed : Bool
  deriving DecidableEq, Repr

/-- Where the loop of a write stops. -/
inductive WriteStop
  | finished
  | noPeer
  | full
  deriving DecidableEq, Repr

/-- Whether the line discipline takes the byte: only on the way to the slave. -/
def taken (side : Side) (p : PtyObj) (b : UInt8) : Bool :=
  side = .master && isig p.mode && (sigOf b).isSome && 0 < p.fgPgrp

def entry (side : Side) (p : PtyObj) (b : UInt8) : Entry :=
  ⟨b, isig p.mode, p.fgPgrp, taken side p b⟩

def store (side : Side) (p : PtyObj) (b : UInt8) : PtyObj :=
  { p with input := update p.input side.other ((p.input side.other).push b) }

/-- The loops of pty.c:161-188 and 214-221: the bytes taken, and why it stops. -/
def writeLoop (side : Side) (p : PtyObj) : List UInt8 → PtyObj × List Entry × WriteStop
  | [] => (p, [], .finished)
  | b :: bs =>
    if p.refs side.other = 0 then (p, [], .noPeer)
    else if taken side p b then
      let r := writeLoop side p bs
      (r.1, entry side p b :: r.2.1, r.2.2)
    else if (p.input side.other).full then (p, [], .full)
    else
      let r := writeLoop side (store side p b) bs
      (r.1, entry side p b :: r.2.1, r.2.2)

/-- The signal that an entry stands for, with the group it went to. -/
def Entry.signal (e : Entry) : Option (Int × Nat) :=
  if e.removed then (sigOf e.byte).map fun sig => (e.fg, sig) else none

/-- The bytes that were passed on. -/
def passed (l : List Entry) : List UInt8 := (l.filter fun e => !e.removed).map Entry.byte

/-- The loop condition of a read. pty.c:127 and 143 -/
def readBlocks (side : Side) (p : PtyObj) : Prop :=
  (p.input side).head = (p.input side).tail ∧ 0 < p.refs side.other

instance (side : Side) (p : PtyObj) : Decidable (readBlocks side p) := by
  unfold readBlocks
  infer_instance

/-! ## The system -/

/-- A call that yielded. -/
inductive Call
  | reading (i : Nat) (side : Side) (n : Int)
  | writing (i : Nat) (side : Side) (buf : List UInt8) (copied : Nat)
  deriving DecidableEq

def Call.idx : Call → Nat
  | .reading i _ _ => i
  | .writing i _ _ _ => i

def Call.side : Call → Side
  | .reading _ side _ => side
  | .writing _ side _ _ => side

/-- What happened to one pty since `pty_new`. -/
structure Log where
  accepted : Side → List Entry
  returned : Side → List UInt8
  signals : List (Int × Nat)

structure Sys where
  ptys : Nat → PtyObj
  logs : Nat → Log
  holders : Nat → Side → List Nat
  calls : Nat → Option Call
  pending : Nat → Bool

inductive Outcome
  | none
  | blocked
  | opened (i : Int)
  | readRet (i : Nat) (side : Side) (ret : Int) (out : List UInt8)
  | writeRet (i : Nat) (side : Side) (ret : Int)
  deriving DecidableEq

/-- What task `t` does, or what is done to it (`setPending`). A duplicate is made by `dup2` or by
`fork`, for the task `t'`. -/
inductive Step
  | new (t : Nat)
  | read (t i : Nat) (side : Side) (n : Int)
  | write (t i : Nat) (side : Side) (buf : List UInt8)
  | resume (t : Nat)
  | close (t i : Nat) (side : Side)
  | dup (t i : Nat) (side : Side) (t' : Nat)
  | setFgPgrp (i : Nat) (pgid : Int)
  | setMode (i : Nat) (mode : Nat)
  | setPending (t : Nat) (b : Bool)

def Sys.setPty (s : Sys) (i : Nat) (p : PtyObj) : Sys :=
  { s with ptys := update s.ptys i p }

def Sys.setLog (s : Sys) (i : Nat) (l : Log) : Sys := { s with logs := update s.logs i l }

def Sys.setCall (s : Sys) (t : Nat) (c : Option Call) : Sys :=
  { s with calls := update s.calls t c }

def Sys.setHolders (s : Sys) (i : Nat) (side : Side) (l : List Nat) : Sys :=
  { s with holders := update s.holders i (update (s.holders i) side l) }

def Log.accept (l : Log) (side : Side) (es : List Entry) : Log :=
  { l with
    accepted := update l.accepted side (l.accepted side ++ es)
    signals := l.signals ++ es.filterMap Entry.signal }

def Log.give (l : Log) (side : Side) (out : List UInt8) : Log :=
  { l with returned := update l.returned side (l.returned side ++ out) }

/-- pty.c:35-49: the slot, if there is one. -/
def ptyNew (s : Sys) : Option Nat := (List.range ptyMax).find? fun i => !(s.ptys i).inUse

/-- pty.c:51-53 -/
def valid (s : Sys) (i : Nat) : Bool := i < ptyMax && (s.ptys i).inUse

/-- pty.c:127-137 and 143-153: from the loop condition on. -/
def readFrom (s : Sys) (t i : Nat) (side : Side) (n : Int) : Sys × Outcome :=
  let p := s.ptys i
  if readBlocks side p then
    if s.pending t then (s.setCall t none, .readRet i side (-1) [])
    else (s.setCall t (some (.reading i side n)), .blocked)
  else
    let r := (p.input side).popN n.toNat
    (((s.setCall t none).setPty i { p with input := update p.input side r.2 }).setLog i
      ((s.logs i).give side r.1), .readRet i side r.1.length r.1)

/-- pty.c:161-188 and 214-221: from the loop condition on, with `copied` bytes
already taken. -/
def writeFrom (s : Sys) (t i : Nat) (side : Side) (buf : List UInt8) (copied : Nat) :
    Sys × Outcome :=
  let r := writeLoop side (s.ptys i) (buf.drop copied)
  let done := copied + r.2.1.length
  let s := (s.setPty i r.1).setLog i ((s.logs i).accept side r.2.1)
  match r.2.2 with
  | .full => (s.setCall t (some (.writing i side buf done)), .blocked)
  | .finished => (s.setCall t none, .writeRet i side done)
  | .noPeer => (s.setCall t none, .writeRet i side (if 0 < done then done else -1))

/-- pty.c:121-154 -/
def ptyRead (side : Side) (s : Sys) (t i : Nat) (n : Int) : Sys × Outcome :=
  if valid s i then readFrom s t i side n else (s, .readRet i side (-1) [])

def ptyMasterRead := ptyRead .master

def ptySlaveRead := ptyRead .slave

/-- pty.c:156-222 -/
def ptyWrite (side : Side) (s : Sys) (t i : Nat) (buf : List UInt8) : Sys × Outcome :=
  if valid s i then writeFrom s t i side buf 0 else (s, .writeRet i side (-1))

def ptyMasterWrite := ptyWrite .master

def ptySlaveWrite := ptyWrite .slave

def Log.empty : Log := ⟨fun _ => [], fun _ => [], []⟩

/-- `t` has a descriptor for the end, and is not inside a call. -/
def May (s : Sys) (t i : Nat) (side : Side) : Prop := s.calls t = none ∧ t ∈ s.holders i side

instance (s : Sys) (t i : Nat) (side : Side) : Decidable (May s t i side) := by
  unfold May
  infer_instance

/-- `pty_new` for `t`, with the descriptors of syscall.c:1210-1233 -/
def openPty (s : Sys) (t : Nat) : Sys × Outcome :=
  match ptyNew s with
  | none => (s, .opened (-1))
  | some i =>
    ({ (s.setPty i ptyFresh).setLog i .empty with
        holders := update s.holders i fun _ => [t] }, .opened i)

def closePty (s : Sys) (t i : Nat) (side : Side) : Sys :=
  let s := s.setHolders i side ((s.holders i side).erase t)
  if valid s i then
    let r := ptyClose side (s.ptys i)
    (s.setPty i r.1).setLog i { s.logs i with signals := (s.logs i).signals ++ r.2 }
  else s

def dupPty (s : Sys) (i : Nat) (side : Side) (t' : Nat) : Sys :=
  let s := s.setHolders i side (t' :: s.holders i side)
  if valid s i then s.setPty i (ptyInc side (s.ptys i)) else s

def Sys.step (s : Sys) : Step → Option (Sys × Outcome)
  | .new t => if s.calls t = none then some (openPty s t) else none
  | .read t i side n =>
    if May s t i side then
      some (match side with
        | .master => ptyMasterRead s t i n
        | .slave => ptySlaveRead s t i n)
    else none
  | .write t i side buf =>
    if May s t i side then
      some (match side with
        | .master => ptyMasterWrite s t i buf
        | .slave => ptySlaveWrite s t i buf)
    else none
  | .resume t =>
    match s.calls t with
    | none => none
    | some (.reading i side n) => some (readFrom s t i side n)
    | some (.writing i side buf copied) => some (writeFrom s t i side buf copied)
  | .close t i side => if May s t i side then some (closePty s t i side, .none) else none
  | .dup t i side t' => if May s t i side then some (dupPty s i side t', .none) else none
  | .setFgPgrp i pgid =>
    some (if valid s i then s.setPty i { s.ptys i with fgPgrp := pgid } else s, .none)
  | .setMode i mode =>
    some (if valid s i then s.setPty i { s.ptys i with mode := mode } else s, .none)
  | .setPending t b => some ({ s with pending := update s.pending t b }, .none)

def boot : Sys := ⟨fun _ => ptyZero, fun _ => .empty, fun _ _ => [], fun _ => none, fun _ => false⟩

def ptyLTS : LTS Sys Step := LTS.ofFn (· = boot) fun s l => (s.step l).map Prod.fst

/-! ## The loop of a write -/

theorem other_ne (side : Side) : side.other ≠ side := by
  cases side with
  | master => decide
  | slave => decide

@[simp] theorem passed_nil : passed [] = [] := rfl

theorem passed_append (l l' : List Entry) : passed (l ++ l') = passed l ++ passed l' := by
  unfold passed
  rw [filter_append, map_append]

/-- What the line discipline promises of an entry. -/
def Marked (side : Side) (e : Entry) : Prop :=
  e.removed = true ↔
    side = .master ∧ e.isig = true ∧ (sigOf e.byte).isSome = true ∧ 0 < e.fg

theorem marked_entry (side : Side) (p : PtyObj) (b : UInt8) : Marked side (entry side p b) := by
  unfold Marked entry taken
  simp only [Bool.and_eq_true, decide_eq_true_eq]
  tauto

theorem writeLoop_spec (side : Side) (p : PtyObj) (bs : List UInt8) :
    ((writeLoop side p bs).1.input side.other).contents =
      (p.input side.other).contents ++ passed (writeLoop side p bs).2.1 ∧
    (writeLoop side p bs).1.input side = p.input side ∧
    (writeLoop side p bs).1.refs = p.refs ∧ (writeLoop side p bs).1.inUse = p.inUse ∧
    (∀ e ∈ (writeLoop side p bs).2.1, Marked side e) ∧
    (writeLoop side p bs).2.1.map Entry.byte = bs.take (writeLoop side p bs).2.1.length ∧
    ((writeLoop side p bs).2.2 = .noPeer → p.refs side.other = 0) := by
  induction bs generalizing p with
  | nil => simp [writeLoop]
  | cons b bs ih =>
    unfold writeLoop
    split
    · rename_i hrefs
      simp [hrefs]
    split
    · rename_i htaken
      obtain ⟨h1, h2, h3, h4, h5, h6, h7⟩ := ih p
      have hpass : passed (entry side p b :: (writeLoop side p bs).2.1) =
          passed (writeLoop side p bs).2.1 := by
        unfold passed
        rw [filter_cons_of_neg (by simp [entry, htaken])]
      refine ⟨by rw [hpass]; exact h1, h2, h3, h4, ?_, ?_, h7⟩
      · intro e he
        cases mem_cons.1 he with
        | inl he => exact he ▸ marked_entry side p b
        | inr he => exact h5 e he
      · rw [map_cons, length_cons, take_succ_cons, h6]
        rfl
    split
    · simp
    · rename_i hrefs htaken hfull
      obtain ⟨h1, h2, h3, h4, h5, h6, h7⟩ := ih (store side p b)
      have hpass : passed (entry side p b :: (writeLoop side (store side p b) bs).2.1) =
          b :: passed (writeLoop side (store side p b) bs).2.1 := by
        unfold passed
        rw [filter_cons_of_pos (by simp [entry, htaken]), map_cons]
        rfl
      have hring : (store side p b).input side.other = (p.input side.other).push b :=
        update_self ..
      refine ⟨?_, ?_, h3, h4, ?_, ?_, h7⟩
      · rw [h1, hpass, hring, Ring.contents_push _ b (by simpa using hfull), append_assoc]
        rfl
      · rw [h2]
        exact update_of_ne (other_ne side).symm _ _
      · intro e he
        cases mem_cons.1 he with
        | inl he => exact he ▸ marked_entry side p b
        | inr he => exact h5 e he
      · rw [map_cons, length_cons, take_succ_cons, h6]
        rfl

/-! ## The invariant -/

/-- One slot, what happened to it, and who holds its ends. -/
structure SlotInv (p : PtyObj) (l : Log) (h : Side → List Nat) : Prop where
  refs : ∀ side, p.refs side = (h side).length
  free : p.inUse = false ↔ p.refs .master = 0 ∧ p.refs .slave = 0
  flow : ∀ side, passed (l.accepted side.other) = l.returned side ++ (p.input side).contents
  marks : ∀ side, ∀ e ∈ l.accepted side, Marked side e
  signals : l.signals.filter (fun x => x.2 ≠ sighup) = (l.accepted .master).filterMap Entry.signal

section Slot
variable {p : PtyObj} {l : Log} {h : Side → List Nat} {side : Side} {t : Nat}

theorem slotInv_zero : SlotInv ptyZero .empty fun _ => [] := by
  refine ⟨fun _ => rfl, by simp [ptyZero], fun side => ?_, fun side e he => ?_, rfl⟩
  · change [] = [] ++ (Ring.empty 0 ptyBufSz_pos).contents
    rw [Ring.contents_empty]
    rfl
  · cases he

theorem slotInv_fresh (t : Nat) : SlotInv ptyFresh .empty fun _ => [t] :=
  ⟨fun _ => rfl, by simp [ptyFresh], slotInv_zero.flow, slotInv_zero.marks, rfl⟩

theorem SlotInv.inUse (hs : SlotInv p l h) (ht : t ∈ h side) : p.inUse = true := by
  by_contra hu
  obtain ⟨h1, h2⟩ := hs.free.1 (by simpa using hu)
  have hpos := length_pos_of_mem ht
  rw [← hs.refs side] at hpos
  cases side with
  | master => omega
  | slave => omega

theorem signal_ne_sighup {e : Entry} {x : Int × Nat} (he : e.signal = some x) : x.2 ≠ sighup := by
  unfold Entry.signal at he
  split at he
  · obtain ⟨sig, hsig, rfl⟩ := Option.map_eq_some_iff.1 he
    unfold sigOf at hsig
    dsimp only
    split at hsig
    · cases hsig
      decide
    split at hsig
    · cases hsig
      decide
    split at hsig
    · cases hsig
      decide
    · cases hsig
  · cases he

theorem signal_of_slave {e : Entry} (he : Marked .slave e) : e.signal = none := by
  have hnot : ¬ e.removed = true := fun hr => by
    cases (he.1 hr).1
  unfold Entry.signal
  rw [if_neg hnot]

theorem SlotInv.write (hs : SlotInv p l h) (side : Side) (bs : List UInt8) :
    SlotInv (writeLoop side p bs).1 (l.accept side (writeLoop side p bs).2.1) h := by
  obtain ⟨h1, h2, h3, h4, h5, -, -⟩ := writeLoop_spec side p bs
  refine ⟨?_, ?_, fun side' => ?_, fun side' e he => ?_, ?_⟩
  · rw [h3]
    exact hs.refs
  · rw [h3, h4]
    exact hs.free
  · unfold Log.accept
    dsimp only
    by_cases hside : side' = side
    · rw [hside, update_of_ne (other_ne side), h2]
      exact hs.flow side
    · have hother : side'.other = side ∧ side' = side.other := by
        cases side with
        | master => cases side' with
          | master => exact absurd rfl hside
          | slave => exact ⟨rfl, rfl⟩
        | slave => cases side' with
          | master => exact ⟨rfl, rfl⟩
          | slave => exact absurd rfl hside
      have hflow := hs.flow side'
      rw [hother.1, hother.2] at hflow
      rw [hother.1, update_self, passed_append, hother.2, h1, hflow, append_assoc]
  · unfold Log.accept at he
    dsimp only at he
    by_cases hside : side' = side
    · rw [hside, update_self] at he
      rw [hside]
      cases mem_append.1 he with
      | inl he => exact hs.marks side e he
      | inr he => exact h5 e he
    · rw [update_of_ne hside] at he
      exact hs.marks side' e he
  · unfold Log.accept
    dsimp only
    have hall : ((writeLoop side p bs).2.1.filterMap Entry.signal).filter
        (fun x => x.2 ≠ sighup) = (writeLoop side p bs).2.1.filterMap Entry.signal := by
      rw [filter_eq_self]
      intro x hx
      obtain ⟨e, -, he⟩ := mem_filterMap.1 hx
      simpa using signal_ne_sighup he
    rw [filter_append, hs.signals, hall]
    cases side with
    | master => rw [update_self, filterMap_append]
    | slave =>
      have hnil : (writeLoop .slave p bs).2.1.filterMap Entry.signal = [] := by
        rw [filterMap_eq_nil_iff]
        exact fun e he => signal_of_slave (h5 e he)
      rw [update_of_ne (by decide), hnil, append_nil]

theorem SlotInv.read (hs : SlotInv p l h) (side : Side) (n : Nat) :
    SlotInv { p with input := update p.input side ((p.input side).popN n).2 }
      (l.give side ((p.input side).popN n).1) h := by
  obtain ⟨h1, h2⟩ := (p.input side).contents_popN n
  refine ⟨hs.refs, hs.free, fun side' => ?_, hs.marks, hs.signals⟩
  unfold Log.give
  dsimp only
  by_cases hside : side' = side
  · rw [hside, update_self, update_self, h1, h2, append_assoc,
      take_append_drop]
    exact hs.flow side
  · rw [update_of_ne hside, update_of_ne hside]
    exact hs.flow side'

theorem SlotInv.counts (hs : SlotInv p l h) {q : PtyObj} {h' : Side → List Nat}
    (hrefs : ∀ side, q.refs side = (h' side).length)
    (hfree : q.inUse = false ↔ q.refs .master = 0 ∧ q.refs .slave = 0)
    (hinput : q.input = p.input) : SlotInv q l h' :=
  ⟨hrefs, hfree, by rw [hinput]; exact hs.flow, hs.marks, hs.signals⟩

theorem tryFree_spec (p : PtyObj) (hu : p.inUse = true) :
    (tryFree p).refs = p.refs ∧ (tryFree p).input = p.input ∧
      ((tryFree p).inUse = false ↔ p.refs .master = 0 ∧ p.refs .slave = 0) := by
  unfold tryFree
  split
  · rename_i hz
    exact ⟨rfl, rfl, by simp [hz]⟩
  · rename_i hz
    exact ⟨rfl, rfl, by simp [hu, hz]⟩

theorem ptyClose_spec (side : Side) (p : PtyObj) (hu : p.inUse = true) :
    (ptyClose side p).1.refs = update p.refs side (p.refs side - 1) ∧
      (ptyClose side p).1.input = p.input ∧
      ((ptyClose side p).1.inUse = false ↔ (ptyClose side p).1.refs .master = 0 ∧
        (ptyClose side p).1.refs .slave = 0) ∧
      ∀ x ∈ (ptyClose side p).2, x.2 = sighup := by
  have hspec := tryFree_spec (setRefs p side (p.refs side - 1)) hu
  cases side with
  | master =>
    unfold ptyClose ptyCloseMaster
    dsimp only
    rw [if_pos hu]
    obtain ⟨h1, h2, h3⟩ := hspec
    refine ⟨h1, h2, ?_, ?_⟩
    · rw [h1]
      exact h3
    · intro x hx
      split at hx
      · rw [mem_singleton.1 hx]
      · cases hx
  | slave =>
    unfold ptyClose ptyCloseSlave
    dsimp only
    rw [if_pos hu]
    obtain ⟨h1, h2, h3⟩ := hspec
    refine ⟨h1, h2, ?_, ?_⟩
    · rw [h1]
      exact h3
    · intro x hx
      cases hx

end Slot

/-! ## The table -/

structure Inv (s : Sys) : Prop where
  slot : ∀ i, SlotInv (s.ptys i) (s.logs i) (s.holders i)
  bound : ∀ i, (s.ptys i).inUse = true → i < ptyMax
  calls : ∀ t c, s.calls t = some c → t ∈ s.holders c.idx c.side

section Table
variable {s s' : Sys} {t t' i : Nat} {side : Side} {n : Int} {o : Outcome}

theorem Inv.valid (h : Inv s) (ht : t ∈ s.holders i side) : valid s i = true := by
  have hu := (h.slot i).inUse ht
  unfold Pty.valid
  rw [hu, decide_eq_true (h.bound i hu)]
  rfl

/-- A new slot, with what happened to it and the holders of its ends. -/
theorem Inv.put (h : Inv s) {p : PtyObj} {l : Log} {hold : Side → List Nat}
    (hs : SlotInv p l hold) (hu : p.inUse = true → i < ptyMax)
    (hcalls : ∀ t c, s.calls t = some c → t ∈ s.holders i c.side → t ∈ hold c.side) :
    Inv { s with
      ptys := update s.ptys i p, logs := update s.logs i l, holders := update s.holders i hold } := by
  refine ⟨fun j => ?_, fun j hj => ?_, fun t c hc => ?_⟩
  · dsimp only
    by_cases hji : j = i
    · rw [hji, update_self, update_self, update_self]
      exact hs
    · rw [update_of_ne hji, update_of_ne hji, update_of_ne hji]
      exact h.slot j
  · dsimp only at hj
    by_cases hji : j = i
    · rw [hji, update_self] at hj
      exact hji ▸ hu hj
    · rw [update_of_ne hji] at hj
      exact h.bound j hj
  · have hmem := h.calls t c hc
    dsimp only
    by_cases hci : c.idx = i
    · rw [hci] at hmem ⊢
      rw [update_self]
      exact hcalls t c hc hmem
    · rw [update_of_ne hci]
      exact hmem

theorem Inv.setSlot (h : Inv s) {p : PtyObj} {l : Log} (hs : SlotInv p l (s.holders i))
    (hu : p.inUse = true → i < ptyMax) : Inv ((s.setPty i p).setLog i l) := by
  have hp := h.put hs hu fun _ _ _ ht => ht
  rw [update_eq_self] at hp
  exact hp

theorem Inv.setCall (h : Inv s) {c : Option Call}
    (hc : ∀ d, c = some d → t ∈ s.holders d.idx d.side) :
    Inv (s.setCall t c) := by
  refine ⟨h.slot, h.bound, fun t' d hd => ?_⟩
  change update s.calls t c t' = some d at hd
  by_cases ht : t' = t
  · rw [ht, update_self] at hd
    exact ht ▸ hc d hd
  · rw [update_of_ne ht] at hd
    exact h.calls t' d hd

theorem setLog_self (s : Sys) (i : Nat) : s.setLog i (s.logs i) = s := by
  unfold Sys.setLog
  rw [update_eq_self]

theorem Inv.endCall (h : Inv s) (t : Nat) : Inv (s.setCall t none) :=
  h.setCall fun d hd => by cases hd

theorem Inv.readFrom (h : Inv s) (ht : t ∈ s.holders i side) :
    Inv (readFrom s t i side n).1 := by
  unfold Pty.readFrom
  dsimp only
  split
  · split
    · exact h.endCall t
    · exact h.setCall fun d hd => Option.some.inj hd ▸ ht
  · exact (h.endCall t).setSlot ((h.slot i).read side n.toNat) fun _ =>
      h.bound i ((h.slot i).inUse ht)

theorem Inv.writeFrom (h : Inv s) (ht : t ∈ s.holders i side) (buf : List UInt8) (copied : Nat) :
    Inv (writeFrom s t i side buf copied).1 := by
  have hi : i < ptyMax := h.bound i ((h.slot i).inUse ht)
  have hs := h.setSlot ((h.slot i).write side (buf.drop copied)) fun _ => hi
  unfold Pty.writeFrom
  dsimp only
  split
  · exact hs.setCall fun d hd => Option.some.inj hd ▸ ht
  · exact hs.endCall t
  · exact hs.endCall t

theorem ptyNew_spec (h : ptyNew s = some i) : i < ptyMax ∧ (s.ptys i).inUse = false := by
  have hmem := mem_range.1 (mem_of_find?_eq_some h)
  have hfree := List.find?_some h
  exact ⟨hmem, by simpa using hfree⟩

theorem Inv.no_holder (h : Inv s) (hu : (s.ptys i).inUse = false) : t ∉ s.holders i side := by
  intro ht
  rw [(h.slot i).inUse ht] at hu
  cases hu

theorem Inv.openPty (h : Inv s) (t : Nat) : Inv (openPty s t).1 := by
  unfold Pty.openPty
  split
  · exact h
  · rename_i i hnew
    obtain ⟨hi, hu⟩ := ptyNew_spec hnew
    exact h.put (slotInv_fresh t) (fun _ => hi) fun _ _ _ ht => absurd ht (h.no_holder hu)

theorem Inv.ends (h : Inv s) {l : List Nat} {p : PtyObj} {log : Log}
    (hs : SlotInv p log (update (s.holders i) side l)) (hi : i < ptyMax)
    (hcalls : ∀ t c, s.calls t = some c → t ∈ s.holders i side → t ∈ l) :
    Inv (((s.setHolders i side l).setPty i p).setLog i log) := by
  refine h.put hs (fun _ => hi) fun t c hc ht => ?_
  by_cases hside : c.side = side
  · rw [hside] at ht ⊢
    rw [update_self]
    exact hcalls t c hc ht
  · rw [update_of_ne hside]
    exact ht

theorem Inv.closePty (h : Inv s) (hm : May s t i side) : Inv (closePty s t i side) := by
  have hu := (h.slot i).inUse hm.2
  have hv : Pty.valid (s.setHolders i side ((s.holders i side).erase t)) i = true := h.valid hm.2
  unfold Pty.closePty
  rw [if_pos hv]
  obtain ⟨h1, h2, h3, h4⟩ := ptyClose_spec side (s.ptys i) hu
  refine h.ends ?_ (h.bound i hu) fun t' c hc ht' => ?_
  · have hcounts : SlotInv (ptyClose side (s.ptys i)).1 (s.logs i)
        (update (s.holders i) side ((s.holders i side).erase t)) := by
      refine (h.slot i).counts (fun side' => ?_) h3 h2
      rw [h1]
      by_cases hs : side' = side
      · rw [hs, update_self, update_self, length_erase_of_mem hm.2,
          (h.slot i).refs]
      · rw [update_of_ne hs, update_of_ne hs]
        exact (h.slot i).refs side'
    refine ⟨hcounts.refs, hcounts.free, hcounts.flow, hcounts.marks, ?_⟩
    have hnil : (ptyClose side (s.ptys i)).2.filter (fun x => x.2 ≠ sighup) = [] := by
      rw [filter_eq_nil_iff]
      intro x hx
      simpa using h4 x hx
    change ((s.logs i).signals ++ (ptyClose side (s.ptys i)).2).filter (fun x => x.2 ≠ sighup) = _
    rw [filter_append, hnil, append_nil]
    exact hcounts.signals
  · have hne : t' ≠ t := by
      intro heq
      rw [heq, hm.1] at hc
      cases hc
    exact (mem_erase_of_ne hne).2 ht'

theorem Inv.dupPty (h : Inv s) (hm : May s t i side) (t' : Nat) : Inv (dupPty s i side t') := by
  have hu := (h.slot i).inUse hm.2
  have hv : Pty.valid (s.setHolders i side (t' :: s.holders i side)) i = true := h.valid hm.2
  have hinc : ptyInc side (s.ptys i) = setRefs (s.ptys i) side ((s.ptys i).refs side + 1) :=
    if_pos hu
  unfold Pty.dupPty
  dsimp only
  rw [if_pos hv]
  change Inv ((s.setHolders i side (t' :: s.holders i side)).setPty i (ptyInc side (s.ptys i)))
  rw [hinc, ← setLog_self (Sys.setPty _ _ _) i]
  refine h.ends ((h.slot i).counts (fun side' => ?_) ?_ rfl) (h.bound i hu)
    fun t c _ ht => mem_cons_of_mem t' ht
  · unfold setRefs
    dsimp only
    by_cases hs : side' = side
    · rw [hs, update_self, update_self, length_cons, (h.slot i).refs]
    · rw [update_of_ne hs, update_of_ne hs]
      exact (h.slot i).refs side'
  · unfold setRefs
    dsimp only
    rw [hu]
    cases side with
    | master => simp
    | slave => simp

theorem step_cases {l : Step} (h : Inv s) (hs : s.step l = some (s', o)) :
    (∃ t, (s', o) = openPty s t) ∨
    (∃ t i side n, t ∈ s.holders i side ∧ (s', o) = readFrom s t i side n) ∨
    (∃ t i side buf k, t ∈ s.holders i side ∧ (s', o) = writeFrom s t i side buf k) ∨
    (∃ t i side, May s t i side ∧ s' = closePty s t i side ∧ o = .none) ∨
    (∃ t i side t', May s t i side ∧ s' = dupPty s i side t' ∧ o = .none) ∨
    (∃ i p, p.inUse = (s.ptys i).inUse ∧ p.refs = (s.ptys i).refs ∧
      p.input = (s.ptys i).input ∧ s' = s.setPty i p ∧ o = .none) ∨
    (∃ b, s' = { s with pending := b } ∧ o = .none) := by
  -- the calls that change an attribute of a slot
  have hset : ∀ (i : Nat) (p : PtyObj), p.inUse = (s.ptys i).inUse → p.refs = (s.ptys i).refs →
      p.input = (s.ptys i).input →
      (if Pty.valid s i then s.setPty i p else s, Outcome.none) = (s', o) →
      ∃ i p, p.inUse = (s.ptys i).inUse ∧ p.refs = (s.ptys i).refs ∧
        p.input = (s.ptys i).input ∧ s' = s.setPty i p ∧ o = .none := by
    intro i p h1 h2 h3 he
    cases he
    split
    · exact ⟨i, p, h1, h2, h3, rfl, rfl⟩
    · refine ⟨i, s.ptys i, rfl, rfl, rfl, ?_, rfl⟩
      unfold Sys.setPty
      rw [update_eq_self]
  cases l with
  | new t =>
    dsimp only [Sys.step] at hs
    split at hs
    · exact .inl ⟨t, (Option.some.inj hs).symm⟩
    · cases hs
  | read t i side n =>
    dsimp only [Sys.step] at hs
    split at hs
    · rename_i hm
      have heq : ptyRead side s t i n = readFrom s t i side n := if_pos (h.valid hm.2)
      refine .inr (.inl ⟨t, i, side, n, hm.2, ?_⟩)
      rw [← heq]
      cases side with
      | master => exact (Option.some.inj hs).symm
      | slave => exact (Option.some.inj hs).symm
    · cases hs
  | write t i side buf =>
    dsimp only [Sys.step] at hs
    split at hs
    · rename_i hm
      have heq : ptyWrite side s t i buf = writeFrom s t i side buf 0 := if_pos (h.valid hm.2)
      refine .inr (.inr (.inl ⟨t, i, side, buf, 0, hm.2, ?_⟩))
      rw [← heq]
      cases side with
      | master => exact (Option.some.inj hs).symm
      | slave => exact (Option.some.inj hs).symm
    · cases hs
  | resume t =>
    dsimp only [Sys.step] at hs
    cases hc : s.calls t with
    | none =>
      rw [hc] at hs
      cases hs
    | some c =>
      have ht := h.calls t c hc
      rw [hc] at hs
      cases c with
      | reading i side n =>
        exact .inr (.inl ⟨t, i, side, n, ht, (Option.some.inj hs).symm⟩)
      | writing i side buf k =>
        exact .inr (.inr (.inl ⟨t, i, side, buf, k, ht, (Option.some.inj hs).symm⟩))
  | close t i side =>
    dsimp only [Sys.step] at hs
    split at hs
    · rename_i hm
      cases hs
      exact .inr (.inr (.inr (.inl ⟨t, i, side, hm, rfl, rfl⟩)))
    · cases hs
  | dup t i side t' =>
    dsimp only [Sys.step] at hs
    split at hs
    · rename_i hm
      cases hs
      exact .inr (.inr (.inr (.inr (.inl ⟨t, i, side, t', hm, rfl, rfl⟩))))
    · cases hs
  | setFgPgrp i pgid =>
    exact .inr (.inr (.inr (.inr (.inr (.inl (hset i { s.ptys i with fgPgrp := pgid }
      rfl rfl rfl (Option.some.inj hs)))))))
  | setMode i mode =>
    exact .inr (.inr (.inr (.inr (.inr (.inl (hset i { s.ptys i with mode := mode }
      rfl rfl rfl (Option.some.inj hs)))))))
  | setPending t b =>
    cases hs
    exact .inr (.inr (.inr (.inr (.inr (.inr ⟨_, rfl, rfl⟩)))))

theorem Inv.step {l : Step} (h : Inv s) (hs : s.step l = some (s', o)) : Inv s' := by
  rcases step_cases h hs with ⟨t, heq⟩ | ⟨t, i, side, n, ht, heq⟩ | ⟨t, i, side, buf, k, ht, heq⟩ |
    ⟨t, i, side, hm, rfl, -⟩ | ⟨t, i, side, t', hm, rfl, -⟩ | ⟨i, p, hu, hr, hin, rfl, -⟩ |
    ⟨b, rfl, -⟩
  · rw [show s' = (Pty.openPty s t).1 by rw [← heq]]
    exact h.openPty t
  · rw [show s' = (Pty.readFrom s t i side n).1 by rw [← heq]]
    exact h.readFrom ht
  · rw [show s' = (Pty.writeFrom s t i side buf k).1 by rw [← heq]]
    exact h.writeFrom ht buf k
  · exact h.closePty hm
  · exact h.dupPty hm t'
  · have hs : SlotInv p (s.logs i) (s.holders i) := by
      refine (h.slot i).counts (fun side => ?_) ?_ hin
      · rw [hr]
        exact (h.slot i).refs side
      · rw [hr, hu]
        exact (h.slot i).free
    rw [← setLog_self (s.setPty i p) i]
    exact h.setSlot hs fun hp => h.bound i (hu ▸ hp)
  · exact ⟨h.slot, h.bound, h.calls⟩

theorem inv_inductive : ptyLTS.Inductive Inv where
  init s hs := by
    have hs : s = boot := hs
    rw [hs]
    refine ⟨fun i => slotInv_zero, fun i hi => ?_, fun t c hc => ?_⟩
    · cases hi
    · cases hc
  step s l s' h hs := by
    obtain ⟨⟨u, o⟩, hu, rfl⟩ := Option.map_eq_some_iff.1 hs
    exact h.step hu

/-! ## What the calls report -/

/-- A read reports what it takes out of the ring, and reports no byte for a positive count only
when there is nothing to come. -/
theorem readFrom_ret {i' : Nat} {side' : Side} {ret : Int} {out : List UInt8}
    (hr : readFrom s t i side n = (s', .readRet i' side' ret out)) :
    i' = i ∧ side' = side ∧ (s'.logs i).returned side = (s.logs i).returned side ++ out ∧
      (ret = -1 ∧ out = [] ∨ ret = out.length) ∧
      (0 < n → ret = 0 →
        (s.ptys i).refs side.other = 0 ∧ ((s.ptys i).input side).contents = []) := by
  unfold readFrom at hr
  dsimp only at hr
  split at hr
  · split at hr
    · cases hr
      refine ⟨rfl, rfl, (append_nil _).symm, .inl ⟨rfl, rfl⟩, fun _ h0 => by omega⟩
    · cases hr
  rename_i hgate
  cases hr
  refine ⟨rfl, rfl, ?_, .inr rfl, fun hn h0 => ?_⟩
  · change (update s.logs i ((s.logs i).give side _) i).returned side = _
    rw [update_self]
    exact update_self ..
  · have hnil : (((s.ptys i).input side).popN n.toNat).1 = [] := by
      rw [← length_eq_zero_iff]
      omega
    rw [(Ring.contents_popN _ n.toNat).1, take_eq_nil_iff] at hnil
    have hempty : ((s.ptys i).input side).contents = [] := by
      cases hnil with
      | inl hz => omega
      | inr he => exact he
    refine ⟨?_, hempty⟩
    have hhead : ((s.ptys i).input side).head = ((s.ptys i).input side).tail := by
      rw [Ring.empty_iff, ← Ring.length_contents, hempty]
      rfl
    by_contra hrefs
    exact hgate ⟨hhead, Nat.pos_of_ne_zero hrefs⟩

end Table

/-- What one pty promises, and what a step reports about it. -/
structure Sound (s : Sys) (i : Nat) : Prop where
  /-- what is read on a side is a prefix of what came through from the other -/
  order : ∀ side, (s.logs i).returned side <+: passed ((s.logs i).accepted side.other)
  /-- only signal characters of the master are left out, while `ISIG` and a foreground group
  are set; each has sent its signal -/
  removed : ∀ side, ∀ e ∈ (s.logs i).accepted side, e.removed = true ↔
    side = .master ∧ e.isig = true ∧ (sigOf e.byte).isSome = true ∧ 0 < e.fg
  signals : (s.logs i).signals.filter (fun x => x.2 ≠ sighup) =
    ((s.logs i).accepted .master).filterMap Entry.signal
  /-- reads append what they report, and report end-of-file only when nothing can come -/
  reads : ∀ l s' side ret out, s.step l = some (s', .readRet i side ret out) →
    (s'.logs i).returned side = (s.logs i).returned side ++ out ∧
      (ret = -1 ∧ out = [] ∨ ret = out.length)
  eof : ∀ t side n s' out, 0 < n → (s.step (.read t i side n) = some (s', .readRet i side 0 out) ∨
      s.calls t = some (.reading i side n) ∧
        s.step (.resume t) = some (s', .readRet i side 0 out)) →
    (s.ptys i).refs side.other = 0 ∧ ((s.ptys i).input side).contents = []
  /-- a slot is free exactly when it has no references, and `pty_new` takes a free one -/
  free : (s.ptys i).inUse = false ↔ (s.ptys i).refs .master = 0 ∧ (s.ptys i).refs .slave = 0
  recycled : ptyNew s = some i → (s.ptys i).refs .master = 0 ∧ (s.ptys i).refs .slave = 0
  refs : ∀ side, (s.ptys i).refs side = (s.holders i side).length

/-- Every pty, in every reachable state. -/
theorem pty_semantics (s : Sys) (h : ptyLTS.Reachable s) (i : Nat) : Sound s i := by
  have h := inv_inductive.reachable s h
  refine ⟨fun side => ⟨_, ((h.slot i).flow side).symm⟩, (h.slot i).marks, (h.slot i).signals,
    fun l s' side ret out hs => ?_, fun t side n s' out hn hs => ?_, (h.slot i).free,
    fun hnew => (h.slot i).free.1 (ptyNew_spec hnew).2, (h.slot i).refs⟩
  · rcases step_cases h hs with ⟨t, heq⟩ | ⟨t, j, side', n, ht, heq⟩ |
      ⟨t, j, side', buf, k, ht, heq⟩ | ⟨t, j, side', hm, -, ho⟩ | ⟨t, j, side', t', hm, -, ho⟩ | ⟨j, p, -, -, -, -, ho⟩ | ⟨b, -, ho⟩
    · unfold openPty at heq
      split at heq
      · cases heq
      · cases heq
    · obtain ⟨h1, h2, h3, h4, -⟩ := readFrom_ret heq.symm
      rw [h1, h2]
      exact ⟨h3, h4⟩
    · unfold writeFrom at heq
      dsimp only at heq
      split at heq
      · cases heq
      · cases heq
      · cases heq
    · cases ho
    · cases ho
    · cases ho
    · cases ho
  · have hret : readFrom s t i side n = (s', .readRet i side 0 out) := by
      cases hs with
      | inl hs =>
        dsimp only [Sys.step] at hs
        split at hs
        · rename_i hm
          have heq : ptyRead side s t i n = readFrom s t i side n := if_pos (h.valid hm.2)
          rw [← heq]
          cases side with
          | master => exact Option.some.inj hs
          | slave => exact Option.some.inj hs
        · cases hs
      | inr hs =>
        have hstep := hs.2
        dsimp only [Sys.step] at hstep
        rw [hs.1] at hstep
        exact Option.some.inj hstep
    obtain ⟨-, -, -, -, heof⟩ := readFrom_ret hret
    exact heof hn rfl

/-- A shell's interrupt character: the byte after it is read, the signal is sent once. -/
theorem pty_semantics_interrupt :
    (LTS.exec (fun s l => (Sys.step s l).map Prod.fst) boot
      [.new 1, .dup 1 0 .slave 2, .setFgPgrp 0 5, .read 2 0 .slave 8, .write 1 0 .master [3, 65],
        .resume 2]).map (fun s => ((s.logs 0).returned .slave, (s.logs 0).signals)) =
          some ([65], [(5, 2)]) ∧
      ∃ s : Sys, (s.logs 0).returned .slave = [65] ∧ Sound s 0 := by
  have hrun : (LTS.exec (fun s l => (Sys.step s l).map Prod.fst) boot
      [.new 1, .dup 1 0 .slave 2, .setFgPgrp 0 5, .read 2 0 .slave 8, .write 1 0 .master [3, 65],
        .resume 2]).map (fun s => ((s.logs 0).returned .slave, (s.logs 0).signals)) =
          some ([65], [(5, 2)]) := by
    decide +kernel
  refine ⟨hrun, ?_⟩
  obtain ⟨s, hs, he⟩ := Option.map_eq_some_iff.1 hrun
  exact ⟨s, congrArg Prod.fst he, pty_semantics s ⟨boot, _, rfl, LTS.run_of_exec hs⟩ 0⟩

end AdventOS.Kernel.Pty
