import AdventOS.Core.Word
import AdventOS.Kernel.Signal

/-!
# Nested signal handlers

A handler may be interrupted by other signals, and their handlers again. Each delivery saves the
interrupted registers on the user stack and masks its signal (`Signal.pushFrame`); each return
reads both back, the number of the signal from the word below the saved context
(`Signal.signalSigreturn`). The kernel does not remember which handlers are active. The model adds
the stack of active handlers with what each of them interrupted, a log of the returns, and counts
of how often a pending bit was raised, delivered or cancelled.

User code is arbitrary but for the calling convention (`Convention`): its stack pointer stays below
the frames of the active handlers, and the contexts in them are not written. Positions on the stack
are distances below the stack pointer of the code interrupted first.

* `Sound`: every return gave back the registers and the mask of its delivery, no handler is nested
  inside itself, and every raised bit was cleared once or is still pending;
* `nested_signals_restore`: in runs whose `SYS_SIGRETURN` find their signals' numbers;
* `sigreturn_mask_iff`: a return that finds another number does not restore the mask;
* `trampoline_interrupted`: a signal delivered there leaves the first one masked.
-/
namespace AdventOS.Kernel.SignalNesting
open AdventOS.Kernel.Signal AdventOS.Word List

/-! ## The observer's state -/

/-- An active handler: the distance of its saved context below `base`, and the registers and the
mask that its delivery found. -/
structure Frame where
  sig : Nat
  depth : Nat
  regs : Registers
  mask : UInt32

/-- A return: the frame that it left, and the registers and the mask that it gave back. -/
structure Return where
  frame : Frame
  regs : Registers
  mask : UInt32

/-- A task, the stack pointer of the code that was interrupted first, and how far below it the
stack pointer is now. -/
structure Sys where
  st : St
  base : UInt32
  depth : Nat
  stack : List Frame
  log : List Return
  raised : Nat → Nat
  delivered : Nat → Nat
  cancelled : Nat → Nat

def Sys.pending (s : Sys) (i : Nat) : Bool := has s.st.task.sigPending i

/-- The address of the context of a frame. -/
def Sys.ctx (s : Sys) (f : Frame) : UInt32 := s.base - UInt32.ofNat f.depth

def cancels (sig : Nat) : List Nat :=
  if sig = sigCont then [sigStop, sigTstp]
  else if sig = sigStop ∨ sig = sigTstp then [sigCont] else []

def picked (s : St) : Option Nat :=
  if s.regs.cs &&& 3 ≠ 3 then none
  else if ¬ s.task.isUser then none
  else pickPending s.task

def handled (s : St) : Option Nat :=
  (picked s).filter fun sig =>
    s.task.sigHandlers sig ≠ sigIgn && s.task.sigHandlers sig ≠ sigDfl && s.task.sigTramp ≠ 0

/-! ## Steps -/

/-- The task at the tail of a syscall with this result, or of an interrupt. -/
def atTail (s : St) : Option UInt32 → St
  | none => s
  | some eax => { s with regs := { s.regs with eax } }

/-- How far below `base` a delivery starts. -/
def Sys.from (s : Sys) : Nat := if s.stack.isEmpty then 0 else s.depth

def Sys.consume (s : Sys) (st : St) : Sys :=
  { s with
    st := signalCheckAndDeliver st
    delivered := fun i => s.delivered i + if picked st = some i then 1 else 0 }

/-- The tail, and what the observer writes down when a handler is entered. -/
def Sys.tail (s : Sys) (eax : Option UInt32) : Sys :=
  match handled (atTail s.st eax) with
  | none => s.consume (atTail s.st eax)
  | some sig =>
    { s.consume (atTail s.st eax) with
      base := if s.stack.isEmpty then s.st.regs.useresp else s.base
      depth := s.from + 72
      stack := ⟨sig, s.from + 64, (atTail s.st eax).regs, s.st.task.sigMask⟩ :: s.stack }

/-- A signal arrives; `t` are the task's fields afterwards. -/
def Sys.arrive (s : Sys) (t : Task) (sig : Nat) (cancelled : List Nat) : Sys :=
  { s with
    st := { s.st with task := t }
    raised := fun i => s.raised i + if i = sig ∧ s.pending i = false then 1 else 0
    cancelled := fun i => s.cancelled i + if i ∈ cancelled ∧ s.pending i = true then 1 else 0 }

/-- `SYS_SIGRETURN` leaves the frame `f`. -/
def Sys.pop (s : Sys) (f : Frame) (rest : List Frame) : Sys :=
  { s with
    st := signalSigreturn s.st
    depth := f.depth - 64
    stack := rest
    log := ⟨f, (signalSigreturn s.st).regs, (signalSigreturn s.st).task.sigMask⟩ :: s.log }

inductive Lbl
  | user (mem : Mem) (regs : Registers) (depth : Nat)
  | tail (eax : Option UInt32)
  | send (sig : Nat)
  | post (sig : Nat)
  | sigaction (sig : Nat) (handler tramp : UInt32)
  | sigreturn

/-- While handlers are active user code keeps its stack pointer below the innermost one's
context, and writes none of the saved contexts. The words below a context, the argument of the
handler among them, it may write. -/
def Convention (s : Sys) (mem : Mem) (regs : Registers) (depth : Nat) : Prop :=
  ∀ f ∈ s.stack, f.depth ≤ depth ∧ regs.useresp = s.base - UInt32.ofNat depth ∧
    ∀ j, j < 64 → mem (s.ctx f + UInt32.ofNat j) = s.st.mem (s.ctx f + UInt32.ofNat j)

/-- The steps of a task: its own code up to the next trap; the tail of a syscall or an interrupt,
which finds room on the stack when it enters a handler; signals sent by `signal_send` or posted by
the kernel (mmap.c:105, pit.c:41-46); `sigaction`; and the trap of the trampoline,
with the stack pointer at the context. -/
def system : LTS Sys Lbl where
  init s := s.stack = [] ∧ s.log = [] ∧ ∀ i, s.raised i = (s.pending i).toNat ∧
    s.delivered i = 0 ∧ s.cancelled i = 0
  step s l s' := match l with
    | .user mem regs depth => s.st.task.state = .ready ∧ Convention s mem regs depth ∧
      s' = { s with st := { s.st with mem, regs }, depth }
    | .tail eax => s.st.task.state = .ready ∧
      (handled (atTail s.st eax) ≠ none → s.from + 72 ≤ 2 ^ 32) ∧ s' = s.tail eax
    | .send sig => ∃ t, signalSend s.st.task sig = some t ∧ s' = s.arrive t sig (cancels sig)
    | .post sig => 1 ≤ sig ∧ sig < nsig ∧
      s' = s.arrive { s.st.task with sigPending := s.st.task.sigPending ||| sigBit sig } sig []
    | .sigaction sig h tramp => ∃ prev t, signalInstall s.st.task sig h tramp = some (prev, t) ∧
      s' = { s with st := { s.st with task := t } }
    | .sigreturn => s.st.task.state = .ready ∧ ∃ f rest, s.stack = f :: rest ∧
      s.depth = f.depth ∧ s' = s.pop f rest

/-- Returns give back what deliveries saved, no handler runs inside itself, and a bit is cleared
as often as it is raised. -/
structure Sound (s : Sys) : Prop where
  returns : ∀ x ∈ s.log, x.regs = x.frame.regs ∧ x.mask = x.frame.mask
  nested : (s.stack.map Frame.sig).Nodup
  pending : ∀ i, s.raised i = s.delivered i + s.cancelled i + (s.pending i).toNat

/-- `SYS_SIGRETURN` finds the number of the signal it returns from. -/
def NumberFound (s : Sys) : Lbl → Prop
  | .sigreturn => ∀ f rest, s.stack = f :: rest →
      s.st.mem.load (s.st.regs.useresp - 4) = UInt32.ofNat f.sig
  | _ => True

/-! ## Memory -/

section Memory
variable {m m' : Mem} {a : UInt32}

theorem load_congr (h : ∀ i, i < 4 → m (a + UInt32.ofNat i) = m' (a + UInt32.ofNat i)) :
    m.load a = m'.load a := by
  have h0 := h 0 (by decide)
  rw [show UInt32.ofNat 0 = 0 from rfl, UInt32.add_zero] at h0
  unfold Mem.load
  rw [h0, show (1 : UInt32) = UInt32.ofNat 1 from rfl, h 1 (by decide),
    show (2 : UInt32) = UInt32.ofNat 2 from rfl, h 2 (by decide),
    show (3 : UInt32) = UInt32.ofNat 3 from rfl, h 3 (by decide)]

theorem loadRegisters_congr (h : ∀ j, j < 64 → m (a + UInt32.ofNat j) = m' (a + UInt32.ofNat j)) :
    loadRegisters m a = loadRegisters m' a := by
  have hword : ∀ k, k < 16 →
      m.load (a + UInt32.ofNat (4 * k)) = m'.load (a + UInt32.ofNat (4 * k)) := by
    intro k hk
    refine load_congr fun i hi => ?_
    rw [UInt32.add_assoc, ← UInt32.ofNat_add]
    exact h (4 * k + i) (by omega)
  have h0 : m.load a = m'.load a := by
    have hw := hword 0 (by decide)
    rwa [show UInt32.ofNat (4 * 0) = 0 from rfl, UInt32.add_zero] at hw
  apply Registers.ext
  exacts [h0, hword 1 (by decide), hword 2 (by decide), hword 3 (by decide), hword 4 (by decide),
    hword 5 (by decide), hword 6 (by decide), hword 7 (by decide), hword 8 (by decide),
    hword 9 (by decide), hword 10 (by decide), hword 11 (by decide), hword 12 (by decide),
    hword 13 (by decide), hword 14 (by decide), hword 15 (by decide)]

theorem store_outside {x : UInt32} {ws : List UInt32} (h : 4 * ws.length ≤ (x - a).toNat) :
    m.store a ws x = m x := by
  unfold Mem.store
  rw [if_neg (Nat.not_lt.2 h)]

theorem sub_sub_ofNat (x : UInt32) (i j : Nat) :
    x - UInt32.ofNat i - UInt32.ofNat j = x - UInt32.ofNat (i + j) := by
  rw [UInt32.ofNat_add]
  grind

theorem distance {base : UInt32} {old j new : Nat} (hold : old ≤ new)
    (hfit : new + j < 2 ^ 32 + old) :
    (base - UInt32.ofNat old + UInt32.ofNat j - (base - UInt32.ofNat new)).toNat =
      new - old + j := by
  obtain ⟨k, rfl⟩ := Nat.exists_eq_add_of_le hold
  have heq : base - UInt32.ofNat old + UInt32.ofNat j - (base - UInt32.ofNat (old + k)) =
      UInt32.ofNat (k + j) := by
    rw [UInt32.ofNat_add, UInt32.ofNat_add]
    grind
  rw [heq, UInt32.toNat_ofNat', Nat.mod_eq_of_lt (by omega)]
  omega

theorem pushFrame_keeps (s : St) (sig : Nat) (h base : UInt32) {old d j : Nat}
    (hsp : s.regs.useresp = base - UInt32.ofNat d) (h64 : 64 ≤ old) (hold : old ≤ d) (hj : j < 64)
    (hfit : d + 72 ≤ 2 ^ 32) :
    (pushFrame s sig h).mem (base - UInt32.ofNat old + UInt32.ofNat j) =
      s.mem (base - UInt32.ofNat old + UInt32.ofNat j) := by
  have hd : ∀ n, 64 ≤ n → n ≤ 72 → (base - UInt32.ofNat old + UInt32.ofNat j -
      (s.regs.useresp - UInt32.ofNat n)).toNat = d + n - old + j := by
    intro n h1 h2
    rw [hsp, sub_sub_ofNat]
    exact distance (by omega) (by omega)
  have h4 := sub_sub_ofNat s.regs.useresp 64 4
  have h8 := sub_sub_ofNat s.regs.useresp 64 8
  change (((s.mem.store (s.regs.useresp - UInt32.ofNat 64) s.regs.words).store
    (s.regs.useresp - UInt32.ofNat 64 - UInt32.ofNat 4) [UInt32.ofNat sig]).store
      (s.regs.useresp - UInt32.ofNat 64 - UInt32.ofNat 8) [s.task.sigTramp]) _ = _
  rw [h4, h8, store_outside, store_outside, store_outside]
  · rw [hd 64 (by omega) (by omega), words_length]
    omega
  · rw [hd 68 (by omega) (by omega)]
    simp only [length_cons, length_nil]
    omega
  · rw [hd 72 (by omega) (by omega)]
    simp only [length_cons, length_nil]
    omega

end Memory

/-! ## Delivery -/

section Delivery
variable {s : St} {sig : Nat}

theorem picked_spec (h : picked s = some sig) :
    0 < sig ∧ sig < nsig ∧ has s.task.sigPending sig = true ∧ has s.task.sigMask sig = false := by
  unfold picked at h
  split at h
  · cases h
  split at h
  · cases h
  have hmem := mem_of_find?_eq_some h
  have hbit := List.find?_some h
  rw [mem_range'_1] at hmem
  have hlt : sig < nsig := by
    omega
  have hne : ¬ (s.task.sigPending &&& ~~~s.task.sigMask) &&& bit sig = 0 := of_decide_eq_true hbit
  rw [and_bit_eq_zero hlt] at hne
  refine ⟨hmem.1, hlt, ?_⟩
  simpa using hne

theorem handled_picked (h : handled s = some sig) : picked s = some sig :=
  (Option.filter_eq_some_iff.1 h).1

/-- What the tail does: it clears the bit of the signal it picks, and pushes a frame when that
signal has a handler. -/
theorem deliver_spec (s : St) :
    (signalCheckAndDeliver s).task.sigPending =
      (match picked s with
        | none => s.task.sigPending
        | some sig => s.task.sigPending &&& ~~~bit sig) ∧
    (match handled s with
      | none => (signalCheckAndDeliver s).mem = s.mem ∧
        (signalCheckAndDeliver s).regs = s.regs ∧
        (signalCheckAndDeliver s).task.sigMask = s.task.sigMask
      | some sig => ∃ t, t.sigMask = s.task.sigMask ∧
        signalCheckAndDeliver s = pushFrame { s with task := t } sig (t.sigHandlers sig)) := by
  unfold signalCheckAndDeliver handled picked
  split
  · exact ⟨rfl, rfl, rfl, rfl⟩
  split
  · exact ⟨rfl, rfl, rfl, rfl⟩
  cases hp : pickPending s.task with
  | none => exact ⟨rfl, rfl, rfl, rfl⟩
  | some sig =>
    dsimp only
    by_cases hign : s.task.sigHandlers sig = sigIgn
    · rw [if_pos hign]
      simp [Option.filter, hign, sigBit, bit]
    rw [if_neg hign]
    by_cases hdfl : s.task.sigHandlers sig = sigDfl
    · rw [if_pos hdfl]
      cases hact : defaultAction sig <;> simp [Option.filter, hdfl, sigBit, bit]
    rw [if_neg hdfl]
    by_cases htramp : s.task.sigTramp = 0
    · rw [if_pos htramp]
      simp [Option.filter, htramp, sigBit, bit]
    · rw [if_neg htramp]
      simp only [Option.filter, hign, hdfl, htramp, ne_eq, not_false_eq_true, decide_true,
        Bool.and_self, if_true]
      exact ⟨rfl, { s.task with sigPending := s.task.sigPending &&& ~~~sigBit sig }, rfl, rfl⟩

end Delivery

/-! ## The invariant -/

/-- Each delivery added the bit of its signal to the mask it found. -/
def Masks : UInt32 → List Frame → Prop
  | _, [] => True
  | m, f :: rest => 0 < f.sig ∧ f.sig < nsig ∧ has f.mask f.sig = false ∧
      m = f.mask ||| bit f.sig ∧ Masks f.mask rest

theorem Masks.has {m : UInt32} {l : List Frame} (h : Masks m l) :
    ∀ f ∈ l, Word.has m f.sig = true := by
  induction l generalizing m with
  | nil => intro f hf; cases hf
  | cons f rest ih =>
    obtain ⟨-, hlt, hno, rfl, hrest⟩ := h
    intro g hg
    rcases mem_cons.1 hg with rfl | hg
    · simp [has_bit (show g.sig < 32 from hlt)]
    · simp [ih hrest g hg]

theorem Masks.nodup {m : UInt32} {l : List Frame} (h : Masks m l) : (l.map Frame.sig).Nodup := by
  induction l generalizing m with
  | nil => exact nodup_nil
  | cons f rest ih =>
    obtain ⟨-, -, hno, -, hrest⟩ := h
    refine nodup_cons.2 ⟨fun hmem => ?_, ih hrest⟩
    obtain ⟨g, hg, heq⟩ := mem_map.1 hmem
    have hset := hrest.has g hg
    rw [heq, hno] at hset
    cases hset

structure Inv (s : Sys) : Prop where
  returns : ∀ x ∈ s.log, x.regs = x.frame.regs ∧ x.mask = x.frame.mask
  pending : ∀ i, s.raised i = s.delivered i + s.cancelled i + (s.pending i).toNat
  masks : Masks s.st.task.sigMask s.stack
  /-- the stack pointer lies `depth` below `base` -/
  esp : s.stack ≠ [] → s.st.regs.useresp = s.base - UInt32.ofNat s.depth
  below : ∀ f ∈ s.stack, 64 ≤ f.depth ∧ f.depth ≤ s.depth
  order : s.stack.Pairwise fun f g => g.depth + 64 ≤ f.depth
  /-- what a delivery interrupted was at the top of its context -/
  interrupted : ∀ f ∈ s.stack, f.regs.useresp = s.base - UInt32.ofNat (f.depth - 64)
  saved : ∀ f ∈ s.stack, loadRegisters s.st.mem (s.ctx f) = f.regs

variable {s : Sys} {C : Sys → Lbl → Prop}

theorem Inv.sound (h : Inv s) : Sound s := ⟨h.returns, h.masks.nodup, h.pending⟩

section Steps
variable {s : Sys} {f : Frame} {rest : List Frame} {sig : Nat}

variable {t : Task} {eax : Option UInt32}

theorem Inv.fields (h : Inv s) {raised delivered cancelled : Nat → Nat}
    (hm : t.sigMask = s.st.task.sigMask)
    (hp : ∀ i, raised i = delivered i + cancelled i + (has t.sigPending i).toNat) :
    Inv { s with st := { s.st with task := t }, raised, delivered, cancelled } where
  returns := h.returns
  pending := hp
  masks := by
    rw [hm]
    exact h.masks
  esp := h.esp
  below := h.below
  order := h.order
  interrupted := h.interrupted
  saved := h.saved

theorem Inv.user (h : Inv s) {mem : Mem} {regs : Registers} {depth : Nat}
    (hc : Convention s mem regs depth) :
    Inv { s with st := { s.st with mem, regs }, depth } where
  returns := h.returns
  pending := h.pending
  masks := h.masks
  esp hne := by
    obtain ⟨f, hf⟩ := exists_mem_of_ne_nil _ hne
    exact (hc f hf).2.1
  below f hf := ⟨(h.below f hf).1, (hc f hf).1⟩
  order := h.order
  interrupted := h.interrupted
  saved f hf := (loadRegisters_congr (hc f hf).2.2).trans (h.saved f hf)

theorem Inv.arrive (h : Inv s) {cancelled : List Nat}
    (hm : t.sigMask = s.st.task.sigMask)
    (hp : ∀ i, has t.sigPending i = (decide (i = sig) || (s.pending i && decide (i ∉ cancelled))))
    (hsig : sig ∉ cancelled) : Inv (s.arrive t sig cancelled) := by
  refine h.fields hm fun i => ?_
  have hi := h.pending i
  rw [hp i]
  by_cases hs : i = sig
  · subst hs
    cases hpi : s.pending i <;> simp [hsig, hpi] at hi ⊢ <;> omega
  · by_cases hc : i ∈ cancelled
    · cases hpi : s.pending i <;> simp [hs, hc, hpi] at hi ⊢ <;> omega
    · cases hpi : s.pending i <;> simp [hs, hc, hpi] at hi ⊢ <;> omega

theorem has_sigBit (h : sig < nsig) (i : Nat) : has (sigBit sig) i = decide (i = sig) := has_bit h

theorem signalSend_spec {t' : Task} (h : signalSend t sig = some t') :
    t'.sigMask = t.sigMask ∧ sig ∉ cancels sig ∧ ∀ i, has t'.sigPending i =
      (decide (i = sig) || (has t.sigPending i && decide (i ∉ cancels sig))) := by
  unfold signalSend at h
  split at h
  · cases h
  have hlt : sig < nsig := by
    omega
  have hstop := has_sigBit (show sigStop < nsig by decide)
  have htstp := has_sigBit (show sigTstp < nsig by decide)
  have hcont := has_sigBit (show sigCont < nsig by decide)
  cases h
  by_cases hc : sig = sigCont
  · subst hc
    refine ⟨rfl, by decide, fun i => ?_⟩
    have hne : ¬ (sigCont = sigStop ∨ sigCont = sigTstp) := by decide
    simp only [if_true, if_neg hne, cancels, has_or, has_andNot, hstop, htstp, hcont,
      mem_cons, not_mem_nil, or_false, decide_not, Bool.decide_or]
    exact Bool.or_comm _ _
  · by_cases hs : sig = sigStop ∨ sig = sigTstp
    · have hmem : sig ∉ cancels sig := by
        unfold cancels
        rw [if_neg hc, if_pos hs]
        simpa using hc
      refine ⟨?_, hmem, fun i => ?_⟩
      · simp only [if_neg hc, if_pos hs]
      · simp only [if_neg hc, if_pos hs, cancels, has_or, has_andNot, hcont, has_sigBit hlt,
          mem_cons, not_mem_nil, or_false, decide_not]
        exact Bool.or_comm _ _
    · refine ⟨?_, ?_, fun i => ?_⟩
      · simp only [if_neg hc, if_neg hs]
      · simp [cancels, if_neg hc, if_neg hs]
      · simp only [if_neg hc, if_neg hs, cancels, has_or, has_sigBit hlt, not_mem_nil,
          not_false_eq_true, decide_true, Bool.and_true]
        exact Bool.or_comm _ _

@[simp] theorem atTail_task (s : St) (eax : Option UInt32) : (atTail s eax).task = s.task := by
  cases eax <;> rfl

@[simp] theorem atTail_mem (s : St) (eax : Option UInt32) : (atTail s eax).mem = s.mem := by
  cases eax <;> rfl

@[simp] theorem atTail_useresp (s : St) (eax : Option UInt32) :
    (atTail s eax).regs.useresp = s.regs.useresp := by
  cases eax <;> rfl

theorem Inv.delivered (h : Inv s) {st : St} (ht : st.task = s.st.task) (i : Nat) :
    (s.consume st).raised i = (s.consume st).delivered i + (s.consume st).cancelled i +
      ((s.consume st).pending i).toNat := by
  have hi := h.pending i
  have hp := (deliver_spec st).1
  change s.raised i = (s.delivered i + if picked st = some i then 1 else 0) + s.cancelled i +
    (has (signalCheckAndDeliver st).task.sigPending i).toNat
  unfold Sys.pending at hi
  rw [hp]
  cases hpick : picked st with
  | none =>
    rw [ht, if_neg (by simp)]
    exact hi
  | some sig =>
    obtain ⟨-, hlt, hset, -⟩ := picked_spec hpick
    rw [ht] at hset ⊢
    rw [has_andNot, has_bit (show sig < 32 from hlt)]
    by_cases hs : i = sig
    · subst hs
      rw [hset] at hi
      simp only [Bool.toNat_true] at hi
      simp only [if_true, decide_true, Bool.not_true, Bool.and_false, Bool.toNat_false]
      omega
    · have hne : ¬ some sig = some i := fun he => hs (Option.some.inj he).symm
      rw [if_neg hne]
      simpa [hs] using hi

theorem Inv.consume (h : Inv s) (hnone : handled (atTail s.st eax) = none) :
    Inv (s.consume (atTail s.st eax)) := by
  have hd := (deliver_spec (atTail s.st eax)).2
  rw [hnone] at hd
  obtain ⟨hmem, hregs, hmask⟩ := hd
  rw [atTail_task] at hmask
  rw [atTail_mem] at hmem
  exact
    { returns := h.returns
      pending := h.delivered (atTail_task _ _)
      masks := by
        change Masks (signalCheckAndDeliver (atTail s.st eax)).task.sigMask s.stack
        rw [hmask]
        exact h.masks
      esp := fun hne => by
        change (signalCheckAndDeliver (atTail s.st eax)).regs.useresp = _
        rw [hregs, atTail_useresp]
        exact h.esp hne
      below := h.below
      order := h.order
      interrupted := h.interrupted
      saved := fun f hf => by
        change loadRegisters (signalCheckAndDeliver (atTail s.st eax)).mem _ = _
        rw [hmem]
        exact h.saved f hf }

theorem Inv.start (h : Inv s) : s.st.regs.useresp =
    (if s.stack.isEmpty then s.st.regs.useresp else s.base) - UInt32.ofNat s.from := by
  unfold Sys.from
  cases hs : s.stack with
  | nil => exact (UInt32.sub_zero _).symm
  | cons f rest => exact h.esp (by rw [hs]; simp)

theorem Inv.push (h : Inv s) (hsig : handled (atTail s.st eax) = some sig)
    (hfit : s.from + 72 ≤ 2 ^ 32) : Inv
      { s.consume (atTail s.st eax) with
        base := if s.stack.isEmpty then s.st.regs.useresp else s.base
        depth := s.from + 72
        stack := ⟨sig, s.from + 64, (atTail s.st eax).regs, s.st.task.sigMask⟩ :: s.stack } := by
  have hd := (deliver_spec (atTail s.st eax)).2
  rw [hsig] at hd
  obtain ⟨t, hmask, hd⟩ := hd
  rw [atTail_task] at hmask
  obtain ⟨hpos, hlt, -, hclear⟩ := picked_spec (handled_picked hsig)
  rw [atTail_task] at hclear
  have hstart := h.start
  obtain ⟨base, hbase⟩ : ∃ base, base =
    if s.stack.isEmpty then s.st.regs.useresp else s.base := ⟨_, rfl⟩
  rw [← hbase] at hstart ⊢
  obtain ⟨d, hdep⟩ : ∃ d, d = s.from := ⟨_, rfl⟩
  rw [← hdep] at hstart hfit ⊢
  -- the frames that were there have the same base and end above the delivery
  have hold : ∀ f ∈ s.stack, base = s.base ∧ 64 ≤ f.depth ∧ f.depth ≤ d := by
    intro f hf
    have hne : s.stack.isEmpty = false := by
      cases hs : s.stack with
      | nil => rw [hs] at hf; cases hf
      | cons g rest => rfl
    rw [hne, if_neg (by simp)] at hbase
    have hfrom : d = s.depth := by
      rw [hdep]
      unfold Sys.from
      rw [hne, if_neg (by simp)]
    rw [hfrom]
    exact ⟨hbase, h.below f hf⟩
  have hctx : base - UInt32.ofNat (d + 64) = s.st.regs.useresp - 64 := by
    rw [hstart, ← sub_sub_ofNat]
    rfl
  exact
    { returns := h.returns
      pending := h.delivered (atTail_task _ _)
      masks := by
        change Masks (signalCheckAndDeliver (atTail s.st eax)).task.sigMask _
        rw [hd]
        refine ⟨hpos, hlt, hclear, ?_, h.masks⟩
        change t.sigMask ||| sigBit sig = _
        rw [hmask]
        rfl
      esp := fun _ => by
        change (signalCheckAndDeliver (atTail s.st eax)).regs.useresp = _
        rw [hd]
        change (atTail s.st eax).regs.useresp - 64 - 8 = _
        rw [atTail_useresp, ← hctx]
        exact sub_sub_ofNat base (d + 64) 8
      below := by
        intro f hf
        rcases mem_cons.1 hf with rfl | hf
        · exact ⟨Nat.le_add_left .., Nat.add_le_add_left (by decide) _⟩
        · exact ⟨(hold f hf).2.1, Nat.le_trans (hold f hf).2.2 (Nat.le_add_right ..)⟩
      order := by
        refine pairwise_cons.2 ⟨fun g hg => ?_, h.order⟩
        exact Nat.add_le_add_right (hold g hg).2.2 _
      interrupted := by
        intro f hf
        rcases mem_cons.1 hf with rfl | hf
        · rw [atTail_useresp, Nat.add_sub_cancel]
          exact hstart
        · rw [(hold f hf).1]
          exact h.interrupted f hf
      saved := by
        intro f hf
        change loadRegisters (signalCheckAndDeliver (atTail s.st eax)).mem
          (base - UInt32.ofNat f.depth) = _
        rw [hd]
        rcases mem_cons.1 hf with rfl | hf
        · rw [hctx, ← atTail_useresp s.st eax]
          exact loadRegisters_pushFrame { atTail s.st eax with task := t } sig _
        · obtain ⟨hb, h64, hle⟩ := hold f hf
          rw [hb] at hstart ⊢
          rw [← h.saved f hf]
          refine loadRegisters_congr fun j hj => ?_
          have hkeep := pushFrame_keeps { atTail s.st eax with task := t } sig (t.sigHandlers sig)
            s.base (d := d) (by rw [← hstart]; exact atTail_useresp _ _) h64 hle hj hfit
          rw [hkeep]
          exact congrFun (atTail_mem s.st eax) _ }

theorem Inv.tail (h : Inv s)
    (hfit : handled (atTail s.st eax) ≠ none → s.from + 72 ≤ 2 ^ 32) : Inv (s.tail eax) := by
  unfold Sys.tail
  split
  · rename_i hnone
    exact h.consume hnone
  · rename_i sig hsig
    exact h.push hsig (hfit (by rw [hsig]; simp))

/-! ## Returning -/

/-- The mask that `SYS_SIGRETURN` leaves is the one the delivery found exactly when the number
below the context is that of the signal. -/
theorem sigreturn_mask_iff (h : Inv s) (hs : s.stack = f :: rest) :
    (signalSigreturn s.st).task.sigMask = f.mask ↔
      s.st.mem.load (s.st.regs.useresp - 4) = UInt32.ofNat f.sig := by
  have hm := h.masks
  rw [hs] at hm
  obtain ⟨hpos, hlt, hclear, hmask, -⟩ := hm
  have hlt : f.sig < 32 := hlt
  have hnum : (UInt32.ofNat f.sig).toNat = f.sig := by
    rw [UInt32.toNat_ofNat', Nat.mod_eq_of_lt (by omega)]
  obtain ⟨n, hn⟩ : ∃ n, n = s.st.mem.load (s.st.regs.useresp - 4) := ⟨_, rfl⟩
  simp only [signalSigreturn, ← hn]
  constructor
  · intro hret
    by_contra hne
    split at hret
    · rename_i hrange
      -- the bit of another signal is cleared
      have hother : n.toNat ≠ f.sig := by
        intro he
        apply hne
        rw [← UInt32.toNat_inj, hnum, he]
      rw [hmask] at hret
      exact or_andNot_bit_ne hlt hrange.2 hclear hother hret
    · rw [hmask] at hret
      exact or_bit_ne hlt hclear hret
  · intro hnumber
    rw [hnumber, hnum, if_pos ⟨hpos, hlt⟩]
    rw [hmask]
    exact or_andNot_bit hlt hclear

theorem Inv.pop (h : Inv s) (hs : s.stack = f :: rest) (hdepth : s.depth = f.depth)
    (hn : s.st.mem.load (s.st.regs.useresp - 4) = UInt32.ofNat f.sig) : Inv (s.pop f rest) := by
  have hmem : f ∈ s.stack := by
    rw [hs]
    exact mem_cons_self
  have hrest : ∀ g ∈ rest, g ∈ s.stack := fun g hg => by
    rw [hs]
    exact mem_cons_of_mem _ hg
  have hesp : s.st.regs.useresp = s.ctx f := by
    rw [h.esp (ne_nil_of_mem hmem), hdepth]
    rfl
  have hregs : (signalSigreturn s.st).regs = f.regs := by
    change loadRegisters s.st.mem s.st.regs.useresp = _
    rw [hesp]
    exact h.saved f hmem
  have hmask := (sigreturn_mask_iff h hs).2 hn
  have hm := h.masks
  have horder := h.order
  rw [hs] at hm horder
  obtain ⟨-, -, -, -, hmasks⟩ := hm
  obtain ⟨habove, horder⟩ := pairwise_cons.1 horder
  have hpend : (signalSigreturn s.st).task.sigPending = s.st.task.sigPending := by
    simp only [signalSigreturn]
    split <;> rfl
  exact
    { returns := fun x hx => by
        rcases mem_cons.1 hx with rfl | hx
        · exact ⟨hregs, hmask⟩
        · exact h.returns x hx
      pending := fun i => by
        change s.raised i = s.delivered i + s.cancelled i +
          (has (signalSigreturn s.st).task.sigPending i).toNat
        rw [hpend]
        exact h.pending i
      masks := by
        change Masks (signalSigreturn s.st).task.sigMask rest
        rw [hmask]
        exact hmasks
      esp := fun _ => by
        change (signalSigreturn s.st).regs.useresp = s.base - UInt32.ofNat (f.depth - 64)
        rw [hregs]
        exact h.interrupted f hmem
      below := fun g hg =>
        ⟨(h.below g (hrest g hg)).1, Nat.le_sub_of_add_le (habove g hg)⟩
      order := horder
      interrupted := fun g hg => h.interrupted g (hrest g hg)
      saved := fun g hg => h.saved g (hrest g hg) }

theorem Inv.step (h : Inv s) {l : Lbl} {s' : Sys} (hc : NumberFound s l)
    (hstep : system.step s l s') : Inv s' := by
  cases l with
  | user mem regs depth =>
    obtain ⟨-, hconv, rfl⟩ := hstep
    exact h.user hconv
  | tail eax =>
    obtain ⟨-, hfit, rfl⟩ := hstep
    exact h.tail hfit
  | send sig =>
    obtain ⟨t, hsend, rfl⟩ := hstep
    obtain ⟨hmask, hsig, hpend⟩ := signalSend_spec hsend
    exact h.arrive hmask hpend hsig
  | post sig =>
    obtain ⟨-, hlt, rfl⟩ := hstep
    refine h.arrive rfl (fun i => ?_) not_mem_nil
    rw [has_or, has_sigBit hlt]
    simp [Sys.pending, Bool.or_comm]
  | sigaction sig hd tramp =>
    obtain ⟨prev, t, hinst, rfl⟩ := hstep
    unfold signalInstall at hinst
    split at hinst
    · cases hinst
    split at hinst
    · cases hinst
    cases hinst
    exact h.fields rfl h.pending
  | sigreturn =>
    obtain ⟨-, f, rest, hs, hdepth, rfl⟩ := hstep
    exact h.pop hs hdepth (hc f rest hs)

theorem inv_init (h : system.init s) : Inv s := by
  obtain ⟨hstack, hlog, hcount⟩ := h
  refine ⟨?_, fun i => ?_, ?_, fun hne => absurd hstack hne, ?_, ?_, ?_, ?_⟩
  · rw [hlog]
    exact fun x hx => absurd hx not_mem_nil
  · obtain ⟨hr, hd, hc⟩ := hcount i
    rw [hr, hd, hc, Nat.zero_add]
  all_goals rw [hstack]
  · trivial
  · exact fun f hf => absurd hf not_mem_nil
  · exact List.Pairwise.nil
  · exact fun f hf => absurd hf not_mem_nil
  · exact fun f hf => absurd hf not_mem_nil

end Steps

/-- In every run of a task in which each `SYS_SIGRETURN` finds the number of its
signal in the word below the saved context, however deeply the handlers nest, every return gives
back exactly the registers and the mask that its delivery found, no handler runs inside itself,
and a pending bit is cleared as often as it was raised, by its delivery or by a stop or continue. -/
theorem nested_signals_restore (h : (system.restrict NumberFound).Reachable s) :
    Sound s := by
  have hind : (system.restrict NumberFound).Inductive Inv :=
    { init := fun _ h => inv_init h
      step := fun _ _ _ h hstep => h.step hstep.1 hstep.2 }
  exact (hind.reachable s h).sound

/-! ## Two runs -/

/-- A program with a handler for every signal. -/
def start : Sys where
  st :=
    { mem := fun _ => 0
      task := ⟨true, .ready, 0, 0, fun _ => 0x08049000, 0x08048100⟩
      regs := { freshTask.regs with eax := 7 } }
  base := 0
  depth := 0
  stack := []
  log := []
  raised := fun _ => 0
  delivered := fun _ => 0
  cancelled := fun _ => 0

theorem start_init : system.init start :=
  ⟨rfl, rfl, fun i => ⟨by simp [Sys.pending, start], rfl, rfl⟩⟩

/-- The signal is sent and the task leaves the kernel. -/
def Sys.signalled (s : Sys) (sig : Nat) : Sys :=
  (s.arrive { s.st.task with sigPending := s.st.task.sigPending ||| sigBit sig } sig []).tail none

def Sys.atTrap (s : Sys) (f : Frame) : Sys :=
  { s with st := { s.st with regs := { s.st.regs with useresp := s.ctx f } }, depth := f.depth }

theorem signalled_reachable {sig : Nat}
    (h : (system.restrict C).Reachable s) (hready : s.st.task.state = .ready)
    (hsig : 1 ≤ sig ∧ sig < nsig) (hfit : s.from + 72 ≤ 2 ^ 32) (hpost : C s (.post sig))
    (htail : ∀ s', C s' (.tail none)) : (system.restrict C).Reachable (s.signalled sig) := by
  have h1 : (system.restrict C).Reachable (s.arrive
      { s.st.task with sigPending := s.st.task.sigPending ||| sigBit sig } sig []) :=
    h.step (l := .post sig) ⟨hpost, hsig.1, hsig.2, rfl⟩
  exact h1.step (l := .tail none) ⟨htail _, hready, fun _ => hfit, rfl⟩

theorem atTrap_reachable (f : Frame) (rest : List Frame)
    (h : (system.restrict C).Reachable s) (hready : s.st.task.state = .ready)
    (hs : s.stack = f :: rest) (hrest : ∀ g ∈ rest, g.depth ≤ f.depth)
    (huser : ∀ s' mem regs depth, C s' (.user mem regs depth)) :
    (system.restrict C).Reachable (s.atTrap f) := by
  refine h.step (l := .user s.st.mem { s.st.regs with useresp := s.ctx f } f.depth)
    ⟨huser _ _ _ _, hready, fun g hg => ⟨?_, rfl, fun _ _ => rfl⟩, rfl⟩
  rw [hs] at hg
  rcases mem_cons.1 hg with rfl | hg
  · exact Nat.le_refl _
  · exact hrest g hg

def inHandler : Sys := start.signalled 10

def frameOf (s : Sys) : Frame := s.stack.headD ⟨0, 0, s.st.regs, 0⟩

def behindAdd : Sys := inHandler.atTrap (frameOf inHandler)

theorem behindAdd_reachable (hpost : ∀ s sig, C s (.post sig))
    (htail : ∀ s, C s (.tail none)) (huser : ∀ s mem regs depth, C s (.user mem regs depth)) :
    (system.restrict C).Reachable behindAdd := by
  have h0 : (system.restrict C).Reachable start := .init start_init
  have h1 : (system.restrict C).Reachable inHandler :=
    signalled_reachable h0 rfl (by decide) (by decide) (hpost _ _) htail
  exact atTrap_reachable _ [] h1 (by decide) (by rfl) (by simp) huser

/-- One handler, and back. -/
def back : Sys := behindAdd.pop (frameOf inHandler) []

theorem one_signal_restores : back.log.length = 1 ∧ Sound back := by
  refine ⟨rfl, nested_signals_restore ?_⟩
  have h := behindAdd_reachable (C := NumberFound) (fun _ _ => trivial) (fun _ => trivial)
    fun _ _ _ _ => trivial
  refine h.step (l := .sigreturn) ⟨?_, by decide, frameOf inHandler, [], rfl, rfl, rfl⟩
  intro f rest hs
  have hf : frameOf inHandler = f := (List.cons.inj hs).1
  rw [← hf]
  decide

/-- A second signal arrives between the `add` and the trap of the trampoline. -/
def again : Sys := behindAdd.signalled 12

def againBack : Sys := (again.atTrap (frameOf again)).pop (frameOf again) [frameOf inHandler]

def stuck : Sys := againBack.pop (frameOf inHandler) []

/-- Its context overwrites the number of the first, which stays masked. -/
theorem trampoline_interrupted : ¬ ∀ s, system.Reachable s → Sound s := by
  intro hall
  have h1 : (system.restrict fun _ _ => True).Reachable behindAdd :=
    behindAdd_reachable (fun _ _ => trivial) (fun _ => trivial) fun _ _ _ _ => trivial
  have h2 : (system.restrict fun _ _ => True).Reachable again :=
    signalled_reachable h1 (by decide) (by decide) (by decide) trivial fun _ => trivial
  have h3 := atTrap_reachable (frameOf again) [frameOf inHandler] h2 (by decide)
    rfl (by decide) fun _ _ _ _ => trivial
  have h4 : (system.restrict fun _ _ => True).Reachable againBack :=
    h3.step (l := .sigreturn)
      ⟨trivial, by decide, frameOf again, [frameOf inHandler], rfl, rfl, rfl⟩
  have h5 : (system.restrict fun _ _ => True).Reachable stuck :=
    h4.step (l := .sigreturn) ⟨trivial, by decide, frameOf inHandler, [], rfl, rfl, rfl⟩
  have hsound := hall stuck h5.of_restrict
  have hlog : stuck.log.head? = some ⟨frameOf inHandler, (signalSigreturn againBack.st).regs,
    (signalSigreturn againBack.st).task.sigMask⟩ := rfl
  have hmask := (hsound.returns _ (mem_of_mem_head? hlog)).2
  revert hmask
  decide +kernel

theorem inv_inductive : (system.restrict NumberFound).Inductive Inv where
  init := fun _ h => inv_init h
  step := fun _ _ _ h hstep => h.step hstep.1 hstep.2

end AdventOS.Kernel.SignalNesting
