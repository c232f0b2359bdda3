import AdventOS.Core.LTS
import AdventOS.Core.Memory

/-!
# Signal delivery and `SYS_SIGRETURN` (`kernel/signal.c`)

A signal is delivered by pushing the interrupted `struct registers` on the user stack; the
handler's trampoline comes back through `SYS_SIGRETURN`, which copies that structure over the
kernel's own frame. The model is one user task: its address space (`Mem`, all content is the task's
to choose), the signal fields of `struct task`, and the frame the next `iret` loads. The memory is
total: a kernel access to an unmapped page never returns from `signal_sigreturn`.

* `frame_inductive`: in runs whose saved contexts carry user selectors the task never leaves ring 3;
* `sigreturn_user_frame_iff`.
-/
namespace AdventOS.Kernel.Signal

/-! ## Frames -/

/-- isr.h:6-11 -/
@[ext] structure Registers where
  ds : UInt32
  edi : UInt32
  esi : UInt32
  ebp : UInt32
  espOrig : UInt32
  ebx : UInt32
  edx : UInt32
  ecx : UInt32
  eax : UInt32
  intNo : UInt32
  errCode : UInt32
  eip : UInt32
  cs : UInt32
  eflags : UInt32
  useresp : UInt32
  ss : UInt32
  deriving DecidableEq, Repr

def Registers.words (r : Registers) : List UInt32 :=
  [r.ds, r.edi, r.esi, r.ebp, r.espOrig, r.ebx, r.edx, r.ecx, r.eax, r.intNo, r.errCode, r.eip,
    r.cs, r.eflags, r.useresp, r.ss]

/-- `*(struct registers *)a`. -/
def loadRegisters (m : Mem) (a : UInt32) : Registers where
  ds := m.load a
  edi := m.load (a + 4)
  esi := m.load (a + 8)
  ebp := m.load (a + 12)
  espOrig := m.load (a + 16)
  ebx := m.load (a + 20)
  edx := m.load (a + 24)
  ecx := m.load (a + 28)
  eax := m.load (a + 32)
  intNo := m.load (a + 36)
  errCode := m.load (a + 40)
  eip := m.load (a + 44)
  cs := m.load (a + 48)
  eflags := m.load (a + 52)
  useresp := m.load (a + 56)
  ss := m.load (a + 60)

/-- The 16-bit selector that `iret` and `mov %ax, %ds` take from a saved word. -/
def selector (w : UInt32) : UInt32 := w &&& 0xFFFF

def userCode : UInt32 := 0x1B
def userData : UInt32 := 0x23

/-- The part of a frame that decides privilege on `iret`. -/
structure RingThree (r : Registers) : Prop where
  cs : selector r.cs = userCode
  ss : selector r.ss = userData
  iopl : r.eflags &&& 0x3000 = 0
  intf : r.eflags &&& 0x200 = 0x200

/-- A frame for user mode: user selectors with RPL 3, IOPL 0, IF set. -/
structure UserFrame (r : Registers) : Prop extends RingThree r where
  ds : selector r.ds = userData

instance (r : Registers) : Decidable (RingThree r) :=
  decidable_of_iff (selector r.cs = userCode ∧ selector r.ss = userData ∧
      r.eflags &&& 0x3000 = 0 ∧ r.eflags &&& 0x200 = 0x200)
    ⟨fun ⟨a, b, c, d⟩ => ⟨a, b, c, d⟩, fun ⟨a, b, c, d⟩ => ⟨a, b, c, d⟩⟩

instance (r : Registers) : Decidable (UserFrame r) :=
  decidable_of_iff (RingThree r ∧ selector r.ds = userData)
    ⟨fun ⟨a, b⟩ => ⟨a, b⟩, fun ⟨a, b⟩ => ⟨a, b⟩⟩

/-! ## Signal state of a task -/

def nsig : Nat := 32
def sigKill : Nat := 9
def sigChld : Nat := 17
def sigCont : Nat := 18
def sigStop : Nat := 19
def sigTstp : Nat := 20

def sigDfl : UInt32 := 0
def sigIgn : UInt32 := 1

/-- `1u << sig`. -/
def sigBit (sig : Nat) : UInt32 := 1 <<< UInt32.ofNat sig

inductive RunState
  | ready
  | stopped
  | zombie (code : Nat)
  deriving DecidableEq, Repr

/-- The fields of `struct task` that `kernel/signal.c` reads or writes.
`sigHandlers` is only indexed below `nsig`. -/
structure Task where
  isUser : Bool
  state : RunState
  sigPending : UInt32
  sigMask : UInt32
  sigHandlers : Nat → UInt32
  sigTramp : UInt32

inductive Action
  | term
  | ign
  | stop
  | cont
  deriving DecidableEq, Repr

/-- signal.c:27-40 -/
def defaultAction (sig : Nat) : Action :=
  if sig = sigChld then .ign
  else if sig = sigStop ∨ sig = sigTstp then .stop
  else if sig = sigCont then .cont
  else .term

/-- signal.c:42-47 -/
def signalInitTask (t : Task) : Task :=
  { t with sigPending := 0, sigMask := 0, sigTramp := 0, sigHandlers := fun _ => sigDfl }

/-- signal.c:49-59 -/
def signalResetOnExec (t : Task) : Task :=
  { t with
    sigHandlers := fun i => if t.sigHandlers i ≠ sigIgn then sigDfl else t.sigHandlers i
    sigTramp := 0 }

/-- signal.c:61-69 (`none` = -1; the previous handler is the
syscall's result). -/
def signalInstall (t : Task) (sig : Nat) (handler tramp : UInt32) : Option (UInt32 × Task) :=
  if sig < 1 ∨ sig ≥ nsig then none
  else if sig = sigKill ∨ sig = sigStop then none
  else some (t.sigHandlers sig, { t with
      sigHandlers := fun i => if i = sig then handler else t.sigHandlers i
      sigTramp := if tramp ≠ 0 then tramp else t.sigTramp })

/-- signal.c:71-112, from the point where the target task has
been found. -/
def signalSend (t : Task) (sig : Nat) : Option Task :=
  if sig < 1 ∨ sig ≥ nsig then none
  else
    let t :=
      if sig = sigCont then
        { t with
          sigPending := t.sigPending &&& ~~~(sigBit sigStop ||| sigBit sigTstp)
          state := if t.state = .stopped then .ready else t.state }
      else t
    let t :=
      if sig = sigStop ∨ sig = sigTstp then
        { t with sigPending := t.sigPending &&& ~~~sigBit sigCont }
      else t
    some { t with sigPending := t.sigPending ||| sigBit sig }

/-- signal.c:131-138: the lowest-numbered deliverable signal. -/
def pickPending (t : Task) : Option Nat :=
  (List.range' 1 (nsig - 1)).find? fun s =>
    (t.sigPending &&& ~~~t.sigMask) &&& sigBit s ≠ 0

/-! ## Delivery and return -/

/-- A user task as the tail of a syscall or interrupt sees it. -/
structure St where
  mem : Mem
  task : Task
  regs : Registers

/-- The delivery frame: sigcontext, signal number, trampoline address.
signal.c:219-251 -/
def pushFrame (s : St) (sig : Nat) (h : UInt32) : St :=
  let ctx := s.regs.useresp - 64
  { mem := ((s.mem.store ctx s.regs.words).store (ctx - 4) [UInt32.ofNat sig]).store (ctx - 8)
      [s.task.sigTramp]
    task := { s.task with sigMask := s.task.sigMask ||| sigBit sig }
    regs := { s.regs with useresp := ctx - 8, eip := h } }

/-- signal.c:140-252. `ACT_STOP` returns here once the task has
been continued; `ACT_TERM` never returns, the task is a zombie. -/
def signalCheckAndDeliver (s : St) : St :=
  if s.regs.cs &&& 3 ≠ 3 then s
  else if ¬ s.task.isUser then s
  else match pickPending s.task with
    | none => s
    | some sig =>
      let s := { s with task := { s.task with sigPending := s.task.sigPending &&& ~~~sigBit sig } }
      let h := s.task.sigHandlers sig
      if h = sigIgn then s
      else if h = sigDfl then
        match defaultAction sig with
        | .ign => s
        | .cont => s
        | .stop => { s with task := { s.task with state := .stopped } }
        | .term => { s with task := { s.task with state := .zombie (128 + sig) } }
      else if s.task.sigTramp = 0 then s
      else pushFrame s sig h

/-- signal.c:254-279. `delivered_sig` is a signed `int`, so
`0 < delivered_sig < NSIG` is a statement about the word as an unsigned number. -/
def signalSigreturn (s : St) : St :=
  let sp := s.regs.useresp
  let deliveredSig := (s.mem.load (sp - 4)).toNat
  { s with
    regs := loadRegisters s.mem sp
    task := if 0 < deliveredSig ∧ deliveredSig < nsig then
        { s.task with sigMask := s.task.sigMask &&& ~~~sigBit deliveredSig }
      else s.task }

/-! ## Other writers of a task's frame -/

/-- task.c:1004-1012 (with the address space the loader built) -/
def execFrame (s : St) (mem : Mem) (entry esp : UInt32) : St where
  mem := mem
  task := signalResetOnExec s.task
  regs := { s.regs with
    eip := entry, useresp := esp, cs := userCode, ss := userData, ds := userData
    eflags := 0x202, eax := 0 }

/-- syscall.h:579-584 -/
structure PtraceRegs where
  eax : UInt32
  ebx : UInt32
  ecx : UInt32
  edx : UInt32
  esi : UInt32
  edi : UInt32
  ebp : UInt32
  eip : UInt32
  esp : UInt32
  eflags : UInt32

/-- ptrace.c:152-172: the tracer's registers, selectors kept and
EFLAGS masked. -/
def copyRegsIn (r : Registers) (i : PtraceRegs) : Registers :=
  { r with
    eax := i.eax, ebx := i.ebx, ecx := i.ecx, edx := i.edx, esi := i.esi, edi := i.edi
    ebp := i.ebp, eip := i.eip, useresp := i.esp, eflags := (i.eflags &&& 0xED5) ||| 0x200 }

/-! ## Round trip of an untouched context -/

theorem words_length (r : Registers) : r.words.length = 16 := rfl

theorem load_pushFrame (s : St) (sig : Nat) (h : UInt32) (k : Nat) (hk : k < 16) :
    (pushFrame s sig h).mem.load (s.regs.useresp - 64 + UInt32.ofNat (4 * k)) =
      s.regs.words[k] := by
  simp only [pushFrame]
  generalize s.regs.useresp - 64 = ctx
  have hc := UInt32.toNat_lt ctx
  have d0 : (ctx + .ofNat (4 * k) - ctx).toNat = 4 * k := by
    rw [UInt32.toNat_sub, UInt32.toNat_add, UInt32.toNat_ofNat']; omega
  have d4 : (ctx + .ofNat (4 * k) - (ctx - 4)).toNat = 4 * k + 4 := by
    rw [UInt32.toNat_sub, UInt32.toNat_add, UInt32.toNat_sub, UInt32.toNat_ofNat']
    simp only [UInt32.reduceToNat]; omega
  have d8 : (ctx + .ofNat (4 * k) - (ctx - 8)).toNat = 4 * k + 8 := by
    rw [UInt32.toNat_sub, UInt32.toNat_add, UInt32.toNat_sub, UInt32.toNat_ofNat']
    simp only [UInt32.reduceToNat]; omega
  rw [Mem.load_store_sep (by rw [d8]; simp only [List.length_cons, List.length_nil]; omega)
      (by rw [d8]; omega),
    Mem.load_store_sep (by rw [d4]; simp only [List.length_cons, List.length_nil]; omega)
      (by rw [d4]; omega)]
  exact Mem.load_store_self (by rw [words_length]; exact hk) (by rw [words_length]; decide) d0

theorem loadRegisters_pushFrame (s : St) (sig : Nat) (h : UInt32) :
    loadRegisters (pushFrame s sig h).mem (s.regs.useresp - 64) = s.regs := by
  have hw := load_pushFrame s sig h
  have h0 : (pushFrame s sig h).mem.load (s.regs.useresp - 64) = s.regs.ds := by
    have := hw 0 (by decide)
    rwa [show UInt32.ofNat (4 * 0) = 0 from rfl, UInt32.add_zero] at this
  apply Registers.ext
  exacts [h0, hw 1 (by decide), hw 2 (by decide), hw 3 (by decide), hw 4 (by decide),
    hw 5 (by decide), hw 6 (by decide), hw 7 (by decide), hw 8 (by decide), hw 9 (by decide),
    hw 10 (by decide), hw 11 (by decide), hw 12 (by decide), hw 13 (by decide),
    hw 14 (by decide), hw 15 (by decide)]

/-! ## The task as a transition system -/

inductive Lbl
  | user (mem : Mem) (regs : Registers)
  | tail (eax : Option UInt32)
  | send (sig : Nat)
  | sigaction (sig : Nat) (handler tramp : UInt32)
  | sigreturn
  | exec (mem : Mem) (entry esp : UInt32)
  | fork
  | setregs (i : PtraceRegs)
  | singleStep

/-- What the processor lets code running from frame `r` do to the next saved
frame `r'`: at CPL 3 with IOPL 0, `CS` and `SS` can only be reloaded with the
same selectors and `popf`/`iret` leave IOPL and IF alone. Code in ring 0 may do
anything. -/
def CpuMay (r r' : Registers) : Prop :=
  r.cs &&& 3 = 3 → r.eflags &&& 0x3000 = 0 →
    selector r'.cs = selector r.cs ∧ selector r'.ss = selector r.ss ∧
    r'.eflags &&& 0x3000 = r.eflags &&& 0x3000 ∧ r'.eflags &&& 0x200 = r.eflags &&& 0x200

/-- One task from `exec` on. The steps are the task's own execution up to the
next trap, the tail of a syscall (`some` result) or interrupt (`none`), and the
calls that rewrite the frame or the signal fields; `fork` continues in the child,
which starts from the parent's frame with `eax = 0`. -/
def taskLTS : LTS St Lbl where
  init s := s.task.isUser = true ∧ s.task.state = .ready ∧
    ∃ s₀ mem entry esp, s.regs = (execFrame s₀ mem entry esp).regs
  step s l s' := match l with
    | .user mem regs => s.task.state = .ready ∧ CpuMay s.regs regs ∧ s' = { s with mem, regs }
    | .tail none => s' = signalCheckAndDeliver s
    | .tail (some eax) => s' = signalCheckAndDeliver { s with regs := { s.regs with eax } }
    | .send sig => ∃ t, signalSend s.task sig = some t ∧ s' = { s with task := t }
    | .sigaction sig h tramp =>
      ∃ prev t, signalInstall s.task sig h tramp = some (prev, t) ∧ s' = { s with task := t }
    | .sigreturn => s.task.state = .ready ∧ s' = signalSigreturn s
    | .exec mem entry esp => s.task.state = .ready ∧ s' = execFrame s mem entry esp
    | .fork => s' = { s with
        task := { s.task with sigPending := 0 }, regs := { s.regs with eax := 0 } }
    | .setregs i => s' = { s with regs := copyRegsIn s.regs i }
    | .singleStep => s' = { s with regs := { s.regs with eflags := s.regs.eflags ||| 0x100 } }

/-- The saved context at `sp` has the user selectors, IOPL 0 and IF set. -/
def SavedUserContext (m : Mem) (sp : UInt32) : Prop :=
  selector (m.load sp) = userData ∧ selector (m.load (sp + 48)) = userCode ∧
  m.load (sp + 52) &&& 0x3000 = 0 ∧ m.load (sp + 52) &&& 0x200 = 0x200 ∧
  selector (m.load (sp + 60)) = userData

/-- Every `SYS_SIGRETURN` of the run finds such a context at the stack pointer. -/
def SigreturnOk (s : St) : Lbl → Prop
  | .sigreturn => SavedUserContext s.mem s.regs.useresp
  | _ => True

/-! ### Steps keep the frame in ring 3 -/

variable {r : Registers}

theorem RingThree.cpl (h : RingThree r) : r.cs &&& 3 = 3 := by
  have hm : (0xFFFF : UInt32) &&& 3 = 3 := by decide
  have hc : selector r.cs &&& 3 = 3 := by rw [h.cs]; decide
  rwa [selector, UInt32.and_assoc, hm] at hc

theorem RingThree.congr {r' : Registers} (h : RingThree r) (hcs : r'.cs = r.cs)
    (hss : r'.ss = r.ss) (hfl : r'.eflags = r.eflags) : RingThree r' :=
  ⟨hcs ▸ h.cs, hss ▸ h.ss, hfl ▸ h.iopl, hfl ▸ h.intf⟩

theorem RingThree.cpuMay {r' : Registers} (h : RingThree r) (hc : CpuMay r r') : RingThree r' := by
  obtain ⟨h1, h2, h3, h4⟩ := hc h.cpl h.iopl
  exact ⟨h1.trans h.cs, h2.trans h.ss, h3.trans h.iopl, h4.trans h.intf⟩

theorem deliver_frame (s : St) :
    (signalCheckAndDeliver s).regs.cs = s.regs.cs ∧ (signalCheckAndDeliver s).regs.ss = s.regs.ss ∧
    (signalCheckAndDeliver s).regs.eflags = s.regs.eflags := by
  unfold signalCheckAndDeliver
  split
  · exact ⟨rfl, rfl, rfl⟩
  split
  · exact ⟨rfl, rfl, rfl⟩
  split
  · exact ⟨rfl, rfl, rfl⟩
  simp only
  split
  · exact ⟨rfl, rfl, rfl⟩
  split
  · split <;> exact ⟨rfl, rfl, rfl⟩
  split <;> exact ⟨rfl, rfl, rfl⟩

theorem RingThree.deliver {s : St} (h : RingThree s.regs) :
    RingThree (signalCheckAndDeliver s).regs := by
  obtain ⟨hcs, hss, hfl⟩ := deliver_frame s
  exact h.congr hcs hss hfl

theorem RingThree.exec (s : St) (mem : Mem) (entry esp : UInt32) :
    RingThree (execFrame s mem entry esp).regs := by
  refine ⟨?_, ?_, ?_, ?_⟩ <;> simp only [execFrame] <;> decide

theorem word_or_and (x y z : UInt32) : (x ||| y) &&& z = (x &&& z) ||| (y &&& z) := by
  rw [← UInt32.toBitVec_inj]
  exact BitVec.and_or_distrib_right

theorem word_or_and_self (x y : UInt32) : (x ||| y) &&& y = y := by
  rw [← UInt32.toBitVec_inj]
  refine BitVec.eq_of_getElem_eq fun i hi => ?_
  simp only [UInt32.toBitVec_and, UInt32.toBitVec_or, BitVec.getElem_and, BitVec.getElem_or]
  cases y.toBitVec[i] <;> simp

theorem RingThree.copyRegsIn (h : RingThree r) (i : PtraceRegs) : RingThree (copyRegsIn r i) := by
  refine ⟨h.cs, h.ss, ?_, word_or_and_self _ _⟩
  simp only [Signal.copyRegsIn]
  rw [word_or_and, UInt32.and_assoc, show (0xED5 : UInt32) &&& 0x3000 = 0 from by decide,
    UInt32.and_zero, UInt32.zero_or]
  decide

theorem RingThree.singleStep (h : RingThree r) :
    RingThree { r with eflags := r.eflags ||| 0x100 } := by
  refine ⟨h.cs, h.ss, ?_, ?_⟩ <;> simp only <;> rw [word_or_and]
  · rw [h.iopl]; decide
  · rw [h.intf]; decide

theorem sigreturn_userFrame (s : St) :
    UserFrame (signalSigreturn s).regs ↔ SavedUserContext s.mem s.regs.useresp := by
  constructor
  · rintro ⟨⟨hcs, hss, hio, hif⟩, hds⟩
    exact ⟨hds, hcs, hio, hif, hss⟩
  · rintro ⟨hds, hcs, hio, hif, hss⟩
    exact ⟨⟨hcs, hss, hio, hif⟩, hds⟩

theorem frame_inductive : (taskLTS.restrict SigreturnOk).Inductive fun s => RingThree s.regs where
  init s := by
    rintro ⟨_, _, s₀, mem, entry, esp, he⟩
    rw [he]
    exact RingThree.exec s₀ mem entry esp
  step s l s' h := by
    rintro ⟨hok, hs⟩
    cases l with
    | user mem regs =>
      obtain ⟨_, hc, rfl⟩ := hs
      exact h.cpuMay hc
    | tail eax =>
      cases eax with
      | none => subst hs; exact h.deliver
      | some e =>
        subst hs
        exact RingThree.deliver (h.congr rfl rfl rfl)
    | send sig =>
      obtain ⟨t, _, rfl⟩ := hs
      exact h
    | sigaction sig hd tramp =>
      obtain ⟨_, t, _, rfl⟩ := hs
      exact h
    | sigreturn =>
      obtain ⟨_, rfl⟩ := hs
      exact ((sigreturn_userFrame s).mpr hok).toRingThree
    | exec mem entry esp =>
      obtain ⟨_, rfl⟩ := hs
      exact RingThree.exec s mem entry esp
    | fork => subst hs; exact h.congr rfl rfl rfl
    | setregs i => subst hs; exact h.copyRegsIn i
    | singleStep => subst hs; exact h.singleStep

/-- **`SYS_SIGRETURN` and privilege.** In a run whose earlier saved contexts were
user contexts the frame is in ring 3 up to this call, and for every content of
the user memory the frame the call leaves is a user frame exactly when the words
it finds at the stack pointer are those of one. -/
theorem sigreturn_user_frame_iff (s s' : St) (mem : Mem)
    (hr : (taskLTS.restrict SigreturnOk).Reachable s)
    (hs : taskLTS.step { s with mem } .sigreturn s') :
    RingThree s.regs ∧ (UserFrame s'.regs ↔ SavedUserContext mem s.regs.useresp) := by
  refine ⟨frame_inductive.reachable s hr, ?_⟩
  obtain ⟨_, rfl⟩ := hs
  exact sigreturn_userFrame { s with mem }

/-! ## A fresh program, with an honest and with a forged context -/

def idleTask : Task := ⟨true, .ready, 0, 0, fun _ => sigDfl, 0⟩

def zeroFrame : Registers := ⟨0, 0, 0, 0, 0, 0, 0, 0, 0, 0, 0, 0, 0, 0, 0, 0⟩

def freshTask : St :=
  { execFrame ⟨fun _ => 0, idleTask, zeroFrame⟩ (fun _ => 0) 0x08048000 0xBFFFF000 with
    task := idleTask }

theorem freshTask_init : taskLTS.init freshTask := ⟨rfl, rfl, _, _, _, _, rfl⟩

/-- A stack that holds a copy of the program's own frame. -/
def honestMem : Mem := freshTask.mem.store freshTask.regs.useresp freshTask.regs.words

theorem sigreturn_honest_context : SavedUserContext honestMem freshTask.regs.useresp ∧
    UserFrame (signalSigreturn { freshTask with mem := honestMem }).regs := by
  have hc : SavedUserContext honestMem freshTask.regs.useresp := by
    unfold SavedUserContext; decide
  refine ⟨hc, ?_⟩
  exact (sigreturn_user_frame_iff freshTask _ honestMem (.init freshTask_init) ⟨rfl, rfl⟩).2.mpr hc

/-- The saved context the program writes at its stack pointer: kernel code and
data selectors, IOPL 3, interrupts off. -/
def forged : Registers :=
  { zeroFrame with ds := 0x10, cs := 0x08, ss := 0x10, eflags := 0x3002, eip := 0x08048000 }

def forgedTask : St :=
  { freshTask with mem := freshTask.mem.store freshTask.regs.useresp forged.words }

theorem forgedTask_step : taskLTS.step freshTask (.user forgedTask.mem freshTask.regs) forgedTask :=
  ⟨rfl, fun _ _ => ⟨rfl, rfl, rfl, rfl⟩, rfl⟩

/-- The program never received a signal; it calls `SYS_SIGRETURN` and the frame
for its return to user mode selects ring 0. -/
theorem sigreturn_leaves_ring_zero :
    ¬ (∀ s s', taskLTS.Reachable s → taskLTS.step s .sigreturn s' → UserFrame s'.regs) ∧
    taskLTS.Reachable forgedTask ∧ (signalSigreturn forgedTask).regs = forged := by
  have hreach : taskLTS.Reachable forgedTask := .step (.init freshTask_init) forgedTask_step
  have hregs : (signalSigreturn forgedTask).regs = forged := by decide
  refine ⟨fun h => ?_, hreach, hregs⟩
  have hu := h forgedTask (signalSigreturn forgedTask) hreach ⟨rfl, rfl⟩
  rw [hregs] at hu
  exact absurd hu (by decide)

end AdventOS.Kernel.Signal
