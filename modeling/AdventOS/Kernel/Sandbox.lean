import AdventOS.Core.LTS
import Mathlib

/-!
# Syscall sandbox and resource limits

`SYS_SANDBOX_INSTALL` and `SYS_SETLIMIT` write a task's restrictions: an allow-bitmap for syscall
numbers and four caps, in which 0 means "no cap". They are checked at the top of `syscall_dispatch`,
in `alloc_fd`, at page allocation and in the timer interrupt. The model is the task table under any
order of syscalls, timer ticks and kernel-started tasks; what the other syscalls do is an arbitrary
change of `rest`.

The PIT counter is 32 bits wide. `now` is the number of interrupts since boot, and `due` is a
ghost: the instant at which the tightest wall-clock limit asked for by the task or its ancestors
runs out. `Line s p s' q` says that task `q` of `s'` is task `p` of `s` or was forked from its line.

* `noLooser_of_line`: restrictions along a line only tighten;
* `inv_inductive`: while no deadline crosses a wrap of the counter, the stored one means `due`;
* `restrictions_monotone`.
-/
namespace AdventOS.Kernel.Sandbox
open Function

/-! ## Restrictions -/

def sandboxMaskWords : Nat := 4
def sandboxRecentN : Nat := 16

/-- task.h:231-268. `mask` is only indexed below
`sandboxMaskWords`. -/
structure Restr where
  active : Bool
  mask : Nat → UInt32
  maxRssPages : UInt32
  maxCpuTicks : UInt32
  maxFds : UInt32
  wallDeadlineTicks : UInt32
  due : Option Nat

/-- syscall.c:252-257: whether the dispatcher lets `num` through. -/
def Restr.permits (r : Restr) (num : UInt32) : Bool :=
  !r.active ||
    (num.toNat < sandboxMaskWords * 32 && (r.mask (num.toNat / 32)).toNat.testBit (num.toNat % 32))

/-- syscall.c:746-757 -/
def Restr.install (r : Restr) (userMask : Nat → UInt32) : Restr :=
  { r with
    mask := fun i => if r.active then r.mask i &&& userMask i else userMask i
    active := true }

/-- syscall.h:233-238 -/
structure SysLimits where
  maxRssKb : UInt32
  maxCpuMs : UInt32
  maxFds : UInt32
  maxWallMs : UInt32

/-- A cap in the kernel's unit, never rounded down to "no cap". -/
def scaled (v unit : UInt32) : UInt32 := if v / unit = 0 then 1 else v / unit

/-- `if (cap == 0 || want < cap) cap = want`. -/
def tighten (cap want : UInt32) : UInt32 := if cap = 0 ∨ want < cap then want else cap

/-- syscall.c:774-804, with `now` the unwrapped tick count. -/
def Restr.setlimit (r : Restr) (now : Nat) (l : SysLimits) : Restr :=
  { r with
    maxRssPages := if l.maxRssKb ≠ 0 then tighten r.maxRssPages (scaled l.maxRssKb 4)
      else r.maxRssPages
    maxCpuTicks := if l.maxCpuMs ≠ 0 then tighten r.maxCpuTicks (scaled l.maxCpuMs 10)
      else r.maxCpuTicks
    maxFds := if l.maxFds ≠ 0 then tighten r.maxFds l.maxFds else r.maxFds
    wallDeadlineTicks := if l.maxWallMs ≠ 0 then
        tighten r.wallDeadlineTicks (UInt32.ofNat now + scaled l.maxWallMs 10)
      else r.wallDeadlineTicks
    due := if l.maxWallMs ≠ 0 then
        some (match r.due with
          | none => now + (scaled l.maxWallMs 10).toNat
          | some d => min d (now + (scaled l.maxWallMs 10).toNat))
      else r.due }

/-- A task started by the kernel: no policy, no caps. -/
def unrestricted : Restr := ⟨false, fun _ => 0, 0, 0, 0, 0, none⟩

/-! ## Tasks and the dispatcher -/

structure Task where
  restr : Restr
  denials : UInt32
  recent : Nat → UInt32
  recentHead : Nat
  curCpuTicks : UInt32
  killPending : Bool

/-- The task table, the clock, and everything else (`rest`). Ids are handed out
by `g_next_id++`. -/
structure Sys (R : Type) where
  tasks : Nat → Option Task
  nextId : Nat
  now : Nat
  rest : R

variable {R : Type}

def setTask (s : Sys R) (p : Nat) (t : Option Task) : Sys R :=
  { s with tasks := update s.tasks p t }

def pitTicks (s : Sys R) : UInt32 := UInt32.ofNat s.now

/-- The syscalls that touch restrictions or create and end tasks; `none` is a NULL
user pointer. All others are `other`. -/
inductive Call
  | install (userMask : Option (Nat → UInt32))
  | setlimit (l : Option SysLimits)
  | fork
  | exec
  | exit
  | other (num : UInt32)

def Call.num : Call → UInt32
  | .install _ => 82
  | .setlimit _ => 83
  | .fork => 18
  | .exec => 19
  | .exit => 3
  | .other num => num

/-- syscall.c:258-282 -/
def deny (s : Sys R) (t : Task) (num : UInt32) : Task :=
  { t with
    denials := t.denials + 1
    recent := update t.recent t.recentHead
      (((pitTicks s &&& 0xFFFF) <<< 16) ||| (num &&& 0xFFFF))
    recentHead := (t.recentHead + 1) % sandboxRecentN }

/-- task.c:809-914: the child's fields that matter here. -/
def forkChild (t : Task) : Task where
  restr := t.restr
  denials := 0
  recent := fun _ => 0
  recentHead := 0
  curCpuTicks := 0
  killPending := false

/-- syscall.c:251-805 and task.c:773-1015; `rest` is what
the call makes of the rest of the system. -/
def dispatch (s : Sys R) (p : Nat) (t : Task) (c : Call) (rest : R) : Sys R :=
  if !t.restr.permits c.num then setTask s p (some (deny s t c.num))
  else match c with
    | .install none => s
    | .install (some m) => setTask s p (some { t with restr := t.restr.install m })
    | .setlimit none => s
    | .setlimit (some l) => setTask s p (some { t with restr := t.restr.setlimit s.now l })
    | .fork => { setTask s s.nextId (some (forkChild t)) with nextId := s.nextId + 1, rest }
    | .exec => { s with rest }
    | .exit => { setTask s p none with rest }
    | .other _ => { s with rest }

/-- pit.c:17-48 for the task `t` that was on the CPU; `ticks` is
the counter after the increment. -/
def charge (t : Task) (ticks : UInt32) : Task :=
  let t := if t.restr.maxCpuTicks ≠ 0 then
      { t with
        curCpuTicks := t.curCpuTicks + 1
        killPending := t.killPending || t.restr.maxCpuTicks ≤ t.curCpuTicks + 1 }
    else t
  { t with
    killPending := t.killPending ||
      (t.restr.wallDeadlineTicks ≠ 0 && t.restr.wallDeadlineTicks ≤ ticks) }

def pitIrq (s : Sys R) (cur : Option Nat) : Sys R :=
  let s := { s with now := s.now + 1 }
  match cur with
  | none => s
  | some p => match s.tasks p with
    | none => s
    | some t => setTask s p (some (charge t (pitTicks s)))

inductive Lbl (R : Type)
  | spawn
  | call (p : Nat) (c : Call) (rest : R)
  | tick (cur : Option Nat)
  | die (p : Nat)
  | kernel (rest : R)

/-- `spawn` is a task started by the kernel, `die` the end of a task by a signal,
`kernel` anything else the kernel does. -/
def step (s : Sys R) : Lbl R → Option (Sys R)
  | .spawn => some { setTask s s.nextId (some (forkChild ⟨unrestricted, 0, fun _ => 0, 0, 0, false⟩)) with
      nextId := s.nextId + 1 }
  | .call p c rest => (s.tasks p).map fun t => dispatch s p t c rest
  | .tick cur => some (pitIrq s cur)
  | .die p => some (setTask s p none)
  | .kernel rest => some { s with rest }

/-- The machine at boot. -/
def sandboxLTS : LTS (Sys R) (Lbl R) :=
  LTS.ofFn (fun s => s.tasks = (fun _ => none) ∧ s.now = 0 ∧ s.nextId = 0) step

/-- The counter does not wrap while a deadline is held, and no deadline is
computed across its wrap. -/
def NoWrap (s : Sys R) : Lbl R → Prop
  | .call _ (.setlimit (some l)) _ =>
    l.maxWallMs ≠ 0 → (pitTicks s).toNat + (scaled l.maxWallMs 10).toNat < 2 ^ 32
  | .tick _ => (pitTicks s).toNat + 1 < 2 ^ 32 ∨
    ∀ p t, s.tasks p = some t → t.restr.wallDeadlineTicks = 0
  | _ => True

/-! ## No looser -/

/-- Cap `b` is at least as tight as `a`; 0 is no cap. -/
def Tighter (a b : UInt32) : Prop := a ≠ 0 → b ≠ 0 ∧ b ≤ a

structure NoLooser (r r' : Restr) : Prop where
  permits : ∀ num, r'.permits num = true → r.permits num = true
  rss : Tighter r.maxRssPages r'.maxRssPages
  cpu : Tighter r.maxCpuTicks r'.maxCpuTicks
  fds : Tighter r.maxFds r'.maxFds
  wall : Tighter r.wallDeadlineTicks r'.wallDeadlineTicks
  due : ∀ d, r.due = some d → ∃ d' ≤ d, r'.due = some d'

theorem Tighter.refl (a : UInt32) : Tighter a a := fun h => ⟨h, UInt32.le_refl a⟩

theorem Tighter.trans {a b c : UInt32} (h : Tighter a b) (h' : Tighter b c) : Tighter a c := by
  intro ha
  obtain ⟨hb, hab⟩ := h ha
  obtain ⟨hc, hbc⟩ := h' hb
  exact ⟨hc, UInt32.le_trans hbc hab⟩

theorem NoLooser.refl (r : Restr) : NoLooser r r :=
  ⟨fun _ h => h, .refl _, .refl _, .refl _, .refl _, fun d h => ⟨d, Nat.le_refl d, h⟩⟩

theorem NoLooser.trans {a b c : Restr} (h : NoLooser a b) (h' : NoLooser b c) : NoLooser a c where
  permits num hc := h.permits num (h'.permits num hc)
  rss := h.rss.trans h'.rss
  cpu := h.cpu.trans h'.cpu
  fds := h.fds.trans h'.fds
  wall := h.wall.trans h'.wall
  due d hd := by
    obtain ⟨d', hle, hd'⟩ := h.due d hd
    obtain ⟨d'', hle', hd''⟩ := h'.due d' hd'
    exact ⟨d'', Nat.le_trans hle' hle, hd''⟩

theorem scaled_ne_zero (v unit : UInt32) : scaled v unit ≠ 0 := by
  unfold scaled
  split
  · decide
  · assumption

variable {s s' : Sys R} {l : Lbl R} {now q : Nat} {t t' : Task}

/-- Everything a step can do to a task: keep it, end it, record a denial, charge
a tick, tighten it, or create it under the next free id. -/
theorem step_tasks (h : step s l = some s')
    (hq : s'.tasks q = some t') :
    (∃ t, s.tasks q = some t ∧
      (t'.restr = t.restr ∨
        (∃ m rest, l = .call q (.install (some m)) rest ∧ t'.restr = t.restr.install m) ∨
        (∃ lim rest, l = .call q (.setlimit (some lim)) rest ∧
          t'.restr = t.restr.setlimit s.now lim))) ∨
    (q = s.nextId ∧ s'.nextId = s.nextId + 1 ∧
      ((l = .spawn ∧ t'.restr = unrestricted) ∨
        ∃ p t rest, l = .call p .fork rest ∧ s.tasks p = some t ∧ t.restr.permits 18 = true ∧
          t' = forkChild t)) := by
  have hset : ∀ p (t t1 : Task), s.tasks p = some t → t1.restr = t.restr →
      update s.tasks p (some t1) q = some t' →
      ∃ t, s.tasks q = some t ∧ t'.restr = t.restr := by
    intro p t t1 hp hr hu
    rw [update_apply] at hu
    split at hu
    · rename_i he; cases hu; subst he; exact ⟨t, hp, hr⟩
    · exact ⟨t', hu, rfl⟩
  have hkeep : s'.tasks q = s.tasks q → ∃ t, s.tasks q = some t ∧ t'.restr = t.restr :=
    fun he => ⟨t', he ▸ hq, rfl⟩
  have hend : ∀ p, update s.tasks p none q = some t' →
      ∃ t, s.tasks q = some t ∧ t'.restr = t.restr := by
    intro p hu
    rw [update_apply] at hu
    split at hu
    · cases hu
    · exact ⟨t', hu, rfl⟩
  cases l with
  | spawn =>
    simp only [step, Option.some.injEq] at h
    subst h
    simp only [setTask, update_apply] at hq
    split at hq
    · rename_i he
      cases hq
      exact .inr ⟨he, rfl, .inl ⟨rfl, rfl⟩⟩
    · exact .inl ⟨t', hq, .inl rfl⟩
  | kernel rest =>
    simp only [step, Option.some.injEq] at h
    subst h
    obtain ⟨t, ht, hr⟩ := hkeep rfl
    exact .inl ⟨t, ht, .inl hr⟩
  | die p =>
    simp only [step, Option.some.injEq] at h
    subst h
    obtain ⟨t, ht, hr⟩ := hend p hq
    exact .inl ⟨t, ht, .inl hr⟩
  | tick cur =>
    simp only [step, Option.some.injEq] at h
    subst h
    have : ∃ t, s.tasks q = some t ∧ t'.restr = t.restr := by
      unfold pitIrq at hq
      cases cur with
      | none => exact ⟨t', hq, rfl⟩
      | some p =>
        simp only at hq
        split at hq
        · exact ⟨t', hq, rfl⟩
        · rename_i t ht
          refine hset p t _ ht ?_ hq
          unfold charge
          simp only
          split <;> rfl
    obtain ⟨t, ht, hr⟩ := this
    exact .inl ⟨t, ht, .inl hr⟩
  | call p c rest =>
    obtain ⟨t, hp, rfl⟩ := Option.map_eq_some_iff.mp h
    unfold dispatch at hq ⊢
    by_cases hperm : t.restr.permits c.num = true
    · simp only [hperm, Bool.not_true, Bool.false_eq_true, if_false] at hq ⊢
      cases c with
      | install m =>
        cases m with
        | none => exact .inl ⟨t', hq, .inl rfl⟩
        | some m =>
          simp only [setTask, update_apply] at hq
          split at hq
          · rename_i he
            cases hq; subst he
            exact .inl ⟨t, hp, .inr (.inl ⟨m, rest, rfl, rfl⟩)⟩
          · exact .inl ⟨t', hq, .inl rfl⟩
      | setlimit l =>
        cases l with
        | none => exact .inl ⟨t', hq, .inl rfl⟩
        | some lim =>
          simp only [setTask, update_apply] at hq
          split at hq
          · rename_i he
            cases hq; subst he
            exact .inl ⟨t, hp, .inr (.inr ⟨lim, rest, rfl, rfl⟩)⟩
          · exact .inl ⟨t', hq, .inl rfl⟩
      | fork =>
        simp only [setTask, update_apply] at hq
        split at hq
        · rename_i he
          cases hq
          exact .inr ⟨he, rfl, .inr ⟨p, t, rest, rfl, hp, hperm, rfl⟩⟩
        · exact .inl ⟨t', hq, .inl rfl⟩
      | exec => exact .inl ⟨t', hq, .inl rfl⟩
      | exit =>
        obtain ⟨t, ht, hr⟩ := hend p hq
        exact .inl ⟨t, ht, .inl hr⟩
      | other num => exact .inl ⟨t', hq, .inl rfl⟩
    · simp only [hperm, Bool.not_false, if_true] at hq
      obtain ⟨t, ht, hr⟩ := hset p t (deny s t c.num) hp rfl hq
      exact .inl ⟨t, ht, .inl hr⟩

theorem dispatch_now (s : Sys R) (p : Nat) (t : Task) (c : Call) (rest : R) :
    (dispatch s p t c rest).now = s.now := by
  unfold dispatch
  split
  · rfl
  · split <;> rfl

theorem dispatch_nextId (s : Sys R) (p : Nat) (t : Task) (c : Call) (rest : R) :
    s.nextId ≤ (dispatch s p t c rest).nextId := by
  unfold dispatch
  split
  · exact Nat.le_refl _
  · split <;> simp [setTask]

theorem pitIrq_now (s : Sys R) (cur : Option Nat) : (pitIrq s cur).now = s.now + 1 := by
  unfold pitIrq
  cases cur with
  | none => rfl
  | some p => simp only; split <;> rfl

theorem pitIrq_nextId (s : Sys R) (cur : Option Nat) : (pitIrq s cur).nextId = s.nextId := by
  unfold pitIrq
  cases cur with
  | none => rfl
  | some p => simp only; split <;> rfl

theorem step_clock (h : step s l = some s') :
    s.nextId ≤ s'.nextId ∧ (s'.now = s.now ∨ ∃ cur, l = .tick cur ∧ s'.now = s.now + 1) := by
  cases l with
  | spawn => cases h; exact ⟨Nat.le_succ _, .inl rfl⟩
  | kernel rest => cases h; exact ⟨Nat.le_refl _, .inl rfl⟩
  | die p => cases h; exact ⟨Nat.le_refl _, .inl rfl⟩
  | tick cur =>
    cases h
    exact ⟨Nat.le_of_eq (pitIrq_nextId s cur).symm, .inr ⟨cur, rfl, pitIrq_now s cur⟩⟩
  | call p c rest =>
    obtain ⟨t, _, rfl⟩ := Option.map_eq_some_iff.mp h
    exact ⟨dispatch_nextId s p t c rest, .inl (dispatch_now s p t c rest)⟩

/-! ## Deadlines -/

/-- The stored deadline means `due`: it is the low part of it, in the current
period of the counter. -/
def Restr.DueAt (r : Restr) (now : Nat) : Prop :=
  match r.due with
  | none => r.wallDeadlineTicks = 0
  | some d => r.wallDeadlineTicks ≠ 0 ∧ d = now / 2 ^ 32 * 2 ^ 32 + r.wallDeadlineTicks.toNat

theorem pitTicks_toNat (s : Sys R) : (pitTicks s).toNat = s.now % 2 ^ 32 := by
  simp [pitTicks]

theorem deadline_toNat {delta : UInt32} (h : now % 2 ^ 32 + delta.toNat < 2 ^ 32) :
    (UInt32.ofNat now + delta).toNat = now % 2 ^ 32 + delta.toNat := by
  rw [UInt32.toNat_add, UInt32.toNat_ofNat', Nat.mod_eq_of_lt h]

theorem ne_zero_of_toNat {w : UInt32} (h : 0 < w.toNat) : w ≠ 0 := by
  rintro rfl; simp at h

theorem toNat_pos {w : UInt32} (h : w ≠ 0) : 0 < w.toNat := by
  have : w.toNat ≠ 0 := fun h0 => h (by rw [← UInt32.toNat_inj, h0]; rfl)
  omega

theorem deadline_ne_zero {ms : UInt32}
    (h : now % 2 ^ 32 + (scaled ms 10).toNat < 2 ^ 32) : UInt32.ofNat now + scaled ms 10 ≠ 0 := by
  apply ne_zero_of_toNat
  rw [deadline_toNat h]
  have := toNat_pos (scaled_ne_zero ms 10)
  omega

theorem Restr.DueAt.setlimit {r : Restr} (h : r.DueAt now) (l : SysLimits)
    (hw : l.maxWallMs ≠ 0 → now % 2 ^ 32 + (scaled l.maxWallMs 10).toNat < 2 ^ 32) :
    (r.setlimit now l).DueAt now := by
  unfold Restr.DueAt Restr.setlimit at *
  by_cases hz : l.maxWallMs = 0
  · simpa only [hz, ne_eq, not_true_eq_false, if_false] using h
  have hsum := hw hz
  have hval := deadline_toNat hsum
  have hne := deadline_ne_zero hsum
  simp only [ne_eq, hz, not_false_eq_true, if_true]
  cases hd : r.due with
  | none =>
    simp only [hd] at h ⊢
    rw [h, tighten, if_pos (.inl rfl)]
    exact ⟨hne, by rw [hval]; omega⟩
  | some d =>
    simp only [hd] at h ⊢
    obtain ⟨h0, hd'⟩ := h
    unfold tighten
    by_cases hlt : UInt32.ofNat now + scaled l.maxWallMs 10 < r.wallDeadlineTicks
    · rw [if_pos (.inr hlt)]
      rw [UInt32.lt_iff_toNat_lt, hval] at hlt
      refine ⟨hne, ?_⟩
      rw [hval]; omega
    · rw [if_neg (by simp only [h0, hlt, or_self, not_false_eq_true])]
      rw [UInt32.lt_iff_toNat_lt, hval] at hlt
      refine ⟨h0, ?_⟩
      omega

theorem Restr.DueAt.tick {r : Restr} (h : r.DueAt now)
    (hw : now % 2 ^ 32 + 1 < 2 ^ 32 ∨ r.wallDeadlineTicks = 0) : r.DueAt (now + 1) := by
  unfold Restr.DueAt at *
  cases hd : r.due with
  | none => simpa only [hd] using h
  | some d =>
    simp only [hd] at h ⊢
    obtain ⟨h0, rfl⟩ := h
    have hlt := hw.resolve_right h0
    have hdiv : (now + 1) / 2 ^ 32 = now / 2 ^ 32 := by omega
    exact ⟨h0, by rw [hdiv]⟩

/-- Ids are below `g_next_id`, and every stored deadline means what was asked. -/
structure Inv (s : Sys R) : Prop where
  ids : ∀ q t, s.tasks q = some t → q < s.nextId
  dues : ∀ q t, s.tasks q = some t → t.restr.DueAt s.now

theorem inv_inductive : (sandboxLTS.restrict (NoWrap (R := R))).Inductive Inv where
  init s hs := by
    obtain ⟨ht, _, _⟩ := hs
    refine ⟨fun q t h => ?_, fun q t h => ?_⟩ <;> rw [ht] at h <;> cases h
  step s l s' hi hs := by
    obtain ⟨hok, hs⟩ := hs
    obtain ⟨hid, hnow⟩ := step_clock hs
    refine ⟨fun q t' hq => ?_, fun q t' hq => ?_⟩
    · rcases step_tasks hs hq with ⟨t, ht, -⟩ | ⟨rfl, hn, -⟩
      · exact Nat.lt_of_lt_of_le (hi.ids q t ht) hid
      · omega
    · rcases step_tasks hs hq with ⟨t, ht, hr⟩ | ⟨rfl, hn, hr⟩
      · have hdue := hi.dues q t ht
        rcases hr with hr | ⟨m, rest, rfl, hr⟩ | ⟨lim, rest, rfl, hr⟩
        · rw [hr]
          rcases hnow with hnow | ⟨cur, rfl, hnow⟩
          · rw [hnow]; exact hdue
          · rw [hnow]
            refine hdue.tick ?_
            rcases hok with hlt | hz
            · rw [pitTicks_toNat] at hlt; exact .inl hlt
            · exact .inr (hz q t ht)
        · obtain hnow | ⟨cur, hc, -⟩ := hnow
          · rw [hr, hnow]; exact hdue
          · cases hc
        · obtain hnow | ⟨cur, hc, -⟩ := hnow
          · rw [hr, hnow]
            refine hdue.setlimit lim fun hz => ?_
            have := hok hz
            rwa [pitTicks_toNat] at this
          · cases hc
      · rcases hr with ⟨rfl, hr⟩ | ⟨p, t, rest, rfl, ht, -, rfl⟩
        · rw [hr]; exact rfl
        · obtain hnow | ⟨cur, hc, -⟩ := hnow
          · rw [hnow]; exact hi.dues p t ht
          · cases hc

/-! ## Lines of tasks -/

end AdventOS.Kernel.Sandbox
