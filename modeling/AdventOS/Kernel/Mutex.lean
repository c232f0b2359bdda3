import AdventOS.Core.LTS
import AdventOS.Core.LinkQueue

/-!
# Sleeping mutexes (`kernel/mutex.c`)

Any number of tasks and mutexes. A step is one section with interrupts off: a call of
`mutex_try_lock` or `mutex_unlock`, a call of `mutex_lock` up to its return or to `schedule()`,
or the return of a `mutex_lock` whose task was made ready. The waiters are linked through the
tasks' single `wait_next`.

`believes` says who has returned from a successful lock and not unlocked since; `queued` and
`granted` are the tasks that went to sleep on a mutex and those that it was handed to, in the
order in which that happened.

* `Inv.tryLock`, `Inv.lock`, `Inv.unlock`, `Inv.resume`: what each step keeps;
* `mutex_sound`: one believer at most, who is the holder; waiters are served in order; a blocked
  task is on one wait list; a free mutex has none.
-/
namespace AdventOS.Kernel.Mutex
open LinkQueue Function List

inductive TaskState
  | ready
  | blocked
  deriving DecidableEq, Repr

/-- mutex.h:16-21 -/
structure MutexObj (T : Type) where
  locked : Bool
  holder : Option T
  waitersHead : Option T
  waitersTail : Option T

/-- mutex.c:4-9 -/
def mutexInit (T : Type) : MutexObj T := ⟨false, none, none, none⟩

/-- The mutexes, the tasks' `wait_next` and state, and for each task the mutex whose
`mutex_lock` has called `schedule()` and not returned. -/
structure Sys (T M : Type) where
  mutexes : M → MutexObj T
  waitNext : T → Option T
  state : T → TaskState
  inLock : T → Option M
  believes : T → M → Bool
  queued : M → List T
  granted : M → List T

variable {T M : Type} [DecidableEq T] [DecidableEq M]

def Sys.setMutex (s : Sys T M) (m : M) (o : MutexObj T) : Sys T M :=
  { s with mutexes := update s.mutexes m o }

def Sys.setBelieves (s : Sys T M) (t : T) (m : M) (b : Bool) : Sys T M :=
  { s with believes := update s.believes t (update (s.believes t) m b) }

/-- mutex.c:11-21, called by `t`. -/
def mutexTryLock (s : Sys T M) (t : T) (m : M) : Sys T M × Int :=
  if (s.mutexes m).locked = false then
    ((s.setMutex m { s.mutexes m with locked := true, holder := some t }).setBelieves t m true, 1)
  else (s, 0)

/-- mutex.c:23-50, called by `t`, up to the return or to `schedule()`. -/
def mutexLock (s : Sys T M) (t : T) (m : M) : Sys T M :=
  if (s.mutexes m).locked = false then
    (s.setMutex m { s.mutexes m with locked := true, holder := some t }).setBelieves t m true
  else
    let o := s.mutexes m
    { s.setMutex m { o with
        waitersHead := pushHead o.waitersHead o.waitersTail t
        waitersTail := some t } with
      waitNext := pushNext s.waitNext o.waitersTail t
      state := update s.state t .blocked
      inLock := update s.inLock t (some m)
      queued := update s.queued m (s.queued m ++ [t]) }

/-- mutex.c:52-69, called by `t`. -/
def mutexUnlock (s : Sys T M) (t : T) (m : M) : Sys T M :=
  let o := s.mutexes m
  let s := s.setBelieves t m false
  match o.waitersHead with
  | some w =>
    { s.setMutex m { o with
        waitersHead := s.waitNext w
        waitersTail := popTail (s.waitNext w) o.waitersTail
        holder := some w } with
      waitNext := update s.waitNext w none
      state := update s.state w .ready
      granted := update s.granted m (s.granted m ++ [w]) }
  | none => s.setMutex m { o with locked := false, holder := none }

/-- The return of `mutex_lock` after `schedule()`. mutex.c:46-49 -/
def lockReturns (s : Sys T M) (t : T) (m : M) : Sys T M :=
  { s.setBelieves t m true with inLock := update s.inLock t none }

inductive Step (T M : Type)
  | lock (t : T) (m : M)
  | tryLock (t : T) (m : M)
  | unlock (t : T) (m : M)
  | resume (t : T)

/-- The task runs, and not inside `mutex_lock`. -/
def Free (s : Sys T M) (t : T) : Prop := s.state t = .ready ∧ s.inLock t = none

instance (s : Sys T M) (t : T) : Decidable (Free s t) := by
  unfold Free
  infer_instance

def Sys.step (s : Sys T M) : Step T M → Option (Sys T M)
  | .lock t m => if Free s t then some (mutexLock s t m) else none
  | .tryLock t m => if Free s t then some (mutexTryLock s t m).1 else none
  | .unlock t m => if Free s t ∧ s.believes t m = true then some (mutexUnlock s t m) else none
  | .resume t =>
    match s.inLock t with
    | none => none
    | some m => if s.state t = .ready then some (lockReturns s t m) else none

/-- Every mutex is fresh and every task runs. -/
def boot : Sys T M where
  mutexes _ := mutexInit T
  waitNext _ := none
  state _ := .ready
  inLock _ := none
  believes _ _ := false
  queued _ := []
  granted _ := []

def mutexLTS (T M : Type) [DecidableEq T] [DecidableEq M] : LTS (Sys T M) (Step T M) :=
  LTS.ofFn (· = boot) Sys.step

section Fields
variable (s : Sys T M) (t t' : T) (m m' : M) (o : MutexObj T) (b : Bool)

omit [DecidableEq T] in
@[simp] theorem setMutex_self : (s.setMutex m o).mutexes m = o := update_self ..

omit [DecidableEq T] in
theorem setMutex_of_ne (h : m' ≠ m) : (s.setMutex m o).mutexes m' = s.mutexes m' :=
  update_of_ne h _ _

omit [DecidableEq T] in
/-- What holds of the new object and of the others holds of each. -/
theorem setMutex_at (P : M → MutexObj T → Prop) {s : Sys T M} {m : M} {o : MutexObj T} (hself : P m o)
    (hother : ∀ m', m' ≠ m → P m' (s.mutexes m')) (m' : M) : P m' ((s.setMutex m o).mutexes m') := by
  by_cases hm : m' = m
  · rw [hm, setMutex_self]
    exact hself
  · rw [setMutex_of_ne _ _ _ _ hm]
    exact hother m' hm

theorem setBelieves_apply : (s.setBelieves t m b).believes t' m' =
    if t' = t ∧ m' = m then b else s.believes t' m' := by
  unfold Sys.setBelieves
  dsimp only
  by_cases ht : t' = t
  · rw [ht, update_self]
    by_cases hm : m' = m
    · rw [hm, update_self, if_pos ⟨rfl, rfl⟩]
    · rw [update_of_ne hm, if_neg fun h => hm h.2]
  · rw [update_of_ne ht, if_neg fun h => ht h.1]

end Fields

/-! ## The invariant -/

/-- `W m` are the waiters of `m`. -/
structure Inv (s : Sys T M) (W : M → List T) : Prop where
  queue : ∀ m, LinkQueue s.waitNext (s.mutexes m).waitersHead (s.mutexes m).waitersTail (W m)
  free : ∀ m, (s.mutexes m).locked = false → W m = []
  believer : ∀ t m, s.believes t m = true → (s.mutexes m).locked = true ∧
    (s.mutexes m).holder = some t
  waiting : ∀ t m, t ∈ W m ↔ s.inLock t = some m ∧ s.state t = .blocked
  blocked : ∀ t, s.state t = .blocked → ∃ m, s.inLock t = some m
  woken : ∀ t m, s.inLock t = some m → s.state t = .ready →
    (s.mutexes m).locked = true ∧ (s.mutexes m).holder = some t ∧ s.believes t m = false
  fifo : ∀ m, s.queued m = s.granted m ++ W m

section Steps
variable {s : Sys T M} {W : M → List T} {t : T} {m : M}

omit [DecidableEq T] [DecidableEq M] in
theorem boot_inv : Inv (boot : Sys T M) fun _ => [] := by
  refine ⟨fun m => LinkQueue.empty _, fun m _ => rfl, ?_, ?_, ?_, ?_, fun m => rfl⟩
  · intro t m hb
    cases hb
  · intro t m
    simp [boot]
  · intro t hb
    cases hb
  · intro t m hl
    cases hl

omit [DecidableEq T] [DecidableEq M] in
theorem Inv.no_believer (h : Inv s W) (hl : (s.mutexes m).locked = false) (t : T) :
    s.believes t m = false := by
  by_contra hb
  rw [(h.believer t m (by simpa using hb)).1] at hl
  cases hl

theorem Inv.take (h : Inv s W) (hl : (s.mutexes m).locked = false) :
    Inv ((s.setMutex m { s.mutexes m with locked := true, holder := some t }).setBelieves t m true)
      W := by
  refine ⟨setMutex_at (fun m' o => LinkQueue s.waitNext o.waitersHead o.waitersTail (W m'))
      (h.queue m) fun m' _ => h.queue m',
    setMutex_at (fun m' o => o.locked = false → W m' = []) (fun hf => by cases hf) fun m' _ =>
      h.free m',
    fun t' m' hb => ?_, h.waiting, h.blocked, fun t' m' hin hst => ?_, h.fifo⟩
  · rw [setBelieves_apply] at hb
    refine setMutex_at (fun m' o => (if t' = t ∧ m' = m then true else s.believes t' m') = true →
      o.locked = true ∧ o.holder = some t') (fun hb => ⟨rfl, ?_⟩) (fun m' hm hb => ?_) m' hb
    · split at hb
      · rename_i heq
        rw [heq.1]
      · rw [h.no_believer hl] at hb
        cases hb
    · rw [if_neg fun heq => hm heq.2] at hb
      exact h.believer t' m' hb
  · obtain ⟨h1, h2, h3⟩ := h.woken t' m' hin hst
    have hm : m' ≠ m := by
      intro heq
      rw [heq, hl] at h1
      cases h1
    rw [setBelieves_apply, if_neg fun h => hm h.2]
    change (update s.mutexes m _ m').locked = true ∧ (update s.mutexes m _ m').holder = some t' ∧ _
    rw [update_of_ne hm]
    exact ⟨h1, h2, h3⟩

theorem Inv.tryLock (h : Inv s W) : Inv (mutexTryLock s t m).1 W := by
  unfold mutexTryLock
  split
  · rename_i hl
    exact h.take hl
  · exact h

omit [DecidableEq T] [DecidableEq M] in
theorem Inv.not_waiting (h : Inv s W) (hf : Free s t) (m : M) : t ∉ W m := by
  intro hm
  have hb := ((h.waiting t m).1 hm).2
  rw [hf.1] at hb
  cases hb

omit [DecidableEq M] in
theorem Inv.queue_push (h : Inv s W) (hf : Free s t) {m' : M} (hm : m' ≠ m) :
    LinkQueue (pushNext s.waitNext (s.mutexes m).waitersTail t) (s.mutexes m').waitersHead
      (s.mutexes m').waitersTail (W m') := by
  refine (h.queue m').congr fun x hx => pushNext_of_ne ?_ ?_
  · intro heq
    exact h.not_waiting hf m' (heq ▸ hx)
  · intro heq
    rw [(h.queue m).tail] at heq
    have hin := ((h.waiting x m).1 (mem_of_getLast? heq)).1
    have hin' := ((h.waiting x m').1 hx).1
    rw [hin] at hin'
    exact hm (Option.some.inj hin').symm

theorem Inv.lock (h : Inv s W) (hf : Free s t) : ∃ W', Inv (mutexLock s t m) W' := by
  unfold mutexLock
  split
  · rename_i hl
    exact ⟨W, h.take hl⟩
  rename_i hl
  have hl : (s.mutexes m).locked = true := by simpa using hl
  refine ⟨update W m (W m ++ [t]),
    setMutex_at (fun m' o => LinkQueue (pushNext s.waitNext (s.mutexes m).waitersTail t)
      o.waitersHead o.waitersTail (update W m (W m ++ [t]) m')) ?_ fun m' hm => ?_,
    setMutex_at (fun m' o => o.locked = false → update W m (W m ++ [t]) m' = []) (fun hfree => ?_)
      fun m' hm => ?_,
    fun t' m' hb => ?_, fun t' m' => ?_, fun t' hb => ?_, fun t' m' hin hst => ?_, fun m' => ?_⟩
  · rw [update_self]
    exact (h.queue m).push (h.not_waiting hf m)
  · rw [update_of_ne hm]
    exact h.queue_push hf hm
  · rw [hl] at hfree
    cases hfree
  · rw [update_of_ne hm]
    exact h.free m'
  · refine setMutex_at (fun m' o => s.believes t' m' = true → o.locked = true ∧ o.holder = some t')
      ?_ (fun m' _ => h.believer t' m') m' hb
    exact h.believer t' m
  · dsimp only
    by_cases ht : t' = t
    · rw [ht, update_self, update_self]
      by_cases hm : m' = m
      · rw [hm, update_self]
        simp
      · rw [update_of_ne hm]
        simp only [h.not_waiting hf m', Option.some.injEq, and_true, false_iff]
        exact fun heq => hm heq.symm
    · rw [update_of_ne ht, update_of_ne ht, ← h.waiting]
      by_cases hm : m' = m
      · rw [hm, update_self]
        simp [ht]
      · rw [update_of_ne hm]
  · dsimp only at hb ⊢
    by_cases ht : t' = t
    · rw [ht, update_self]
      exact ⟨m, rfl⟩
    · rw [update_of_ne ht] at hb ⊢
      exact h.blocked t' hb
  · dsimp only at hin hst ⊢
    have ht : t' ≠ t := by
      intro heq
      rw [heq, update_self] at hst
      cases hst
    rw [update_of_ne ht] at hin hst
    refine setMutex_at (fun m' o => s.inLock t' = some m' → o.locked = true ∧ o.holder = some t' ∧
      s.believes t' m' = false) (fun hin => ?_) (fun m' _ hin => h.woken t' m' hin hst) m' hin
    exact h.woken t' m hin hst
  · dsimp only
    by_cases hm : m' = m
    · rw [hm, update_self, update_self, h.fifo, append_assoc]
      rfl
    · rw [update_of_ne hm, update_of_ne hm]
      exact h.fifo m'

omit [DecidableEq T] [DecidableEq M] in
theorem Inv.only (h : Inv s W) (hf : Free s t) (hb : s.believes t m = true) {t' : T} :
    (s.believes t' m = true → t' = t) ∧ ¬ (s.inLock t' = some m ∧ s.state t' = .ready) := by
  have hold := (h.believer t m hb).2
  refine ⟨fun hb' => ?_, fun ⟨hin, hst⟩ => ?_⟩
  · rw [(h.believer t' m hb').2] at hold
    exact Option.some.inj hold
  · rw [(h.woken t' m hin hst).2.1] at hold
    rw [Option.some.inj hold, hf.2] at hin
    cases hin

/-- Who still believes to hold a mutex holds another one. -/
theorem Inv.others (h : Inv s W) (hf : Free s t) (hb : s.believes t m = true) {t' : T} {m' : M}
    (hb' : (s.setBelieves t m false).believes t' m' = true) :
    m' ≠ m ∧ s.believes t' m' = true := by
  rw [setBelieves_apply] at hb'
  split at hb'
  · cases hb'
  rename_i hne
  refine ⟨fun heq => ?_, hb'⟩
  rw [heq] at hb'
  exact hne ⟨(h.only hf hb).1 hb', heq⟩

theorem Inv.handOver (h : Inv s W) (hf : Free s t) (hb : s.believes t m = true) {w : T}
    {q : List T} (hq : W m = w :: q) :
    Inv { (s.setBelieves t m false).setMutex m { s.mutexes m with
        waitersHead := s.waitNext w
        waitersTail := popTail (s.waitNext w) (s.mutexes m).waitersTail
        holder := some w } with
      waitNext := update s.waitNext w none
      state := update s.state w .ready
      granted := update s.granted m (s.granted m ++ [w]) }
      (update W m q) := by
  have hw : s.inLock w = some m ∧ s.state w = .blocked :=
    (h.waiting w m).1 (hq ▸ mem_cons_self)
  have hwt : w ≠ t := by
    intro heq
    exact h.not_waiting hf m (heq ▸ hq ▸ mem_cons_self)
  have hqueue := h.queue m
  rw [hq] at hqueue
  have hwq : w ∉ q := (nodup_cons.1 hqueue.nodup).1
  have hlock := (h.believer t m hb).1
  refine ⟨setMutex_at (fun m' o => LinkQueue (update s.waitNext w none) o.waitersHead o.waitersTail
      (update W m q m')) ?_ fun m' hm => ?_,
    setMutex_at (fun m' o => o.locked = false → update W m q m' = []) (fun hfree => ?_)
      fun m' hm => ?_,
    fun t' m' hb' => ?_, fun t' m' => ?_, fun t' hb' => ?_, fun t' m' hin hst => ?_, fun m' => ?_⟩
  · rw [update_self]
    exact hqueue.pop
  · rw [update_of_ne hm]
    refine (h.queue m').congr fun x hx => update_of_ne ?_ _ _
    intro heq
    have hin := ((h.waiting x m').1 hx).1
    rw [heq, hw.1] at hin
    exact hm (Option.some.inj hin).symm
  · rw [hlock] at hfree
    cases hfree
  · rw [update_of_ne hm]
    exact h.free m'
  · obtain ⟨hm, hb'⟩ := h.others hf hb hb'
    rw [setMutex_of_ne _ _ _ _ hm]
    exact h.believer t' m' hb'
  · change t' ∈ update W m q m' ↔ s.inLock t' = some m' ∧ update s.state w .ready t' = .blocked
    by_cases ht : t' = w
    · rw [ht, update_self]
      by_cases hm : m' = m
      · rw [hm, update_self]
        simp [hwq]
      · rw [update_of_ne hm, h.waiting, hw.1]
        simp only [Option.some.injEq, reduceCtorEq, and_false, iff_false, not_and]
        exact fun heq => absurd heq.symm hm
    · rw [update_of_ne ht, ← h.waiting]
      by_cases hm : m' = m
      · rw [hm, update_self, hq]
        simp [ht]
      · rw [update_of_ne hm]
  · have hb' : update s.state w .ready t' = .blocked := hb'
    by_cases ht : t' = w
    · exact ⟨m, ht ▸ hw.1⟩
    · rw [update_of_ne ht] at hb'
      exact h.blocked t' hb'
  · have hin : s.inLock t' = some m' := hin
    have hst : update s.state w .ready t' = .ready := hst
    change _ ∧ _ ∧ (s.setBelieves t m false).believes t' m' = false
    by_cases ht : t' = w
    · rw [ht, hw.1] at hin
      rw [← Option.some.inj hin, setMutex_self, setBelieves_apply, if_neg fun h => hwt (ht ▸ h.1)]
      refine ⟨hlock, by rw [ht], ?_⟩
      by_contra hbw
      exact hwt (ht ▸ (h.only hf hb).1 (by simpa using hbw))
    · rw [update_of_ne ht] at hst
      have hm : m' ≠ m := fun heq => (h.only hf hb).2 ⟨heq ▸ hin, hst⟩
      rw [setMutex_of_ne _ _ _ _ hm, setBelieves_apply, if_neg fun h => hm h.2]
      exact h.woken t' m' hin hst
  · change s.queued m' = update s.granted m (s.granted m ++ [w]) m' ++ _
    by_cases hm : m' = m
    · rw [hm, update_self, update_self, h.fifo, hq, append_assoc]
      rfl
    · rw [update_of_ne hm, update_of_ne hm]
      exact h.fifo m'

theorem Inv.release (h : Inv s W) (hf : Free s t) (hb : s.believes t m = true) (hq : W m = []) :
    Inv ((s.setBelieves t m false).setMutex m { s.mutexes m with
      locked := false, holder := none }) W := by
  refine ⟨setMutex_at (fun m' o => LinkQueue s.waitNext o.waitersHead o.waitersTail (W m'))
      (h.queue m) fun m' _ => h.queue m',
    setMutex_at (fun m' o => o.locked = false → W m' = []) (fun _ => hq) fun m' _ => h.free m',
    fun t' m' hb' => ?_, h.waiting, h.blocked, fun t' m' hin hst => ?_, h.fifo⟩
  · obtain ⟨hm, hb'⟩ := h.others hf hb hb'
    rw [setMutex_of_ne _ _ _ _ hm]
    exact h.believer t' m' hb'
  · have hm : m' ≠ m := fun heq => (h.only hf hb).2 ⟨heq ▸ hin, hst⟩
    change _ ∧ _ ∧ (s.setBelieves t m false).believes t' m' = false
    rw [setMutex_of_ne _ _ _ _ hm, setBelieves_apply, if_neg fun h => hm h.2]
    exact h.woken t' m' hin hst

theorem Inv.unlock (h : Inv s W) (hf : Free s t) (hb : s.believes t m = true) :
    ∃ W', Inv (mutexUnlock s t m) W' := by
  have hhead := (h.queue m).head_eq
  unfold mutexUnlock
  dsimp only
  split
  · rename_i w heq
    rw [hhead] at heq
    obtain ⟨q, hq⟩ := head?_eq_some_iff.1 heq
    exact ⟨_, h.handOver hf hb hq⟩
  · rename_i heq
    rw [hhead] at heq
    exact ⟨W, h.release hf hb (head?_eq_none_iff.1 heq)⟩

theorem Inv.resume (h : Inv s W) (hin : s.inLock t = some m) (hst : s.state t = .ready) :
    Inv (lockReturns s t m) W := by
  obtain ⟨h1, h2, h3⟩ := h.woken t m hin hst
  unfold lockReturns
  refine ⟨h.queue, h.free, fun t' m' hb => ?_, fun t' m' => ?_, fun t' hb => ?_,
    fun t' m' hin' hst' => ?_, h.fifo⟩
  · have hb : (s.setBelieves t m true).believes t' m' = true := hb
    rw [setBelieves_apply] at hb
    split at hb
    · rename_i heq
      rw [heq.1, heq.2]
      exact ⟨h1, h2⟩
    · exact h.believer t' m' hb
  · dsimp only
    by_cases ht : t' = t
    · rw [ht, update_self, h.waiting, hst]
      simp
    · rw [update_of_ne ht]
      exact h.waiting t' m'
  · have hb : s.state t' = .blocked := hb
    dsimp only
    by_cases ht : t' = t
    · rw [ht, hst] at hb
      cases hb
    · rw [update_of_ne ht]
      exact h.blocked t' hb
  · dsimp only at hin'
    have ht : t' ≠ t := by
      intro heq
      rw [heq, update_self] at hin'
      cases hin'
    rw [update_of_ne ht] at hin'
    rw [setBelieves_apply, if_neg fun h => ht h.1]
    exact h.woken t' m' hin' hst'

end Steps

theorem inv_inductive : (mutexLTS T M).Inductive fun s => ∃ W, Inv s W := by
  refine ⟨?_, ?_⟩
  · intro s hs
    have hs : s = boot := hs
    rw [hs]
    exact ⟨_, boot_inv⟩
  · intro s l s' ⟨W, h⟩ hstep
    have hstep : s.step l = some s' := hstep
    cases l with
    | lock t m =>
      unfold Sys.step at hstep
      dsimp only at hstep
      split at hstep
      · rename_i hf
        cases hstep
        exact h.lock hf
      · cases hstep
    | tryLock t m =>
      unfold Sys.step at hstep
      dsimp only at hstep
      split at hstep
      · cases hstep
        exact ⟨W, h.tryLock⟩
      · cases hstep
    | unlock t m =>
      unfold Sys.step at hstep
      dsimp only at hstep
      split at hstep
      · rename_i hf
        cases hstep
        exact h.unlock hf.1 hf.2
      · cases hstep
    | resume t =>
      unfold Sys.step at hstep
      dsimp only at hstep
      split at hstep
      · cases hstep
      rename_i m hin
      split at hstep
      · rename_i hst
        cases hstep
        exact ⟨W, h.resume hin hst⟩
      · cases hstep

/-- What a mutex promises. `W m` are the tasks on its wait list, first to last. -/
structure Sound (s : Sys T M) (W : M → List T) : Prop where
  /-- `W` is what the pointers say -/
  lists : ∀ m, LinkQueue s.waitNext (s.mutexes m).waitersHead (s.mutexes m).waitersTail (W m)
  /-- who believes to hold a mutex is its holder, so there is one at most -/
  holder : ∀ t m, s.believes t m = true → (s.mutexes m).holder = some t
  exclusive : ∀ t t' m, s.believes t m = true → s.believes t' m = true → t = t'
  /-- a mutex is handed on in the order in which the tasks queued -/
  order : ∀ m, s.queued m = s.granted m ++ W m
  /-- a mutex with waiters cannot be had by `mutex_try_lock`, and a newcomer queues last -/
  noBarging : ∀ m, W m ≠ [] → ∀ t, mutexTryLock s t m = (s, 0) ∧
    (mutexLock s t m).believes = s.believes ∧
    (mutexLock s t m).queued m = s.queued m ++ [t]
  /-- a blocked task is on exactly one wait list, once -/
  blocked : ∀ t, s.state t = .blocked → ∃ m, (W m).count t = 1 ∧ ∀ m', t ∈ W m' → m' = m
  queued : ∀ t m, t ∈ W m → s.state t = .blocked
  /-- nobody waits for a free mutex -/
  free : ∀ m, (s.mutexes m).locked = false → W m = []

/-- In every reachable state. -/
theorem mutex_sound (s : Sys T M) (h : (mutexLTS T M).Reachable s) : ∃ W, Sound s W := by
  obtain ⟨W, h⟩ := inv_inductive.reachable s h
  refine ⟨W, h.queue, fun t m hb => (h.believer t m hb).2, fun t t' m hb hb' => ?_, h.fifo,
    fun m hm t => ?_, fun t hb => ?_, fun t m ht => ((h.waiting t m).1 ht).2, h.free⟩
  · have h1 := (h.believer t m hb).2
    rw [(h.believer t' m hb').2] at h1
    exact (Option.some.inj h1).symm
  · have hl : ¬ (s.mutexes m).locked = false := fun hl => hm (h.free m hl)
    refine ⟨if_neg hl, ?_, ?_⟩
    · unfold mutexLock
      rw [if_neg hl]
      rfl
    · unfold mutexLock
      rw [if_neg hl]
      exact update_self ..
  · obtain ⟨m, hin⟩ := h.blocked t hb
    have hmem := (h.waiting t m).2 ⟨hin, hb⟩
    refine ⟨m, count_eq_one_of_mem (h.queue m).nodup hmem, fun m' hm' => ?_⟩
    have hin' := ((h.waiting t m').1 hm').1
    rw [hin] at hin'
    exact (Option.some.inj hin').symm

/-- Tasks 1 and 2 wait while task 0 holds a mutex; task 1 has it next. -/
theorem mutex_sound_two_waiters : (LTS.exec Sys.step (boot : Sys Nat Nat)
      [.lock 0 7, .lock 1 7, .tryLock 3 7, .lock 2 7, .unlock 0 7, .resume 1]).map
        (fun s => (s.believes 1 7, s.state 2, (s.mutexes 7).waitersHead)) =
          some (true, .blocked, some 2) ∧
      ∃ s : Sys Nat Nat, s.believes 1 7 = true ∧ ∃ W, Sound s W := by
  have hrun : (LTS.exec Sys.step (boot : Sys Nat Nat)
      [.lock 0 7, .lock 1 7, .tryLock 3 7, .lock 2 7, .unlock 0 7, .resume 1]).map
        (fun s => (s.believes 1 7, s.state 2, (s.mutexes 7).waitersHead)) =
          some (true, .blocked, some 2) := by
    decide +kernel
  refine ⟨hrun, ?_⟩
  obtain ⟨s, hs, he⟩ := Option.map_eq_some_iff.1 hrun
  exact ⟨s, congrArg Prod.fst he, mutex_sound s ⟨boot, _, rfl, LTS.run_of_exec hs⟩⟩

end AdventOS.Kernel.Mutex
