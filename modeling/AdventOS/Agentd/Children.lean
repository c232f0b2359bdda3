import AdventOS.Core.Replay
import AdventOS.Agentd.Jobs

/-!
# agentd and its children (`user/agentd.c`)

agentd is one thread and has children of two kinds: the background jobs, whose ends
`reap_finished_jobs` collects with `sys_wait_nb` and finds by their pid, and the command of a
`shell.exec`, `shell.exec_sandboxed` or `shell.run`, for which it blocks in `sys_wait`. Neither
wait has a target: the kernel hands over the zombie in the first slot of its task table. The turns
of the event loop are phases; children exit at any time.

`exits`, `harvested` (the pids that waits have returned), the serials of the jobs, `told` (the
codes that were reported, with the child's pid) and `answers` are history.

* `codes_are_true`: in every run where the `sys_wait` of a command finds that command's child;
* `exec_takes_job_status`: otherwise the command is reported with a job's status.
-/
namespace AdventOS.Agentd.Children
open Jobs Function List Option

/-! ## The kernel's side -/

/-- A child of agentd in the task table; `code` is its status once it is a zombie. -/
structure Child where
  pid : Nat
  code : Option Int
  deriving DecidableEq

def taskMax : Nat := 32

/-- The pid and the status of the zombie in a slot. -/
def zombieAt (tasks : Nat → Option Child) (i : Nat) : Option (Nat × Int) :=
  (tasks i).bind fun c => c.code.map fun code => (c.pid, code)

/-- The slot that `reap_one_zombie_of` frees; task.c:1124-1127 -/
def firstZombie (tasks : Nat → Option Child) : Option Nat :=
  (List.range taskMax).find? fun i => (zombieAt tasks i).isSome

/-! ## agentd -/

/-- Where the event loop is; `reap left` is the loop of `reap_finished_jobs` with some turns
left. -/
inductive Phase
  | dispatch
  | reap (left : Nat)
  | waits
  | cron
  deriving DecidableEq

def Phase.left : Phase → Option Nat
  | .reap left => some left
  | _ => none

/-- The command that agentd waits for; `shell.run` does not report its status. -/
structure Command where
  pid : Nat
  quiet : Bool
  deriving DecidableEq

/-- A connection in `CST_PENDING_WAIT`, with the job that had the slot. -/
structure Wait where
  conn : Nat
  slot : Nat
  serial : Nat
  deriving DecidableEq

structure Told where
  pid : Nat
  code : Int
  deriving DecidableEq

/-- The answer to a wait that was issued for the job `issued`: the job it is about. -/
structure Answer where
  issued : Nat
  about : Option Nat
  deriving DecidableEq

structure Agent where
  tasks : Nat → Option Child
  nextPid : Nat
  exits : Nat → Option Int
  harvested : List Nat
  jobs : Table
  births : Nat
  busy : Option Command
  phase : Phase
  waits : List Wait
  told : List Told
  answers : List Answer

def fork (s : Agent) (slot pid : Nat) : Agent :=
  { s with tasks := update s.tasks slot (some ⟨pid, none⟩), nextPid := pid + 1 }

/-- The slot is free and the pid is new. -/
def CanFork (s : Agent) (slot pid : Nat) : Prop :=
  slot < taskMax ∧ s.tasks slot = none ∧ s.nextPid ≤ pid

instance (s : Agent) (slot pid : Nat) : Decidable (CanFork s slot pid) :=
  inferInstanceAs (Decidable (_ ∧ _))

/-- A wait has returned the zombie in slot `i`. -/
def harvest (s : Agent) (i pid : Nat) : Agent :=
  { s with tasks := update s.tasks i none, harvested := pid :: s.harvested }

/-- `shell_exec_inner` and `emit_shell_run` behind the end of their pipes;
agentd.c:862-872 and 1063-1064 -/
def execWait (s : Agent) : Option Agent :=
  s.busy.bind fun c => (firstZombie s.tasks).bind fun i => (zombieAt s.tasks i).map fun z =>
    { harvest s i z.1 with
      busy := none
      told := if c.quiet then s.told else ⟨c.pid, z.2⟩ :: s.told }

def tellJob (j : Job) : List Told := if j.state = .exit then [⟨j.pid, j.exitCode⟩] else []

def aboutJob (j : Job) : Option Nat := if j.state = .free then none else some j.serial

/-- `spawn_recorded_job` for a client or for a cron entry: the child of a job that starts is put
into the task slot. -/
def spawnRecordedJob (s : Agent) (o : Spawn) (slot : Nat) : Option Agent :=
  match o with
  | .refused => some s
  | .failed => some { s with jobs := spawnTable s.jobs s.births .failed }
  | .started pid =>
    if jobAllocSlot s.jobs = none then some s
    else if CanFork s slot pid then
      some { fork s slot pid with
        jobs := spawnTable s.jobs s.births (.started pid), births := s.births + 1 }
    else none

/-- agentd.c:3234-3272 -/
def handleShellJobWait (s : Agent) (conn i : Nat) : Option Agent :=
  if jobMax ≤ i ∨ (s.jobs i).state = .free then some s
  else if (s.jobs i).state = .exit then
    some { s with
      told := tellJob (s.jobs i) ++ s.told
      answers := ⟨(s.jobs i).serial, aboutJob (s.jobs i)⟩ :: s.answers }
  else some { s with waits := ⟨conn, i, (s.jobs i).serial⟩ :: s.waits }

/-- agentd.c:1763-1790 -/
def emitShellJobDelete (s : Agent) (i : Nat) : Agent :=
  if i < jobMax ∧ (s.jobs i).state = .exit then
    { s with jobs := update s.jobs i (jobClear (s.jobs i)) }
  else s

/-- The ends of file that are read from a job's pipes; agentd.c:3809-3840 -/
def drainJob (eof : Bool × Bool) (j : Job) : Job :=
  if j.state = .run then { j with outEof := j.outEof || eof.1, errEof := j.errEof || eof.2 } else j

/-- The job whose child was collected; agentd.c:3853-3859 -/
def jobOfPid (t : Table) (pid : Nat) : Option Nat :=
  (List.range jobMax).find? fun i => (t i).state = .run ∧ (t i).pid = pid

def markReaped (t : Table) (pid : Nat) (code : Int) : Table :=
  (jobOfPid t pid).elim t fun i =>
    update t i { t i with exitCode := code, reaped := true }

/-- agentd.c:3864-3866 -/
def Finished (j : Job) : Prop :=
  j.state = .run ∧ j.reaped = true ∧ j.outEof = true ∧ j.errEof = true

instance (j : Job) : Decidable (Finished j) := inferInstanceAs (Decidable (_ ∧ _))

def promoteJob (j : Job) : Job := if Finished j then { j with state := .exit } else j

def exitNotifs (t : Table) : List Told :=
  (List.range jobMax).flatMap fun i => if Finished (t i) then [⟨(t i).pid, (t i).exitCode⟩] else []

/-- A `sys_wait_nb` that returns the zombie `z` in slot `i`; agentd.c:3850-3860 -/
def reapOne (s : Agent) (left i : Nat) (z : Nat × Int) : Agent :=
  { harvest s i z.1 with jobs := markReaped s.jobs z.1 z.2, phase := .reap left }

/-- agentd.c:3861-3870 -/
def promoteJobs (s : Agent) : Agent :=
  { s with
    jobs := fun i => if i < jobMax then promoteJob (s.jobs i) else s.jobs i
    told := exitNotifs s.jobs ++ s.told
    phase := .waits }

/-- A turn of the loop of `reap_finished_jobs`, or what follows the loop;
agentd.c:3848-3870 -/
def reapTurn (s : Agent) (left : Nat) : Agent :=
  if left = 0 then promoteJobs s
  else
    (firstZombie s.tasks).elim (promoteJobs s) fun i =>
      (zombieAt s.tasks i).elim s (reapOne s (left - 1) i)

/-- The wait is over: its job has exited, or its time. -/
def Resolved (s : Agent) (late : Nat → Bool) (w : Wait) : Prop :=
  (s.jobs w.slot).state = .exit ∨ late w.conn = true

instance (s : Agent) (late : Nat → Bool) (w : Wait) : Decidable (Resolved s late w) :=
  inferInstanceAs (Decidable (_ ∨ _))

/-- agentd.c:3875-3930; `late` are the connections whose deadline has passed. -/
def processPendingWaits (s : Agent) (late : Nat → Bool) : Agent :=
  let ended := s.waits.filter fun w => Resolved s late w
  { s with
    waits := s.waits.filter fun w => ¬Resolved s late w
    told := (ended.flatMap fun w => tellJob (s.jobs w.slot)) ++ s.told
    answers := (ended.map fun w => ⟨w.serial, aboutJob (s.jobs w.slot)⟩) ++ s.answers
    phase := .cron }

/-! ## Runs -/

/-- `exit` is a child's; `exec` is the fork of a command, `execWait` the return of its `sys_wait`;
`drain` is the end of the requests of this turn. -/
inductive Label
  | exit (slot : Nat) (code : Int)
  | exec (slot pid : Nat) (quiet : Bool)
  | execWait
  | spawn (o : Spawn) (slot : Nat)
  | status (i : Nat)
  | wait (conn i : Nat)
  | delete (i : Nat)
  | hangUp (conn : Nat)
  | drain (eofs : Nat → Bool × Bool)
  | reap
  | resolve (late : Nat → Bool)
  | next

def Serving (s : Agent) : Prop := s.phase = .dispatch ∧ s.busy = none

instance (s : Agent) : Decidable (Serving s) := inferInstanceAs (Decidable (_ ∧ _))

def step (s : Agent) : Label → Option Agent
  | .exit i code =>
    (s.tasks i).bind fun c =>
      if c.code = none then
        some { s with
          tasks := update s.tasks i (some { c with code := some code })
          exits := update s.exits c.pid (some code) }
      else none
  | .exec slot pid quiet =>
    if Serving s ∧ CanFork s slot pid then
      some { fork s slot pid with busy := some ⟨pid, quiet⟩ }
    else none
  | .execWait => execWait s
  | .spawn o slot =>
    if Serving s ∨ s.phase = .cron then spawnRecordedJob s o slot else none
  | .status i =>
    if Serving s ∧ i < jobMax then some { s with told := tellJob (s.jobs i) ++ s.told } else none
  | .wait conn i => if Serving s then handleShellJobWait s conn i else none
  | .delete i => if Serving s then some (emitShellJobDelete s i) else none
  | .hangUp conn =>
    if s.busy = none then some { s with waits := s.waits.filter fun w => w.conn ≠ conn } else none
  | .drain eofs =>
    if Serving s then
      some { s with jobs := fun i => drainJob (eofs i) (s.jobs i), phase := .reap jobMax }
    else none
  | .reap => s.phase.left.map (reapTurn s)
  | .resolve late => if s.phase = .waits then some (processPendingWaits s late) else none
  | .next => if s.phase = .cron then some { s with phase := .dispatch } else none

def boot : Agent :=
  { tasks := fun _ => none, nextPid := 1, exits := fun _ => none, harvested := []
    jobs := fun _ => Job.none, births := 0, busy := none, phase := .dispatch, waits := []
    told := [], answers := [] }

def agentLTS : LTS Agent Label := LTS.ofFn (· = boot) step

/-- The first zombie in the task table is the command's child. -/
def FindsOwn (s : Agent) : Label → Prop
  | .execWait => ∀ c ∈ s.busy, ∀ i ∈ firstZombie s.tasks, (s.tasks i).map Child.pid = some c.pid
  | _ => True

instance (s : Agent) (l : Label) : Decidable (FindsOwn s l) := by
  unfold FindsOwn
  split <;> infer_instance

/-! ## The invariant -/

/-- A job that runs: until its child is collected, no wait has returned it. -/
structure JobOk (nextPid : Nat) (exits : Nat → Option Int) (harvested : List Nat) (j : Job) :
    Prop where
  pid : j.state = .run → j.pid < nextPid
  running : j.state = .run → j.reaped = false → j.pid ∉ harvested
  reaped : j.state = .run → j.reaped = true → exits j.pid = some j.exitCode
  exited : j.state = .exit → exits j.pid = some j.exitCode

structure Inv (s : Agent) : Prop where
  fresh : ∀ i c, s.tasks i = some c → c.pid < s.nextPid
  alone : ∀ i k c d, s.tasks i = some c → s.tasks k = some d → c.pid = d.pid → i = k
  status : ∀ i c, s.tasks i = some c → s.exits c.pid = c.code
  unborn : ∀ p, s.nextPid ≤ p → s.exits p = none
  gone : ∀ p ∈ s.harvested, p < s.nextPid ∧ ∀ i c, s.tasks i = some c → c.pid ≠ p
  jobs : ∀ i, i < jobMax → JobOk s.nextPid s.exits s.harvested (s.jobs i)
  own : ∀ i k, i < jobMax → k < jobMax → (s.jobs i).state = .run → (s.jobs k).state = .run →
    (s.jobs i).pid = (s.jobs k).pid → i = k
  busy : ∀ c ∈ s.busy, s.phase = .dispatch ∧ c.pid < s.nextPid ∧
    ∀ i, i < jobMax → (s.jobs i).state = .run → (s.jobs i).pid ≠ c.pid
  told : ∀ r ∈ s.told, s.exits r.pid = some r.code
  drained : s.phase = .waits → ∀ i, i < jobMax → ¬Finished (s.jobs i)
  waits : ∀ w ∈ s.waits, w.slot < jobMax ∧ (s.jobs w.slot).serial = w.serial ∧
    ((s.jobs w.slot).state = .run ∨ s.phase = .waits ∧ (s.jobs w.slot).state = .exit)
  answers : ∀ a ∈ s.answers, a.about = some a.issued

theorem inv_boot : Inv boot where
  fresh _ _ h := by cases h
  alone _ _ _ _ h := by cases h
  status _ _ h := by cases h
  unborn _ _ := rfl
  gone := forall_mem_nil _
  jobs _ _ := ⟨nofun, nofun, nofun, nofun⟩
  own _ _ _ _ h := by cases h
  busy := nofun
  told := forall_mem_nil _
  drained h := by cases h
  waits := forall_mem_nil _
  answers := forall_mem_nil _

variable {s s' : Agent}

variable {i left n p : Nat} {exits : Nat → Option Int} {harvested : List Nat} {j : Job}
  {code : Int} {t : Table}

theorem zombieAt_some {tasks : Nat → Option Child} {z : Nat × Int}
    (h : zombieAt tasks i = some z) : tasks i = some ⟨z.1, some z.2⟩ := by
  obtain ⟨c, hc, hz⟩ := bind_eq_some_iff.mp h
  obtain ⟨code, hcode, rfl⟩ := map_eq_some_iff.mp hz
  rw [hc, ← hcode]

theorem firstZombie_some {tasks : Nat → Option Child} (h : firstZombie tasks = some i) :
    ∃ z, zombieAt tasks i = some z :=
  isSome_iff_exists.mp (List.find?_some (p := fun i => (zombieAt tasks i).isSome) h)

theorem tellJob_true
    (h : JobOk n exits harvested j) : ∀ r ∈ tellJob j, exits r.pid = some r.code := by
  unfold tellJob
  split
  · rename_i hx
    exact forall_mem_singleton.mpr (h.exited hx)
  · exact forall_mem_nil _

theorem exits_mono (hi : Inv s) {c : Child} (hc : s.tasks i = some c)
    (hrun : c.code = none) {v : Int} (h : s.exits p = some v) :
    update s.exits c.pid (some code) p = some v := by
  have hne : p ≠ c.pid := by
    rintro rfl
    rw [hi.status i c hc, hrun] at h
    cases h
  rw [update_of_ne hne]
  exact h

/-! ## Steps -/

theorem Inv.exit (hi : Inv s) (h : step s (.exit i code) = some s') :
    Inv s' := by
  obtain ⟨c, hc, h⟩ := bind_eq_some_iff.mp h
  split at h
  swap
  · cases h
  rename_i hrun
  cases h
  have hmono : ∀ {p v}, s.exits p = some v →
      update s.exits c.pid (some code) p = some v := fun h => exits_mono hi hc hrun h
  have htask : ∀ k d, update s.tasks i (some { c with code := some code }) k = some d →
      ∃ d', s.tasks k = some d' ∧ d'.pid = d.pid := by
    intro k d hd
    by_cases hk : k = i
    · subst hk
      rw [update_self] at hd
      cases hd
      exact ⟨c, hc, rfl⟩
    · rw [update_of_ne hk] at hd
      exact ⟨d, hd, rfl⟩
  exact
    { fresh := fun k d hd => by
        obtain ⟨d', hd', hp⟩ := htask k d hd
        exact hp ▸ hi.fresh k d' hd'
      alone := fun k l d e hd he hp => by
        obtain ⟨d', hd', hpd⟩ := htask k d hd
        obtain ⟨e', he', hpe⟩ := htask l e he
        exact hi.alone k l d' e' hd' he' (hpd.trans (hp.trans hpe.symm))
      status := fun k d hd => by
        by_cases hk : k = i
        · subst hk
          dsimp only at hd ⊢
          rw [update_self] at hd
          cases hd
          exact update_self _ _ _
        · dsimp only at hd ⊢
          rw [update_of_ne hk] at hd
          have hne : d.pid ≠ c.pid := fun hp => hk (hi.alone k i d c hd hc hp)
          rw [update_of_ne hne]
          exact hi.status k d hd
      unborn := fun p hp => by
        have hlt := hi.fresh i c hc
        dsimp only at hp ⊢
        rw [update_of_ne (by omega)]
        exact hi.unborn p hp
      gone := fun p hp => by
        obtain ⟨hlt, hno⟩ := hi.gone p hp
        refine ⟨hlt, fun k d hd => ?_⟩
        obtain ⟨d', hd', hpd⟩ := htask k d hd
        exact hpd ▸ hno k d' hd'
      jobs := fun k hk =>
        have hj := hi.jobs k hk
        ⟨hj.pid, hj.running, fun h hr => hmono (hj.reaped h hr), fun h => hmono (hj.exited h)⟩
      own := hi.own
      busy := hi.busy
      told := fun r hr => hmono (hi.told r hr)
      drained := hi.drained
      waits := hi.waits
      answers := hi.answers }

theorem Inv.fork (hi : Inv s) {slot pid : Nat} (hf : CanFork s slot pid) :
    Inv (fork s slot pid) := by
  obtain ⟨-, hfree, hpid⟩ := hf
  have htask : ∀ k d, update s.tasks slot (some ⟨pid, none⟩) k = some d →
      (k = slot ∧ d = ⟨pid, none⟩) ∨ k ≠ slot ∧ s.tasks k = some d := by
    intro k d hd
    by_cases hk : k = slot
    · subst hk
      rw [update_self] at hd
      exact .inl ⟨rfl, (Option.some.inj hd).symm⟩
    · rw [update_of_ne hk] at hd
      exact .inr ⟨hk, hd⟩
  exact
    { fresh := fun k d hd => by
        show d.pid < pid + 1
        obtain ⟨-, rfl⟩ | ⟨-, hd⟩ := htask k d hd
        · exact Nat.lt_succ_self pid
        · have := hi.fresh k d hd
          omega
      alone := fun k l d e hd he hp => by
        obtain ⟨rfl, rfl⟩ | ⟨-, hd⟩ := htask k d hd
        · obtain ⟨rfl, -⟩ | ⟨-, he⟩ := htask l e he
          · rfl
          · have := hi.fresh l e he
            dsimp only at hp
            omega
        · obtain ⟨-, rfl⟩ | ⟨-, he⟩ := htask l e he
          · have := hi.fresh k d hd
            dsimp only at hp
            omega
          · exact hi.alone k l d e hd he hp
      status := fun k d hd => by
        obtain ⟨-, rfl⟩ | ⟨-, hd⟩ := htask k d hd
        · exact hi.unborn pid hpid
        · exact hi.status k d hd
      unborn := fun p hp => hi.unborn p (hpid.trans ((Nat.le_succ pid).trans hp))
      gone := fun p hp => by
        obtain ⟨hlt, hno⟩ := hi.gone p hp
        refine ⟨lt_of_lt_of_le hlt (hpid.trans (Nat.le_succ pid)), fun k d hd => ?_⟩
        obtain ⟨-, rfl⟩ | ⟨-, hd⟩ := htask k d hd
        · dsimp only
          omega
        · exact hno k d hd
      jobs := fun k hk =>
        have hj := hi.jobs k hk
        ⟨fun h => lt_of_lt_of_le (hj.pid h) (hpid.trans (Nat.le_succ pid)), hj.running, hj.reaped,
          hj.exited⟩
      own := hi.own
      busy := fun c hc =>
        have hb := hi.busy c hc
        ⟨hb.1, lt_of_lt_of_le hb.2.1 (hpid.trans (Nat.le_succ pid)), hb.2.2⟩
      told := hi.told
      drained := hi.drained
      waits := hi.waits
      answers := hi.answers }

theorem Inv.harvest (hi : Inv s) (hz : s.tasks i = some ⟨p, some code⟩)
    (hj : ∀ k, k < jobMax → (s.jobs k).state = .run → (s.jobs k).reaped = false →
      (s.jobs k).pid ≠ p) : Inv (harvest s i p) := by
  have htask : ∀ k d, update s.tasks i none k = some d → k ≠ i ∧ s.tasks k = some d := by
    intro k d hd
    by_cases hk : k = i
    · subst hk
      rw [update_self] at hd
      cases hd
    · rw [update_of_ne hk] at hd
      exact ⟨hk, hd⟩
  exact
    { hi with
      fresh := fun k d hd => hi.fresh k d (htask k d hd).2
      alone := fun k l d e hd he hp => hi.alone k l d e (htask k d hd).2 (htask l e he).2 hp
      status := fun k d hd => hi.status k d (htask k d hd).2
      gone := fun q hq => by
        obtain rfl | hq := mem_cons.mp hq
        · refine ⟨hi.fresh i _ hz, fun k d hd hp => ?_⟩
          obtain ⟨hk, hd⟩ := htask k d hd
          exact hk (hi.alone k i d _ hd hz hp)
        · obtain ⟨hlt, hno⟩ := hi.gone q hq
          exact ⟨hlt, fun k d hd => hno k d (htask k d hd).2⟩
      jobs := fun k hk =>
        have ho := hi.jobs k hk
        { pid := ho.pid
          running := fun h hr hmem =>
            (mem_cons.mp hmem).elim (hj k hk h hr) (ho.running h hr)
          reaped := ho.reaped
          exited := ho.exited } }

theorem Inv.execWait (hi : Inv s) (hown : FindsOwn s .execWait) (h : execWait s = some s') :
    Inv s' := by
  obtain ⟨c, hc, h⟩ := bind_eq_some_iff.mp h
  obtain ⟨i, hfirst, h⟩ := bind_eq_some_iff.mp h
  obtain ⟨z, hz, rfl⟩ := map_eq_some_iff.mp h
  have htask := zombieAt_some hz
  obtain ⟨-, -, hother⟩ := hi.busy c hc
  have hpid : z.1 = c.pid := by
    have := hown c hc i hfirst
    rw [htask] at this
    exact Option.some.inj this
  have hh := hi.harvest htask fun k hk hr _ => hpid ▸ hother k hk hr
  have hstatus : s.exits z.1 = some z.2 := hi.status i _ htask
  exact
    { hh with
      busy := nofun
      told := by
        split
        · exact hi.told
        · exact forall_mem_cons.mpr ⟨hpid ▸ hstatus, hi.told⟩ }

theorem jobOfPid_some {k : Nat} (h : jobOfPid t p = some k) :
    k < jobMax ∧ (t k).state = .run ∧ (t k).pid = p := by
  have hp := List.find?_some h
  exact ⟨mem_range.mp (mem_of_find?_eq_some h), by simpa using hp⟩

theorem jobOfPid_none (h : jobOfPid t p = none) :
    ∀ k, k < jobMax → (t k).state = .run → (t k).pid ≠ p := by
  intro k hk hr hp
  have := List.find?_eq_none.mp h k (mem_range.mpr hk)
  exact this (by simp [hr, hp])

theorem Inv.marked (hi : Inv s) (hz : s.tasks i = some ⟨p, some code⟩)
    (hphase : s.phase ≠ .waits) : Inv { s with jobs := markReaped s.jobs p code } ∧
      ∀ k, k < jobMax → (markReaped s.jobs p code k).state = .run →
        (markReaped s.jobs p code k).reaped = false → (markReaped s.jobs p code k).pid ≠ p := by
  unfold markReaped
  cases hk : jobOfPid s.jobs p with
  | none => exact ⟨hi, fun k h hr _ => jobOfPid_none hk k h hr⟩
  | some k =>
    obtain ⟨hlt, hrun, hpid⟩ := jobOfPid_some hk
    have hstatus : s.exits p = some code := hi.status i _ hz
    -- the marked job has the same state, pid and serial
    have hjob : ∀ l, (update s.jobs k
        { s.jobs k with exitCode := code, reaped := true } l).state = (s.jobs l).state ∧
        (update s.jobs k { s.jobs k with exitCode := code, reaped := true } l).pid =
          (s.jobs l).pid ∧
        (update s.jobs k { s.jobs k with exitCode := code, reaped := true } l).serial =
          (s.jobs l).serial := by
      intro l
      by_cases hl : l = k
      · subst hl
        rw [update_self]
        exact ⟨rfl, rfl, rfl⟩
      · rw [update_of_ne hl]
        exact ⟨rfl, rfl, rfl⟩
    dsimp only [Option.elim]
    refine ⟨?_, fun l hl hr hre => ?_⟩
    · exact
        { hi with
          jobs := fun l hl => by
            dsimp only
            by_cases hlk : l = k
            · subst hlk
              rw [update_self]
              have ho := hi.jobs l hl
              exact
                { pid := ho.pid
                  running := fun _ h => by cases h
                  reaped := fun _ _ => hpid ▸ hstatus
                  exited := fun h => by rw [hrun] at h; cases h }
            · rw [update_of_ne hlk]
              exact hi.jobs l hl
          own := fun l m hl hm hrl hrm hp => by
            rw [(hjob l).1] at hrl
            rw [(hjob m).1] at hrm
            rw [(hjob l).2.1, (hjob m).2.1] at hp
            exact hi.own l m hl hm hrl hrm hp
          busy := fun c hc => by
            obtain ⟨h1, h2, h3⟩ := hi.busy c hc
            refine ⟨h1, h2, fun l hl hr => ?_⟩
            rw [(hjob l).1] at hr
            rw [(hjob l).2.1]
            exact h3 l hl hr
          drained := fun h => absurd h hphase
          waits := fun w hw => by
            obtain ⟨h1, h2, h3⟩ := hi.waits w hw
            rw [(hjob w.slot).1, (hjob w.slot).2.2]
            exact ⟨h1, h2, h3⟩ }
    · by_cases hlk : l = k
      · subst hlk
        rw [update_self] at hre
        cases hre
      · rw [(hjob l).1] at hr
        rw [(hjob l).2.1]
        exact fun hp => hlk (hi.own l k hl hlt hr hrun (hp.trans hpid.symm))

theorem phase_left {ph : Phase} (h : ph.left = some left) : ph = .reap left := by
  cases ph with
  | reap l => exact congrArg Phase.reap (Option.some.inj h)
  | dispatch => cases h
  | waits => cases h
  | cron => cases h

theorem Inv.idle (hi : Inv s) (h : s.phase ≠ .dispatch) : s.busy = none :=
  eq_none_iff_forall_not_mem.mpr fun c hc => h (hi.busy c hc).1

theorem Inv.reapOne (hi : Inv s) {z : Nat × Int} (hphase : s.phase = .reap left)
    (hz : zombieAt s.tasks i = some z) : Inv (reapOne s n i z) := by
  have htask := zombieAt_some hz
  obtain ⟨hm, hother⟩ := hi.marked htask (by rw [hphase]; nofun)
  have hh := hm.harvest htask hother
  exact
    { hh with
      busy := fun c hc => by
        have hidle := hi.idle (by rw [hphase]; nofun)
        have hc : s.busy = some c := hc
        rw [hidle] at hc
        cases hc
      drained := nofun
      waits := fun w hw => by
        obtain ⟨h1, h2, h3⟩ := hh.waits w hw
        refine ⟨h1, h2, .inl (h3.resolve_right fun h => ?_)⟩
        cases hphase.symm.trans h.1 }

theorem promoteJob_same (j : Job) :
    (promoteJob j).pid = j.pid ∧ (promoteJob j).serial = j.serial ∧
      (promoteJob j).exitCode = j.exitCode ∧ (promoteJob j).reaped = j.reaped := by
  unfold promoteJob
  split <;> exact ⟨rfl, rfl, rfl, rfl⟩

theorem promoteJob_run (h : (promoteJob j).state = .run) : j.state = .run ∧
    ¬Finished j := by
  unfold promoteJob at h
  split at h
  · cases h
  · rename_i hf
    exact ⟨h, hf⟩

theorem promoteJob_exit (h : (promoteJob j).state = .exit) :
    j.state = .exit ∨ Finished j := by
  unfold promoteJob at h
  split at h
  · rename_i hf
    exact .inr hf
  · exact .inl h

theorem JobOk.promote (h : JobOk n exits harvested j) : JobOk n exits harvested (promoteJob j) := by
  obtain ⟨hp, -, hc, hr⟩ := promoteJob_same j
  refine ⟨fun hs => ?_, fun hs hre => ?_, fun hs hre => ?_, fun hs => ?_⟩
  · rw [hp]
    exact h.pid (promoteJob_run hs).1
  · rw [hp]
    exact h.running (promoteJob_run hs).1 (hr ▸ hre)
  · rw [hp, hc]
    exact h.reaped (promoteJob_run hs).1 (hr ▸ hre)
  · rw [hp, hc]
    rcases promoteJob_exit hs with hx | hf
    · exact h.exited hx
    · exact h.reaped hf.1 hf.2.1

theorem exitNotifs_true (h : ∀ i, i < jobMax → JobOk n exits harvested (t i)) :
    ∀ r ∈ exitNotifs t, exits r.pid = some r.code := by
  intro r hr
  obtain ⟨i, hi, hr⟩ := mem_flatMap.mp hr
  split at hr
  · rename_i hf
    obtain rfl := mem_singleton.mp hr
    exact (h i (mem_range.mp hi)).reaped hf.1 hf.2.1
  · cases hr

theorem Inv.promoteJobs (hi : Inv s) (hphase : s.phase = .reap left) :
    Inv (promoteJobs s) := by
  have hat : ∀ i, i < jobMax → (Children.promoteJobs s).jobs i = promoteJob (s.jobs i) :=
    fun i h => if_pos h
  have hidle := hi.idle (by rw [hphase]; nofun)
  exact
    { hi with
      jobs := fun i h => by
        rw [hat i h]
        exact (hi.jobs i h).promote
      own := fun i k h1 h2 hr1 hr2 hp => by
        rw [hat i h1] at hr1 hp
        rw [hat k h2] at hr2 hp
        rw [(promoteJob_same (s.jobs i)).1, (promoteJob_same (s.jobs k)).1] at hp
        exact hi.own i k h1 h2 (promoteJob_run hr1).1 (promoteJob_run hr2).1 hp
      busy := fun c hc => by
        have hc : s.busy = some c := hc
        rw [hidle] at hc
        cases hc
      told := forall_mem_append.mpr ⟨exitNotifs_true hi.jobs, hi.told⟩
      drained := fun _ i h hf => by
        rw [hat i h] at hf
        have hn := (promoteJob_run hf.1).2
        rw [promoteJob, if_neg hn] at hf
        exact hn hf
      waits := fun w hw => by
        obtain ⟨h1, h2, h3⟩ := hi.waits w hw
        rw [hat w.slot h1, (promoteJob_same _).2.1]
        refine ⟨h1, h2, ?_⟩
        have hrun := h3.resolve_right fun h => by rw [hphase] at h; cases h.1
        unfold promoteJob
        split
        · exact .inr ⟨rfl, rfl⟩
        · exact .inl hrun }

theorem Inv.reapTurn (hi : Inv s) (hphase : s.phase = .reap left) :
    Inv (reapTurn s left) := by
  unfold Children.reapTurn
  split
  · exact hi.promoteJobs hphase
  · cases hf : firstZombie s.tasks with
    | none => exact hi.promoteJobs hphase
    | some i =>
      obtain ⟨z, hz⟩ := firstZombie_some hf
      show Inv ((zombieAt s.tasks i).elim s (Children.reapOne s (left - 1) i))
      rw [hz]
      exact hi.reapOne hphase hz

/-- The ends of file may differ. -/
structure Kept (j k : Job) : Prop where
  state : k.state = j.state
  pid : k.pid = j.pid
  exitCode : k.exitCode = j.exitCode
  reaped : k.reaped = j.reaped
  serial : k.serial = j.serial

theorem Kept.refl (j : Job) : Kept j j := ⟨rfl, rfl, rfl, rfl, rfl⟩

theorem Kept.jobOk {k : Job}
    (h : Kept j k) (hj : JobOk n exits harvested j) : JobOk n exits harvested k := by
  obtain ⟨hs, hp, hc, hr, -⟩ := h
  constructor <;> rw [hs, hp]
  · exact hj.pid
  · rw [hr]
    exact hj.running
  · rw [hr, hc]
    exact hj.reaped
  · rw [hc]
    exact hj.exited

theorem Inv.retable (hi : Inv s) (hphase : s.phase ≠ .waits)
    (hany : ∀ i, (t i).state = .free ∨ Kept (s.jobs i) (t i))
    (hrun : ∀ i, (s.jobs i).state = .run → Kept (s.jobs i) (t i)) :
    Inv { s with jobs := t } := by
  have hkept : ∀ i, (t i).state = .run → Kept (s.jobs i) (t i) := fun i hr =>
    (hany i).resolve_left (by rw [hr]; nofun)
  exact
    { hi with
      jobs := fun i h => by
        rcases hany i with hf | hk
        · constructor <;> rw [hf] <;> nofun
        · exact hk.jobOk (hi.jobs i h)
      own := fun i k h1 h2 hr1 hr2 hp => by
        have hk1 := hkept i hr1
        have hk2 := hkept k hr2
        exact hi.own i k h1 h2 (hk1.state ▸ hr1) (hk2.state ▸ hr2)
          (hk1.pid.symm.trans (hp.trans hk2.pid))
      busy := fun c hc => by
        obtain ⟨h1, h2, h3⟩ := hi.busy c hc
        refine ⟨h1, h2, fun i hlt hr => ?_⟩
        have hk := hkept i hr
        rw [hk.pid]
        exact h3 i hlt (hk.state ▸ hr)
      drained := fun h => absurd h hphase
      waits := fun w hw => by
        obtain ⟨h1, h2, h3⟩ := hi.waits w hw
        have hr := h3.resolve_right fun h => hphase h.1
        have hk := hrun w.slot hr
        exact ⟨h1, hk.serial.trans h2, .inl (hk.state.trans hr)⟩ }

theorem Inv.turn (hi : Inv s) (hb : s.busy = none) (hphase : s.phase ≠ .waits) {ph : Phase}
    (hnext : ph ≠ .waits) : Inv { s with phase := ph } :=
  { hi with
    busy := fun c hc => by
      have hc : s.busy = some c := hc
      rw [hb] at hc
      cases hc
    drained := fun h => absurd h hnext
    waits := fun w hw => by
      obtain ⟨h1, h2, h3⟩ := hi.waits w hw
      exact ⟨h1, h2, .inl (h3.resolve_right fun h => hphase h.1)⟩ }

theorem Inv.spawn (hi : Inv s) (hb : s.busy = none) (hphase : s.phase ≠ .waits) {o : Spawn}
    {slot : Nat} (h : spawnRecordedJob s o slot = some s') : Inv s' := by
  cases o with
  | refused =>
    cases h
    exact hi
  | failed =>
    cases h
    refine hi.retable hphase (fun i => ?_) fun i hr => ?_
    · cases hs : (spawnTable s.jobs s.births .failed i).state with
      | free => exact .inl rfl
      | run =>
        rcases spawnTable_run hs with h | h
        · rw [h]
          exact .inr (Kept.refl _)
        · cases h.1
      | exit =>
        rw [spawnTable_exit hs]
        exact .inr (Kept.refl _)
    · rw [spawnTable_keeps hr]
      exact Kept.refl _
  | started pid =>
    simp only [spawnRecordedJob] at h
    split at h
    · cases h
      exact hi
    rename_i hfull
    split at h
    swap
    · cases h
    rename_i hf
    cases h
    obtain ⟨k, hk⟩ := ne_none_iff_exists'.mp hfull
    have hff := hi.fork hf
    rw [spawnTable_started hk]
    exact
      { hff with
        jobs := fun i hlt => by
          dsimp only
          by_cases hik : i = k
          · subst hik
            rw [update_self]
            refine ⟨fun _ => Nat.lt_succ_self pid, fun _ _ hmem => ?_, fun _ h => ?_, fun h => ?_⟩
            · have hlt := (hi.gone _ hmem).1
              exact absurd (lt_of_lt_of_le hlt hf.2.2) (lt_irrefl pid)
            · cases h
            · cases h
          · rw [update_of_ne hik]
            exact hff.jobs i hlt
        own := fun i l h1 h2 hr1 hr2 hp => by
          dsimp only at hr1 hr2 hp
          by_cases hik : i = k
          · by_cases hlk : l = k
            · exact hik.trans hlk.symm
            · subst hik
              rw [update_of_ne hlk] at hr2 hp
              rw [update_self] at hp
              have := (hi.jobs l h2).pid hr2
              rw [← hp] at this
              exact absurd (lt_of_lt_of_le this hf.2.2) (lt_irrefl pid)
          · by_cases hlk : l = k
            · subst hlk
              rw [update_of_ne hik] at hr1 hp
              rw [update_self] at hp
              have := (hi.jobs i h1).pid hr1
              rw [hp] at this
              exact absurd (lt_of_lt_of_le this hf.2.2) (lt_irrefl pid)
            · rw [update_of_ne hik] at hr1 hp
              rw [update_of_ne hlk] at hr2 hp
              exact hi.own i l h1 h2 hr1 hr2 hp
        busy := fun c hc => by
          have hc : s.busy = some c := hc
          rw [hb] at hc
          cases hc
        drained := fun h => absurd h hphase
        waits := fun w hw => by
          obtain ⟨h1, h2, h3⟩ := hi.waits w hw
          have hr := h3.resolve_right fun h => hphase h.1
          have hne : w.slot ≠ k := by
            intro h
            exact (jobAllocSlot_spec hk).2 (h ▸ hr)
          dsimp only
          rw [update_of_ne hne]
          exact ⟨h1, h2, .inl hr⟩ }

theorem Inv.wait (hi : Inv s) {conn : Nat} (h : handleShellJobWait s conn i = some s') :
    Inv s' := by
  unfold handleShellJobWait at h
  split at h
  · cases h
    exact hi
  rename_i hnot
  obtain ⟨hlt, hfree⟩ := not_or.mp hnot
  have hlt := not_le.mp hlt
  split at h
  · cases h
    exact
      { hi with
        told := forall_mem_append.mpr ⟨tellJob_true (hi.jobs i hlt), hi.told⟩
        answers := forall_mem_cons.mpr ⟨if_neg hfree, hi.answers⟩ }
  · rename_i hx
    cases h
    have hrun : (s.jobs i).state = .run := by
      cases hs : (s.jobs i).state with
      | free => exact absurd hs hfree
      | run => rfl
      | exit => exact absurd hs hx
    exact { hi with waits := forall_mem_cons.mpr ⟨⟨hlt, rfl, .inl hrun⟩, hi.waits⟩ }

theorem Inv.delete (hi : Inv s) (hphase : s.phase ≠ .waits) (i : Nat) :
    Inv (emitShellJobDelete s i) := by
  unfold emitShellJobDelete
  split
  swap
  · exact hi
  rename_i hx
  refine hi.retable hphase (fun k => ?_) fun k hr => ?_
  · by_cases hk : k = i
    · subst hk
      rw [update_self]
      exact .inl rfl
    · rw [update_of_ne hk]
      exact .inr (Kept.refl _)
  · have hk : k ≠ i := by
      rintro rfl
      rw [hx.2] at hr
      cases hr
    rw [update_of_ne hk]
    exact Kept.refl _

theorem drainJob_kept (eof : Bool × Bool) (j : Job) : Kept j (drainJob eof j) := by
  unfold drainJob
  split <;> exact ⟨rfl, rfl, rfl, rfl, rfl⟩

theorem Inv.resolve (hi : Inv s) (hphase : s.phase = .waits) (late : Nat → Bool) :
    Inv (processPendingWaits s late) := by
  have hidle := hi.idle (by rw [hphase]; nofun)
  exact
    { hi with
      busy := fun c hc => by
        have hc : s.busy = some c := hc
        rw [hidle] at hc
        cases hc
      drained := nofun
      told := by
        refine forall_mem_append.mpr ⟨fun r hr => ?_, hi.told⟩
        obtain ⟨w, hw, hr⟩ := mem_flatMap.mp hr
        have hlt := (hi.waits w (mem_filter.mp hw).1).1
        exact tellJob_true (hi.jobs w.slot hlt) r hr
      waits := fun w hw => by
        obtain ⟨hw, hres⟩ := mem_filter.mp hw
        obtain ⟨h1, h2, h3⟩ := hi.waits w hw
        refine ⟨h1, h2, .inl (h3.resolve_right fun h => ?_)⟩
        exact (of_decide_eq_true hres) (.inl h.2)
      answers := by
        refine forall_mem_append.mpr ⟨fun a ha => ?_, hi.answers⟩
        obtain ⟨w, hw, rfl⟩ := mem_map.mp ha
        obtain ⟨-, h2, h3⟩ := hi.waits w (mem_filter.mp hw).1
        rw [← h2]
        refine if_neg fun hf => ?_
        rw [hf] at h3
        rcases h3 with h | h
        · cases h
        · cases h.2 }

theorem inv_step (s : Agent) (l : Label) (s' : Agent) (hi : Inv s)
    (h : (agentLTS.restrict FindsOwn).step s l s') : Inv s' := by
  obtain ⟨hown, h⟩ := h
  cases l with
  | exit i code => exact hi.exit h
  | exec slot pid quiet =>
    obtain ⟨hg, h⟩ := ite_none_right_eq_some.mp h
    cases h
    have hf := hi.fork hg.2
    exact
      { hf with
        busy := fun c hc => by
          cases hc
          refine ⟨hg.1.1, Nat.lt_succ_self pid, fun i hlt hr hp => ?_⟩
          have hold : (s.jobs i).pid < pid := lt_of_lt_of_le ((hi.jobs i hlt).pid hr) hg.2.2.2
          exact hold.ne hp }
  | execWait => exact hi.execWait hown h
  | spawn o slot =>
    obtain ⟨hg, h⟩ := ite_none_right_eq_some.mp h
    rcases hg with hg | hg
    · exact hi.spawn hg.2 (by rw [hg.1]; nofun) h
    · exact hi.spawn (hi.idle (by rw [hg]; nofun)) (by rw [hg]; nofun) h
  | status i =>
    obtain ⟨hg, h⟩ := ite_none_right_eq_some.mp h
    cases h
    exact { hi with
      told := forall_mem_append.mpr ⟨tellJob_true (hi.jobs i hg.2), hi.told⟩ }
  | wait conn i =>
    exact hi.wait (ite_none_right_eq_some.mp h).2
  | delete i =>
    obtain ⟨hg, h⟩ := ite_none_right_eq_some.mp h
    cases h
    exact hi.delete (by rw [hg.1]; nofun) i
  | hangUp conn =>
    obtain ⟨-, h⟩ := ite_none_right_eq_some.mp h
    cases h
    exact { hi with waits := fun w hw => hi.waits w (mem_filter.mp hw).1 }
  | drain eofs =>
    obtain ⟨hg, h⟩ := ite_none_right_eq_some.mp h
    cases h
    have hd : s.phase ≠ .waits := by rw [hg.1]; nofun
    have ht := hi.retable hd (fun i => .inr (drainJob_kept (eofs i) (s.jobs i)))
      fun i _ => drainJob_kept (eofs i) (s.jobs i)
    exact ht.turn hg.2 hd nofun
  | reap =>
    obtain ⟨left, hl, rfl⟩ := map_eq_some_iff.mp h
    exact hi.reapTurn (phase_left hl)
  | resolve late =>
    obtain ⟨hg, h⟩ := ite_none_right_eq_some.mp h
    cases h
    exact hi.resolve hg late
  | next =>
    obtain ⟨hg, h⟩ := ite_none_right_eq_some.mp h
    cases h
    exact hi.turn (hi.idle (by rw [hg]; nofun)) (by rw [hg]; nofun) nofun

theorem inv_inductive : (agentLTS.restrict FindsOwn).Inductive Inv where
  init := fun _ h => by
    obtain rfl := h
    exact inv_boot
  step := inv_step

/-! ## Main result -/

/-- In every run where the `sys_wait` of a command finds that command's child: each
reported code is the status of the child it is reported for, after the turns of
`reap_finished_jobs` no job runs whose child was collected and whose pipes have ended, and every
wait is answered about the job it was issued for. -/
theorem codes_are_true (s : Agent) (hs : (agentLTS.restrict FindsOwn).Reachable s) :
    (∀ r ∈ s.told, s.exits r.pid = some r.code) ∧
      (s.phase = .waits → ∀ i, i < jobMax → (s.jobs i).state = .run →
        (s.jobs i).pid ∈ s.harvested → ¬((s.jobs i).outEof = true ∧ (s.jobs i).errEof = true)) ∧
      ∀ a ∈ s.answers, a.about = some a.issued := by
  have hi := inv_inductive.reachable s hs
  refine ⟨hi.told, fun hp i hlt hr hh he => ?_, hi.answers⟩
  have hj := hi.jobs i hlt
  have hre : (s.jobs i).reaped = true := by
    by_contra hn
    exact hj.running hr (Bool.eq_false_iff.mpr hn) hh
  exact hi.drained hp i hlt ⟨hr, hre, he⟩

/-- A job is waited for; a command runs and ends, then the job. -/
def inOrder : List Label :=
  [.spawn (.started 1) 0, .wait 3 0, .exec 1 2 false, .exit 1 0, .execWait, .exit 0 7,
    .drain fun _ => (true, true), .reap, .reap, .resolve fun _ => false]

theorem inOrder_run : ∃ s ∈ LTS.exec (LTS.guarded FindsOwn step) boot inOrder,
    (s.told, s.answers) = ([⟨1, 7⟩, ⟨1, 7⟩, ⟨2, 0⟩], [⟨0, some 0⟩]) ∧ (s.jobs 0).state = .exit := by
  decide +kernel

theorem codes_are_true_in_order :
    ∃ s : Agent, (s.told, s.answers) = ([⟨1, 7⟩, ⟨1, 7⟩, ⟨2, 0⟩], [⟨0, some 0⟩]) ∧
      (∀ r ∈ s.told, s.exits r.pid = some r.code) ∧
      (s.phase = .waits → ∀ i, i < jobMax → (s.jobs i).state = .run →
        (s.jobs i).pid ∈ s.harvested → ¬((s.jobs i).outEof = true ∧ (s.jobs i).errEof = true)) ∧
      ∀ a ∈ s.answers, a.about = some a.issued := by
  obtain ⟨s, hs, htold, -⟩ := inOrder_run
  exact ⟨s, htold, codes_are_true s ⟨boot, _, rfl, LTS.run_restrict_of_exec hs⟩⟩

def jobFirst : List Label :=
  [.spawn (.started 1) 0, .exec 1 2 false, .exit 0 7, .exit 1 0, .execWait]

theorem exec_takes_job_status :
    ¬ ∀ s, agentLTS.Reachable s → ∀ r ∈ s.told, s.exits r.pid = some r.code := by
  intro h
  have hs : agentLTS.Reachable (LTS.replay step boot jobFirst) :=
    LTS.Reachable.replay jobFirst (LTS.Reachable.init rfl) (by decide)
  have := h _ hs ⟨2, 7⟩ (by decide)
  cases this

/-- No pid is used twice, and a job that has ended has the status of its own child. -/
theorem jobs_own (s : Agent) (hs : (agentLTS.restrict FindsOwn).Reachable s) :
    (∀ i k c d, s.tasks i = some c → s.tasks k = some d → c.pid = d.pid → i = k) ∧
      (∀ i, i < jobMax → JobOk s.nextPid s.exits s.harvested (s.jobs i)) ∧
      ∀ i k, i < jobMax → k < jobMax → (s.jobs i).state = .run → (s.jobs k).state = .run →
        (s.jobs i).pid = (s.jobs k).pid → i = k :=
  let hi := inv_inductive.reachable s hs
  ⟨hi.alone, hi.jobs, hi.own⟩

theorem inOrder_job_own : ∃ s : Agent, (s.jobs 0).state = .exit ∧
    JobOk s.nextPid s.exits s.harvested (s.jobs 0) := by
  obtain ⟨s, hs, -, hexit⟩ := inOrder_run
  exact ⟨s, hexit, (jobs_own s ⟨boot, _, rfl, LTS.run_restrict_of_exec hs⟩).2.1 0 (by decide)⟩

end AdventOS.Agentd.Children
