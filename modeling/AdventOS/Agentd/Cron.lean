import AdventOS.Core.Replay
import AdventOS.Agentd.Jobs

/-!
# agentd's cron scheduler (`user/agentd.c`)

agentd has one thread: a run is a sequence of turns of `cron_tick`'s loop (one entry looked at),
of `cron.create`, `cron.cancel` and `cron.delete`, and of jobs that start and end elsewhere in the
event loop. The epochs that the calls read never decrease. `log` is what has happened, newest
first; an entry's `serial` and `due` (the second it is due at, as a number that does not wrap) are
history too.

An entry remembers its last job by the number of its slot, and `epoch + interval_sec` is a 32-bit
sum. So:

* `firing_sound`;
* `recycled_slot_skips`: the slot of a job that has ended can belong to another job, and a fire
  is dropped because of it.
-/
namespace AdventOS.Agentd.Cron
open Jobs Function List

/-! ## Entries -/

inductive Kind
  | oneshot
  | recurring
  deriving DecidableEq, Repr

inductive CronState
  | sched
  | cancelled
  | expired
  deriving DecidableEq, Repr

/-- `struct cron_entry`, less what is passed to the child and who is told of it. `serial`, `due`,
`lastSerial` (the job that the entry started last) and `ranBefore` (the runs that the file it was
loaded from counts) are history. -/
structure Entry where
  inUse : Bool
  id : UInt32
  kind : Kind
  state : CronState
  fireAt : UInt32
  intervalSec : UInt32
  maxRuns : UInt32
  runCount : UInt32
  lastRunAt : UInt32
  lastJobId : Int
  concurrent : Bool
  serial : Nat
  due : Nat
  lastSerial : Option Nat
  ranBefore : Nat
  deriving DecidableEq, Repr

def maxCronEntries : Nat := 32

/-- What happened to the entry with a serial number: it fired (at an epoch, being due at `due`), a
fire was skipped (with its own last job running, or not), or it was cancelled, deleted or ran
out. -/
inductive Note
  | fired (serial epoch : Nat) (e : Entry)
  | skipped (serial : Nat) (own : Bool)
  | ended (serial : Nat)

def fires (log : List Note) (serial : Nat) : List Nat :=
  log.filterMap fun n =>
    match n with
    | .fired k epoch _ => if k = serial then some epoch else none
    | .skipped _ _ => none
    | .ended _ => none

/-- `now` is the last epoch read. `owner` says which entry's job a job is, if one's. -/
structure State where
  cron : Nat → Entry
  nextId : UInt32
  jobs : Table
  now : UInt32
  births : Nat
  made : Nat
  owner : Nat → Option Nat
  log : List Note

/-! ## Operations -/

/-- agentd.c:1836-1841 -/
def cronAllocSlot (cron : Nat → Entry) : Option Nat :=
  (List.range maxCronEntries).find? fun i => !(cron i).inUse

/-- agentd.c:1828-1834: `id` is an `int`. -/
def cronFind (cron : Nat → Entry) (id : UInt32) : Option Nat :=
  if id.toInt32 ≤ 0 then none
  else (List.range maxCronEntries).find? fun i => (cron i).inUse && (cron i).id == id

/-- agentd.c:1843-1865 -/
def cronClear (e : Entry) : Entry :=
  { e with
    inUse := false
    id := 0
    fireAt := 0
    intervalSec := 0
    maxRuns := 0
    runCount := 0
    lastRunAt := 0
    lastJobId := -1
    concurrent := false }

/-- `fire_at`, `delay_sec`, or neither; a `long` has 32 bits. -/
inductive Timing
  | now
  | at (v : Int32)
  | after (v : Int32)

/-- The parameters of `cron.create` that the scheduler keeps. `valid` is whether the others are
in order and not both timings are given, `stored` whether the arguments fit into the entry and the
file is written. -/
structure Request where
  kind : Kind
  timing : Timing
  intervalSec : Option Int32
  maxRuns : Option Int32
  concurrent : Bool
  valid : Bool
  stored : Bool

/-- When the entry is to fire, as the entry has it and as a number. -/
def Timing.fireAt (t : Timing) (now : UInt32) : Option (UInt32 × Nat) :=
  match t with
  | .now => some (now, now.toNat)
  | .at v => if v < 0 then none else some (v.toUInt32, v.toUInt32.toNat)
  | .after v => if v < 0 then none else some (now + v.toUInt32, now.toNat + v.toUInt32.toNat)

/-- `interval_sec` and `max_runs`. agentd.c:2194-2209 -/
def Request.repeats (r : Request) : Option (UInt32 × UInt32) :=
  match r.kind with
  | .oneshot => some (0, 0)
  | .recurring =>
    r.intervalSec.bind fun v =>
      if v < 1 then none
      else
        match r.maxRuns with
        | none => some (v.toUInt32, 0)
        | some m => if m < 0 then none else some (v.toUInt32, m.toUInt32)

/-- The entry that `cron.create` makes. agentd.c:2260-2269 -/
def newEntry (r : Request) (id : UInt32) (made : Nat) (fireAt : UInt32 × Nat)
    (rep : UInt32 × UInt32) : Entry where
  inUse := true
  id := id
  kind := r.kind
  state := .sched
  fireAt := fireAt.1
  intervalSec := rep.1
  maxRuns := rep.2
  runCount := 0
  lastRunAt := 0
  lastJobId := -1
  concurrent := r.concurrent
  serial := made
  due := fireAt.2
  lastSerial := none
  ranBefore := 0

def setEntry (s : State) (i : Nat) (e : Entry) : State :=
  { s with cron := update s.cron i e }

/-- agentd.c:2163-2303: a request that fails late has used up an id. -/
def emitCronCreate (s : State) (r : Request) : State :=
  if !r.valid then s
  else
    ((r.timing.fireAt s.now).bind fun fireAt => r.repeats.bind fun rep =>
      (cronAllocSlot s.cron).map fun slot =>
        if r.stored then
          { setEntry s slot (newEntry r s.nextId s.made fireAt rep) with
            nextId := s.nextId + 1, made := s.made + 1 }
        else { setEntry s slot (cronClear (s.cron slot)) with nextId := s.nextId + 1 }).getD s

def note (s : State) (n : Note) : State := { s with log := n :: s.log }

/-- agentd.c:2396-2410 -/
def emitCronCancel (s : State) (id : UInt32) : State :=
  match cronFind s.cron id with
  | none => s
  | some i =>
    if (s.cron i).state = .sched then
      note (setEntry s i { s.cron i with state := .cancelled }) (.ended (s.cron i).serial)
    else s

/-- agentd.c:2412-2424 -/
def emitCronDelete (s : State) (id : UInt32) : State :=
  match cronFind s.cron id with
  | none => s
  | some i => note (setEntry s i (cronClear (s.cron i))) (.ended (s.cron i).serial)

/-- The entry's own last job is the one that runs in the slot it remembers. -/
def ownJobRuns (s : State) (e : Entry) : Bool :=
  jobIsRunning s.jobs e.lastJobId && e.lastSerial = some (s.jobs e.lastJobId.toNat).serial

/-- The schedule moves on without a job. agentd.c:2081-2093 -/
def skipFire (s : State) (i : Nat) (e : Entry) (epoch : UInt32) : State :=
  let s := note s (.skipped e.serial (ownJobRuns s e))
  match e.kind with
  | .recurring => setEntry s i
      { e with fireAt := epoch + e.intervalSec, due := epoch.toNat + e.intervalSec.toNat }
  | .oneshot => note (setEntry s i { e with state := .expired }) (.ended e.serial)

/-- The bookkeeping after a job was started in `slot`. agentd.c:2104-2114 -/
def recordFire (s : State) (i : Nat) (e : Entry) (epoch : UInt32) (slot job : Nat) : State :=
  let s := note s (.fired e.serial epoch.toNat e)
  let e := { e with
    lastJobId := slot
    lastRunAt := epoch
    runCount := e.runCount + 1
    lastSerial := some job }
  match e.kind with
  | .oneshot => note (setEntry s i { e with state := .expired }) (.ended e.serial)
  | .recurring =>
    let e := { e with
      fireAt := epoch + e.intervalSec, due := epoch.toNat + e.intervalSec.toNat }
    if e.maxRuns ≠ 0 ∧ e.runCount ≥ e.maxRuns then
      note (setEntry s i { e with state := .expired }) (.ended e.serial)
    else setEntry s i e

def spawn (s : State) (o : Spawn) (owner : Option Nat) : State :=
  { s with
    jobs := spawnTable s.jobs s.births o
    births := s.births + 1
    owner := update s.owner s.births owner }

/-- A turn of the loop of `cron_tick`. agentd.c:2076-2116 -/
def cronTurn (s : State) (i : Nat) (epoch : UInt32) (o : Spawn) : State :=
  let e := s.cron i
  if !e.inUse then s
  else if e.state ≠ .sched then s
  else if e.fireAt > epoch then s
  else if !e.concurrent && jobIsRunning s.jobs e.lastJobId then skipFire s i e epoch
  else
    match spawnSlot s.jobs o with
    | none => spawn s o none
    | some slot => recordFire (spawn s o (some e.serial)) i e epoch slot s.births

/-- `turn`, and what else happens: an RPC, a client's background job, a job's end
(`reap_finished_jobs`), `shell.job.delete`, and time. -/
inductive Event
  | turn (i : Nat) (o : Spawn)
  | time (epoch : UInt32)
  | create (r : Request)
  | cancel (id : UInt32)
  | delete (id : UInt32)
  | background (o : Spawn)
  | jobExit (slot : Nat)
  | jobDelete (slot : Nat)

def setJob (s : State) (slot : Nat) (j : Job) : State :=
  { s with jobs := update s.jobs slot j }

def step (s : State) : Event → Option State
  | .turn i o => if i < maxCronEntries then some (cronTurn s i s.now o) else none
  | .time epoch => if s.now ≤ epoch then some { s with now := epoch } else none
  | .create r => some (emitCronCreate s r)
  | .cancel id => some (emitCronCancel s id)
  | .delete id => some (emitCronDelete s id)
  | .background o => some (spawn s o none)
  | .jobExit slot =>
    if slot < jobMax ∧ (s.jobs slot).state = .run then
      some (setJob s slot { s.jobs slot with state := .exit })
    else none
  | .jobDelete slot =>
    if slot < jobMax ∧ (s.jobs slot).state = .exit then
      some (setJob s slot (jobClear (s.jobs slot)))
    else none

/-- An entry that was loaded at boot has no job yet, and runs left to make. -/
structure Loaded (e : Entry) : Prop where
  lastJobId : e.lastJobId = -1
  due : e.due = e.fireAt.toNat
  ranBefore : e.ranBefore = e.runCount.toNat
  runs : e.state = .sched → e.maxRuns ≠ 0 → e.runCount < e.maxRuns

/-- At boot: the entries that were loaded, and no job. -/
structure Init (s : State) : Prop where
  loaded : ∀ i, i < maxCronEntries → (s.cron i).inUse = true → Loaded (s.cron i)
  serials : ∀ i j, i < maxCronEntries → j < maxCronEntries → (s.cron i).inUse = true →
    (s.cron j).inUse = true → (s.cron i).serial = (s.cron j).serial → i = j
  made : ∀ i, i < maxCronEntries → (s.cron i).inUse = true → (s.cron i).serial < s.made
  jobs : ∀ i, (s.jobs i).state = .free
  log : s.log = []

def scheduler : LTS State Event := .ofFn Init step

/-! ## What fires have to be -/

/-- A fire of entry `k`, which is `e` then, after what happened before. -/
structure FireOk (older : List Note) (k epoch : Nat) (e : Entry) : Prop where
  due : e.due ≤ epoch
  alive : .ended k ∉ older
  oneshot : e.kind = .oneshot → fires older k = []
  runs : e.maxRuns ≠ 0 → e.ranBefore + (fires older k).length < e.maxRuns.toNat
  apart : e.kind = .recurring → ∀ t ∈ fires older k, t + e.intervalSec.toNat ≤ epoch

/-- Every fire is in order, and every fire that was skipped had the entry's own job running. -/
def Fine : List Note → Prop
  | [] => True
  | .fired k epoch e :: older => FireOk older k epoch e ∧ Fine older
  | .skipped _ own :: older => own = true ∧ Fine older
  | .ended _ :: older => Fine older

/-- Two jobs of an entry without `concurrent` do not run at a time. -/
def Alone (s : State) : Prop :=
  ∀ k epoch e, .fired k epoch e ∈ s.log → e.concurrent = false → ∀ a b,
    (s.jobs a).state = .run → (s.jobs b).state = .run → s.owner (s.jobs a).serial = some k →
    s.owner (s.jobs b).serial = some k → a = b

/-- The sums of epochs and intervals do not wrap, and where an entry that is due finds a job
running in the slot of its last job, it is that job. -/
def Careful (s : State) : Event → Prop
  | .turn i _ => (s.cron i).inUse = true → (s.cron i).state = .sched → (s.cron i).fireAt ≤ s.now →
      ((s.cron i).kind = .recurring →
        s.now.toNat + (s.cron i).intervalSec.toNat < 2 ^ 32) ∧
      ((s.cron i).concurrent = false → jobIsRunning s.jobs (s.cron i).lastJobId = true →
        ownJobRuns s (s.cron i) = true)
  | .create r => ∀ v, r.timing = .after v → s.now.toNat + v.toUInt32.toNat < 2 ^ 32
  | .time _ => True
  | .cancel _ => True
  | .delete _ => True
  | .background _ => True
  | .jobExit _ => True
  | .jobDelete _ => True

/-! ## The invariant -/

def Note.serial : Note → Nat
  | .fired k _ _ => k
  | .skipped k _ => k
  | .ended k => k

/-- What the history says of an entry that is scheduled. -/
structure Live (log : List Note) (e : Entry) : Prop where
  due : e.fireAt.toNat = e.due
  alive : .ended e.serial ∉ log
  oneshot : e.kind = .oneshot → fires log e.serial = []
  runs : e.maxRuns ≠ 0 →
    e.ranBefore + (fires log e.serial).length = e.runCount.toNat ∧ e.runCount < e.maxRuns

/-- What the history says of an entry that is in the table. -/
structure EntryOk (log : List Note) (made : Nat) (e : Entry) : Prop where
  made : e.serial < made
  apart : e.kind = .recurring → ∀ t ∈ fires log e.serial, t + e.intervalSec.toNat ≤ e.due
  same : ∀ epoch e', .fired e.serial epoch e' ∈ log → e'.concurrent = e.concurrent
  live : e.state = .sched → Live log e

/-- A job of an entry without `concurrent` that runs is in the slot the entry remembers. -/
def LastJob (s : State) (e : Entry) : Prop :=
  e.concurrent = false → ∀ a, (s.jobs a).state = .run →
    s.owner (s.jobs a).serial = some e.serial → e.lastJobId = a

structure Inv (s : State) : Prop where
  entries : ∀ i, i < maxCronEntries → (s.cron i).inUse = true → EntryOk s.log s.made (s.cron i)
  lastJob : ∀ i, i < maxCronEntries → (s.cron i).inUse = true → LastJob s (s.cron i)
  serials : ∀ i j, i < maxCronEntries → j < maxCronEntries → (s.cron i).inUse = true →
    (s.cron j).inUse = true → (s.cron i).serial = (s.cron j).serial → i = j
  notes : ∀ n ∈ s.log, n.serial < s.made
  jobs : ∀ a, (s.jobs a).state = .run → a < jobMax ∧ (s.jobs a).serial < s.births
  owners : ∀ a k, (s.jobs a).state = .run → s.owner (s.jobs a).serial = some k → k < s.made
  alone : Alone s
  fine : Fine s.log

/-! ## The history -/

variable {n : Note} {log : List Note} {epoch i k made slot : Nat} {e : Entry} {s t : State}
  {o : Spawn} {cron : Nat → Entry} {id : UInt32}

theorem fires_cons_of_ne (h : n.serial ≠ k) :
    fires (n :: log) k = fires log k := by
  cases n with
  | fired j epoch e =>
    refine filterMap_cons_none ?_
    exact if_neg h
  | skipped j own => rfl
  | ended j => rfl

theorem fires_cons_fired :
    fires (.fired k epoch e :: log) k = epoch :: fires log k :=
  filterMap_cons_some (if_pos rfl)

theorem fires_nil (h : ∀ n ∈ log, n.serial < k) : fires log k = [] := by
  induction log with
  | nil => rfl
  | cons n log ih =>
    rw [fires_cons_of_ne (Nat.ne_of_lt (h n mem_cons_self))]
    exact ih fun m hm => h m (mem_cons_of_mem _ hm)

theorem mem_cons_of_ne {m : Note} (hm : m ∈ n :: log)
    (hn : n.serial ≠ m.serial) : m ∈ log := by
  rcases mem_cons.mp hm with rfl | hm
  · exact absurd rfl hn
  · exact hm

theorem EntryOk.note_ne
    (h : EntryOk log made e) (hn : n.serial ≠ e.serial) : EntryOk (n :: log) made e := by
  have hf : fires (n :: log) e.serial = fires log e.serial := fires_cons_of_ne hn
  refine ⟨h.made, ?_, fun epoch e' hm => h.same epoch e' (mem_cons_of_ne hm hn), ?_⟩
  · rw [hf]
    exact h.apart
  · intro hs
    have hl := h.live hs
    refine ⟨hl.due, fun hm => hl.alive (mem_cons_of_ne hm hn), ?_, ?_⟩
    · rw [hf]
      exact hl.oneshot
    · rw [hf]
      exact hl.runs

theorem EntryOk.more {made' : Nat} (h : EntryOk log made e)
    (hm : made ≤ made') : EntryOk log made' e :=
  { h with made := Nat.lt_of_lt_of_le h.made hm }

theorem EntryOk.ended (h : EntryOk log made e)
    (_hk : k = e.serial) (hs : e.state ≠ .sched) : EntryOk (.ended k :: log) made e where
  made := h.made
  apart := h.apart
  same epoch e' hm := by
    rcases mem_cons.mp hm with hm | hm
    · cases hm
    · exact h.same epoch e' hm
  live hh := absurd hh hs

/-- An entry that fires is in order, and so is what it is afterwards, as long as it stays
scheduled only with runs left. -/
theorem EntryOk.fire (h : EntryOk log made e)
    (hs : e.state = .sched) (hd : e.fireAt.toNat ≤ epoch) : FireOk log e.serial epoch e := by
  have hl := h.live hs
  have hdue := hl.due
  refine ⟨by omega, hl.alive, hl.oneshot, fun hm => ?_, fun hk t ht => ?_⟩
  · obtain ⟨hr, hlt⟩ := hl.runs hm
    rw [UInt32.lt_iff_toNat_lt] at hlt
    omega
  · have hap := h.apart hk t ht
    omega

theorem EntryOk.fired {e' : Entry}
    (h : EntryOk log made e) (hd : e.due ≤ epoch) (hser : e'.serial = e.serial)
    (hconc : e'.concurrent = e.concurrent)
    (hkind : e'.kind = .recurring → e.kind = .recurring ∧ e'.intervalSec = e.intervalSec ∧
      e'.due = epoch + e.intervalSec.toNat)
    (hlive : e'.state = .sched → Live (.fired e.serial epoch e :: log) e') :
    EntryOk (.fired e.serial epoch e :: log) made e' := by
  refine ⟨hser ▸ h.made, ?_, ?_, hlive⟩
  · intro hk t ht
    obtain ⟨hk', hint, hdue⟩ := hkind hk
    rw [hser, fires_cons_fired] at ht
    rw [hint, hdue]
    rcases mem_cons.mp ht with rfl | ht
    · exact Nat.le_refl _
    · have hap := h.apart hk' t ht
      omega
  · intro epoch' e'' hm
    rw [hser] at hm
    rw [hconc]
    rcases mem_cons.mp hm with hm | hm
    · obtain ⟨_, _, rfl⟩ := Note.fired.inj hm
      rfl
    · exact h.same epoch' e'' hm

/-! ## Steps that leave the entries alone -/

theorem Inv.jobsOnly (h : Inv s) (hcron : t.cron = s.cron) (hmade : t.made = s.made)
    (hlog : t.log = s.log)
    (hrun : ∀ a, (t.jobs a).state = .run →
      (s.jobs a).state = .run ∧ t.owner (t.jobs a).serial = s.owner (s.jobs a).serial ∨
        t.owner (t.jobs a).serial = none)
    (hjobs : ∀ a, (t.jobs a).state = .run → a < jobMax ∧ (t.jobs a).serial < t.births) : Inv t := by
  have hown : ∀ a k, (t.jobs a).state = .run → t.owner (t.jobs a).serial = some k →
      (s.jobs a).state = .run ∧ s.owner (s.jobs a).serial = some k := by
    intro a k ha hk
    rcases hrun a ha with ⟨hr, ho⟩ | ho
    · exact ⟨hr, ho ▸ hk⟩
    · rw [hk] at ho
      cases ho
  refine ⟨?_, ?_, ?_, ?_, hjobs, ?_, ?_, ?_⟩
  · rw [hcron, hlog, hmade]
    exact h.entries
  · intro i hi hu hc a ha ho
    rw [hcron] at hu hc ho ⊢
    obtain ⟨hr, ho'⟩ := hown a _ ha ho
    exact h.lastJob i hi hu hc a hr ho'
  · rw [hcron]
    exact h.serials
  · rw [hlog, hmade]
    exact h.notes
  · intro a k ha ho
    obtain ⟨hr, ho'⟩ := hown a k ha ho
    exact hmade ▸ h.owners a k hr ho'
  · intro k epoch e hm hc a b ha hb hoa hob
    rw [hlog] at hm
    obtain ⟨hra, hoa'⟩ := hown a k ha hoa
    obtain ⟨hrb, hob'⟩ := hown b k hb hob
    exact h.alone k epoch e hm hc a b hra hrb hoa' hob'
  · rw [hlog]
    exact h.fine

theorem Inv.spawn (h : Inv s) : Inv (spawn s o none) := by
  have hself : ∀ a, (spawnTable s.jobs s.births o a).state = .run →
      (spawnTable s.jobs s.births o a = s.jobs a ∧ (s.jobs a).serial ≠ s.births) ∨
        a < jobMax ∧ (spawnTable s.jobs s.births o a).serial = s.births := by
    intro a ha
    rcases spawnTable_run ha with heq | ⟨hslot, hser⟩
    · rw [heq] at ha
      exact .inl ⟨heq, Nat.ne_of_lt (h.jobs a ha).2⟩
    · obtain ⟨_, _, hslot⟩ := spawnSlot_some hslot
      exact .inr ⟨(jobAllocSlot_spec hslot).1, hser⟩
  refine h.jobsOnly rfl rfl rfl (fun a ha => ?_) fun a ha => ?_
  · have ha' : (spawnTable s.jobs s.births o a).state = .run := ha
    show (s.jobs a).state = .run ∧
      update s.owner s.births none (spawnTable s.jobs s.births o a).serial =
        s.owner (s.jobs a).serial ∨
      update s.owner s.births none (spawnTable s.jobs s.births o a).serial = none
    rcases hself a ha' with ⟨heq, hne⟩ | ⟨_, hser⟩
    · rw [heq] at ha' ⊢
      exact .inl ⟨ha', update_of_ne hne _ _⟩
    · rw [hser]
      exact .inr (update_self _ _ _)
  · have ha' : (spawnTable s.jobs s.births o a).state = .run := ha
    show a < jobMax ∧ (spawnTable s.jobs s.births o a).serial < s.births + 1
    rcases hself a ha' with ⟨heq, _⟩ | ⟨hlt, hser⟩
    · rw [heq] at ha' ⊢
      exact ⟨(h.jobs a ha').1, Nat.lt_succ_of_lt (h.jobs a ha').2⟩
    · exact ⟨hlt, by omega⟩

theorem Inv.setJob {j : Job} (h : Inv s) (hj : j.state ≠ .run) :
    Inv (setJob s slot j) := by
  have hrun : ∀ a, ((Cron.setJob s slot j).jobs a).state = .run →
      (Cron.setJob s slot j).jobs a = s.jobs a := by
    intro a ha
    by_cases hs : a = slot
    · subst hs
      exact absurd (by simpa [Cron.setJob] using ha) hj
    · exact update_of_ne hs _ _
  refine h.jobsOnly rfl rfl rfl (fun a ha => ?_) fun a ha => ?_
  · have heq := hrun a ha
    rw [heq] at ha ⊢
    exact .inl ⟨ha, rfl⟩
  · have heq := hrun a ha
    rw [heq] at ha ⊢
    exact h.jobs a ha

/-! ## Steps that change an entry -/

theorem serials_update (h : ∀ j k, j < maxCronEntries → k < maxCronEntries → (cron j).inUse = true →
      (cron k).inUse = true → (cron j).serial = (cron k).serial → j = k)
    (hself : e.inUse = true →
      ∀ j, j < maxCronEntries → j ≠ i → (cron j).inUse = true → (cron j).serial ≠ e.serial) :
    ∀ j k, j < maxCronEntries → k < maxCronEntries → (update cron i e j).inUse = true →
      (update cron i e k).inUse = true →
      (update cron i e j).serial = (update cron i e k).serial → j = k := by
  intro j k hj hk huj huk hser
  by_cases hji : j = i
  · by_cases hki : k = i
    · rw [hji, hki]
    · rw [hji, update_self] at huj hser
      rw [update_of_ne hki] at huk hser
      exact absurd hser.symm (hself huj k hk hki huk)
  · rw [update_of_ne hji] at huj hser
    by_cases hki : k = i
    · rw [hki, update_self] at huk hser
      exact absurd hser (hself huk j hj hji huj)
    · rw [update_of_ne hki] at huk hser
      exact h j k hj hk huj huk hser

theorem Inv.setEntry (h : Inv s) (hi : i < maxCronEntries)
    (hcron : t.cron = update s.cron i e) (hmade : s.made ≤ t.made)
    (hjobs : t.jobs = s.jobs) (howner : t.owner = s.owner) (hbirths : t.births = s.births)
    (hnew : ∀ n ∈ t.log, n ∈ s.log ∨ n.serial < t.made ∧ ∀ k epoch e', n ≠ .fired k epoch e')
    (hother : ∀ j, j < maxCronEntries → j ≠ i → (s.cron j).inUse = true →
      EntryOk s.log s.made (s.cron j) → EntryOk t.log t.made (s.cron j))
    (hself : e.inUse = true → EntryOk t.log t.made e ∧ LastJob t e ∧
      ∀ j, j < maxCronEntries → j ≠ i → (s.cron j).inUse = true → (s.cron j).serial ≠ e.serial)
    (hfine : Fine t.log) : Inv t := by
  refine ⟨?_, ?_, ?_, ?_, ?_, ?_, ?_, hfine⟩
  · intro j hj hu
    rw [hcron] at hu ⊢
    by_cases hji : j = i
    · subst hji
      rw [update_self] at hu ⊢
      exact (hself hu).1
    · rw [update_of_ne hji] at hu ⊢
      exact hother j hj hji hu (h.entries j hj hu)
  · intro j hj hu
    rw [hcron] at hu ⊢
    by_cases hji : j = i
    · subst hji
      rw [update_self] at hu ⊢
      exact (hself hu).2.1
    · rw [update_of_ne hji] at hu ⊢
      intro hc a ha ho
      rw [hjobs] at ha ho
      rw [howner] at ho
      exact h.lastJob j hj hu hc a ha ho
  · rw [hcron]
    exact serials_update h.serials fun hu => (hself hu).2.2
  · intro n hn
    rcases hnew n hn with hn | hn
    · exact Nat.lt_of_lt_of_le (h.notes n hn) hmade
    · exact hn.1
  · rw [hjobs, hbirths]
    exact h.jobs
  · rw [hjobs, howner]
    exact fun a k ha ho => Nat.lt_of_lt_of_le (h.owners a k ha ho) hmade
  · intro k epoch e' hm hc
    rw [hjobs, howner]
    rcases hnew _ hm with hm | hm
    · exact h.alone k epoch e' hm hc
    · exact absurd rfl (hm.2 k epoch e')

theorem EntryOk.stop (h : EntryOk log made e)
    {state : CronState} (hs : state ≠ .sched) :
    EntryOk (.ended e.serial :: log) made { e with state } :=
  EntryOk.ended (e := { e with state }) ⟨h.made, h.apart, h.same, fun hh => absurd hh hs⟩ rfl hs

theorem Inv.serial_ne {j : Nat} (h : Inv s) (hi : i < maxCronEntries)
    (hu : (s.cron i).inUse = true) (hj : j < maxCronEntries) (hji : j ≠ i)
    (huj : (s.cron j).inUse = true) : (s.cron i).serial ≠ (s.cron j).serial :=
  fun heq => hji (h.serials j i hj hi huj hu heq.symm)

theorem cronFind_spec (h : cronFind cron id = some i) :
    i < maxCronEntries ∧ (cron i).inUse = true := by
  unfold cronFind at h
  split at h
  · cases h
  · have hs := List.find?_some h
    rw [Bool.and_eq_true] at hs
    exact ⟨mem_range.mp (mem_of_find?_eq_some h), hs.1⟩

theorem Inv.cancel (h : Inv s) : Inv (emitCronCancel s id) := by
  unfold emitCronCancel
  cases hf : cronFind s.cron id with
  | none => exact h
  | some i =>
    obtain ⟨hi, hu⟩ := cronFind_spec hf
    dsimp only
    split
    · refine h.setEntry hi rfl (Nat.le_refl _) rfl rfl rfl ?_ ?_ (fun _ => ⟨?_, ?_, ?_⟩) h.fine
      · intro n hn
        rcases mem_cons.mp hn with rfl | hn
        · exact .inr ⟨(h.entries i hi hu).made, fun _ _ _ => by simp⟩
        · exact .inl hn
      · exact fun j hj hji huj hok => hok.note_ne (h.serial_ne hi hu hj hji huj)
      · exact (h.entries i hi hu).stop (by decide)
      · exact h.lastJob i hi hu
      · exact fun j hj hji huj => (h.serial_ne hi hu hj hji huj).symm
    · exact h

theorem Inv.delete (h : Inv s) : Inv (emitCronDelete s id) := by
  unfold emitCronDelete
  cases hf : cronFind s.cron id with
  | none => exact h
  | some i =>
    obtain ⟨hi, hu⟩ := cronFind_spec hf
    refine h.setEntry hi rfl (Nat.le_refl _) rfl rfl rfl ?_ ?_ (fun hc => nomatch hc) h.fine
    · intro n hn
      rcases mem_cons.mp hn with rfl | hn
      · exact .inr ⟨(h.entries i hi hu).made, fun _ _ _ => by simp⟩
      · exact .inl hn
    · exact fun j hj hji huj hok => hok.note_ne (h.serial_ne hi hu hj hji huj)

theorem cronAllocSlot_spec (h : cronAllocSlot cron = some i) :
    i < maxCronEntries ∧ (cron i).inUse = false := by
  have hs := List.find?_some h
  exact ⟨mem_range.mp (mem_of_find?_eq_some h), by simpa using hs⟩

theorem Timing.fireAt_due {t : Timing} {now : UInt32} {f : UInt32 × Nat}
    (h : t.fireAt now = some f)
    (hc : ∀ v, t = .after v → now.toNat + v.toUInt32.toNat < 2 ^ 32) : f.1.toNat = f.2 := by
  cases t with
  | now =>
    obtain rfl := Option.some.inj h
    rfl
  | «at» v =>
    simp only [Timing.fireAt] at h
    split at h
    · cases h
    · obtain rfl := Option.some.inj h
      rfl
  | after v =>
    simp only [Timing.fireAt] at h
    split at h
    · cases h
    · obtain rfl := Option.some.inj h
      rw [UInt32.toNat_add]
      exact Nat.mod_eq_of_lt (hc v rfl)

theorem Inv.create {r : Request} (h : Inv s)
    (hc : ∀ v, r.timing = .after v → s.now.toNat + v.toUInt32.toNat < 2 ^ 32) :
    Inv (emitCronCreate s r) := by
  unfold emitCronCreate
  split
  · exact h
  cases hf : r.timing.fireAt s.now with
  | none => exact h
  | some f =>
    cases hr : r.repeats with
    | none => exact h
    | some rep =>
      cases hs : cronAllocSlot s.cron with
      | none => exact h
      | some slot =>
        obtain ⟨hslot, hfree⟩ := cronAllocSlot_spec hs
        split
        · refine h.setEntry hslot rfl (Nat.le_succ _) rfl rfl rfl
            (fun n hn => .inl hn) (fun j _ _ _ hok => hok.more (Nat.le_succ _)) ?_ h.fine
          have hnil : fires s.log s.made = [] := fires_nil h.notes
          refine fun _ => ⟨⟨Nat.lt_succ_self _, ?_, ?_, fun _ => ⟨?_, ?_, ?_, ?_⟩⟩, ?_, ?_⟩
          · intro _ t ht
            have ht' : t ∈ fires s.log s.made := ht
            rw [hnil] at ht'
            cases ht'
          · exact fun epoch e' hm => absurd (h.notes _ hm) (Nat.lt_irrefl _)
          · exact Timing.fireAt_due hf hc
          · exact fun hm => absurd (h.notes _ hm) (Nat.lt_irrefl _)
          · exact fun _ => hnil
          · intro hm
            refine ⟨?_, ?_⟩
            · show 0 + (fires s.log s.made).length = 0
              rw [hnil]
              rfl
            · show (0 : UInt32) < rep.2
              have hm' : rep.2 ≠ 0 := hm
              exact UInt32.pos_iff_ne_zero.mpr hm'
          · exact fun _ a ha ho => absurd (h.owners a _ ha ho) (Nat.lt_irrefl _)
          · exact fun j hj _ huj => Nat.ne_of_lt (h.entries j hj huj).made
        · exact h.setEntry hslot rfl (Nat.le_refl _) rfl rfl rfl
            (fun n hn => .inl hn) (fun j _ _ _ hok => hok) (fun hu => nomatch hu) h.fine

theorem Inv.skipFire (h : Inv s) (hi : i < maxCronEntries)
    (hu : (s.cron i).inUse = true) (hs : (s.cron i).state = .sched)
    (hdue : (s.cron i).fireAt ≤ s.now) (hown : ownJobRuns s (s.cron i) = true)
    (hwrap : (s.cron i).kind = .recurring →
      s.now.toNat + (s.cron i).intervalSec.toNat < 2 ^ 32) :
    Inv (skipFire s i (s.cron i) s.now) := by
  have hok := h.entries i hi hu
  have hl := hok.live hs
  have hskip : EntryOk (.skipped (s.cron i).serial (ownJobRuns s (s.cron i)) :: s.log) s.made
      (s.cron i) := by
    refine ⟨hok.made, hok.apart, fun epoch e' hm => ?_, fun _ => ⟨hl.due, ?_, hl.oneshot, hl.runs⟩⟩
    · rcases mem_cons.mp hm with hm | hm
      · cases hm
      · exact hok.same epoch e' hm
    · intro hm
      rcases mem_cons.mp hm with hm | hm
      · cases hm
      · exact hl.alive hm
  have hne : ∀ j, j < maxCronEntries → j ≠ i → (s.cron j).inUse = true →
      (s.cron i).serial ≠ (s.cron j).serial := fun j hj hji huj => h.serial_ne hi hu hj hji huj
  unfold Cron.skipFire
  split
  · rename_i hk
    refine h.setEntry hi rfl (Nat.le_refl _) rfl rfl rfl ?_ ?_ (fun _ => ⟨?_, ?_, ?_⟩)
      ⟨hown, h.fine⟩
    · intro n hn
      rcases mem_cons.mp hn with rfl | hn
      · exact .inr ⟨hok.made, fun _ _ _ => by simp⟩
      · exact .inl hn
    · exact fun j hj hji huj hokj => hokj.note_ne (hne j hj hji huj)
    · rw [UInt32.le_iff_toNat_le] at hdue
      have hle := hl.due
      refine ⟨hok.made, fun _ t ht => ?_, hskip.same, fun _ => ⟨?_, (hskip.live hs).alive, ?_, ?_⟩⟩
      · have hap := hskip.apart hk t ht
        show t + (s.cron i).intervalSec.toNat ≤ s.now.toNat + (s.cron i).intervalSec.toNat
        omega
      · show (s.now + (s.cron i).intervalSec).toNat =
          s.now.toNat + (s.cron i).intervalSec.toNat
        rw [UInt32.toNat_add]
        exact Nat.mod_eq_of_lt (hwrap hk)
      · exact fun ho => absurd (hk.symm.trans ho) (by decide)
      · exact hl.runs
    · exact h.lastJob i hi hu
    · exact fun j hj hji huj => (hne j hj hji huj).symm
  · refine h.setEntry hi rfl (Nat.le_refl _) rfl rfl rfl ?_ ?_ (fun _ => ⟨?_, ?_, ?_⟩)
      ⟨hown, h.fine⟩
    · intro n hn
      rcases mem_cons.mp hn with rfl | hn
      · exact .inr ⟨hok.made, fun _ _ _ => by simp⟩
      rcases mem_cons.mp hn with rfl | hn
      · exact .inr ⟨hok.made, fun _ _ _ => by simp⟩
      · exact .inl hn
    · exact fun j hj hji huj hokj =>
        (hokj.note_ne (n := .skipped (s.cron i).serial _) (hne j hj hji huj)).note_ne
          (hne j hj hji huj)
    · exact hskip.stop (nofun : CronState.expired ≠ .sched)
    · exact h.lastJob i hi hu
    · exact fun j hj hji huj => (hne j hj hji huj).symm

theorem spawn_jobs (h : Inv s)
    (hslot : spawnSlot s.jobs o = some slot) (k : Nat) :
    slot < jobMax ∧ ∀ a, ((spawn s o (some k)).jobs a).state = .run →
      a = slot ∧ ((spawn s o (some k)).jobs a).serial = s.births ∧
          (spawn s o (some k)).owner ((spawn s o (some k)).jobs a).serial = some k ∨
        a ≠ slot ∧ (s.jobs a).state = .run ∧
          ((spawn s o (some k)).jobs a).serial = (s.jobs a).serial ∧
          (spawn s o (some k)).owner ((spawn s o (some k)).jobs a).serial =
            s.owner (s.jobs a).serial := by
  obtain ⟨pid, rfl, halloc⟩ := spawnSlot_some hslot
  have hjobs : (spawn s (.started pid) (some k)).jobs =
      update s.jobs slot (Job.started pid s.births) := spawnTable_started halloc
  refine ⟨(jobAllocSlot_spec halloc).1, fun a ha => ?_⟩
  rw [hjobs] at ha ⊢
  by_cases hs : a = slot
  · subst hs
    rw [update_self]
    exact .inl ⟨rfl, rfl, update_self _ _ _⟩
  · rw [update_of_ne hs] at ha ⊢
    exact .inr ⟨hs, ha, rfl, update_of_ne (Nat.ne_of_lt (h.jobs a ha).2) _ _⟩

theorem Inv.fired (h : Inv s)
    (hi : i < maxCronEntries) (hu : (s.cron i).inUse = true) (hs : (s.cron i).state = .sched)
    (hdue : (s.cron i).fireAt ≤ s.now)
    (hfree : (s.cron i).concurrent = false → jobIsRunning s.jobs (s.cron i).lastJobId = false)
    (hslot : spawnSlot s.jobs o = some slot) (hcron : t.cron = update s.cron i e)
    (hjobs : t.jobs = (Cron.spawn s o (some (s.cron i).serial)).jobs)
    (howner : t.owner = (Cron.spawn s o (some (s.cron i).serial)).owner)
    (hbirths : t.births = s.births + 1) (hmade : t.made = s.made)
    (hser : e.serial = (s.cron i).serial) (hconc : e.concurrent = (s.cron i).concurrent)
    (hjob : e.lastJobId = slot)
    (hlog : t.log = .fired (s.cron i).serial s.now.toNat (s.cron i) :: s.log ∨
      t.log = .ended (s.cron i).serial ::
        .fired (s.cron i).serial s.now.toNat (s.cron i) :: s.log)
    (hok : EntryOk t.log t.made e) : Inv t := by
  have hoki := h.entries i hi hu
  obtain ⟨hlt, hspawn⟩ := spawn_jobs h hslot (s.cron i).serial
  rw [UInt32.le_iff_toNat_le] at hdue
  have hfine : Fine (.fired (s.cron i).serial s.now.toNat (s.cron i) :: s.log) :=
    ⟨hoki.fire hs hdue, h.fine⟩
  have hnew : ∀ n ∈ t.log, n ∈ s.log ∨ n.serial = (s.cron i).serial ∧
      ∀ k epoch e', n = .fired k epoch e' → e' = s.cron i := by
    intro n hn
    rcases hlog with hlog | hlog
    · rw [hlog] at hn
      rcases mem_cons.mp hn with rfl | hn
      · exact .inr ⟨rfl, fun _ _ _ hf => (Note.fired.inj hf).2.2.symm⟩
      · exact .inl hn
    · rw [hlog] at hn
      rcases mem_cons.mp hn with rfl | hn
      · exact .inr ⟨rfl, fun _ _ _ hf => nomatch hf⟩
      rcases mem_cons.mp hn with rfl | hn
      · exact .inr ⟨rfl, fun _ _ _ hf => (Note.fired.inj hf).2.2.symm⟩
      · exact .inl hn
  have hne : ∀ j, j < maxCronEntries → j ≠ i → (s.cron j).inUse = true →
      (s.cron i).serial ≠ (s.cron j).serial := fun j hj hji huj => h.serial_ne hi hu hj hji huj
  -- the entry had no job that ran, unless it may have several
  have hidle : (s.cron i).concurrent = false → ∀ a, (s.jobs a).state = .run →
      s.owner (s.jobs a).serial ≠ some (s.cron i).serial := by
    intro hc a ha ho
    have hlast := h.lastJob i hi hu hc a ha ho
    have hrun : jobIsRunning s.jobs (s.cron i).lastJobId = true := by
      have hmax := (h.jobs a ha).1
      unfold jobIsRunning
      rw [hlast, if_neg (by omega), Int.toNat_natCast, decide_eq_true ha]
    rw [hfree hc] at hrun
    cases hrun
  refine ⟨?_, ?_, ?_, ?_, ?_, ?_, ?_, ?_⟩
  · intro j hj huj
    rw [hcron] at huj ⊢
    by_cases hji : j = i
    · subst hji
      rw [update_self]
      exact hok
    · rw [update_of_ne hji] at huj ⊢
      have hone := (h.entries j hj huj).note_ne
        (n := .fired (s.cron i).serial s.now.toNat (s.cron i)) (hne j hj hji huj)
      rw [hmade]
      rcases hlog with hlog | hlog
      · rw [hlog]
        exact hone
      · rw [hlog]
        exact hone.note_ne (hne j hj hji huj)
  · intro j hj huj hc a ha ho
    rw [hjobs] at ha ho
    rw [howner] at ho
    rw [hcron] at huj hc ho ⊢
    rcases hspawn a ha with ⟨rfl, _, hown⟩ | ⟨hne', hrun, _, hown⟩
    · rw [hown] at ho
      by_cases hji : j = i
      · subst hji
        rw [update_self]
        exact hjob
      · rw [update_of_ne hji] at huj ho
        exact absurd (Option.some.inj ho) (hne j hj hji huj)
    · rw [hown] at ho
      by_cases hji : j = i
      · subst hji
        rw [update_self] at hc ho
        rw [hser] at ho
        exact absurd ho (hidle (hconc ▸ hc) a hrun)
      · rw [update_of_ne hji] at huj hc ho ⊢
        exact h.lastJob j hj huj hc a hrun ho
  · rw [hcron]
    refine serials_update h.serials fun _ j hj hji huj => ?_
    rw [hser]
    exact (hne j hj hji huj).symm
  · intro n hn
    rw [hmade]
    rcases hnew n hn with hn | hn
    · exact h.notes n hn
    · rw [hn.1]
      exact hoki.made
  · intro a ha
    rw [hjobs] at ha ⊢
    rw [hbirths]
    rcases hspawn a ha with ⟨rfl, hs', _⟩ | ⟨_, hrun, hs', _⟩
    · exact ⟨hlt, by omega⟩
    · have hj := h.jobs a hrun
      exact ⟨hj.1, by omega⟩
  · intro a k ha ho
    rw [hjobs] at ha ho
    rw [howner] at ho
    rw [hmade]
    rcases hspawn a ha with ⟨_, _, hown⟩ | ⟨_, hrun, _, hown⟩
    · rw [hown] at ho
      obtain rfl := Option.some.inj ho
      exact hoki.made
    · exact h.owners a k hrun (hown ▸ ho)
  · intro k epoch e' hm hc a b ha hb hoa hob
    rw [hjobs] at ha hb hoa hob
    rw [howner] at hoa hob
    -- a job of this entry from before cannot run
    have hold : k = (s.cron i).serial → ∀ c, (s.jobs c).state = .run →
        s.owner (s.jobs c).serial ≠ some k := by
      rintro rfl
      refine hidle ?_
      rcases hnew _ hm with hm | hm
      · exact (hoki.same epoch e' hm).symm.trans hc
      · exact hm.2 _ _ _ rfl ▸ hc
    rcases hspawn a ha with ⟨rfl, _, ha'⟩ | ⟨hna, hra, _, ha'⟩
    · rcases hspawn b hb with ⟨rfl, _, _⟩ | ⟨_, hrb, _, hb'⟩
      · rfl
      · rw [ha'] at hoa
        exact absurd (hb' ▸ hob) (hold (Option.some.inj hoa).symm b hrb)
    · rcases hspawn b hb with ⟨rfl, _, hb'⟩ | ⟨_, hrb, _, hb'⟩
      · rw [hb'] at hob
        exact absurd (ha' ▸ hoa) (hold (Option.some.inj hob).symm a hra)
      · rcases hnew _ hm with hm | hm
        · exact h.alone k epoch e' hm hc a b hra hrb (ha' ▸ hoa) (hb' ▸ hob)
        · exact absurd (ha' ▸ hoa) (hold hm.1 a hra)
  · rcases hlog with hlog | hlog
    · rw [hlog]
      exact hfine
    · rw [hlog]
      exact hfine

theorem Inv.recordFire (h : Inv s)
    (hi : i < maxCronEntries) (hu : (s.cron i).inUse = true) (hs : (s.cron i).state = .sched)
    (hdue : (s.cron i).fireAt ≤ s.now)
    (hfree : (s.cron i).concurrent = false → jobIsRunning s.jobs (s.cron i).lastJobId = false)
    (hslot : spawnSlot s.jobs o = some slot)
    (hwrap : (s.cron i).kind = .recurring →
      s.now.toNat + (s.cron i).intervalSec.toNat < 2 ^ 32) :
    Inv (recordFire (Cron.spawn s o (some (s.cron i).serial)) i (s.cron i) s.now slot
      s.births) := by
  have hoki := h.entries i hi hu
  have hl := hoki.live hs
  have hdue' : (s.cron i).due ≤ s.now.toNat := by
    rw [UInt32.le_iff_toNat_le] at hdue
    have hd := hl.due
    omega
  unfold Cron.recordFire
  dsimp only
  split
  · rename_i hk
    refine h.fired hi hu hs hdue hfree hslot rfl rfl rfl rfl rfl rfl rfl rfl (.inr rfl) ?_
    refine EntryOk.ended ?_ rfl ?_
    · exact hoki.fired hdue' rfl rfl (fun hr => absurd (hk.symm.trans hr) (by decide))
        (fun hh => nomatch hh)
    · exact fun hh => nomatch hh
  · rename_i hk
    split
    · refine h.fired hi hu hs hdue hfree hslot rfl rfl rfl rfl rfl rfl rfl rfl (.inr rfl) ?_
      refine EntryOk.ended ?_ rfl ?_
      · exact hoki.fired hdue' rfl rfl (fun _ => ⟨hk, rfl, rfl⟩) (fun hh => nomatch hh)
      · exact fun hh => nomatch hh
    · rename_i hmore
      refine h.fired hi hu hs hdue hfree hslot rfl rfl rfl rfl rfl rfl rfl rfl (.inl rfl) ?_
      refine hoki.fired hdue' rfl rfl (fun _ => ⟨hk, rfl, rfl⟩) fun _ => ⟨?_, ?_, ?_, ?_⟩
      · show (s.now + (s.cron i).intervalSec).toNat =
          s.now.toNat + (s.cron i).intervalSec.toNat
        rw [UInt32.toNat_add]
        exact Nat.mod_eq_of_lt (hwrap hk)
      · intro hm
        rcases mem_cons.mp hm with hm | hm
        · cases hm
        · exact hl.alive hm
      · exact fun ho => absurd (hk.symm.trans ho) (by decide)
      · intro hm
        obtain ⟨hcount, hlt⟩ := hl.runs hm
        have hge : ¬ (s.cron i).runCount + 1 ≥ (s.cron i).maxRuns := fun hge => hmore ⟨hm, hge⟩
        rw [UInt32.lt_iff_toNat_lt] at hlt
        have hmax := (s.cron i).maxRuns.toNat_lt
        have hsucc : ((s.cron i).runCount + 1).toNat = (s.cron i).runCount.toNat + 1 := by
          rw [UInt32.toNat_add]
          exact Nat.mod_eq_of_lt (by rw [show (1 : UInt32).toNat = 1 from rfl]; omega)
        refine ⟨?_, UInt32.not_le.mp hge⟩
        show (s.cron i).ranBefore + (fires (.fired (s.cron i).serial s.now.toNat (s.cron i) ::
          s.log) (s.cron i).serial).length = ((s.cron i).runCount + 1).toNat
        rw [fires_cons_fired, hsucc, length_cons]
        omega

theorem Inv.turn (h : Inv s) (hi : i < maxCronEntries)
    (hc : Careful s (.turn i o)) : Inv (cronTurn s i s.now o) := by
  unfold cronTurn
  dsimp only
  split
  · exact h
  rename_i hu
  have hu' : (s.cron i).inUse = true := by simpa using hu
  split
  · exact h
  rename_i hs
  have hs' : (s.cron i).state = .sched := not_not.mp hs
  split
  · exact h
  rename_i hdue
  have hdue' : (s.cron i).fireAt ≤ s.now := UInt32.not_lt.mp hdue
  obtain ⟨hwrap, hown⟩ := hc hu' hs' hdue'
  split
  · rename_i hskip
    rw [Bool.and_eq_true, Bool.not_eq_true'] at hskip
    exact h.skipFire hi hu' hs' hdue' (hown hskip.1 hskip.2) hwrap
  · rename_i hfire
    cases hslot : spawnSlot s.jobs o with
    | none => exact h.spawn
    | some slot =>
      refine h.recordFire hi hu' hs' hdue' (fun hconc => ?_) hslot hwrap
      rw [Bool.and_eq_true, Bool.not_eq_true', not_and, Bool.not_eq_true] at hfire
      exact hfire hconc

/-! ## Runs -/

theorem inv_init (h : Init s) : Inv s := by
  have hfree : ∀ a, (s.jobs a).state ≠ .run := fun a ha => by
    rw [h.jobs a] at ha
    cases ha
  have hnil : ∀ k, fires s.log k = [] := by
    rw [h.log]
    exact fun _ => rfl
  refine ⟨fun i hi hu => ⟨h.made i hi hu, ?_, ?_, fun hs => ⟨?_, ?_, ?_, ?_⟩⟩, ?_, h.serials, ?_,
    fun a ha => absurd ha (hfree a), fun a _ ha => absurd ha (hfree a), ?_, ?_⟩
  · intro _ t ht
    rw [hnil] at ht
    cases ht
  · intro epoch e hm
    rw [h.log] at hm
    cases hm
  · exact (h.loaded i hi hu).due.symm
  · rw [h.log]
    exact not_mem_nil
  · exact fun _ => hnil _
  · intro hm
    have hl := h.loaded i hi hu
    rw [hnil, hl.ranBefore]
    exact ⟨rfl, hl.runs hs hm⟩
  · exact fun i _ _ _ a ha => absurd ha (hfree a)
  · intro n hn
    rw [h.log] at hn
    cases hn
  · intro k epoch e hm
    rw [h.log] at hm
    cases hm
  · rw [h.log]
    trivial

theorem inv_step {e : Event} (h : Inv s) (hc : Careful s e)
    (hs : step s e = some t) : Inv t := by
  cases e with
  | turn i o =>
    simp only [step] at hs
    split at hs
    · rename_i hi
      obtain rfl := Option.some.inj hs
      exact h.turn hi hc
    · cases hs
  | time epoch =>
    simp only [step] at hs
    split at hs
    · obtain rfl := Option.some.inj hs
      exact ⟨h.entries, h.lastJob, h.serials, h.notes, h.jobs, h.owners, h.alone, h.fine⟩
    · cases hs
  | create r =>
    obtain rfl := Option.some.inj hs
    exact h.create hc
  | cancel id =>
    obtain rfl := Option.some.inj hs
    exact h.cancel
  | delete id =>
    obtain rfl := Option.some.inj hs
    exact h.delete
  | background o =>
    obtain rfl := Option.some.inj hs
    exact h.spawn
  | jobExit slot =>
    simp only [step] at hs
    split at hs
    · obtain rfl := Option.some.inj hs
      exact h.setJob (nofun : JobState.exit ≠ .run)
    · cases hs
  | jobDelete slot =>
    simp only [step] at hs
    split at hs
    · obtain rfl := Option.some.inj hs
      exact h.setJob (nofun : JobState.free ≠ .run)
    · cases hs

theorem inv_inductive : (scheduler.restrict Careful).Inductive Inv where
  init _ h := inv_init h
  step _ _ _ h hs := inv_step h hs.1 hs.2

/-- In a run in which no sum wraps and no entry that is due finds a stranger's job
in the slot of its last job: every fire is in order, every fire that was skipped was skipped for
the entry's own job, and an entry without `concurrent` has one job that runs at most. -/
theorem firing_sound (s : State) (h : (scheduler.restrict Careful).Reachable s) :
    Fine s.log ∧ Alone s :=
  ⟨(inv_inductive.reachable s h).fine, (inv_inductive.reachable s h).alone⟩

/-! ## The tick is a run of turns -/

def booted : State where
  cron _ := ⟨false, 0, .oneshot, .expired, 0, 0, 0, 0, 0, -1, false, 0, 0, none, 0⟩
  nextId := 1
  jobs _ := Job.none
  now := 100
  births := 0
  made := 0
  owner _ := none
  log := []

theorem booted_init : Init booted :=
  ⟨fun _ _ hu => (nomatch hu), fun _ _ _ _ hu => (nomatch hu), fun _ _ hu => (nomatch hu),
    fun _ => rfl, rfl⟩

/-- Every five seconds, one job at a time. -/
def everyFive : Request := ⟨.recurring, .now, some 5, none, false, true, true⟩

/-- The entry is made and fires at once; five seconds later it is due again. -/
def firedOnce : List Event := [.create everyFive, .turn 0 (.started 7)]

def dueAgain : State := LTS.replay step booted (firedOnce ++ [.jobExit 0, .time 105])

theorem dueAgain_reachable : (scheduler.restrict Careful).Reachable dueAgain := by
  have h0 : (scheduler.restrict Careful).Reachable booted := .init booted_init
  have h1 := LTS.Reachable.careful (Event.create everyFive) h0 (fun v hv => nomatch hv) rfl
  have h2 := LTS.Reachable.careful (Event.turn 0 (.started 7)) h1
    (fun _ _ _ => ⟨fun _ => by decide, fun _ h => nomatch h⟩) rfl
  have h3 := LTS.Reachable.careful (Event.jobExit 0) h2 trivial rfl
  exact LTS.Reachable.careful (Event.time 105) h3 trivial rfl

theorem dueAgain_sound : Fine dueAgain.log ∧ Alone dueAgain :=
  firing_sound dueAgain dueAgain_reachable

def strangersJob : List Event :=
  firedOnce ++ [.jobExit 0, .jobDelete 0, .background (.started 8), .time 105, .turn 0 (.started 9)]

theorem recycled_slot_skips :
    ¬ ∀ s, scheduler.Reachable s → Fine s.log ∧ Alone s := by
  intro h
  have hr : scheduler.Reachable (LTS.replay step booted strangersJob) :=
    LTS.Reachable.replay strangersJob (.init booted_init) (by decide)
  have hlog : (LTS.replay step booted strangersJob).log.head? = some (.skipped 0 false) := by rfl
  have hfine := (h _ hr).1
  cases hl : (LTS.replay step booted strangersJob).log with
  | nil =>
    rw [hl] at hlog
    cases hlog
  | cons n log =>
    rw [hl] at hlog hfine
    obtain rfl := Option.some.inj hlog
    exact Bool.false_ne_true hfine.1

end AdventOS.Agentd.Cron
