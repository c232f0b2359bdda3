import AdventOS.Core.LTS
import AdventOS.Core.RefCount

/-!
# Descriptor tables, pipes and sockets

Every task has a table of `TASK_MAX_FDS` descriptors; pipes and sockets are kernel objects with
their own reference counts (`kernel/pipe.c`, `kernel/sock.c`). The model keeps the tables, both
object arrays and every syscall that writes them, one step each (the big kernel lock); the network
side (`on_connect`) is a step of its own.

A completed connection waits in the listener's accept queue with reference count 1 and no
descriptor, so the count of a socket is the number of its descriptors plus that of its queue
entries (`Counts.ref`). `Counted` leaves out two paths that do not keep this: `SYS_DUP2` of a socket
descriptor, and closing the last descriptor of a listener whose
queue is not empty.

* `counts_inductive`: the counts are exact and a slot is in use iff something refers to it.
-/
namespace AdventOS.Kernel.Descriptors
open Function List Option

abbrev taskMax : Nat := 32
abbrev taskMaxFds : Nat := 24
abbrev pipeMax : Nat := 24
abbrev sockMax : Nat := 24
def sockBacklogMax : Nat := 8

abbrev TaskId := Fin taskMax
abbrev FdIdx := Fin taskMaxFds
abbrev PipeIdx := Fin pipeMax
abbrev SockIdx := Fin sockMax

/-- Descriptor kinds that carry no count of pipes or sockets. -/
inductive OtherKind
  | stdin
  | stdout
  | fs
  | tmpfs
  | procfs
  | ptyM
  | ptyS
  | ninep
  | cdcAcm
  deriving DecidableEq, Repr

/-- `struct task_fd`: kind and object index. `claimed` is `FD_PIPE_R` with
`obj_idx = -1`, which `SYS_PIPE` parks in the table while it looks for the second
descriptor. -/
inductive Fd
  | free
  | claimed
  | other (kind : OtherKind) (obj : Nat)
  | sock (i : SockIdx)
  | pipeR (p : PipeIdx)
  | pipeW (p : PipeIdx)
  deriving DecidableEq, Repr

/-- The kinds whose object counts its references. -/
def Fd.counted : Fd → Bool
  | .sock _ => true
  | .pipeR _ => true
  | .pipeW _ => true
  | _ => false

structure Pipe where
  inUse : Bool
  readRefs : Nat
  writeRefs : Nat
  deriving DecidableEq, Repr

inductive SockState
  | free
  | new
  | listen
  | connecting
  | connected
  deriving DecidableEq, Repr

/-- The reference-count side of `struct sock`; `queue` is `pending_conns` from
`pending_tail` up to `pending_head`. -/
structure Sock where
  state : SockState
  refcount : Nat
  backlog : Nat
  queue : List SockIdx
  deriving DecidableEq, Repr

structure Sys where
  live : TaskId → Bool
  maxFds : TaskId → Nat
  fds : TaskId × FdIdx → Fd
  pipes : PipeIdx → Pipe
  socks : SockIdx → Sock

def setFd (s : Sys) (k : TaskId × FdIdx) (v : Fd) : Sys :=
  { s with fds := update s.fds k v }

def setPipe (s : Sys) (p : PipeIdx) (v : Pipe) : Sys :=
  { s with pipes := update s.pipes p v }

def setSock (s : Sys) (i : SockIdx) (v : Sock) : Sys :=
  { s with socks := update s.socks i v }

/-! ## Pipes (kernel/pipe.c) -/

/-- pipe.c:28-39 -/
def pipeNew (s : Sys) : Option (PipeIdx × Sys) :=
  ((List.finRange pipeMax).find? fun p => !(s.pipes p).inUse).map fun p =>
    (p, setPipe s p ⟨true, 1, 1⟩)

/-- pipe.c:45 -/
def pipeIncRead (s : Sys) (p : PipeIdx) : Sys :=
  if (s.pipes p).inUse then setPipe s p { s.pipes p with readRefs := (s.pipes p).readRefs + 1 }
  else s

/-- pipe.c:46 -/
def pipeIncWrite (s : Sys) (p : PipeIdx) : Sys :=
  if (s.pipes p).inUse then setPipe s p { s.pipes p with writeRefs := (s.pipes p).writeRefs + 1 }
  else s

/-- pipe.c:48-50 -/
def tryFree (p : Pipe) : Pipe :=
  if p.readRefs = 0 ∧ p.writeRefs = 0 then { p with inUse := false } else p

/-- pipe.c:52-56 -/
def pipeCloseRead (s : Sys) (p : PipeIdx) : Sys :=
  if (s.pipes p).inUse then
    setPipe s p (tryFree { s.pipes p with readRefs := (s.pipes p).readRefs - 1 })
  else s

/-- pipe.c:58-62 -/
def pipeCloseWrite (s : Sys) (p : PipeIdx) : Sys :=
  if (s.pipes p).inUse then
    setPipe s p (tryFree { s.pipes p with writeRefs := (s.pipes p).writeRefs - 1 })
  else s

/-! ## Sockets (kernel/sock.c) -/

/-- The clamp of `q_init`. sock.c:22-25 -/
def clampBacklog (backlog : Int) : Nat :=
  if backlog ≤ 0 then 1
  else if backlog > sockBacklogMax then sockBacklogMax
  else backlog.toNat

/-- sock.c:16-22: the ring holds one entry less than its size. -/
def qFull (s : Sock) : Bool :=
  s.queue.length + 1 = sockBacklogMax || s.backlog ≤ s.queue.length

def freeSock (s : Sys) : Option SockIdx :=
  (List.finRange sockMax).find? fun i => (s.socks i).state = .free

/-- sock.c:52-68 -/
def sockCreate (s : Sys) : Option (SockIdx × Sys) :=
  (freeSock s).map fun i => (i, setSock s i ⟨.new, 1, clampBacklog 0, []⟩)

/-- sock.c:70-76 -/
def sockIncRef (s : Sys) (i : SockIdx) : Sys :=
  if (s.socks i).state = .free then s
  else setSock s i { s.socks i with refcount := (s.socks i).refcount + 1 }

/-- sock.c:354-381 -/
def sockClose (s : Sys) (i : SockIdx) : Sys :=
  if (s.socks i).state = .free then s
  else if (s.socks i).refcount > 1 then
    setSock s i { s.socks i with refcount := (s.socks i).refcount - 1 }
  else setSock s i ⟨.free, 0, clampBacklog 0, []⟩

/-- sock.c:172-190; `ok` is whether `tcp_listen` found a TCB. -/
def sockListen (s : Sys) (i : SockIdx) (backlog : Int) (ok : Bool) : Sys :=
  if (s.socks i).state ≠ .new then s
  else setSock s i { s.socks i with
    state := if ok then .listen else .new, backlog := clampBacklog backlog, queue := [] }

/-- sock.c:251-261: the state change before `sock_connect` blocks. -/
def sockConnect (s : Sys) (i : SockIdx) : Sys :=
  if (s.socks i).state ≠ .new then s
  else setSock s i { s.socks i with state := .connecting, backlog := clampBacklog 0, queue := [] }

/-- sock.c:283-288: refused or timed out. While the call blocks
only `on_connect` changes the state. -/
def sockConnectFail (s : Sys) (i : SockIdx) : Sys :=
  if (s.socks i).state ≠ .connecting then s
  else setSock s i { s.socks i with state := .new }

/-- sock.c:103-149, with `i` the socket `t->user_data` names. -/
def onConnect (s : Sys) (i : SockIdx) : Sys :=
  match (s.socks i).state with
  | .connecting => setSock s i { s.socks i with state := .connected }
  | .listen =>
    if qFull (s.socks i) then s
    else match freeSock s with
      | none => s
      | some conn =>
        let s := setSock s conn ⟨.connected, 1, clampBacklog 0, []⟩
        setSock s i { s.socks i with queue := (s.socks i).queue ++ [conn] }
  | _ => s

/-- sock.c:192-217, from the point where the queue is not empty. -/
def sockAccept (s : Sys) (i : SockIdx) : Option (SockIdx × Sys) :=
  if (s.socks i).state ≠ .listen then none
  else match (s.socks i).queue with
    | [] => none
    | conn :: q => some (conn, setSock s i { s.socks i with queue := q })

/-! ## Descriptor tables -/

/-- syscall.c:45-51 -/
def countLiveFds (s : Sys) (t : TaskId) : Nat :=
  ((List.finRange taskMaxFds).filter fun fd => s.fds (t, fd) ≠ .free).length

/-- syscall.c:56-64 -/
def allocFd (s : Sys) (t : TaskId) : Option FdIdx :=
  if s.maxFds t ≠ 0 ∧ s.maxFds t ≤ countLiveFds s t then none
  else (List.finRange taskMaxFds).find? fun fd => 3 ≤ fd.val ∧ s.fds (t, fd) = .free

/-- syscall.c:88-112 -/
def releaseFd (s : Sys) (k : TaskId × FdIdx) : Sys :=
  setFd (match s.fds k with
    | .sock i => sockClose s i
    | .pipeR p => pipeCloseRead s p
    | .pipeW p => pipeCloseWrite s p
    | _ => s) k .free

/-- Copy `v` into the free slot `k` and bump its object, as `task_fork` does for
each entry. task.c:834-845 -/
def shareFd (s : Sys) (k : TaskId × FdIdx) (v : Fd) : Sys :=
  setFd (match v with
    | .sock i => sockIncRef s i
    | .pipeR p => pipeIncRead s p
    | .pipeW p => pipeIncWrite s p
    | _ => s) k v

/-! ## System calls -/

/-- `SYS_OPEN`, `SYS_OPEN_W`, `SYS_OPEN_A` on success: an uncounted kind lands in
the allocated slot. syscall.c:355-468 -/
def sysOpen (s : Sys) (t : TaskId) (kind : OtherKind) (obj : Nat) : Sys :=
  match allocFd s t with
  | none => s
  | some fd => setFd s (t, fd) (.other kind obj)

/-- syscall.c:862-890 -/
def sysPipe (s : Sys) (t : TaskId) : Sys :=
  match allocFd s t with
  | none => s
  | some rfd =>
    let s' := setFd s (t, rfd) .claimed
    match allocFd s' t with
    | none => setFd s' (t, rfd) .free
    | some wfd => match pipeNew s' with
      | none => setFd s' (t, rfd) .free
      | some (p, s') => setFd (setFd s' (t, rfd) (.pipeR p)) (t, wfd) (.pipeW p)

/-- syscall.c:639-651 -/
def sysSocket (s : Sys) (t : TaskId) : Sys :=
  match sockCreate s with
  | none => s
  | some (i, s) => match allocFd s t with
    | none => sockClose s i
    | some fd => setFd s (t, fd) (.sock i)

/-- syscall.c:682-709 -/
def sysAccept (s : Sys) (t : TaskId) (fd : FdIdx) : Sys :=
  match s.fds (t, fd) with
  | .sock i => match sockAccept s i with
    | none => s
    | some (conn, s) => match allocFd s t with
      | none => sockClose s conn
      | some cfd => setFd s (t, cfd) (.sock conn)
  | _ => s

/-- A syscall on an open socket descriptor that only moves the socket's state. -/
def onSock (s : Sys) (t : TaskId) (fd : FdIdx) (f : Sys → SockIdx → Sys) : Sys :=
  match s.fds (t, fd) with
  | .sock i => f s i
  | _ => s

/-- syscall.c:627-638 -/
def sysClose (s : Sys) (t : TaskId) (fd : FdIdx) : Sys :=
  if fd.val < 3 then s
  else if s.fds (t, fd) = .free then s
  else releaseFd s (t, fd)

/-- syscall.c:1230-1265: sockets are copied without a reference. -/
def sysDup2 (s : Sys) (t : TaskId) (oldfd newfd : FdIdx) : Sys :=
  if s.fds (t, oldfd) = .free then s
  else if oldfd = newfd then s
  else
    let s := if s.fds (t, newfd) ≠ .free then releaseFd s (t, newfd) else s
    let v := s.fds (t, oldfd)
    setFd (match v with
      | .pipeR p => pipeIncRead s p
      | .pipeW p => pipeIncWrite s p
      | _ => s) (t, newfd) v

/-- task.c:829-845 (the child's slot has been claimed) -/
def forkFds (s : Sys) (t c : TaskId) : Sys :=
  (List.finRange taskMaxFds).foldl (fun s fd => shareFd s (c, fd) (s.fds (t, fd))) s

/-- task.c:1021-1043 -/
def closeAllFds (s : Sys) (t : TaskId) : Sys :=
  (List.finRange taskMaxFds).foldl (fun s fd => releaseFd s (t, fd)) s

/-- task.c:773-937, from the point where no allocation can fail -/
def taskFork (s : Sys) (t c : TaskId) : Sys :=
  forkFds { s with
    live := update s.live c true
    maxFds := update s.maxFds c (s.maxFds t) } t c

/-- task.c:1045-1078 -/
def taskExit (s : Sys) (t : TaskId) : Sys :=
  let s := closeAllFds s t
  { s with live := update s.live t false }

/-- A task started by the kernel: descriptors 0, 1 and 2 only. -/
def taskCreateUser (s : Sys) (c : TaskId) : Sys :=
  let s := { s with live := update s.live c true, maxFds := update s.maxFds c 0 }
  setFd (setFd (setFd s (c, 0) (.other .stdin 0)) (c, 1) (.other .stdout 0)) (c, 2)
    (.other .stdout 0)

inductive Lbl
  | createUser (c : TaskId)
  | setMaxFds (t : TaskId) (n : Nat)
  | openFile (t : TaskId) (kind : OtherKind) (obj : Nat)
  | pipe (t : TaskId)
  | socket (t : TaskId)
  | listen (t : TaskId) (fd : FdIdx) (backlog : Int) (ok : Bool)
  | connect (t : TaskId) (fd : FdIdx)
  | connectFail (t : TaskId) (fd : FdIdx)
  | onConnect (i : SockIdx)
  | accept (t : TaskId) (fd : FdIdx)
  | close (t : TaskId) (fd : FdIdx)
  | dup2 (t : TaskId) (oldfd newfd : FdIdx)
  | fork (t c : TaskId)
  | exec (t : TaskId)
  | exit (t : TaskId)
  deriving DecidableEq, Repr

/-- One syscall of a live task, or one event of the network side. A call that
fails leaves the state as it is; `exec` keeps the table. -/
def step (s : Sys) : Lbl → Option Sys
  | .createUser c => if s.live c then none else some (taskCreateUser s c)
  | .setMaxFds t n =>
    if s.live t then some { s with maxFds := update s.maxFds t n } else none
  | .openFile t kind obj => if s.live t then some (sysOpen s t kind obj) else none
  | .pipe t => if s.live t then some (sysPipe s t) else none
  | .socket t => if s.live t then some (sysSocket s t) else none
  | .listen t fd backlog ok =>
    if s.live t then some (onSock s t fd fun s i => sockListen s i backlog ok) else none
  | .connect t fd => if s.live t then some (onSock s t fd sockConnect) else none
  | .connectFail t fd => if s.live t then some (onSock s t fd sockConnectFail) else none
  | .onConnect i => some (onConnect s i)
  | .accept t fd => if s.live t then some (sysAccept s t fd) else none
  | .close t fd => if s.live t then some (sysClose s t fd) else none
  | .dup2 t oldfd newfd => if s.live t then some (sysDup2 s t oldfd newfd) else none
  | .fork t c => if s.live t ∧ ¬ s.live c then some (taskFork s t c) else none
  | .exec t => if s.live t then some s else none
  | .exit t => if s.live t then some (taskExit s t) else none

/-- Power-on: no task, no pipe, no socket. -/
def boot : Sys where
  live _ := false
  maxFds _ := 0
  fds _ := .free
  pipes _ := ⟨false, 0, 0⟩
  socks _ := ⟨.free, 0, clampBacklog 0, []⟩

def sysLTS : LTS Sys Lbl := LTS.ofFn (· = boot) step

/-! ## The counting invariant -/

/-- Open descriptors, over all tasks, that are `d`. -/
def descriptors (s : Sys) (d : Fd) : Nat := RefCount.count s.fds d

def queued (s : Sys) (i : SockIdx) : Nat := ∑ l, (s.socks l).queue.count i

/-- The counts are exact. `held` lists the references a call has in hand between
taking them from an object and putting them in a table; between calls it is
empty. -/
structure Counts (held : List Fd) (s : Sys) : Prop where
  read : ∀ p, (s.pipes p).readRefs = descriptors s (.pipeR p) + held.count (.pipeR p)
  write : ∀ p, (s.pipes p).writeRefs = descriptors s (.pipeW p) + held.count (.pipeW p)
  pipeUse : ∀ p, (s.pipes p).inUse = true ↔ 0 < (s.pipes p).readRefs + (s.pipes p).writeRefs
  ref : ∀ i, (s.socks i).refcount = descriptors s (.sock i) + queued s i + held.count (.sock i)
  sockUse : ∀ i, (s.socks i).state ≠ .free ↔ 0 < (s.socks i).refcount
  queueListen : ∀ i, (s.socks i).queue ≠ [] → (s.socks i).state = .listen
  queueConn : ∀ l j, j ∈ (s.socks l).queue → (s.socks j).state = .connected
  dead : ∀ t fd, s.live t = false → s.fds (t, fd) = .free

variable {s : Sys} {held : List Fd}

/-! ### Moving references between the table and the call -/

theorem descriptors_setFd (s : Sys) (k : TaskId × FdIdx) (v d : Fd) :
    descriptors (setFd s k v) d + (if s.fds k = d then 1 else 0) =
      descriptors s d + (if v = d then 1 else 0) :=
  RefCount.count_update s.fds k v d

variable {held' : List Fd} {d v : Fd} {k : TaskId × FdIdx} {p : PipeIdx} {s' : Sys} {i : SockIdx}
  {c t : TaskId}

theorem Counts.setFd (h : Counts held s) (k : TaskId × FdIdx) (v : Fd)
    (hc : ∀ d, d.counted = true → held'.count d + (if v = d then 1 else 0) =
      held.count d + (if s.fds k = d then 1 else 0))
    (hlive : v = .free ∨ s.live k.1 = true) : Counts held' (setFd s k v) where
  read p := by
    have := descriptors_setFd s k v (.pipeR p)
    have := hc (.pipeR p) rfl
    have := h.read p
    simp only [Descriptors.setFd] at *; omega
  write p := by
    have := descriptors_setFd s k v (.pipeW p)
    have := hc (.pipeW p) rfl
    have := h.write p
    simp only [Descriptors.setFd] at *; omega
  pipeUse := h.pipeUse
  ref i := by
    have h1 := descriptors_setFd s k v (.sock i)
    have h2 := hc (.sock i) rfl
    have h3 := h.ref i
    have h4 : queued (Descriptors.setFd s k v) i = queued s i := rfl
    simp only [Descriptors.setFd] at *; omega
  sockUse := h.sockUse
  queueListen := h.queueListen
  queueConn := h.queueConn
  dead t fd hd := by
    simp only [Descriptors.setFd, update_apply] at hd ⊢
    split
    · rename_i he
      rcases hlive with rfl | hl
      · rfl
      · rw [← he] at hl; simp_all
    · exact h.dead t fd hd

theorem ne_of_not_counted (hv : v.counted = false) (hd : d.counted = true) : v ≠ d := by
  rintro rfl; simp_all

theorem Counts.clear (h : Counts held s) (k : TaskId × FdIdx) :
    Counts (s.fds k :: held) (Descriptors.setFd s k .free) := by
  refine h.setFd k .free (fun d hd => ?_) (.inl rfl)
  rw [if_neg (ne_of_not_counted rfl hd), count_cons]
  simp only [beq_iff_eq]; omega

theorem Counts.fill (h : Counts (v :: held) s)
    (hk : (s.fds k).counted = false) (hlive : s.live k.1 = true) :
    Counts held (Descriptors.setFd s k v) := by
  refine h.setFd k v (fun d hd => ?_) (.inr hlive)
  rw [if_neg (ne_of_not_counted hk hd), count_cons]
  simp only [beq_iff_eq]; omega

theorem Counts.congr (h : Counts held s)
    (hc : ∀ d, d.counted = true → held'.count d = held.count d) : Counts held' s where
  read p := by rw [hc _ rfl]; exact h.read p
  write p := by rw [hc _ rfl]; exact h.write p
  pipeUse := h.pipeUse
  ref i := by rw [hc _ rfl]; exact h.ref i
  sockUse := h.sockUse
  queueListen := h.queueListen
  queueConn := h.queueConn
  dead := h.dead

theorem count_cons_uncounted (hv : v.counted = false) (hd : d.counted = true) :
    (v :: held).count d = held.count d := by
  rw [count_cons_of_ne (ne_of_not_counted hv hd)]

theorem Counts.drop (hv : v.counted = false) (h : Counts (v :: held) s) :
    Counts held s :=
  h.congr fun _ hd => (count_cons_uncounted hv hd).symm

theorem Counts.add (hv : v.counted = false) (h : Counts held s) :
    Counts (v :: held) s :=
  h.congr fun _ hd => count_cons_uncounted hv hd

/-! ### Pipes -/

theorem Counts.setPipe (h : Counts held s) (p : PipeIdx) (v : Pipe)
    (hr : v.readRefs + held.count (.pipeR p) = (s.pipes p).readRefs + held'.count (.pipeR p))
    (hw : v.writeRefs + held.count (.pipeW p) = (s.pipes p).writeRefs + held'.count (.pipeW p))
    (huse : v.inUse = true ↔ 0 < v.readRefs + v.writeRefs)
    (hother : ∀ d, d.counted = true → d ≠ .pipeR p → d ≠ .pipeW p →
      held'.count d = held.count d) : Counts held' (setPipe s p v) where
  read q := by
    have := h.read q
    simp only [Descriptors.setPipe, update_apply, descriptors] at *
    split
    · rename_i he; subst he; omega
    · rename_i hne
      rw [hother (.pipeR q) rfl (by simpa using hne) (by simp)]; exact this
  write q := by
    have := h.write q
    simp only [Descriptors.setPipe, update_apply, descriptors] at *
    split
    · rename_i he; subst he; omega
    · rename_i hne
      rw [hother (.pipeW q) rfl (by simp) (by simpa using hne)]; exact this
  pipeUse q := by
    have := h.pipeUse q
    simp only [Descriptors.setPipe, update_apply] at *
    split
    · exact huse
    · exact this
  ref i := by
    rw [hother (.sock i) rfl (by simp) (by simp)]; exact h.ref i
  sockUse := h.sockUse
  queueListen := h.queueListen
  queueConn := h.queueConn
  dead := h.dead

theorem Counts.pipe_inUse (h : Counts held s)
    (hd : 0 < (s.pipes p).readRefs ∨ 0 < (s.pipes p).writeRefs) : (s.pipes p).inUse = true :=
  (h.pipeUse p).mpr (by omega)

theorem tryFree_readRefs (p : Pipe) : (tryFree p).readRefs = p.readRefs := by
  unfold tryFree; split <;> rfl

theorem tryFree_writeRefs (p : Pipe) : (tryFree p).writeRefs = p.writeRefs := by
  unfold tryFree; split <;> rfl

theorem tryFree_inUse (p : Pipe) (h : p.inUse = true) :
    (tryFree p).inUse = true ↔ 0 < (tryFree p).readRefs + (tryFree p).writeRefs := by
  rw [tryFree_readRefs, tryFree_writeRefs]
  unfold tryFree
  split
  · simp only [Bool.false_eq_true, false_iff]; omega
  · simp only [h, true_iff]; omega

theorem Counts.pipeCloseRead (h : Counts (.pipeR p :: held) s) :
    Counts held (pipeCloseRead s p) := by
  have hr := h.read p
  rw [count_cons_self] at hr
  have hu := h.pipe_inUse (p := p) (by omega)
  unfold Descriptors.pipeCloseRead
  rw [if_pos hu]
  refine h.setPipe p _ ?_ ?_ (tryFree_inUse _ hu) fun d _ h1 _ => ?_
  · rw [tryFree_readRefs, count_cons_self]; simp only; omega
  · rw [tryFree_writeRefs, count_cons_of_ne (by simp)]
  · rw [count_cons_of_ne h1.symm]

theorem Counts.pipeCloseWrite (h : Counts (.pipeW p :: held) s) :
    Counts held (pipeCloseWrite s p) := by
  have hw := h.write p
  rw [count_cons_self] at hw
  have hu := h.pipe_inUse (p := p) (by omega)
  unfold Descriptors.pipeCloseWrite
  rw [if_pos hu]
  refine h.setPipe p _ ?_ ?_ (tryFree_inUse _ hu) fun d _ _ h2 => ?_
  · rw [tryFree_readRefs, count_cons_of_ne (by simp)]
  · rw [tryFree_writeRefs, count_cons_self]; simp only; omega
  · rw [count_cons_of_ne h2.symm]

theorem Counts.pipeIncRead (h : Counts held s) (hu : (s.pipes p).inUse = true) :
    Counts (.pipeR p :: held) (pipeIncRead s p) := by
  unfold Descriptors.pipeIncRead
  rw [if_pos hu]
  refine h.setPipe p _ ?_ ?_ ?_ fun d _ h1 _ => ?_
  · rw [count_cons_self]; simp only; omega
  · rw [count_cons_of_ne (by simp)]
  · simp only [hu, true_iff]; omega
  · rw [count_cons_of_ne h1.symm]

theorem Counts.pipeIncWrite (h : Counts held s) (hu : (s.pipes p).inUse = true) :
    Counts (.pipeW p :: held) (pipeIncWrite s p) := by
  unfold Descriptors.pipeIncWrite
  rw [if_pos hu]
  refine h.setPipe p _ ?_ ?_ ?_ fun d _ _ h2 => ?_
  · rw [count_cons_of_ne (by simp)]
  · rw [count_cons_self]; simp only; omega
  · simp only [hu, true_iff]; omega
  · rw [count_cons_of_ne h2.symm]

theorem Counts.pipeNew (h : Counts held s)
    (hp : pipeNew s = some (p, s')) : Counts (.pipeR p :: .pipeW p :: held) s' := by
  obtain ⟨q, hq, he⟩ := map_eq_some_iff.mp hp
  cases he
  have hfree : (s.pipes p).inUse = false := by simpa using List.find?_some hq
  have hz := h.pipeUse p
  simp only [hfree, Bool.false_eq_true, false_iff] at hz
  refine h.setPipe p _ ?_ ?_ ?_ fun d _ h1 h2 => ?_
  · rw [count_cons_self, count_cons_of_ne (by simp)]; simp only; omega
  · rw [count_cons_of_ne (by simp), count_cons_self]; simp only; omega
  · simp
  · rw [count_cons_of_ne h1.symm, count_cons_of_ne h2.symm]

/-! ### Sockets -/

theorem queued_setSock (s : Sys) (i : SockIdx) (v : Sock) (j : SockIdx) :
    queued (setSock s i v) j + (s.socks i).queue.count j = queued s j + v.queue.count j :=
  RefCount.sum_comp_update (fun x : Sock => x.queue.count j) s.socks i v

theorem mem_queue_of_queued {j : SockIdx} (h : queued s j = 0) (l : SockIdx) :
    j ∉ (s.socks l).queue := by
  have := Finset.sum_eq_zero_iff.mp h l (Finset.mem_univ l)
  exact count_eq_zero.mp this

/-- Changing one socket: its queue entries and the references in hand change to
match, and a socket that waits in a queue stays connected. -/
theorem Counts.setSock (h : Counts held s) (i : SockIdx) (v : Sock)
    (hr : ∀ j, (update s.socks i v j).refcount + (s.socks i).queue.count j
        + held.count (.sock j) =
      (s.socks j).refcount + v.queue.count j + held'.count (.sock j))
    (hother : ∀ d, d.counted = true → (∀ j, d ≠ .sock j) → held'.count d = held.count d)
    (huse : v.state ≠ .free ↔ 0 < v.refcount)
    (hlisten : v.queue ≠ [] → v.state = .listen)
    (hold : ∀ l, i ∈ (s.socks l).queue → v.state = .connected)
    (hnew : ∀ j ∈ v.queue, j ∈ (s.socks i).queue ∨ j ≠ i ∧ (s.socks j).state = .connected) :
    Counts held' (setSock s i v) where
  read p := by
    have := h.read p
    rw [← hother (.pipeR p) rfl (by simp)] at this
    exact this
  write p := by
    have := h.write p
    rw [← hother (.pipeW p) rfl (by simp)] at this
    exact this
  pipeUse := h.pipeUse
  ref j := by
    have h1 := queued_setSock s i v j
    have h2 := h.ref j
    have h3 := hr j
    have h4 : descriptors (Descriptors.setSock s i v) (.sock j) = descriptors s (.sock j) := rfl
    rw [h4]
    show (update s.socks i v j).refcount = _
    omega
  sockUse j := by
    have := h.sockUse j
    simp only [Descriptors.setSock, update_apply] at *
    split
    · exact huse
    · exact this
  queueListen j := by
    have := h.queueListen j
    simp only [Descriptors.setSock, update_apply] at *
    split
    · exact hlisten
    · exact this
  queueConn l j hj := by
    have hc : ∀ l, j ∈ (s.socks l).queue → (update s.socks i v j).state = .connected := by
      intro l hl
      rw [update_apply]
      split
      · rename_i he; subst he; exact hold l hl
      · exact h.queueConn l j hl
    simp only [Descriptors.setSock] at hj ⊢
    rw [update_apply] at hj
    split at hj
    · rcases hnew j hj with hj | ⟨hne, hst⟩
      · exact hc i hj
      · rw [update_of_ne hne]; exact hst
    · exact hc l hj
  dead := h.dead

theorem Counts.setSock_same (h : Counts held s) (i : SockIdx) (v : Sock)
    (hq : v.queue = (s.socks i).queue)
    (hr : v.refcount + held.count (.sock i) = (s.socks i).refcount + held'.count (.sock i))
    (hother : ∀ d, d.counted = true → d ≠ .sock i → held'.count d = held.count d)
    (huse : v.state ≠ .free ↔ 0 < v.refcount)
    (hlisten : v.queue ≠ [] → v.state = .listen)
    (hold : (s.socks i).state = .connected → v.state = .connected) :
    Counts held' (Descriptors.setSock s i v) := by
  refine h.setSock i v (fun j => ?_) (fun d hd hj => hother d hd (hj i)) huse hlisten
    (fun l hl => hold (h.queueConn l i hl)) fun j hj => .inl (hq ▸ hj)
  rw [update_apply, hq]
  split
  · rename_i he; subst he; omega
  · rename_i hne
    rw [hother (.sock j) rfl (by simpa using hne)]

theorem Counts.setState (h : Counts held s) (i : SockIdx) (v : Sock)
    (hq : v.queue = (s.socks i).queue) (hr : v.refcount = (s.socks i).refcount)
    (hne : v.state ≠ .free) (hold : (s.socks i).state ≠ .free)
    (hlisten : v.queue ≠ [] → v.state = .listen)
    (hconn : (s.socks i).state = .connected → v.state = .connected) :
    Counts held (Descriptors.setSock s i v) := by
  refine h.setSock_same i v hq (by rw [hr]) (fun _ _ _ => rfl) ?_ hlisten hconn
  have := (h.sockUse i).mp hold
  rw [hr]
  exact iff_of_true hne this

theorem Counts.queue_nil (h : Counts held s) (hst : (s.socks i).state ≠ .listen) :
    (s.socks i).queue = [] := by
  by_contra hq
  exact hst (h.queueListen i hq)

theorem Counts.freeSock_zero (h : Counts held s) (hf : (s.socks i).state = .free) :
    (s.socks i).refcount = 0 ∧ queued s i = 0 ∧ (s.socks i).queue = [] := by
  have h1 := h.sockUse i
  have h2 := h.ref i
  simp only [hf, ne_eq, not_true_eq_false, false_iff, Nat.not_lt, Nat.le_zero] at h1
  exact ⟨h1, by omega, h.queue_nil (by rw [hf]; simp)⟩

theorem Counts.occupy {v : Sock} (h : Counts held s)
    (hf : (s.socks i).state = .free) (hr : v.refcount = 1) (hq : v.queue = [])
    (hst : v.state ≠ .free) : Counts (.sock i :: held) (Descriptors.setSock s i v) := by
  obtain ⟨h0, hz, hqi⟩ := h.freeSock_zero hf
  refine h.setSock i v (fun j => ?_) (fun d hd hj => ?_) ?_ (fun hne => absurd hq hne)
    (fun l hl => absurd hl (mem_queue_of_queued hz l)) fun j hj => by rw [hq] at hj; simp at hj
  · rw [update_apply, hq, hqi, count_cons]
    simp only [count_nil, beq_iff_eq, Fd.sock.injEq]
    split
    · rename_i he; subst he; simp only [if_true]; omega
    · rename_i hne; rw [if_neg (Ne.symm hne)]; omega
  · rw [count_cons_of_ne (hj i).symm]
  · rw [hr]; simpa using hst

theorem Counts.sockCreate (h : Counts held s)
    (hc : sockCreate s = some (i, s')) : Counts (.sock i :: held) s' := by
  obtain ⟨j, hj, he⟩ := map_eq_some_iff.mp hc
  cases he
  have hf : (s.socks i).state = .free := by
    unfold freeSock at hj; simpa using List.find?_some hj
  exact h.occupy hf rfl rfl (by simp)

theorem Counts.sockIncRef (h : Counts held s) (hr : 0 < (s.socks i).refcount) :
    Counts (.sock i :: held) (sockIncRef s i) := by
  have hst := (h.sockUse i).mpr hr
  unfold Descriptors.sockIncRef
  rw [if_neg hst]
  refine h.setSock_same i _ rfl ?_ (fun d _ hne => ?_) ?_ (h.queueListen i) id
  · rw [count_cons_self]; simp only; omega
  · rw [count_cons_of_ne hne.symm]
  · simp only; exact iff_of_true hst (by omega)

/-- Giving back a reference in hand. The slot is freed with the last one; a
listener must not have connections waiting then. -/
theorem Counts.sockClose (h : Counts (.sock i :: held) s)
    (hq : (s.socks i).queue ≠ [] → 1 < (s.socks i).refcount) : Counts held (sockClose s i) := by
  have hr := h.ref i
  rw [count_cons_self] at hr
  have hst := (h.sockUse i).mpr (by omega)
  have hother : ∀ d : Fd, d ≠ .sock i → held.count d = (Fd.sock i :: held).count d :=
    fun d hne => (count_cons_of_ne hne.symm).symm
  unfold Descriptors.sockClose
  rw [if_neg hst]
  split
  · refine h.setSock_same i _ rfl ?_ (fun d _ hne => hother d hne) ?_ (h.queueListen i) id
    · rw [count_cons_self]; simp only; omega
    · simp only; exact iff_of_true hst (by omega)
  · rename_i h1
    have hqe : (s.socks i).queue = [] := by
      by_contra hne; exact h1 (hq hne)
    have hz : queued s i = 0 := by omega
    refine h.setSock i _ (fun j => ?_) (fun d _ hj => hother d (hj i)) (by simp) (by simp)
      (fun l hl => absurd hl (mem_queue_of_queued hz l)) (by simp)
    rw [update_apply, hqe, count_cons]
    simp only [beq_iff_eq, Fd.sock.injEq]
    split
    · rename_i he; subst he; simp only [if_true]; omega
    · rename_i hne; rw [if_neg (Ne.symm hne), Nat.add_zero]

theorem Counts.sockAccept {conn : SockIdx} (h : Counts held s)
    (ha : sockAccept s i = some (conn, s')) :
    Counts (.sock conn :: held) s' ∧ (s'.socks conn).queue = [] := by
  unfold Descriptors.sockAccept at ha
  split at ha
  · cases ha
  split at ha
  · cases ha
  rename_i hl c q hq
  cases ha
  have hmem : conn ∈ (s.socks i).queue := by rw [hq]; exact mem_cons_self
  have hcs := h.queueConn i conn hmem
  have hst := h.queueListen i (by rw [hq]; simp)
  have hne : conn ≠ i := by
    rintro rfl; rw [hcs] at hst; cases hst
  refine ⟨h.setSock i _ (fun j => ?_) (fun d _ hj => ?_) ?_ (fun _ => hst)
    (fun l hl => ?_) fun j hj => .inl ?_, ?_⟩
  · rw [update_apply, hq, count_cons, count_cons]
    simp only [beq_iff_eq, Fd.sock.injEq]
    split
    · rename_i he; subst he; simp only; omega
    · omega
  · rw [count_cons_of_ne (hj conn).symm]
  · exact h.sockUse i
  · have := h.queueConn l i hl
    rw [hst] at this; cases this
  · rw [hq]; exact mem_cons_of_mem _ hj
  · simp only [Descriptors.setSock, update_of_ne hne]
    exact h.queue_nil (by rw [hcs]; simp)

theorem Counts.onConnect (h : Counts held s) (i : SockIdx) : Counts held (onConnect s i) := by
  unfold Descriptors.onConnect
  split
  · rename_i hst
    have hqe := h.queue_nil (i := i) (by rw [hst]; simp)
    exact h.setState i _ rfl rfl (by simp) (by simp [hst]) (fun hne => absurd hqe hne)
      (fun _ => rfl)
  · rename_i hst
    split
    · exact h
    split
    · exact h
    rename_i conn hf
    have hfree : (s.socks conn).state = .free := by
      unfold freeSock at hf; simpa using List.find?_some hf
    have hne : i ≠ conn := by
      rintro rfl; rw [hst] at hfree; cases hfree
    have ho := h.occupy (v := ⟨.connected, 1, clampBacklog 0, []⟩) hfree rfl rfl (by simp)
    generalize hs' : Descriptors.setSock s conn ⟨.connected, 1, clampBacklog 0, []⟩ = s' at ho
    have hi : s'.socks i = s.socks i := by
      rw [← hs']; simp only [Descriptors.setSock, update_of_ne hne]
    have hcn : (s'.socks conn).state = .connected := by
      rw [← hs']; simp [Descriptors.setSock]
    have hsti : (s'.socks i).state = .listen := by rw [hi]; exact hst
    refine ho.setSock i _ (fun j => ?_) (fun d _ hj => ?_) ?_ (fun _ => hsti)
      (fun l hl => ?_) fun j hj => ?_
    · rw [update_apply]
      simp only [count_append, count_cons, count_nil, beq_iff_eq, Fd.sock.injEq]
      split
      · rename_i he; subst he; simp only; omega
      · omega
    · rw [count_cons_of_ne (hj conn).symm]
    · exact ho.sockUse i
    · have := ho.queueConn l i hl
      rw [hsti] at this; cases this
    · rcases mem_append.mp hj with hj | hj
      · exact .inl hj
      · rw [mem_singleton.mp hj]; exact .inr ⟨hne.symm, hcn⟩
  · exact h

theorem Counts.sockListen (h : Counts held s) (i : SockIdx) (backlog : Int) (ok : Bool) :
    Counts held (sockListen s i backlog ok) := by
  unfold Descriptors.sockListen
  split
  · exact h
  rename_i hst
  simp only [ne_eq, not_not] at hst
  have hqe := h.queue_nil (i := i) (by rw [hst]; simp)
  refine h.setState i _ hqe.symm rfl ?_ (by rw [hst]; simp) (by simp) (by rw [hst]; simp)
  cases ok <;> simp

theorem Counts.sockConnect (h : Counts held s) (i : SockIdx) : Counts held (sockConnect s i) := by
  unfold Descriptors.sockConnect
  split
  · exact h
  rename_i hst
  simp only [ne_eq, not_not] at hst
  have hqe := h.queue_nil (i := i) (by rw [hst]; simp)
  exact h.setState i _ hqe.symm rfl (by simp) (by rw [hst]; simp) (by simp) (by rw [hst]; simp)

theorem Counts.sockConnectFail (h : Counts held s) (i : SockIdx) :
    Counts held (sockConnectFail s i) := by
  unfold Descriptors.sockConnectFail
  split
  · exact h
  rename_i hst
  simp only [ne_eq, not_not] at hst
  have hqe := h.queue_nil (i := i) (by rw [hst]; simp)
  exact h.setState i _ rfl rfl (by simp) (by rw [hst]; simp) (fun hne => absurd hqe hne)
    (by rw [hst]; simp)

/-! ### Object operations leave the tables alone -/

section Frames
variable (s : Sys) (i : SockIdx) (p : PipeIdx)

@[simp] theorem sockClose_frame :
    (sockClose s i).fds = s.fds ∧ (sockClose s i).live = s.live := by
  unfold sockClose; split
  · exact ⟨rfl, rfl⟩
  · split <;> exact ⟨rfl, rfl⟩

@[simp] theorem sockIncRef_frame :
    (sockIncRef s i).fds = s.fds ∧ (sockIncRef s i).live = s.live := by
  unfold sockIncRef; split <;> exact ⟨rfl, rfl⟩

@[simp] theorem pipeIncRead_frame :
    (pipeIncRead s p).fds = s.fds ∧ (pipeIncRead s p).live = s.live := by
  unfold pipeIncRead; split <;> exact ⟨rfl, rfl⟩

@[simp] theorem pipeIncWrite_frame :
    (pipeIncWrite s p).fds = s.fds ∧ (pipeIncWrite s p).live = s.live := by
  unfold pipeIncWrite; split <;> exact ⟨rfl, rfl⟩

@[simp] theorem pipeCloseRead_frame : (pipeCloseRead s p).fds = s.fds ∧
    (pipeCloseRead s p).live = s.live ∧ (pipeCloseRead s p).socks = s.socks := by
  unfold pipeCloseRead; split <;> exact ⟨rfl, rfl, rfl⟩

@[simp] theorem pipeCloseWrite_frame : (pipeCloseWrite s p).fds = s.fds ∧
    (pipeCloseWrite s p).live = s.live ∧ (pipeCloseWrite s p).socks = s.socks := by
  unfold pipeCloseWrite; split <;> exact ⟨rfl, rfl, rfl⟩

end Frames

theorem sockClose_setFd (s : Sys) (k : TaskId × FdIdx) (i : SockIdx) :
    sockClose (setFd s k .free) i = setFd (sockClose s i) k .free := by
  by_cases h1 : (s.socks i).state = .free
  · simp [sockClose, setFd, h1]
  · by_cases h2 : (s.socks i).refcount > 1 <;> simp [sockClose, setFd, setSock, h1, h2]

theorem pipeCloseRead_setFd (s : Sys) (k : TaskId × FdIdx) (p : PipeIdx) :
    pipeCloseRead (setFd s k .free) p = setFd (pipeCloseRead s p) k .free := by
  cases h : (s.pipes p).inUse <;> simp [pipeCloseRead, setFd, setPipe, h]

theorem pipeCloseWrite_setFd (s : Sys) (k : TaskId × FdIdx) (p : PipeIdx) :
    pipeCloseWrite (setFd s k .free) p = setFd (pipeCloseWrite s p) k .free := by
  cases h : (s.pipes p).inUse <;> simp [pipeCloseWrite, setFd, setPipe, h]

/-! ### Releasing and sharing descriptors -/

/-- Clearing slot `k` does not free a listener that has connections waiting. -/
def ReleaseOk (s : Sys) (k : TaskId × FdIdx) : Prop :=
  ∀ i, s.fds k = .sock i → (s.socks i).queue ≠ [] → 1 < (s.socks i).refcount

theorem Counts.releaseFd (h : Counts held s) (hok : ReleaseOk s k) :
    Counts held (releaseFd s k) := by
  have hc := h.clear k
  unfold Descriptors.releaseFd
  cases hk : s.fds k with
  | sock i =>
    rw [hk] at hc
    simp only
    rw [← sockClose_setFd]
    exact hc.sockClose (hok i hk)
  | pipeR p =>
    rw [hk] at hc
    simp only
    rw [← pipeCloseRead_setFd]
    exact hc.pipeCloseRead
  | pipeW p =>
    rw [hk] at hc
    simp only
    rw [← pipeCloseWrite_setFd]
    exact hc.pipeCloseWrite
  | free | claimed | other kind obj => rw [hk] at hc; exact hc.drop rfl

theorem releaseFd_fds (s : Sys) (k : TaskId × FdIdx) :
    (releaseFd s k).fds = update s.fds k .free := by
  unfold releaseFd setFd
  split <;> simp

theorem releaseFd_live (s : Sys) (k : TaskId × FdIdx) : (releaseFd s k).live = s.live := by
  unfold releaseFd setFd
  split <;> simp

/-- A queue that is not empty after a release was so before, and its socket lost
at most the reference that was released. -/
theorem releaseFd_queue {j : SockIdx}
    (hq : ((releaseFd s k).socks j).queue ≠ []) :
    (s.socks j).queue ≠ [] ∧ (s.socks j).refcount ≤
      ((releaseFd s k).socks j).refcount + (if s.fds k = .sock j then 1 else 0) := by
  unfold releaseFd setFd at *
  cases hk : s.fds k with
  | sock i =>
    simp only [hk, Fd.sock.injEq] at hq ⊢
    unfold sockClose setSock at *
    split at hq
    · rename_i hst
      rw [if_pos hst]
      exact ⟨hq, Nat.le_add_right _ _⟩
    · rename_i hst
      rw [if_neg hst]
      split at hq
      · rename_i h1
        rw [if_pos h1]
        simp only [update_apply] at hq ⊢
        split at hq
        · rename_i he; subst he; exact ⟨hq, by simp only [if_true]; omega⟩
        · rename_i hne; rw [if_neg hne]; exact ⟨hq, Nat.le_add_right _ _⟩
      · rename_i h1
        rw [if_neg h1]
        simp only [update_apply] at hq ⊢
        split at hq
        · simp at hq
        · rename_i hne; rw [if_neg hne]; exact ⟨hq, Nat.le_add_right _ _⟩
  | pipeR p | pipeW p | free | claimed | other kind obj =>
    simp only [hk, reduceCtorEq, if_false, pipeCloseRead_frame, pipeCloseWrite_frame] at hq ⊢
    exact ⟨hq, Nat.le_refl _⟩

/-- Descriptors of task `t` among `fds` that are socket `i`. -/
def sockRefs (s : Sys) (t : TaskId) (fds : List FdIdx) (i : SockIdx) : Nat :=
  fds.countP fun fd => s.fds (t, fd) = .sock i

/-- The loop of `close_all_fds`: if no listener with waiting connections loses its
last reference, the counts stay exact and the visited slots are free. -/
theorem Counts.closeLoop {fds : List FdIdx} (hn : fds.Nodup) (h : Counts held s)
    (hok : ∀ i, (s.socks i).queue ≠ [] → sockRefs s t fds i < (s.socks i).refcount) :
    Counts held (fds.foldl (fun s fd => Descriptors.releaseFd s (t, fd)) s) ∧
    (∀ fd, fd ∈ fds ∨ s.fds (t, fd) = .free →
      (fds.foldl (fun s fd => Descriptors.releaseFd s (t, fd)) s).fds (t, fd) = .free) := by
  induction fds generalizing s with
  | nil => exact ⟨h, fun fd hfd => by simpa using hfd⟩
  | cons a fds ih =>
    obtain ⟨ha, hn⟩ := nodup_cons.mp hn
    have hrel : ReleaseOk s (t, a) := by
      intro i hi hq
      have := hok i hq
      simp only [sockRefs, countP_cons, hi, decide_true, if_true] at this
      omega
    have hrefs : ∀ i, sockRefs (Descriptors.releaseFd s (t, a)) t fds i = sockRefs s t fds i := by
      intro i
      refine countP_congr fun fd hfd => ?_
      rw [releaseFd_fds, update_of_ne]
      rintro ⟨⟩
      exact ha hfd
    obtain ⟨hc, hf⟩ := ih hn (h.releaseFd hrel) (fun i hq => by
      obtain ⟨hq0, hle⟩ := releaseFd_queue hq
      have := hok i hq0
      simp only [sockRefs, countP_cons] at this
      rw [hrefs]
      simp only [sockRefs]
      simp only [decide_eq_true_eq] at this
      omega)
    refine ⟨hc, fun fd hfd => hf fd ?_⟩
    rw [releaseFd_fds, update_apply]
    rcases hfd with hfd | hfd
    · rcases mem_cons.mp hfd with rfl | hfd
      · exact .inr (if_pos rfl)
      · exact .inl hfd
    · exact .inr (by rw [hfd]; simp)

theorem Counts.refs_pos (h : Counts held s) :
    (∀ i, s.fds k = .sock i → 0 < (s.socks i).refcount) ∧
    (∀ p, s.fds k = .pipeR p → (s.pipes p).inUse = true) ∧
    (∀ p, s.fds k = .pipeW p → (s.pipes p).inUse = true) := by
  refine ⟨fun i hk => ?_, fun p hk => ?_, fun p hk => ?_⟩
  · have h1 : 0 < descriptors s (.sock i) := RefCount.count_pos hk
    have := h.ref i; omega
  · have h1 : 0 < descriptors s (.pipeR p) := RefCount.count_pos hk
    have := h.read p
    exact h.pipe_inUse (by omega)
  · have h1 : 0 < descriptors s (.pipeW p) := RefCount.count_pos hk
    have := h.write p
    exact h.pipe_inUse (by omega)

theorem Counts.shareFd (h : Counts held s) {k' : TaskId × FdIdx} (hk : s.fds k = .free)
    (hlive : s.live k.1 = true) : Counts held (shareFd s k (s.fds k')) := by
  have hfree : (s.fds k).counted = false := by rw [hk]; rfl
  obtain ⟨hs, hr, hw⟩ := h.refs_pos (k := k')
  cases hv : s.fds k' with
  | sock i => exact (h.sockIncRef (hs i hv)).fill (by simpa using hfree) (by simpa using hlive)
  | pipeR p => exact (h.pipeIncRead (hr p hv)).fill (by simpa using hfree) (by simpa using hlive)
  | pipeW p => exact (h.pipeIncWrite (hw p hv)).fill (by simpa using hfree) (by simpa using hlive)
  | free | claimed | other kind obj => exact (h.add rfl).fill hfree hlive

theorem shareFd_fds (s : Sys) (k : TaskId × FdIdx) (v : Fd) :
    (shareFd s k v).fds = update s.fds k v := by
  unfold shareFd setFd
  split <;> simp

theorem shareFd_live (s : Sys) (k : TaskId × FdIdx) (v : Fd) : (shareFd s k v).live = s.live := by
  unfold shareFd setFd
  split <;> simp

theorem Counts.forkLoop {fds : List FdIdx} (hn : fds.Nodup) (h : Counts held s)
    (hlive : s.live c = true) (hfree : ∀ fd ∈ fds, s.fds (c, fd) = .free) :
    Counts held (fds.foldl (fun s fd => Descriptors.shareFd s (c, fd) (s.fds (t, fd))) s) := by
  induction fds generalizing s with
  | nil => exact h
  | cons a fds ih =>
    obtain ⟨ha, hn⟩ := nodup_cons.mp hn
    refine ih hn (h.shareFd (hfree a mem_cons_self) hlive) ?_ fun fd hfd => ?_
    · rw [shareFd_live]; exact hlive
    · rw [shareFd_fds, update_of_ne]
      · exact hfree fd (mem_cons_of_mem _ hfd)
      · rintro ⟨⟩
        exact ha hfd

/-! ### System calls keep the counts exact -/

theorem allocFd_free {fd : FdIdx} (h : allocFd s t = some fd) :
    s.fds (t, fd) = .free := by
  unfold allocFd at h
  split at h
  · cases h
  · have := List.find?_some h
    simp only [decide_eq_true_eq] at this
    exact this.2

theorem Counts.setPlain (h : Counts held s)
    (hk : (s.fds k).counted = false) (hv : v.counted = false) (hlive : s.live k.1 = true) :
    Counts held (Descriptors.setFd s k v) := by
  refine h.setFd k v (fun d hd => ?_) (.inr hlive)
  rw [if_neg (ne_of_not_counted hk hd), if_neg (ne_of_not_counted hv hd)]

theorem Counts.setLive (h : Counts held s) (live : TaskId → Bool) (maxFds : TaskId → Nat)
    (hd : ∀ t fd, live t = false → s.fds (t, fd) = .free) :
    Counts held { s with live, maxFds } where
  read := h.read
  write := h.write
  pipeUse := h.pipeUse
  ref := h.ref
  sockUse := h.sockUse
  queueListen := h.queueListen
  queueConn := h.queueConn
  dead := hd

theorem Counts.sysOpen (h : Counts held s) (hl : s.live t = true) (kind : OtherKind)
    (obj : Nat) : Counts held (sysOpen s t kind obj) := by
  unfold Descriptors.sysOpen
  split
  · exact h
  · rename_i fd hfd
    exact h.setPlain (by rw [allocFd_free hfd]; rfl) rfl hl

theorem pipeNew_fds (h : pipeNew s = some (p, s')) :
    s'.fds = s.fds ∧ s'.live = s.live := by
  obtain ⟨q, _, he⟩ := map_eq_some_iff.mp h
  cases he
  exact ⟨rfl, rfl⟩

theorem Counts.sysPipe (h : Counts held s) (hl : s.live t = true) :
    Counts held (sysPipe s t) := by
  unfold Descriptors.sysPipe
  split
  · exact h
  rename_i rfd hr
  have hc : Counts held (Descriptors.setFd s (t, rfd) .claimed) :=
    h.setPlain (by rw [allocFd_free hr]; rfl) rfl hl
  have hclaimed : (Descriptors.setFd s (t, rfd) .claimed).fds (t, rfd) = .claimed := by
    simp [Descriptors.setFd]
  have hlive : (Descriptors.setFd s (t, rfd) .claimed).live t = true := hl
  simp only
  generalize Descriptors.setFd s (t, rfd) .claimed = s1 at hc hclaimed hlive
  have hback : Counts held (Descriptors.setFd s1 (t, rfd) .free) :=
    hc.setPlain (by rw [hclaimed]; rfl) rfl hlive
  split
  · exact hback
  rename_i wfd hw
  split
  · exact hback
  rename_i p s2 hp
  obtain ⟨hfds, hlv⟩ := pipeNew_fds hp
  have hwf := allocFd_free hw
  have hne : (t, wfd) ≠ (t, rfd) := by
    rintro ⟨⟩; rw [hclaimed] at hwf; cases hwf
  have hfill : Counts (.pipeW p :: held) (Descriptors.setFd s2 (t, rfd) (.pipeR p)) :=
    (hc.pipeNew hp).fill (by rw [hfds, hclaimed]; rfl) (by rw [hlv]; exact hlive)
  refine hfill.fill ?_ ?_
  · simp only [Descriptors.setFd, update_of_ne hne, hfds, hwf]; rfl
  · simp only [Descriptors.setFd, hlv]; exact hlive

theorem Counts.queue_of_create (hc : Descriptors.sockCreate s = some (i, s')) :
    (s'.socks i).queue = [] ∧ s'.live = s.live := by
  obtain ⟨j, _, he⟩ := map_eq_some_iff.mp hc
  cases he
  simp [Descriptors.setSock]

theorem Counts.sysSocket (h : Counts held s) (hl : s.live t = true) :
    Counts held (sysSocket s t) := by
  unfold Descriptors.sysSocket
  split
  · exact h
  rename_i i s' hc
  obtain ⟨hq, hlv⟩ := Counts.queue_of_create hc
  have hh := h.sockCreate hc
  split
  · exact hh.sockClose fun hne => absurd hq hne
  · rename_i fd hfd
    exact hh.fill (by rw [allocFd_free hfd]; rfl) (by rw [hlv]; exact hl)

theorem sockAccept_live {conn : SockIdx} (h : sockAccept s i = some (conn, s')) :
    s'.live = s.live := by
  unfold sockAccept at h
  split at h
  · cases h
  · split at h
    · cases h
    · cases h; rfl

theorem Counts.sysAccept (h : Counts held s) (hl : s.live t = true) (fd : FdIdx) :
    Counts held (sysAccept s t fd) := by
  unfold Descriptors.sysAccept
  split
  · split
    · exact h
    rename_i conn s' ha
    obtain ⟨hh, hq⟩ := h.sockAccept ha
    split
    · exact hh.sockClose fun hne => absurd hq hne
    · rename_i cfd hfd
      exact hh.fill (by rw [allocFd_free hfd]; rfl) (by rw [sockAccept_live ha]; exact hl)
  · exact h

theorem Counts.onSock (h : Counts held s) {fd : FdIdx} {f : Sys → SockIdx → Sys}
    (hf : ∀ i, Counts held (f s i)) : Counts held (onSock s t fd f) := by
  unfold Descriptors.onSock
  split
  · exact hf _
  · exact h

/-! ### Runs -/

/-- The steps that keep references counted: `dup2` is not applied to a socket
descriptor, and no call drops the last reference of a listener while connections
wait in its queue. -/
def Counted (s : Sys) : Lbl → Prop
  | .close t fd => 3 ≤ fd.val → ReleaseOk s (t, fd)
  | .dup2 t oldfd newfd => s.fds (t, oldfd) ≠ .free → oldfd ≠ newfd →
      (∀ i, s.fds (t, oldfd) ≠ .sock i) ∧ ReleaseOk s (t, newfd)
  | .exit t => ∀ i, (s.socks i).queue ≠ [] →
      sockRefs s t (List.finRange taskMaxFds) i < (s.socks i).refcount
  | _ => True

theorem Counts.sysDup2 (h : Counts held s) (hl : s.live t = true)
    {oldfd newfd : FdIdx} (hok : Counted s (.dup2 t oldfd newfd)) :
    Counts held (sysDup2 s t oldfd newfd) := by
  unfold Descriptors.sysDup2
  split
  · exact h
  rename_i hold
  split
  · exact h
  rename_i hne
  obtain ⟨hns, hrel⟩ := hok hold hne
  -- the state after the implicit close of `newfd`
  have hmid : ∀ s1, s1 = (if s.fds (t, newfd) ≠ .free then Descriptors.releaseFd s (t, newfd) else s) →
      Counts held s1 ∧ s1.fds (t, newfd) = .free ∧ s1.fds (t, oldfd) = s.fds (t, oldfd) ∧
      s1.live t = true := by
    rintro s1 rfl
    split
    · refine ⟨h.releaseFd hrel, ?_, ?_, ?_⟩
      · rw [releaseFd_fds]; simp
      · rw [releaseFd_fds, update_of_ne]; simpa using hne
      · rw [releaseFd_live]; exact hl
    · rename_i hf
      exact ⟨h, by simpa using hf, rfl, hl⟩
  simp only
  generalize hs1 : (if s.fds (t, newfd) ≠ .free then Descriptors.releaseFd s (t, newfd) else s) = s1
  obtain ⟨hc, hnew, hsame, hlive⟩ := hmid s1 hs1.symm
  have hshare : Counts held (Descriptors.shareFd s1 (t, newfd) (s1.fds (t, oldfd))) :=
    hc.shareFd hnew hlive
  -- `dup2` bumps what `task_fork` bumps, sockets apart
  cases hv : s1.fds (t, oldfd) with
  | sock i => exact absurd (hsame.symm.trans hv) (hns i)
  | pipeR p => rw [hv] at hshare; exact hshare
  | pipeW p => rw [hv] at hshare; exact hshare
  | free | claimed | other kind obj => rw [hv] at hshare; exact hshare

theorem Counts.taskFork (h : Counts held s) (hdead : s.live c = false) :
    Counts held (taskFork s t c) := by
  refine Counts.forkLoop (nodup_finRange _) (h.setLive _ _ fun u fd hu => ?_) ?_ fun fd _ => ?_
  · rw [update_apply] at hu
    split at hu
    · cases hu
    · exact h.dead u fd hu
  · simp
  · exact h.dead c fd hdead

theorem Counts.taskExit (h : Counts held s) (hok : Counted s (.exit t)) :
    Counts held (taskExit s t) := by
  obtain ⟨hc, hf⟩ := h.closeLoop (nodup_finRange _) hok
  refine hc.setLive _ _ fun u fd hu => ?_
  rw [update_apply] at hu
  split at hu
  · rename_i he; subst he; exact hf fd (.inl (mem_finRange fd))
  · exact hc.dead u fd hu

theorem Counts.taskCreateUser (h : Counts held s) (hdead : s.live c = false) :
    Counts held (taskCreateUser s c) := by
  have h0 : Counts held { s with
      live := update s.live c true, maxFds := update s.maxFds c 0 } := by
    refine h.setLive _ _ fun u fd hu => ?_
    rw [update_apply] at hu
    split at hu
    · cases hu
    · exact h.dead u fd hu
  have hrow : ∀ fd, s.fds (c, fd) = .free := fun fd => h.dead c fd hdead
  refine ((h0.setPlain ?_ rfl ?_).setPlain ?_ rfl ?_).setPlain ?_ rfl ?_
  all_goals simp [Descriptors.setFd, hrow, Fd.counted]

theorem descriptors_boot (hd : d ≠ .free) : descriptors boot d = 0 :=
  RefCount.count_eq_zero fun _ => hd.symm

theorem counts_boot : Counts [] boot where
  read p := by rw [descriptors_boot (by simp)]; rfl
  write p := by rw [descriptors_boot (by simp)]; rfl
  pipeUse p := by simp [boot]
  ref i := by
    have h2 : queued boot i = 0 := by simp [queued, boot]
    rw [descriptors_boot (by simp), h2]; rfl
  sockUse i := by simp [boot]
  queueListen i h := absurd rfl h
  queueConn l j h := by simp [boot] at h
  dead _ _ _ := rfl

theorem counts_inductive : (sysLTS.restrict Counted).Inductive (Counts []) where
  init s hs := by
    rw [hs]; exact counts_boot
  step s l s' h hs := by
    obtain ⟨hok, hs⟩ := hs
    simp only [sysLTS, LTS.ofFn_step] at hs
    cases l <;> simp only [step, ite_none_left_eq_some, ite_none_right_eq_some,
      Option.some.injEq] at hs
    case createUser c =>
      obtain ⟨hd, rfl⟩ := hs
      exact h.taskCreateUser (by simpa using hd)
    case setMaxFds t n =>
      obtain ⟨_, rfl⟩ := hs
      exact h.setLive _ _ h.dead
    case openFile t kind obj =>
      obtain ⟨hl, rfl⟩ := hs
      exact h.sysOpen hl kind obj
    case pipe t =>
      obtain ⟨hl, rfl⟩ := hs
      exact h.sysPipe hl
    case socket t =>
      obtain ⟨hl, rfl⟩ := hs
      exact h.sysSocket hl
    case listen t fd backlog ok =>
      obtain ⟨_, rfl⟩ := hs
      exact h.onSock fun i => h.sockListen i backlog ok
    case connect t fd =>
      obtain ⟨_, rfl⟩ := hs
      exact h.onSock h.sockConnect
    case connectFail t fd =>
      obtain ⟨_, rfl⟩ := hs
      exact h.onSock h.sockConnectFail
    case onConnect i =>
      subst hs
      exact h.onConnect i
    case accept t fd =>
      obtain ⟨hl, rfl⟩ := hs
      exact h.sysAccept hl fd
    case close t fd =>
      obtain ⟨_, rfl⟩ := hs
      unfold sysClose
      split
      · exact h
      split
      · exact h
      · exact h.releaseFd (hok (by omega))
    case dup2 t oldfd newfd =>
      obtain ⟨hl, rfl⟩ := hs
      exact h.sysDup2 hl hok
    case fork t c =>
      obtain ⟨⟨_, hd⟩, rfl⟩ := hs
      exact h.taskFork (by simpa using hd)
    case exec t =>
      obtain ⟨_, rfl⟩ := hs
      exact h
    case exit t =>
      obtain ⟨_, rfl⟩ := hs
      exact h.taskExit hok

/-- **Reference counts.** In every state of a run of counted steps, each pipe end
has as many references as descriptors, each socket as many as descriptors plus
accept-queue entries, and a pipe's or socket's slot is in use exactly while one of
these refers to it. -/
theorem reference_counts (s : Sys) (hr : (sysLTS.restrict Counted).Reachable s) :
    (∀ p, (s.pipes p).readRefs = descriptors s (.pipeR p) ∧
      (s.pipes p).writeRefs = descriptors s (.pipeW p) ∧
      ((s.pipes p).inUse = true ↔
        0 < descriptors s (.pipeR p) + descriptors s (.pipeW p))) ∧
    (∀ i, (s.socks i).refcount = descriptors s (.sock i) + queued s i ∧
      ((s.socks i).state ≠ .free ↔ 0 < descriptors s (.sock i) + queued s i)) := by
  have h := counts_inductive.reachable s hr
  refine ⟨fun p => ?_, fun i => ?_⟩
  · have h1 := h.read p
    have h2 := h.write p
    have h3 := h.pipeUse p
    simp only [count_nil, Nat.add_zero] at h1 h2
    rw [h1, h2] at h3
    exact ⟨h1, h2, h3⟩
  · have h1 := h.ref i
    have h2 := h.sockUse i
    simp only [count_nil, Nat.add_zero] at h1
    rw [h1] at h2
    exact ⟨h1, h2⟩

/-! ## Runs at which the equation changes -/

local instance : NeZero taskMax := ⟨by decide⟩

/-- A server with one listening socket, to which one client has connected. -/
def backlogRun : List Lbl :=
  [.createUser 0, .socket 0, .listen 0 3 4 true, .onConnect 0]

theorem backlogRun_queue :
    ∃ s, LTS.exec step boot backlogRun = some s ∧ (s.socks 0).queue = [1] :=
  ⟨_, rfl, rfl⟩

theorem backlogRun_reachable :
    ∃ s, (sysLTS.restrict Counted).Reachable s ∧ (s.socks 0).queue = [1] := by
  obtain ⟨s, he, hq⟩ := backlogRun_queue
  have hrun : sysLTS.Run boot backlogRun s := LTS.run_of_exec he
  refine ⟨s, ⟨boot, backlogRun, rfl, hrun.to_restrict fun l hl s => ?_⟩, hq⟩
  simp only [backlogRun, mem_cons, not_mem_nil, or_false] at hl
  rcases hl with rfl | rfl | rfl | rfl <;> trivial

theorem reference_counts_backlog :
    ∃ s, (s.socks 0).queue = [1] ∧ (s.socks 1).refcount = descriptors s (.sock 1) + queued s 1 := by
  obtain ⟨s, hr, hq⟩ := backlogRun_reachable
  exact ⟨s, hq, ((reference_counts s hr).2 1).1⟩

/-- The waiting connection has a reference and no descriptor. -/
theorem queued_connection_has_no_descriptor :
    ¬ ∀ s, sysLTS.Reachable s → ∀ i, (s.socks i).refcount = descriptors s (.sock i) := by
  intro hall
  obtain ⟨s, hr, hq⟩ := backlogRun_reachable
  have href := (counts_inductive.reachable s hr).ref 1
  have heq := hall s hr.of_restrict 1
  have hz : queued s 1 = 0 := by
    simp only [count_nil, Nat.add_zero] at href; omega
  have hmem := mem_queue_of_queued hz 0
  rw [hq] at hmem
  exact hmem mem_cons_self

end AdventOS.Kernel.Descriptors
