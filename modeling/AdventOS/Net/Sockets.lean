import AdventOS.Kernel.Task
import AdventOS.Net.TcbTable

/-!
# Sockets over the control blocks

`kernel/sock.c` as the layer above the machine of `Net/Tcp`. A socket points to its
TCB (`tcb`) and a TCB to its socket (`user_data`, the index plus one), and the two
tables are recycled independently.

A TCB's `user_data` here also has the epoch of the slot at the time: the epoch of a
slot goes up when it is taken and when a `sock_connect` on it fails, so that a TCB
names the very socket it was made for and not one that has the slot later. Epochs,
`ret` (what `sock_connect` returned in the last step, if it returned) and `strays`
(the sockets that callbacks of TCBs they do not own have changed) are history; no
branch reads them.

`sock_connect` drops the network lock while it waits, so it is a call (`Call`) with
one step for each turn of its loop.
-/
namespace AdventOS.Net.Sockets
open Function

open Tcp

/-! ## Data -/

/-- sock.h:31-38 -/
inductive SockState
  | free
  | new
  | listen
  | connecting
  | connected
  | closed
  deriving DecidableEq, Repr

/-- `SOCK_MAX`. sock.h:19 -/
abbrev sockMax : Nat := 24

abbrev SockId := Fin sockMax

/-- What `user_data` points to: a slot, and its epoch then. -/
abbrev User := SockId × Nat

/-- `struct sock`, with the accept queue and the receive ring as the lists they hold.
sock.h:42-76 -/
structure Sock where
  state : SockState
  refcount : Nat
  port : UInt16
  tcb : Option TcbId
  pending : List SockId
  backlog : Nat
  rx : List UInt8
  peerClosed : Bool
  deriving DecidableEq, Repr

/-- A `sock_connect` that has not returned; `tcb` is `none` until its `tcp_connect`
has. -/
structure Call where
  idx : SockId
  ip : Ip
  port : UInt16
  tcb : Option TcbId
  spins : Nat
  deriving DecidableEq, Repr

/-- Who is behind a call into TCP. -/
inductive Caller
  | connect (task : Kernel.Slot)
  | write
  | close (i : SockId)
  deriving DecidableEq, Repr

structure Socks where
  socks : SockId → Sock
  calls : Kernel.Slot → Option Call
  epoch : SockId → Nat
  ret : Option (Call × Bool)
  strays : List (TcbId × SockId)

abbrev State := Machine Socks User Caller

namespace Socks

def upd (u : Socks) (i : SockId) (f : Sock → Sock) : Socks :=
  { u with socks := update u.socks i (f (u.socks i)) }

/-- The TCBs that name slot `i` so far do not name what comes. -/
def bump (u : Socks) (i : SockId) : Socks := { u with epoch := update u.epoch i (u.epoch i + 1) }

def setCall (u : Socks) (k : Kernel.Slot) (c : Option Call) : Socks :=
  { u with calls := update u.calls k c }

def setRet (u : Socks) (r : Option (Call × Bool)) : Socks := { u with ret := r }

@[simp] theorem upd_calls (u : Socks) (i : SockId) (f : Sock → Sock) :
    (u.upd i f).calls = u.calls := rfl
@[simp] theorem upd_epoch (u : Socks) (i : SockId) (f : Sock → Sock) :
    (u.upd i f).epoch = u.epoch := rfl
@[simp] theorem upd_self (u : Socks) (i : SockId) (f : Sock → Sock) :
    (u.upd i f).socks i = f (u.socks i) := by
  simp [upd]

theorem upd_of_ne {u : Socks} {i j : SockId} (f : Sock → Sock) (h : j ≠ i) :
    (u.upd i f).socks j = u.socks j := by
  simp [upd, h]

theorem upd_field {α : Type} {u : Socks} {i : SockId} {f : Sock → Sock} (g : Sock → α)
    (h : g (f (u.socks i)) = g (u.socks i)) (j : SockId) :
    g ((u.upd i f).socks j) = g (u.socks j) := by
  by_cases hj : j = i
  · subst hj
    rw [upd_self]
    exact h
  · rw [upd_of_ne f hj]

@[simp] theorem bump_socks (u : Socks) (i : SockId) : (u.bump i).socks = u.socks := rfl
@[simp] theorem bump_calls (u : Socks) (i : SockId) : (u.bump i).calls = u.calls := rfl
@[simp] theorem bump_strays (u : Socks) (i : SockId) : (u.bump i).strays = u.strays := rfl
@[simp] theorem bump_ret (u : Socks) (i : SockId) : (u.bump i).ret = u.ret := rfl

theorem bump_of_ne {u : Socks} {i j : SockId} (h : j ≠ i) : (u.bump i).epoch j = u.epoch j := by
  simp [bump, h]

@[simp] theorem setCall_socks (u : Socks) (k : Kernel.Slot) (c : Option Call) :
    (u.setCall k c).socks = u.socks := rfl
@[simp] theorem setCall_epoch (u : Socks) (k : Kernel.Slot) (c : Option Call) :
    (u.setCall k c).epoch = u.epoch := rfl
@[simp] theorem setRet_strays (u : Socks) (r : Option (Call × Bool)) :
    (u.setRet r).strays = u.strays := rfl
@[simp] theorem setRet_ret (u : Socks) (r : Option (Call × Bool)) : (u.setRet r).ret = r := rfl

end Socks

/-! ## Slots and the accept queue -/

/-- The slot `sock_create` and `on_connect` take. sock.c:53-54 and 126-128 -/
def firstFree (u : Socks) : Option SockId :=
  (List.finRange sockMax).find? fun i => (u.socks i).state = .free

theorem firstFree_some {u : Socks} {i : SockId} (h : firstFree u = some i) :
    (u.socks i).state = .free := by
  simpa using List.find?_some h

/-- sock.c:16-22; the ring of eight holds at most seven. -/
def qFull (s : Sock) : Bool := s.pending.length = 7 || s.backlog ≤ s.pending.length

/-- sock.c:23-30 -/
def qInit (backlog : Nat) (s : Sock) : Sock :=
  { s with backlog := if backlog = 0 then 1 else min backlog 8, pending := [] }

/-- A slot cleared by `memset` and `q_init`. -/
def Sock.zero : Sock := ⟨.free, 0, 0, none, [], 1, [], false⟩

/-! ## Callbacks -/

/-- `u` has the socket `i` for the TCB `t` with this `user_data`: a listener, a socket
with `t` in its `tcb` field, or one whose `sock_connect` is still in `tcp_connect`. -/
def Owns (u : Socks) (t : TcbId) (i : SockId) (g : Nat) : Prop :=
  g = u.epoch i ∧ ((u.socks i).state = .listen ∨ (u.socks i).tcb = some t ∨
    ∃ k, ∃ c ∈ u.calls k, c.idx = i ∧ c.tcb = none)

instance (u : Socks) (t : TcbId) (i : SockId) (g : Nat) : Decidable (Owns u t i g) := by
  unfold Owns; infer_instance

/-- The socket `i` was free and is now the one made for `t`. -/
def MadeFor (u u' : Socks) (t : TcbId) (i : SockId) : Prop :=
  (u.socks i).state = .free ∧ (u'.socks i).tcb = some t

instance (u u' : Socks) (t : TcbId) (i : SockId) : Decidable (MadeFor u u' t i) := by
  unfold MadeFor; infer_instance

/-- The sockets a callback of `t` has changed that are not `t`'s. -/
def strayed (u u' : Socks) (t : TcbId) (ud : Option User) : List (TcbId × SockId) :=
  ((List.finRange sockMax).filter fun i => u'.socks i ≠ u.socks i ∧
    ¬ (ud = some (i, u.epoch i) ∧ Owns u t i (u.epoch i)) ∧ ¬ MadeFor u u' t i).map fun i => (t, i)

def note (u : Socks) (t : TcbId) (ud : Option User) (u' : Socks) : Socks :=
  { u' with strays := u.strays ++ strayed u u' t ud }

/-- sock.c:90-96 -/
def sockForTcb (u : Socks) (ud : Option User) : Option SockId :=
  match ud with
  | none => none
  | some (i, _) => if (u.socks i).state = .free then none else some i

/-- The conn socket of a listener's new TCB. sock.c:131-136 -/
def connSock (t : TcbId) : Sock :=
  { Sock.zero with state := .connected, refcount := 1, tcb := some t }

/-- sock.c:104-143 -/
def onConnect (u : Socks) (t : TcbId) (ud : Option User) : Socks × Option User :=
  match sockForTcb u ud with
  | none => (u, ud)
  | some i =>
    if (u.socks i).state = .connecting then
      (u.upd i fun s => { s with state := .connected, tcb := some t }, ud)
    else if (u.socks i).state ≠ .listen ∨ qFull (u.socks i) then (u, ud)
    else match firstFree u with
      | none => (u, ud)
      | some j =>
        let u := (u.bump j).upd j fun _ => connSock t
        (u.upd i fun s => { s with pending := s.pending ++ [j] }, some (j, u.epoch j))

/-- sock.c:147-158; the ring of 4096 holds at most 4095. -/
def onRecv (u : Socks) (_t : TcbId) (ud : Option User) (data : List UInt8) : Socks :=
  match sockForTcb u ud with
  | none => u
  | some i => u.upd i fun s => { s with rx := s.rx ++ data.take (4095 - s.rx.length) }

/-- sock.c:160-164 -/
def onClose (u : Socks) (_t : TcbId) (ud : Option User) : Socks :=
  match sockForTcb u ud with
  | none => u
  | some i => u.upd i fun s => { s with peerClosed := true }

/-! ## The rest of the callers -/

/-- `sock_connect` behind its loop. sock.c:285-292 -/
def finish (u : Socks) (k : Kernel.Slot) (c : Call) : Socks :=
  if (u.socks c.idx).state ≠ .connected then
    let u := (u.upd c.idx fun s => { s with state := .new, tcb := none }).bump c.idx
    (u.setCall k none).setRet (some (c, false))
  else (u.setCall k none).setRet (some (c, true))

/-- `sock_connect` behind `tcp_connect`, up to the first wait.
sock.c:266-278 -/
def connectRet (u : Socks) (caller : Caller) (r : Option TcbId) : Socks :=
  match caller with
  | .connect k =>
    match u.calls k, r with
    | none, _ => u
    | some c, none =>
      let u := (u.upd c.idx fun s => { s with state := .new }).bump c.idx
      (u.setCall k none).setRet (some (c, false))
    | some c, some t =>
      let u := (u.upd c.idx fun s => { s with tcb := some t }).setCall k
        (some { c with tcb := some t })
      if (u.socks c.idx).state = .connecting then u else finish u k { c with tcb := some t }
  | _ => u

/-- `sock_close` behind `tcp_close`. sock.c:372-380 -/
def closeRet (u : Socks) (caller : Caller) : Socks :=
  match caller with
  | .close i => u.upd i fun s => qInit 0 { s with tcb := none, state := .free, refcount := 0 }
  | _ => u

/-- The sockets as the layer above TCP. -/
def sockApp : App Socks User Caller where
  onConnect u t ud := (note u t ud (onConnect u t ud).1, (onConnect u t ud).2)
  onRecv u t ud data := note u t ud (onRecv u t ud data)
  onClose u t ud := note u t ud (onClose u t ud)
  connectRet := connectRet
  sendRet u _ _ := u
  closeRet := closeRet

/-! ## Calls -/

/-- sock.c:51-66 -/
def sockCreate (u : Socks) : Socks :=
  match firstFree u with
  | none => u
  | some i => (u.bump i).upd i fun _ => { Sock.zero with state := .new, refcount := 1 }

/-- sock.c:69-75 -/
def sockIncRef (u : Socks) (i : SockId) : Socks :=
  if (u.socks i).state = .free then u
  else u.upd i fun s => { s with refcount := s.refcount + 1 }

/-- sock.c:77-84 -/
def sockBind (u : Socks) (i : SockId) (port : UInt16) : Socks :=
  if (u.socks i).state ≠ .new then u else u.upd i fun s => { s with port := port }

/-- sock.c:168-186 -/
def sockListen (s : State) (i : SockId) (backlog : Nat) : State :=
  if (s.app.socks i).state ≠ .new then s
  else
    let u := s.app.upd i fun k => qInit backlog { k with state := .listen }
    let r := tcpListen (s.setApp u) (u.socks i).port (some (i, u.epoch i))
    match r.1 with
    | none => r.2.setApp (u.upd i fun k => { k with tcb := none, state := .new })
    | some t => r.2.setApp (u.upd i fun k => { k with tcb := some t })

/-- A turn of `sock_accept` that finds a queued connection takes it; any other leaves
the sockets alone. sock.c:188-213 -/
def sockAccept (u : Socks) (i : SockId) : Socks :=
  if (u.socks i).state ≠ .listen then u else u.upd i fun k => { k with pending := k.pending.tail }

/-- `sock_connect` up to `tcp_connect`. sock.c:244-266 -/
def sockConnect (myIp : Ip) (s : State) (k : Kernel.Slot) (i : SockId) (ip : Ip) (port : UInt16)
    (ticks : UInt32) (ok : Bool) : State :=
  if (s.app.socks i).state ≠ .new then s
  else
    let u := s.app.upd i fun k =>
      qInit 0 { k with state := .connecting, peerClosed := false, rx := [] }
    tcpConnect myIp sockApp (s.setApp (u.setCall k (some ⟨i, ip, port, none, 0⟩))) ip port ticks
      (some (i, u.epoch i)) (.connect k) ok

/-- tcp.c:256-259 -/
def tcpStateOf (tcbs : TcbId → Tcb User) (t : TcbId) : TcpState :=
  if (tcbs t).inUse then (tcbs t).state else .closed

/-- Whether `sock_connect` stops waiting after one more turn.
sock.c:275-284 -/
def stops (s : State) (c : Call) (t : TcbId) : Bool :=
  tcpStateOf s.tcbs t = .closed ||
    !((s.app.socks c.idx).state = .connecting && decide (c.spins + 1 < 500))

/-- A turn of the loop of `sock_connect`. -/
def sockPoll (s : State) (k : Kernel.Slot) : State :=
  match s.app.calls k with
  | none => s
  | some c =>
    match c.tcb with
    | none => s
    | some t =>
      let c' := { c with spins := c.spins + 1 }
      if stops s c t then s.setApp (finish s.app k c') else s.setApp (s.app.setCall k (some c'))

/-- The part of `sock_read` that changes the socket. sock.c:320-325 -/
def sockRead (u : Socks) (i : SockId) (n : Nat) : Socks :=
  if (u.socks i).state ≠ .connected ∧ (u.socks i).state ≠ .closed then u
  else u.upd i fun k => { k with rx := k.rx.drop n }

/-- sock.c:331-352 -/
def sockWrite (myIp : Ip) (s : State) (i : SockId) (data : List UInt8) (ok : Bool) : State :=
  if (s.app.socks i).state ≠ .connected then s
  else match (s.app.socks i).tcb with
    | none => s
    | some t => tcpSend myIp sockApp s t data .write ok

/-- sock.c:354-381 -/
def sockClose (myIp : Ip) (s : State) (i : SockId) : State :=
  if (s.app.socks i).state = .free then s
  else if 1 < (s.app.socks i).refcount then
    s.setApp (s.app.upd i fun k => { k with refcount := k.refcount - 1 })
  else match (s.app.socks i).tcb with
    | none => s.setApp (closeRet s.app (.close i))
    | some t => tcpClose myIp sockApp s t (.close i)

/-! ## The system -/

inductive Op
  | create
  | incRef (i : SockId)
  | bind (i : SockId) (port : UInt16)
  | listen (i : SockId) (backlog : Nat)
  | accept (i : SockId)
  | connect (k : Kernel.Slot) (i : SockId) (ip : Ip) (port : UInt16) (ticks : UInt32) (ok : Bool)
  | poll (k : Kernel.Slot)
  | read (i : SockId) (n : Nat)
  | write (i : SockId) (data : List UInt8) (ok : Bool)
  | close (i : SockId)
  | rx (src : Ip) (seg : Seg) (ticks : UInt32)
  | loop (ticks : UInt32)
  | ret

/-- A step, with the machine's address at that time. -/
structure Label where
  myIp : Ip
  op : Op

/-- A step on a state whose `ret` is clear. A task has one `sock_connect` at a time. -/
def stepFrom (s : State) (l : Label) : Option State :=
  match l.op with
  | .create => whenIdle s (s.setApp (sockCreate s.app))
  | .incRef i => whenIdle s (s.setApp (sockIncRef s.app i))
  | .bind i port => whenIdle s (s.setApp (sockBind s.app i port))
  | .listen i backlog => whenIdle s (sockListen s i backlog)
  | .accept i => whenIdle s (s.setApp (sockAccept s.app i))
  | .connect k i ip port ticks ok =>
    if s.app.calls k = none then whenIdle s (sockConnect l.myIp s k i ip port ticks ok) else none
  | .poll k => whenIdle s (sockPoll s k)
  | .read i n => whenIdle s (s.setApp (sockRead s.app i n))
  | .write i data ok => whenIdle s (sockWrite l.myIp s i data ok)
  | .close i => whenIdle s (sockClose l.myIp s i)
  | .rx src seg ticks => whenIdle s (tcpRx l.myIp sockApp s src seg ticks)
  | .loop ticks => loopStep l.myIp sockApp s ticks
  | .ret => retStep l.myIp sockApp s

def sockStep (s : State) (l : Label) : Option State := stepFrom (s.setApp (s.app.setRet none)) l

/-- After `tcp_init` and `sock_init`. sock.c:44-49 -/
def Ready (s : State) : Prop :=
  Booted s ∧ (∀ i, s.app.socks i = Sock.zero) ∧ (∀ k, s.app.calls k = none) ∧
    s.app.ret = none ∧ s.app.strays = []

def sockLTS : LTS State Label := LTS.ofFn Ready sockStep

end AdventOS.Net.Sockets
