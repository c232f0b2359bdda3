import AdventOS.Core.LTS
import Mathlib

/-!
# The TCP control blocks

The whole of `kernel/tcp.c`: the table of control blocks (TCBs), the four calls of
the local side, and `tcp_rx`. Everything runs under the network lock, so a call and
an incoming segment are steps.

A segment to the machine itself does not leave it: `ip_send` calls `tcp_rx` before
it returns, in the middle of the sending function. So the model is a small machine
with a stack. A send to a loopback address pushes a frame with the segment and with
what is left of the sending function (`Cont`); `loop` delivers the segment of the
top frame (and may push further frames), `ret` pops a delivered frame and runs its
rest. A send through the NIC has no such effect: the rest runs at once. Only
`tcp_connect` and `tcp_send` look at whether it succeeded.

The layer above is a parameter: `App` has the three callbacks and what the callers
of `tcp_connect`, `tcp_send` and `tcp_close` do with the result. `D` is what
`user_data` points to.

`sent` and `acked` in a TCB are history: how many sequence numbers it has used
since its initial one, and how many of them `snd_una` has moved over.
-/
namespace AdventOS.Net.Tcp

/-! ## Data -/

/-- tcp.h:45-56 -/
inductive TcpState
  | closed
  | listen
  | synSent
  | synRcvd
  | established
  | finWait1
  | finWait2
  | closeWait
  | lastAck
  | timeWait
  deriving DecidableEq, Repr

structure Ip where
  b0 : UInt8
  b1 : UInt8
  b2 : UInt8
  b3 : UInt8
  deriving DecidableEq, Repr

/-- `TCP_MAX_TCBS`. tcp.h:43 -/
abbrev tcpMaxTcbs : Nat := 24

abbrev TcbId := Fin tcpMaxTcbs

/-- `struct tcb` without the unused transmit buffer; the three callbacks are set and
cleared together (`hooked`). tcp.h:75-98 -/
structure Tcb (D : Type) where
  inUse : Bool
  state : TcpState
  isListener : Bool
  localPort : UInt16
  remoteIp : Ip
  remotePort : UInt16
  sndIsn : UInt32
  sndNxt : UInt32
  sndUna : UInt32
  rcvIsn : UInt32
  rcvNxt : UInt32
  hooked : Bool
  userData : Option D
  sent : Nat
  acked : Nat
  deriving DecidableEq, Repr

/-- The header fields `tcp_rx` reads, in host order, and the bytes behind the
20-byte header. tcp.h:58-68 -/
structure Seg where
  srcPort : UInt16
  dstPort : UInt16
  seq : UInt32
  ack : UInt32
  dataOff : UInt8
  flags : UInt8
  rest : List UInt8
  deriving DecidableEq, Repr

def tcpFin : UInt8 := 0x01
def tcpSyn : UInt8 := 0x02
def tcpRst : UInt8 := 0x04
def tcpPsh : UInt8 := 0x08
def tcpAck : UInt8 := 0x10

def Seg.has (g : Seg) (flag : UInt8) : Bool := g.flags &&& flag ≠ 0

/-- What is left of a sending function after its send. `K` is the caller of
`tcp_connect`, `tcp_send` or `tcp_close`. -/
inductive Cont (K : Type)
  | connect (t : TcbId) (k : K)
  | send (len : Nat) (k : K)
  | close (k : K)
  | spawn
  /-- SYN_SENT, after the ACK of the SYN-ACK -/
  | synAck (t : TcbId) (payload : List UInt8)
  /-- SYN_SENT, after the ACK of piggybacked data -/
  | synData (t : TcbId) (payload : List UInt8)
  /-- ESTABLISHED, after the ACK of data; `fin` is whether the FIN is still to come -/
  | data (t : TcbId) (payload : List UInt8) (fin : Bool)
  /-- ESTABLISHED, after the ACK of a FIN -/
  | fin (t : TcbId)
  /-- FIN_WAIT, after the ACK of a FIN -/
  | finWait (t : TcbId)
  deriving DecidableEq, Repr

/-- A send to a loopback address that has not returned. -/
structure Frame (K : Type) where
  src : Ip
  seg : Seg
  delivered : Bool
  cont : Cont K
  deriving DecidableEq, Repr

/-- The state: the TCBs, `g_next_eph`, the pending sends and the layer above. -/
structure Machine (U D K : Type) where
  tcbs : TcbId → Tcb D
  nextEph : UInt16
  stack : List (Frame K)
  app : U

/-- The layer above. -/
structure App (U D K : Type) where
  onConnect : U → TcbId → Option D → U × Option D
  onRecv : U → TcbId → Option D → List UInt8 → U
  onClose : U → TcbId → Option D → U
  connectRet : U → K → Option TcbId → U
  sendRet : U → K → Option Nat → U
  closeRet : U → K → U

variable {U D K : Type}

namespace Machine

def upd (s : Machine U D K) (t : TcbId) (f : Tcb D → Tcb D) : Machine U D K :=
  { s with tcbs := Function.update s.tcbs t (f (s.tcbs t)) }

def setApp (s : Machine U D K) (u : U) : Machine U D K := { s with app := u }

def push (s : Machine U D K) (f : Frame K) : Machine U D K := { s with stack := f :: s.stack }

section
variable (s : Machine U D K)
include s

@[simp] theorem upd_stack (t : TcbId) (f : Tcb D → Tcb D) : (s.upd t f).stack = s.stack := rfl
@[simp] theorem upd_app (t : TcbId) (f : Tcb D → Tcb D) : (s.upd t f).app = s.app := rfl
@[simp] theorem upd_self (t : TcbId) (f : Tcb D → Tcb D) : (s.upd t f).tcbs t = f (s.tcbs t) := by
  simp [upd]
@[simp] theorem setApp_tcbs (u : U) : (s.setApp u).tcbs = s.tcbs := rfl
@[simp] theorem setApp_stack (u : U) : (s.setApp u).stack = s.stack := rfl
@[simp] theorem setApp_app (u : U) : (s.setApp u).app = u := rfl
@[simp] theorem push_tcbs (f : Frame K) : (s.push f).tcbs = s.tcbs := rfl
@[simp] theorem push_stack (f : Frame K) : (s.push f).stack = f :: s.stack := rfl
@[simp] theorem push_app (f : Frame K) : (s.push f).app = s.app := rfl

end
theorem upd_of_ne {s : Machine U D K} {t i : TcbId} (f : Tcb D → Tcb D) (h : i ≠ t) :
    (s.upd t f).tcbs i = s.tcbs i := by
  simp [upd, h]

end Machine

/-! ## The table -/

def firstTcb (p : TcbId → Bool) : Option TcbId := (List.finRange tcpMaxTcbs).find? p

theorem firstTcb_some {p : TcbId → Bool} {t : TcbId} (h : firstTcb p = some t) : p t = true :=
  List.find?_some h

theorem firstTcb_none {p : TcbId → Bool} (h : firstTcb p = none) (t : TcbId) : p t = false := by
  simpa using List.find?_eq_none.mp h t (List.mem_finRange t)

/-- A cleared TCB. -/
def Tcb.zero : Tcb D :=
  ⟨false, .closed, false, 0, ⟨0, 0, 0, 0⟩, 0, 0, 0, 0, 0, 0, false, none, 0, 0⟩

/-- The slot `tcb_alloc` takes. tcp.c:48-58 -/
def tcbAlloc (tcbs : TcbId → Tcb D) : Option TcbId := firstTcb fun i => !(tcbs i).inUse

/-- tcp.c:60-68 -/
def Tcb.release (t : Tcb D) : Tcb D :=
  { t with
    inUse := false, state := .closed, isListener := false, hooked := false, userData := none }

/-- tcp.c:71-78 -/
def portInUse (tcbs : TcbId → Tcb D) (port : UInt16) : Bool :=
  (List.finRange tcpMaxTcbs).any fun i =>
    (tcbs i).inUse && ((tcbs i).state ≠ .closed) && ((tcbs i).localPort = port)

/-- The search with a number of tries left: the port (0 for none) and the new
`g_next_eph`. tcp.c:80-88 -/
def allocEphemeralPort (tcbs : TcbId → Tcb D) : Nat → UInt16 → UInt16 × UInt16
  | 0, eph => (0, eph)
  | tries + 1, eph =>
    let eph' := if eph + 1 = 0 then 49152 else eph + 1
    let p := if eph < 49152 then 49152 else eph
    if portInUse tcbs p then allocEphemeralPort tcbs tries eph' else (p, eph')

/-- tcp.c:265-292 -/
def findTcbForSeg (tcbs : TcbId → Tcb D) (src : Ip) (g : Seg) : Option TcbId :=
  match firstTcb fun i =>
      (tcbs i).inUse && (tcbs i).state ≠ .listen && (tcbs i).state ≠ .closed &&
        (tcbs i).localPort = g.dstPort && (tcbs i).remotePort = g.srcPort &&
        (tcbs i).remoteIp = src with
  | some t => some t
  | none =>
    if g.has tcpSyn then
      firstTcb fun i =>
        (tcbs i).inUse && (tcbs i).state = .listen && (tcbs i).localPort = g.dstPort
    else none

/-! ## Sending -/

/-- `try_loopback`'s test. ip.c:50-56 -/
def isLoopback (myIp dst : Ip) : Bool := dst.b0 = 127 || (myIp ≠ ⟨0, 0, 0, 0⟩ && dst = myIp)

/-- Whether header and payload fit: `tcp_send_seg_seq`'s buffer and `ip_send`'s
limit. tcp.c:123-124 and ip.c:87 -/
def fits (len : Nat) : Bool := 20 + len ≤ 1480

/-- The segment a TCB sends, and the frame of a send to itself (`try_loopback` fills
in the destination as the source). tcp.c:126-142 and ip.c:58-70 -/
def frameOf (t : Tcb D) (flags : UInt8) (data : List UInt8) (seq : UInt32) (k : Cont K) : Frame K :=
  ⟨t.remoteIp, ⟨t.localPort, t.remotePort, seq, t.rcvNxt, 0x50, flags, data⟩, false, k⟩

variable (myIp : Ip) (app : App U D K)

/-- A send whose result is not looked at, with the rest `run` of the sender (which
`k` names). -/
def sendThen (s : Machine U D K) (t : TcbId) (flags : UInt8) (seq : UInt32) (k : Cont K)
    (run : Machine U D K → Machine U D K) : Machine U D K :=
  if isLoopback myIp (s.tcbs t).remoteIp then s.push (frameOf (s.tcbs t) flags [] seq k)
  else run s

/-- `tcp_send_ack`. tcp.c:148-150 -/
def sendAck (s : Machine U D K) (t : TcbId) (k : Cont K)
    (run : Machine U D K → Machine U D K) : Machine U D K :=
  sendThen myIp s t tcpAck (s.tcbs t).sndNxt k run

/-! ## Callbacks -/

def callConnect (s : Machine U D K) (t : TcbId) : Machine U D K :=
  if (s.tcbs t).hooked then
    let r := app.onConnect s.app t (s.tcbs t).userData
    (s.upd t fun k => { k with userData := r.2 }).setApp r.1
  else s

def callRecv (s : Machine U D K) (t : TcbId) (data : List UInt8) : Machine U D K :=
  if (s.tcbs t).hooked then s.setApp (app.onRecv s.app t (s.tcbs t).userData data) else s

def callClose (s : Machine U D K) (t : TcbId) : Machine U D K :=
  if (s.tcbs t).hooked then s.setApp (app.onClose s.app t (s.tcbs t).userData) else s

/-! ## The rest of a sender -/

def setState (st : TcpState) (t : Tcb D) : Tcb D := { t with state := st }

def advance (n : Nat) (t : Tcb D) : Tcb D := { t with rcvNxt := t.rcvNxt + UInt32.ofNat n }

def runSynData (t : TcbId) (payload : List UInt8) (s : Machine U D K) : Machine U D K :=
  callRecv app s t payload

/-- tcp.c:372-380 -/
def runSynAck (t : TcbId) (payload : List UInt8) (s : Machine U D K) : Machine U D K :=
  let s := callConnect app (s.upd t (setState .established)) t
  if payload = [] then s
  else sendAck myIp (s.upd t (advance payload.length)) t (.synData t payload)
    (runSynData app t payload)

/-- tcp.c:405-406 -/
def runFin (t : TcbId) (s : Machine U D K) : Machine U D K :=
  callClose app (s.upd t (setState .closeWait)) t

/-- tcp.c:402-407 -/
def finPart (t : TcbId) (fin : Bool) (s : Machine U D K) : Machine U D K :=
  if fin then sendAck myIp (s.upd t (advance 1)) t (.fin t) (runFin app t) else s

/-- tcp.c:399-407 -/
def runData (t : TcbId) (payload : List UInt8) (fin : Bool) (s : Machine U D K) : Machine U D K :=
  finPart myIp app t fin (callRecv app s t payload)

/-- tcp.c:419-420 -/
def runFinWait (t : TcbId) (s : Machine U D K) : Machine U D K :=
  (callClose app s t).upd t Tcb.release

/-- What is left of a sender whose loopback send has returned (with 0). -/
def resume (k : Cont K) (s : Machine U D K) : Machine U D K :=
  match k with
  | .connect t k => s.setApp (app.connectRet s.app k (some t))
  | .send len k => s.setApp (app.sendRet s.app k (some len))
  | .close k => s.setApp (app.closeRet s.app k)
  | .spawn => s
  | .synAck t payload => runSynAck myIp app t payload s
  | .synData t payload => runSynData app t payload s
  | .data t payload fin => runData myIp app t payload fin s
  | .fin t => runFin app t s
  | .finWait t => runFinWait app t s

/-! ## Calls of the local side -/

/-- `(uint32_t)pit_ticks() * 2654435761u` -/
def isnOf (ticks : UInt32) : UInt32 := ticks * 2654435761

/-- tcp.c:152-169 -/
def tcpListen (s : Machine U D K) (port : UInt16) (ud : Option D) : Option TcbId × Machine U D K :=
  if portInUse s.tcbs port then (none, s)
  else match tcbAlloc s.tcbs with
    | none => (none, s)
    | some t => (some t, s.upd t fun _ =>
      { (Tcb.zero : Tcb D) with
        inUse := true, state := .listen, isListener := true, localPort := port, hooked := true
        userData := ud })

/-- The TCB of an active open, SYN accounted for. tcp.c:181-206 -/
def newConn (localPort : UInt16) (ip : Ip) (port : UInt16) (isn : UInt32) (ud : Option D) : Tcb D :=
  { (Tcb.zero : Tcb D) with
    inUse := true, state := .synSent, localPort := localPort, remoteIp := ip, remotePort := port
    sndIsn := isn, sndNxt := isn + 1, sndUna := isn, hooked := true, userData := ud, sent := 1 }

/-- tcp.c:171-211; `ok` is `ip_send`'s result when it goes through the
NIC. A failed send releases the TCB again. -/
def tcpConnect (s : Machine U D K) (ip : Ip) (port : UInt16) (ticks : UInt32) (ud : Option D)
    (k : K) (ok : Bool) : Machine U D K :=
  let r := allocEphemeralPort s.tcbs 16384 s.nextEph
  let s := { s with nextEph := r.2 }
  if r.1 = 0 then s.setApp (app.connectRet s.app k none)
  else match tcbAlloc s.tcbs with
    | none => s.setApp (app.connectRet s.app k none)
    | some t =>
      let s := s.upd t fun _ => newConn r.1 ip port (isnOf ticks) ud
      if isLoopback myIp ip then
        s.push (frameOf (s.tcbs t) tcpSyn [] (isnOf ticks) (.connect t k))
      else if ok then s.setApp (app.connectRet s.app k (some t))
      else (s.upd t Tcb.release).setApp (app.connectRet s.app k none)

/-- Sequence numbers used by the sender. -/
def use (n : Nat) (t : Tcb D) : Tcb D :=
  { t with sndNxt := t.sndNxt + UInt32.ofNat n, sent := t.sent + n }

/-- tcp.c:213-230: `snd_nxt` is rolled back when the send fails. -/
def tcpSend (s : Machine U D K) (t : TcbId) (data : List UInt8) (k : K) (ok : Bool) :
    Machine U D K :=
  let c := s.tcbs t
  if ¬ c.inUse ∨ (c.state ≠ .established ∧ c.state ≠ .closeWait) then
    s.setApp (app.sendRet s.app k none)
  else if ¬ fits data.length then s.setApp (app.sendRet s.app k none)
  else if isLoopback myIp c.remoteIp then
    let s := s.upd t (use data.length)
    s.push (frameOf (s.tcbs t) (tcpPsh ||| tcpAck) data c.sndNxt (.send data.length k))
  else if ok then (s.upd t (use data.length)).setApp (app.sendRet s.app k (some data.length))
  else s.setApp (app.sendRet s.app k none)

/-- The FIN of a close. tcp.c:240-247 -/
def sendFin (s : Machine U D K) (t : TcbId) (st : TcpState) (k : K) : Machine U D K :=
  sendThen myIp (s.upd t fun c => setState st (use 1 c)) t (tcpFin ||| tcpAck) (s.tcbs t).sndNxt
    (.close k) fun s => s.setApp (app.closeRet s.app k)

/-- tcp.c:232-254 -/
def tcpClose (s : Machine U D K) (t : TcbId) (k : K) : Machine U D K :=
  let c := s.tcbs t
  let ret := fun s : Machine U D K => s.setApp (app.closeRet s.app k)
  if ¬ c.inUse then ret s
  else match c.state with
    | .listen => ret (s.upd t Tcb.release)
    | .established => sendFin myIp app s t .finWait1 k
    | .closeWait => sendFin myIp app s t .lastAck k
    | .synSent => ret (s.upd t Tcb.release)
    | _ => ret s

/-! ## tcp_rx -/

def takeAck (ack : UInt32) (t : Tcb D) : Tcb D :=
  { t with sndUna := ack, acked := t.acked + (ack - t.sndUna).toNat }

/-- The TCB of a passive open, SYN-ACK accounted for. tcp.c:303-323 -/
def spawnedConn (l : Tcb D) (src : Ip) (srcPort : UInt16) (seq isn : UInt32) : Tcb D :=
  { (Tcb.zero : Tcb D) with
    inUse := true, state := .synRcvd, localPort := l.localPort, remoteIp := src
    remotePort := srcPort, rcvIsn := seq, rcvNxt := seq + 1, sndIsn := isn, sndNxt := isn + 1
    sndUna := isn, hooked := l.hooked, userData := l.userData, sent := 1 }

/-- tcp.c:296-326 -/
def spawnConnFromListener (s : Machine U D K) (l : TcbId) (src : Ip) (g : Seg) (ticks : UInt32) :
    Machine U D K :=
  match tcbAlloc s.tcbs with
  | none => s
  | some c =>
    sendThen myIp (s.upd c fun _ => spawnedConn (s.tcbs l) src g.srcPort g.seq (isnOf ticks)) c
      (tcpSyn ||| tcpAck) (isnOf ticks) .spawn id

/-- tcp.c:393-408 -/
def rxEstablished (s : Machine U D K) (t : TcbId) (g : Seg) (payload : List UInt8) :
    Machine U D K :=
  let s := if g.has tcpAck then s.upd t (takeAck g.ack) else s
  if payload ≠ [] ∧ g.seq = (s.tcbs t).rcvNxt then
    sendAck myIp (s.upd t (advance payload.length)) t (.data t payload (g.has tcpFin))
      (runData myIp app t payload (g.has tcpFin))
  else finPart myIp app t (g.has tcpFin) s

/-- The peer's FIN after ours. tcp.c:416-421 and 425-430 -/
def rxFinWait (s : Machine U D K) (t : TcbId) (g : Seg) : Machine U D K :=
  if g.has tcpFin then
    sendAck myIp (s.upd t (advance 1)) t (.finWait t) (runFinWait app t)
  else s

/-- A segment for a connection. tcp.c:356-446 -/
def rxConn (s : Machine U D K) (t : TcbId) (g : Seg) (payload : List UInt8) : Machine U D K :=
  let c := s.tcbs t
  if g.has tcpRst then (callClose app s t).upd t Tcb.release
  else match c.state with
    | .synSent =>
      if ¬ g.has tcpSyn ∨ ¬ g.has tcpAck ∨ g.ack ≠ c.sndNxt then s
      else sendAck myIp
        (s.upd t fun c => { takeAck g.ack c with rcvIsn := g.seq, rcvNxt := g.seq + 1 }) t
        (.synAck t payload) (runSynAck myIp app t payload)
    | .synRcvd =>
      if ¬ g.has tcpAck ∨ g.ack ≠ c.sndNxt then s
      else
        let s := s.upd t fun c => setState .established (takeAck g.ack c)
        rxEstablished myIp app (callConnect app s t) t g payload
    | .established => rxEstablished myIp app s t g payload
    | .finWait1 =>
      let s := if g.has tcpAck ∧ g.ack = c.sndNxt then
          s.upd t fun c => setState .finWait2 (takeAck g.ack c)
        else s
      rxFinWait myIp app s t g
    | .finWait2 => rxFinWait myIp app s t g
    | .lastAck =>
      if g.has tcpAck ∧ g.ack = c.sndNxt then (callClose app s t).upd t Tcb.release else s
    | _ => s

def hdrLen (g : Seg) : Nat := (g.dataOff >>> 4).toNat * 4

/-- tcp.c:328-447; a segment shorter than its fixed header never gets
this far. -/
def tcpRx (s : Machine U D K) (src : Ip) (g : Seg) (ticks : UInt32) : Machine U D K :=
  if hdrLen g < 20 ∨ 20 + g.rest.length < hdrLen g then s
  else match findTcbForSeg s.tcbs src g with
    | none => s
    | some t =>
      if (s.tcbs t).state = .listen then
        if ¬ g.has tcpSyn then s else spawnConnFromListener myIp s t src g ticks
      else rxConn myIp app s t g (g.rest.drop (hdrLen g - 20))

/-! ## The machine -/

/-- Deliver the segment of the top frame. -/
def loopStep (s : Machine U D K) (ticks : UInt32) : Option (Machine U D K) :=
  match s.stack with
  | [] => none
  | f :: fs =>
    if f.delivered then none
    else
      some (tcpRx myIp app { s with stack := { f with delivered := true } :: fs } f.src f.seg ticks)

/-- Return from the send of the top frame. -/
def retStep (s : Machine U D K) : Option (Machine U D K) :=
  match s.stack with
  | [] => none
  | f :: fs => if f.delivered then some (resume myIp app f.cont { s with stack := fs }) else none

/-- What can happen. The first five need the network lock, which the sender of a
pending loopback send holds. -/
inductive Event (D K : Type)
  | connect (ip : Ip) (port : UInt16) (ticks : UInt32) (ud : Option D) (k : K) (ok : Bool)
  | listen (port : UInt16) (ud : Option D)
  | send (t : TcbId) (data : List UInt8) (k : K) (ok : Bool)
  | close (t : TcbId) (k : K)
  | rx (src : Ip) (seg : Seg) (ticks : UInt32)
  | loop (ticks : UInt32)
  | ret

/-- An event, with the machine's address at that time. -/
structure Label (D K : Type) where
  myIp : Ip
  event : Event D K

def whenIdle (s s' : Machine U D K) : Option (Machine U D K) :=
  if s.stack = [] then some s' else none

def step (s : Machine U D K) (l : Label D K) : Option (Machine U D K) :=
  match l.event with
  | .connect ip port ticks ud k ok =>
    whenIdle s (tcpConnect l.myIp app s ip port ticks ud k ok)
  | .listen port ud => whenIdle s (tcpListen s port ud).2
  | .send t data k ok => whenIdle s (tcpSend l.myIp app s t data k ok)
  | .close t k => whenIdle s (tcpClose l.myIp app s t k)
  | .rx src seg ticks => whenIdle s (tcpRx l.myIp app s src seg ticks)
  | .loop ticks => loopStep l.myIp app s ticks
  | .ret => retStep l.myIp app s

/-- After `tcp_init`. tcp.c:40-46 -/
def Booted (s : Machine U D K) : Prop :=
  (∀ t, s.tcbs t = Tcb.zero) ∧ s.nextEph = 49152 ∧ s.stack = []

def system : LTS (Machine U D K) (Label D K) := LTS.ofFn Booted (step app)

end AdventOS.Net.Tcp
