import AdventOS.Core.LTS
import AdventOS.Core.Ring

/-!
# The TCP receive path of one connection

`tcp_rx` (`kernel/tcp.c`) runs the connection's state machine and calls back into
the socket layer (`kernel/sock.c`), which keeps received bytes in a ring that
`sock_read` drains. Both run under the network lock, so a segment and a read are
one step each.

The model is one connection: its TCB, its socket (none before a passive open
completes and after the last `sock_close`), and the history that the results
speak about: the bytes `sock_read` has returned, whether it has reported end of
file, and for every segment sent with the ACK flag how many sequence numbers after
the peer's SYN it covers. The peer has one byte stream; its segments carry pieces
of it and are delivered in any order, with loss and duplication (`FromPeer`).
`off` is the offset of a segment's payload in the stream, which the code sees only
modulo 2^32 through `seq`.

* `inv_inductive`: over runs of `Clean` steps the bytes returned and buffered are
  the stream up to `rcv_nxt`;
* `received_in_order`: what that gives a reader;
* `fin_overtakes_data`: a run in which a FIN overtakes lost data.
-/
namespace AdventOS.Net.TcpReceive
open List

/-! ## Segments and sockets -/

structure Seg where
  syn : Bool
  ack : Bool
  fin : Bool
  rst : Bool
  seq : UInt32
  ackNo : UInt32
  payload : List UInt8
  deriving DecidableEq, Repr

def sockRxBuf : Nat := 4096

/-- The receive side of `struct sock`: connecting or connected. -/
structure Sock where
  connected : Bool
  peerClosed : Bool
  rx : Ring UInt8 sockRxBuf

inductive TcpState
  | synSent
  | synRcvd
  | established
  | finWait1
  | finWait2
  | closeWait
  | lastAck
  | closed
  deriving DecidableEq, Repr

structure Tcb where
  state : TcpState
  sndNxt : UInt32
  sndUna : UInt32
  rcvNxt : UInt32
  deriving DecidableEq, Repr

/-- A connection. `rcvd` counts the sequence numbers after the peer's SYN that
`rcvNxt` has moved over, without wrap; `acks` is its value at each ACK sent. -/
structure Conn where
  tcb : Tcb
  sock : Option Sock
  rcvd : Nat
  acks : List Nat
  returned : List UInt8
  eof : Bool

def freshSock (connected : Bool) : Sock :=
  ⟨connected, false, Ring.empty 0 (by decide)⟩

/-! ## Callbacks (kernel/sock.c) -/

/-- sock.c:103-149: `room` is whether the accept queue and the
socket table have a place for the new connection. -/
def onConnect (c : Conn) (room : Bool) : Conn :=
  match c.sock with
  | some s => { c with sock := some { s with connected := true } }
  | none => if room then { c with sock := some (freshSock true) } else c

/-- sock.c:151-164. Without a socket of its own the connection's
bytes end in the listener's ring, which `sock_read` never returns. -/
def onRecv (c : Conn) (data : List UInt8) : Conn :=
  { c with sock := c.sock.map fun s => { s with rx := s.rx.pushAll data } }

/-- sock.c:166-170 -/
def onClose (c : Conn) : Conn :=
  { c with sock := c.sock.map fun s => { s with peerClosed := true } }

/-! ## tcp_rx (kernel/tcp.c) -/

/-- A segment with the ACK flag goes out with `rcv_nxt`. -/
def tcpSendAck (c : Conn) : Conn := { c with acks := c.acks ++ [c.rcvd] }

def setState (c : Conn) (st : TcpState) : Conn := { c with tcb := { c.tcb with state := st } }

def advance (c : Conn) (n : Nat) : Conn :=
  { c with tcb := { c.tcb with rcvNxt := c.tcb.rcvNxt + UInt32.ofNat n }, rcvd := c.rcvd + n }

/-- Accept payload: advance, acknowledge, hand it up.
tcp.c:376-380 and 396-400 -/
def takeData (c : Conn) (data : List UInt8) : Conn :=
  onRecv (tcpSendAck (advance c data.length)) data

/-- Accept a FIN. tcp.c:402-404 -/
def takeFin (c : Conn) : Conn := tcpSendAck (advance c 1)

/-- tcp.c:393-408 -/
def rxEstablished (c : Conn) (g : Seg) : Conn :=
  let c := if g.ack then { c with tcb := { c.tcb with sndUna := g.ackNo } } else c
  let c := if g.payload ≠ [] ∧ g.seq = c.tcb.rcvNxt then takeData c g.payload else c
  if g.fin then onClose (setState (takeFin c) .closeWait) else c

/-- tcp.c:409-434: the peer's FIN after ours. -/
def rxFinWait (c : Conn) (g : Seg) : Conn :=
  if g.fin then setState (onClose (takeFin c)) .closed else c

/-- tcp.c:356-446, for a segment that matched this TCB. -/
def tcpRx (c : Conn) (g : Seg) (room : Bool) : Conn :=
  if c.tcb.state = .closed then c
  else if g.rst then setState (onClose c) .closed
  else match c.tcb.state with
    | .synSent =>
      if ¬ g.syn ∨ ¬ g.ack then c
      else if g.ackNo ≠ c.tcb.sndNxt then c
      else
        let c := { c with tcb := { c.tcb with sndUna := g.ackNo, rcvNxt := g.seq + 1 }, rcvd := 0 }
        let c := onConnect (setState (tcpSendAck c) .established) room
        if g.payload ≠ [] then takeData c g.payload else c
    | .synRcvd =>
      if ¬ g.ack then c
      else if g.ackNo ≠ c.tcb.sndNxt then c
      else
        let c := { c with tcb := { c.tcb with sndUna := g.ackNo, state := .established } }
        rxEstablished (onConnect c room) g
    | .established => rxEstablished c g
    | .finWait1 =>
      let c := if g.ack ∧ g.ackNo = c.tcb.sndNxt then
          { c with tcb := { c.tcb with sndUna := g.ackNo, state := .finWait2 } }
        else c
      rxFinWait c g
    | .finWait2 => rxFinWait c g
    | .closeWait => c
    | .lastAck => if g.ack ∧ g.ackNo = c.tcb.sndNxt then setState (onClose c) .closed else c
    | .closed => c

/-! ## Calls of the local side -/

/-- sock.c:295-331; `none` while the call blocks or when the socket
is not connected. -/
def sockRead (c : Conn) (n : Nat) : Option Conn :=
  match c.sock with
  | none => none
  | some s =>
    if ¬ s.connected then none
    else if s.rx.head = s.rx.tail ∧ ¬ s.peerClosed then none
    else some { c with
      sock := some { s with rx := (s.rx.popN n).2 }
      returned := c.returned ++ (s.rx.popN n).1
      eof := c.eof || (0 < n && (s.rx.popN n).1 = []) }

/-- tcp.c:213-230: a data segment carries an ACK too. -/
def tcpSend (c : Conn) (len : Nat) : Option Conn :=
  if c.tcb.state = .established ∨ c.tcb.state = .closeWait then
    some (tcpSendAck { c with tcb := { c.tcb with sndNxt := c.tcb.sndNxt + UInt32.ofNat len } })
  else none

/-- tcp.c:232-254 and sock.c:372-378: the last reference to
the socket is closed. -/
def sockClose (c : Conn) : Conn :=
  let c := { c with sock := none }
  let finished := fun st => tcpSendAck
    { c with tcb := { c.tcb with sndNxt := c.tcb.sndNxt + 1, state := st } }
  match c.tcb.state with
  | .established => finished .finWait1
  | .closeWait => finished .lastAck
  | .synSent => setState c .closed
  | _ => c

/-! ## The peer and the system -/

/-- The peer's initial sequence number and everything it ever sends. -/
structure Peer where
  isn : UInt32
  stream : List UInt8

/-- A segment of this peer: its payload is the stream at `off`, its number says so
modulo 2^32, and a FIN marks the end of the stream. -/
structure FromPeer (p : Peer) (off : Nat) (g : Seg) : Prop where
  seq : g.seq = if g.syn then p.isn else p.isn + 1 + UInt32.ofNat off
  payload : g.payload = (p.stream.drop off).take g.payload.length
  bound : off + g.payload.length ≤ p.stream.length
  syn : g.syn = true → off = 0
  fin : g.fin = true → off + g.payload.length = p.stream.length

inductive Lbl
  | rx (off : Nat) (g : Seg) (room : Bool)
  | read (n : Nat)
  | send (len : Nat)
  | close

/-- A connection just begun: an active open after its SYN, or a passive open after
its SYN-ACK. -/
def Started (p : Peer) (c : Conn) : Prop :=
  c.rcvd = 0 ∧ c.returned = [] ∧ c.eof = false ∧
  ((c.tcb.state = .synSent ∧ c.sock = some (freshSock false) ∧ c.acks = []) ∨
    (c.tcb.state = .synRcvd ∧ c.sock = none ∧ c.acks = [0] ∧ c.tcb.rcvNxt = p.isn + 1))

def connLTS (p : Peer) : LTS Conn Lbl where
  init := Started p
  step c l c' := match l with
    | .rx off g room => FromPeer p off g ∧ c' = tcpRx c g room
    | .read n => sockRead c n = some c'
    | .send len => tcpSend c len = some c'
    | .close => c.sock.isSome = true ∧ c' = sockClose c

/-- Bytes waiting in the socket's ring. -/
def buffered (c : Conn) : List UInt8 :=
  match c.sock with
  | some s => s.rx.contents
  | none => []

/-! ## The steps that lose nothing -/

/-- A segment that reaches the data and FIN branches when `k` stream bytes have
been received: nothing is delivered 2^32 bytes late, accepted data fits in the
ring, and a FIN comes with the last of the data or after it. -/
def CleanData (p : Peer) (c : Conn) (off : Nat) (g : Seg) : Prop :=
  let k := c.returned.length + (buffered c).length
  (g.syn = true → k + 1 < 2 ^ 32) ∧ off < k + 2 ^ 32 ∧ k < off + 2 ^ 32 ∧
  (g.payload ≠ [] → g.seq = c.tcb.rcvNxt → (buffered c).length + g.payload.length < sockRxBuf) ∧
  (g.fin = true → k = p.stream.length ∨ (g.payload ≠ [] ∧ g.seq = c.tcb.rcvNxt))

/-- No reset, room for an accepted connection, and `CleanData` where it matters. -/
def Clean (p : Peer) (c : Conn) : Lbl → Prop
  | .rx off g room => g.rst = false ∧ match c.tcb.state with
    | .synSent => g.payload.length < sockRxBuf
    | .synRcvd => g.ack = true → g.ackNo = c.tcb.sndNxt → room = true ∧ CleanData p c off g
    | .established => CleanData p c off g
    | _ => True
  | _ => True

/-! ## The invariant -/

/-- An open, connected socket that has received the stream up to `n`. -/
structure Holds (p : Peer) (c : Conn) (n : Nat) (closed : Bool) : Prop where
  sock : ∃ s, c.sock = some s ∧ s.connected = true ∧ s.peerClosed = closed
  bytes : c.returned ++ buffered c = p.stream.take n
  bound : n ≤ p.stream.length

/-- What holds in each state of the TCB. -/
def Phase (p : Peer) (c : Conn) : Prop :=
  match c.tcb.state with
  | .synSent => c.sock = some (freshSock false) ∧ c.rcvd = 0 ∧ c.returned = [] ∧ c.acks = []
  | .synRcvd => c.sock = none ∧ c.rcvd = 0 ∧ c.returned = [] ∧ c.acks = [0] ∧
      c.tcb.rcvNxt = p.isn + 1
  | .established => Holds p c c.rcvd false ∧ (∀ a ∈ c.acks, a ≤ c.rcvd) ∧
      c.tcb.rcvNxt = p.isn + 1 + UInt32.ofNat c.rcvd
  | .closeWait => Holds p c p.stream.length true ∧ (∀ a ∈ c.acks, a ≤ p.stream.length + 1) ∧
      c.rcvd = p.stream.length + 1
  | _ => c.sock = none

def Inv (p : Peer) (c : Conn) : Prop :=
  c.returned <+: p.stream ∧ (c.eof = true → c.returned = p.stream) ∧ Phase p c

variable {p : Peer} {c : Conn}

variable {k n off : Nat} {closed : Bool} {g : Seg}

theorem Holds.length (h : Holds p c n closed) :
    c.returned.length + (buffered c).length = n := by
  rw [← length_append, h.bytes, length_take, Nat.min_eq_left h.bound]

theorem Holds.isPrefix (h : Holds p c n closed) :
    c.returned <+: p.stream :=
  (prefix_append _ _).trans (h.bytes ▸ take_prefix _ _)

/-- Sequence numbers that agree with `rcv_nxt` name the next byte, unless the
segment is a whole 2^32 off. -/
theorem seq_eq_rcvNxt (hp : FromPeer p off g)
    (hn : c.tcb.rcvNxt = p.isn + 1 + UInt32.ofNat k) (hs : g.syn = true → k + 1 < 2 ^ 32)
    (h1 : off < k + 2 ^ 32) (h2 : k < off + 2 ^ 32) (he : g.seq = c.tcb.rcvNxt) :
    off = k := by
  rw [hp.seq, hn] at he
  split at he
  · rename_i hsyn
    have hk := hs hsyn
    rw [← UInt32.toNat_inj] at he
    simp only [UInt32.toNat_add, UInt32.toNat_ofNat', UInt32.toNat_one] at he
    omega
  · rw [← UInt32.toNat_inj] at he
    simp only [UInt32.toNat_add, UInt32.toNat_ofNat', UInt32.toNat_one] at he
    omega

/-! ### Taking data and the FIN -/

@[simp] theorem advance_frame (c : Conn) (n : Nat) :
    (advance c n).sock = c.sock ∧ (advance c n).returned = c.returned ∧
    (advance c n).rcvd = c.rcvd + n ∧ (advance c n).eof = c.eof := ⟨rfl, rfl, rfl, rfl⟩

theorem rcvNxt_add (h : c.tcb.rcvNxt = p.isn + 1 + UInt32.ofNat k) :
    c.tcb.rcvNxt + UInt32.ofNat n = p.isn + 1 + UInt32.ofNat (k + n) := by
  rw [h, UInt32.ofNat_add, UInt32.add_assoc]

theorem acks_snoc {acks : List Nat} (h : ∀ a ∈ acks, a ≤ k) (hle : k ≤ n) :
    ∀ a ∈ acks ++ [n], a ≤ n := by
  intro a ha
  rcases mem_append.mp ha with ha | ha
  · exact Nat.le_trans (h a ha) hle
  · exact Nat.le_of_eq (mem_singleton.mp ha)

/-- The state in which the ESTABLISHED branch works. -/
structure Est (p : Peer) (c : Conn) : Prop where
  holds : Holds p c c.rcvd false
  acks : ∀ a ∈ c.acks, a ≤ c.rcvd
  rcvNxt : c.tcb.rcvNxt = p.isn + 1 + UInt32.ofNat c.rcvd

theorem est_takeData (h : Est p c) (hp : FromPeer p off g)
    (hoff : off = c.rcvd) (hfit : (buffered c).length + g.payload.length < sockRxBuf) :
    Est p (takeData c g.payload) ∧ (takeData c g.payload).rcvd = c.rcvd + g.payload.length := by
  obtain ⟨s, hs, hconn, hcl⟩ := h.holds.sock
  have hb : buffered c = s.rx.contents := by unfold buffered; rw [hs]
  have hb' : buffered (takeData c g.payload) = buffered c ++ g.payload := by
    rw [hb]
    unfold buffered takeData onRecv tcpSendAck
    simp only [advance_frame, hs, Option.map_some]
    refine Ring.contents_pushAll_of_fits _ _ ?_
    rw [hb, Ring.length_contents] at hfit
    exact hfit
  refine ⟨⟨⟨⟨{ s with rx := s.rx.pushAll g.payload }, ?_, hconn, hcl⟩, ?_, ?_⟩, ?_, ?_⟩, rfl⟩
  · simp [takeData, onRecv, tcpSendAck, hs]
  · rw [hb']
    simp only [takeData, onRecv, tcpSendAck, advance_frame]
    rw [← append_assoc, h.holds.bytes, hp.payload, hoff, take_add]
    congr 1
    rw [length_take, length_drop]
    have := hp.bound
    rw [Nat.min_eq_left (by omega)]
  · have := hp.bound
    simp only [takeData, onRecv, tcpSendAck, advance_frame]; omega
  · exact acks_snoc h.acks (Nat.le_add_right _ _)
  · exact rcvNxt_add h.rcvNxt

theorem est_takeFin (h : Est p c) (hall : c.rcvd = p.stream.length) :
    Holds p (onClose (setState (takeFin c) .closeWait)) p.stream.length true ∧
    (∀ a ∈ (onClose (setState (takeFin c) .closeWait)).acks, a ≤ p.stream.length + 1) ∧
    (onClose (setState (takeFin c) .closeWait)).rcvd = p.stream.length + 1 := by
  obtain ⟨s, hs, hconn, hcl⟩ := h.holds.sock
  have hbytes := h.holds.bytes
  have hb : buffered c = s.rx.contents := by unfold buffered; rw [hs]
  refine ⟨⟨⟨{ s with peerClosed := true }, ?_, hconn, rfl⟩, ?_, Nat.le_refl _⟩, ?_, ?_⟩
  · simp [onClose, setState, takeFin, tcpSendAck, hs]
  · rw [hall, hb] at hbytes
    simpa [onClose, setState, takeFin, tcpSendAck, hs, buffered] using hbytes
  · rw [← hall]
    exact acks_snoc h.acks (Nat.le_add_right _ _)
  · simp [onClose, setState, takeFin, tcpSendAck, hall]

/-! ### Segments -/

theorem rxEstablished_history (c : Conn) (g : Seg) :
    (rxEstablished c g).returned = c.returned ∧ (rxEstablished c g).eof = c.eof := by
  unfold rxEstablished
  cases g.ack <;> cases g.fin <;> simp only [if_true, if_false, Bool.false_eq_true] <;> split <;>
    exact ⟨rfl, rfl⟩

theorem onConnect_history (c : Conn) (room : Bool) :
    (onConnect c room).returned = c.returned ∧ (onConnect c room).eof = c.eof := by
  unfold onConnect
  split
  · exact ⟨rfl, rfl⟩
  · split <;> exact ⟨rfl, rfl⟩

theorem rxFinWait_history (c : Conn) (g : Seg) :
    (rxFinWait c g).returned = c.returned ∧ (rxFinWait c g).eof = c.eof := by
  unfold rxFinWait
  split <;> exact ⟨rfl, rfl⟩

theorem tcpRx_history (c : Conn) (g : Seg) (room : Bool) :
    (tcpRx c g room).returned = c.returned ∧ (tcpRx c g room).eof = c.eof := by
  unfold tcpRx
  split
  · exact ⟨rfl, rfl⟩
  split
  · exact ⟨rfl, rfl⟩
  split
  · split
    · exact ⟨rfl, rfl⟩
    split
    · exact ⟨rfl, rfl⟩
    simp only
    split
    · simp only [takeData, onRecv, tcpSendAck, advance_frame]
      exact onConnect_history _ _
    · exact onConnect_history _ _
  · split
    · exact ⟨rfl, rfl⟩
    split
    · exact ⟨rfl, rfl⟩
    · obtain ⟨h1, h2⟩ := rxEstablished_history
        (onConnect { c with tcb := { c.tcb with sndUna := g.ackNo, state := .established } } room) g
      obtain ⟨h3, h4⟩ := onConnect_history
        { c with tcb := { c.tcb with sndUna := g.ackNo, state := .established } } room
      exact ⟨h1.trans h3, h2.trans h4⟩
  · exact rxEstablished_history c g
  · simp only
    split
    · exact rxFinWait_history _ g
    · exact rxFinWait_history c g
  · exact rxFinWait_history c g
  · exact ⟨rfl, rfl⟩
  · split <;> exact ⟨rfl, rfl⟩
  · exact ⟨rfl, rfl⟩

theorem Est.phase (hst : c.tcb.state = .established) (h : Est p c) : Phase p c := by
  unfold Phase
  rw [hst]
  exact ⟨h.holds, h.acks, h.rcvNxt⟩

theorem phase_gone (hs : c.sock = none) (hst : c.tcb.state = .finWait1 ∨ c.tcb.state = .finWait2 ∨
    c.tcb.state = .lastAck ∨ c.tcb.state = .closed) : Phase p c := by
  unfold Phase
  rcases hst with h | h | h | h <;> rw [h] <;> exact hs

/-- The ESTABLISHED branch on a clean segment: data in order is appended, and a
FIN closes the stream when all of it is there. -/
theorem est_rx (h : Est p c) (hst : c.tcb.state = .established)
    (hp : FromPeer p off g) (hc : CleanData p c off g) : Phase p (rxEstablished c g) := by
  obtain ⟨hsyn, hlo, hhi, hfit, hfin⟩ := hc
  have hk := h.holds.length
  rw [hk] at hsyn hlo hhi hfin
  unfold rxEstablished
  -- the ACK field only moves `snd_una`
  have hack : ∀ c', c' = (if g.ack then { c with tcb := { c.tcb with sndUna := g.ackNo } } else c) →
      Est p c' ∧ c'.tcb.state = .established ∧ c'.rcvd = c.rcvd ∧ c'.tcb.rcvNxt = c.tcb.rcvNxt ∧
      buffered c' = buffered c := by
    rintro c' rfl
    split
    · exact ⟨⟨⟨h.holds.sock, h.holds.bytes, h.holds.bound⟩, h.acks, h.rcvNxt⟩, hst, rfl, rfl, rfl⟩
    · exact ⟨h, hst, rfl, rfl, rfl⟩
  generalize hc1 : (if g.ack then { c with tcb := { c.tcb with sndUna := g.ackNo } } else c) = c1
  obtain ⟨h1, hst1, hr1, hn1, hb1⟩ := hack c1 hc1.symm
  simp only
  -- the state after the data branch
  have hdata : ∀ c', c' = (if g.payload ≠ [] ∧ g.seq = c1.tcb.rcvNxt then takeData c1 g.payload
      else c1) → Est p c' ∧ c'.tcb.state = .established ∧
      (g.fin = true → c'.rcvd = p.stream.length) := by
    rintro c' rfl
    split
    · rename_i ht
      obtain ⟨hne, hseq⟩ := ht
      rw [hn1] at hseq
      have hoff := seq_eq_rcvNxt hp h.rcvNxt hsyn hlo hhi hseq
      obtain ⟨he, hrc⟩ := est_takeData h1 hp (hoff.trans hr1.symm) (by rw [hb1]; exact hfit hne hseq)
      refine ⟨he, hst1, fun hf => ?_⟩
      rw [hrc, hr1, ← hoff]
      exact hp.fin hf
    · rename_i ht
      refine ⟨h1, hst1, fun hf => ?_⟩
      rw [hr1]
      refine (hfin hf).resolve_right fun hne => ht ?_
      rw [hn1]; exact hne
  generalize hc2 : (if g.payload ≠ [] ∧ g.seq = c1.tcb.rcvNxt then takeData c1 g.payload
    else c1) = c2
  obtain ⟨h2, hst2, hf2⟩ := hdata c2 hc2.symm
  split
  · rename_i hf
    exact est_takeFin h2 (hf2 hf)
  · exact h2.phase hst2

theorem est_fresh {s : Sock} (hs : c.sock = some s) (hconn : s.connected = true)
    (hcl : s.peerClosed = false) (hrx : s.rx.contents = []) (hret : c.returned = [])
    (hr : c.rcvd = 0) (hacks : c.acks = [0]) (hn : c.tcb.rcvNxt = p.isn + 1) : Est p c := by
  refine ⟨⟨⟨s, hs, hconn, hcl⟩, ?_, ?_⟩, ?_, ?_⟩
  · simp [buffered, hs, hrx, hret, hr]
  · rw [hr]; exact Nat.zero_le _
  · simp [hacks, hr]
  · rw [hn, hr, show UInt32.ofNat 0 = 0 from rfl, UInt32.add_zero]

theorem freshSock_contents (b : Bool) : (freshSock b).rx.contents = [] := Ring.contents_empty _ _

theorem rxFinWait_phase (hst : c.tcb.state = .finWait1 ∨ c.tcb.state = .finWait2)
    (hs : c.sock = none) : Phase p (rxFinWait c g) := by
  unfold rxFinWait
  split
  · refine phase_gone ?_ (.inr (.inr (.inr rfl)))
    simp [setState, onClose, takeFin, tcpSendAck, hs]
  · rcases hst with hst | hst
    · exact phase_gone hs (.inl hst)
    · exact phase_gone hs (.inr (.inl hst))

theorem phase_rx (hph : Phase p c) {room : Bool} (hp : FromPeer p off g)
    (hc : Clean p c (.rx off g room)) : Phase p (tcpRx c g room) := by
  obtain ⟨hrst, hc⟩ := hc
  have hph' := hph
  unfold tcpRx
  unfold Phase at hph'
  cases hst : c.tcb.state with
  | closed => rw [if_pos rfl]; exact hph
  | synSent =>
    simp only [hst, hrst, reduceCtorEq, if_false, Bool.false_eq_true] at hph' hc ⊢
    split
    · exact hph
    split
    · exact hph
    rename_i hflags _
    obtain ⟨hs, hr, hret, hacks⟩ := hph'
    have hsyn : g.syn = true := by
      by_contra hn; exact hflags (.inl hn)
    have hseq : g.seq = p.isn := by rw [hp.seq, if_pos hsyn]
    generalize hc1 : onConnect _ room = c1
    have hc1' : c1 = onConnect (setState (tcpSendAck
        { c with tcb := { c.tcb with sndUna := g.ackNo, rcvNxt := g.seq + 1 }, rcvd := 0 })
        .established) room := hc1.symm
    simp only [onConnect, setState, tcpSendAck, hs, hacks, nil_append, hseq] at hc1'
    have hst1 : c1.tcb.state = .established := by rw [hc1']
    have he : Est p c1 := by
      refine est_fresh (s := { freshSock false with connected := true }) ?_ rfl rfl
        (freshSock_contents false) ?_ ?_ ?_ ?_ <;> rw [hc1']
      exact hret
    have hoff : off = c1.rcvd := by rw [hp.syn hsyn, hc1']
    split
    · have hb : buffered c1 = [] := by
        rw [hc1']; exact freshSock_contents false
      obtain ⟨he2, -⟩ := est_takeData he hp hoff (by rw [hb, length_nil, Nat.zero_add]; exact hc)
      exact he2.phase hst1
    · exact he.phase hst1
  | synRcvd =>
    simp only [hst, hrst, reduceCtorEq, if_false, Bool.false_eq_true] at hph' hc ⊢
    split
    · exact hph
    split
    · exact hph
    rename_i hack hno
    obtain ⟨hs, hr, hret, hacks, hn⟩ := hph'
    obtain ⟨rfl, hcd⟩ := hc (by simpa using hack) (by simpa using hno)
    generalize hc1 : onConnect _ true = c1
    have hc1' : c1 = onConnect
        { c with tcb := { c.tcb with sndUna := g.ackNo, state := .established } } true := hc1.symm
    simp only [onConnect, hs, if_true] at hc1'
    have hst1 : c1.tcb.state = .established := by rw [hc1']
    have he : Est p c1 := by
      refine est_fresh (s := freshSock true) ?_ rfl rfl (freshSock_contents true) ?_ ?_ ?_ ?_ <;>
        rw [hc1']
      exacts [hret, hr, hacks, hn]
    have hcd1 : CleanData p c1 off g := by
      have hb : buffered c1 = buffered c := by
        rw [hc1']; simp only [buffered, hs]; exact freshSock_contents true
      have hr1 : c1.returned = c.returned := by rw [hc1']
      have hn1 : c1.tcb.rcvNxt = c.tcb.rcvNxt := by rw [hc1']
      unfold CleanData
      rw [hb, hr1, hn1]
      exact hcd
    exact est_rx he hst1 hp hcd1
  | established =>
    simp only [hst, hrst, reduceCtorEq, if_false, Bool.false_eq_true] at hph' hc ⊢
    obtain ⟨hh, ha, hn⟩ := hph'
    exact est_rx ⟨hh, ha, hn⟩ hst hp hc
  | finWait1 =>
    simp only [hst, hrst, reduceCtorEq, if_false, Bool.false_eq_true] at hph' ⊢
    split
    · exact rxFinWait_phase (.inr rfl) hph'
    · exact rxFinWait_phase (.inl hst) hph'
  | finWait2 =>
    simp only [hst, hrst, reduceCtorEq, if_false, Bool.false_eq_true] at hph' ⊢
    exact rxFinWait_phase (.inr hst) hph'
  | closeWait =>
    simp only [hrst, reduceCtorEq, if_false, Bool.false_eq_true]
    exact hph
  | lastAck =>
    simp only [hst, hrst, reduceCtorEq, if_false, Bool.false_eq_true] at hph' ⊢
    split
    · refine phase_gone ?_ (.inr (.inr (.inr rfl)))
      simp [setState, onClose, hph']
    · exact hph

theorem inv_rx (h : Inv p c) {room : Bool} (hp : FromPeer p off g)
    (hc : Clean p c (.rx off g room)) : Inv p (tcpRx c g room) := by
  obtain ⟨hpre, heof, hph⟩ := h
  obtain ⟨hret, hef⟩ := tcpRx_history c g room
  refine ⟨by rw [hret]; exact hpre, ?_, phase_rx hph hp hc⟩
  rw [hret, hef]
  exact heof

/-! ### Reads, sends and the close -/

theorem Holds.read {s : Sock} (h : Holds p c k closed)
    (hs : c.sock = some s) (n : Nat) (eof : Bool) :
    Holds p { c with
      sock := some { s with rx := (s.rx.popN n).2 }
      returned := c.returned ++ (s.rx.popN n).1
      eof } k closed := by
  obtain ⟨s', hs', hconn, hcl⟩ := h.sock
  rw [hs] at hs'; cases hs'
  refine ⟨⟨_, rfl, hconn, hcl⟩, ?_, h.bound⟩
  have hb : buffered c = s.rx.contents := by unfold buffered; rw [hs]
  obtain ⟨h1, h2⟩ := s.rx.contents_popN n
  rw [← h.bytes, hb]
  simp only [buffered, h1, h2, append_assoc, take_append_drop]

theorem inv_read (h : Inv p c) {c' : Conn} (hr : sockRead c n = some c') : Inv p c' := by
  obtain ⟨hpre, heof, hph⟩ := h
  unfold sockRead at hr
  split at hr
  · cases hr
  rename_i s hs
  split at hr
  · cases hr
  rename_i hconn
  split at hr
  · cases hr
  rename_i hready
  cases hr
  unfold Phase at hph
  cases hst : c.tcb.state with
  | established =>
    simp only [hst] at hph
    obtain ⟨hh, ha, hn⟩ := hph
    have hh' := hh.read hs n (c.eof || (0 < n && (s.rx.popN n).1 = []))
    refine ⟨hh'.isPrefix, fun he => ?_, ?_⟩
    · -- the ring was not empty, so the read returned something
      obtain ⟨s', hs', -, hcl⟩ := hh.sock
      rw [hs] at hs'; cases hs'
      simp only [hcl, Bool.false_eq_true, not_false_eq_true, and_true] at hready
      simp only [Bool.or_eq_true, Bool.and_eq_true, decide_eq_true_eq] at he
      rcases he with he | ⟨hn0, he⟩
      · have hr0 := heof he
        have hlen := hh.length
        have := hh.bound
        rw [hr0] at hlen
        have hb : buffered c = s.rx.contents := by unfold buffered; rw [hs]
        have hz : s.rx.contents = [] := by
          rw [← length_eq_zero_iff, ← hb]; omega
        rw [Ring.empty_iff, ← Ring.length_contents, hz] at hready
        exact absurd rfl hready
      · rw [(s.rx.contents_popN n).1, take_eq_nil_iff] at he
        rcases he with he | he
        · omega
        · rw [Ring.empty_iff, ← Ring.length_contents, he] at hready
          exact absurd rfl hready
    · unfold Phase
      simp only [hst]
      exact ⟨hh', ha, hn⟩
  | closeWait =>
    simp only [hst] at hph
    obtain ⟨hh, ha, hn⟩ := hph
    have hh' := hh.read hs n (c.eof || (0 < n && (s.rx.popN n).1 = []))
    refine ⟨hh'.isPrefix, fun he => ?_, ?_⟩
    · have hb : buffered c = s.rx.contents := by unfold buffered; rw [hs]
      have hbytes := hh.bytes
      rw [take_length, hb] at hbytes
      simp only [Bool.or_eq_true, Bool.and_eq_true, decide_eq_true_eq] at he
      obtain ⟨h1, -⟩ := s.rx.contents_popN n
      rcases he with he | ⟨hn0, he⟩
      · have hr0 := heof he
        rw [hr0] at hbytes
        have hz : s.rx.contents = [] := by simpa using hbytes
        simp only [h1, hz, take_nil, append_nil]
        exact hr0
      · rw [h1, take_eq_nil_iff] at he
        rcases he with he | he
        · omega
        · rw [he, append_nil] at hbytes
          simp only [h1, he, take_nil, append_nil]
          exact hbytes
    · unfold Phase
      simp only [hst]
      exact ⟨hh', ha, hn⟩
  | synSent =>
    simp only [hst] at hph
    rw [hph.1] at hs; cases hs
    exact absurd (show (freshSock false).connected = false from rfl) (by simpa using hconn)
  | synRcvd => simp only [hst] at hph; rw [hph.1] at hs; cases hs
  | finWait1 | finWait2 | lastAck | closed => simp only [hst] at hph; rw [hph] at hs; cases hs

theorem inv_send (h : Inv p c) {len : Nat} {c' : Conn} (hs : tcpSend c len = some c') :
    Inv p c' := by
  obtain ⟨hpre, heof, hph⟩ := h
  unfold tcpSend at hs
  split at hs
  · rename_i hst
    cases hs
    refine ⟨hpre, heof, ?_⟩
    unfold Phase at hph ⊢
    rcases hst with hst | hst <;> simp only [tcpSendAck, hst] at hph ⊢ <;> obtain ⟨hh, ha, hn⟩ := hph
    · exact ⟨⟨hh.sock, hh.bytes, hh.bound⟩, acks_snoc ha (Nat.le_refl _), hn⟩
    · refine ⟨⟨hh.sock, hh.bytes, hh.bound⟩, ?_, hn⟩
      rw [hn]
      exact acks_snoc ha (Nat.le_refl _)
  · cases hs

theorem inv_close (h : Inv p c) (hs : c.sock.isSome = true) : Inv p (sockClose c) := by
  obtain ⟨hpre, heof, hph⟩ := h
  unfold Phase at hph
  unfold sockClose
  cases hst : c.tcb.state with
  | established => simp only [hst]; exact ⟨hpre, heof, phase_gone rfl (.inl rfl)⟩
  | closeWait => simp only [hst]; exact ⟨hpre, heof, phase_gone rfl (.inr (.inr (.inl rfl)))⟩
  | synSent => simp only [hst]; exact ⟨hpre, heof, phase_gone rfl (.inr (.inr (.inr rfl)))⟩
  | synRcvd => simp only [hst] at hph; rw [hph.1] at hs; cases hs
  | finWait1 | finWait2 | lastAck | closed => simp only [hst] at hph; rw [hph] at hs; cases hs

theorem inv_inductive (p : Peer) : ((connLTS p).restrict (Clean p)).Inductive (Inv p) where
  init c hi := by
    obtain ⟨hr, hret, heof, hst⟩ := hi
    refine ⟨by rw [hret]; exact nil_prefix, fun he => ?_, ?_⟩
    · rw [heof] at he; cases he
    · unfold Phase
      rcases hst with ⟨hst, hs, ha⟩ | ⟨hst, hs, ha, hn⟩ <;> simp only [hst]
      · exact ⟨hs, hr, hret, ha⟩
      · exact ⟨hs, hr, hret, ha, hn⟩
  step c l c' h hs := by
    obtain ⟨hc, hs⟩ := hs
    cases l with
    | rx off g room =>
      obtain ⟨hp, rfl⟩ := hs
      exact inv_rx h hp hc
    | read n => exact inv_read h hs
    | send len => exact inv_send h hs
    | close =>
      obtain ⟨hsome, rfl⟩ := hs
      exact inv_close h hsome

/-! ## What a reader gets -/

/-- Byte `j` of the stream has been returned or waits, in order, in the ring. -/
def Available (p : Peer) (c : Conn) (j : Nat) : Prop :=
  (c.returned ++ buffered c)[j]? = p.stream[j]?

/-- The bytes returned are a prefix of the peer's stream; while the socket is open
every byte covered by an ACK has been returned or waits in order; and end of file
was reported only after the whole stream. -/
def Delivers (p : Peer) (c : Conn) : Prop :=
  c.returned <+: p.stream ∧
  (c.sock.isSome = true → ∀ a ∈ c.acks, ∀ j, j < a → j < p.stream.length → Available p c j) ∧
  (c.eof = true → c.returned = p.stream)

/-- **Receive path.** The connection delivers in every state of a run of clean
steps. -/
theorem received_in_order (p : Peer) (c : Conn)
    (hr : ((connLTS p).restrict (Clean p)).Reachable c) : Delivers p c := by
  obtain ⟨hpre, heof, hph⟩ := (inv_inductive p).reachable c hr
  refine ⟨hpre, fun hs a ha j hj hlen => ?_, heof⟩
  unfold Phase at hph
  unfold Available
  cases hst : c.tcb.state with
  | established =>
    simp only [hst] at hph
    obtain ⟨hh, hak, -⟩ := hph
    have := hak a ha
    rw [hh.bytes, List.getElem?_take_of_lt (by omega)]
  | closeWait =>
    simp only [hst] at hph
    rw [hph.1.bytes, take_length]
  | synSent =>
    simp only [hst] at hph
    rw [hph.2.2.2] at ha; cases ha
  | synRcvd => simp only [hst] at hph; rw [hph.1] at hs; cases hs
  | finWait1 | finWait2 | lastAck | closed => simp only [hst] at hph; rw [hph] at hs; cases hs

/-! ## A FIN that overtakes data -/

/-- A peer that sends one byte and closes. -/
def oneByte : Peer := ⟨1000, [65]⟩

/-- Our side of a passive open, after its SYN-ACK. -/
def accepted : Conn := ⟨⟨.synRcvd, 501, 500, 1001⟩, none, 0, [0], [], false⟩

def handshakeAck : Seg := ⟨false, true, false, false, 1001, 501, []⟩
def dataSeg : Seg := ⟨false, true, false, false, 1001, 501, [65]⟩
def finSeg : Seg := ⟨false, true, true, false, 1002, 501, []⟩

theorem accepted_init : (connLTS oneByte).init accepted :=
  ⟨rfl, rfl, rfl, .inr ⟨rfl, rfl, rfl, rfl⟩⟩

theorem handshakeAck_fromPeer : FromPeer oneByte 0 handshakeAck :=
  ⟨by decide, by decide, by decide, by decide, by decide⟩

theorem dataSeg_fromPeer : FromPeer oneByte 0 dataSeg :=
  ⟨by decide, by decide, by decide, by decide, by decide⟩

theorem finSeg_fromPeer : FromPeer oneByte 1 finSeg :=
  ⟨by decide, by decide, by decide, by decide, by decide⟩

def established : Conn := tcpRx accepted handshakeAck true

theorem established_step :
    ((connLTS oneByte).restrict (Clean oneByte)).step accepted (.rx 0 handshakeAck true)
      established := by
  refine ⟨⟨rfl, fun _ _ => ⟨rfl, ?_⟩⟩, handshakeAck_fromPeer, rfl⟩
  refine ⟨by decide, by decide, by decide, by decide, by decide⟩

/-- The byte arrives in order and waits in the ring. -/
theorem received_in_order_one_byte :
    ∃ c, c.acks = [0, 1] ∧ Available oneByte c 0 := by
  have h0 : ((connLTS oneByte).restrict (Clean oneByte)).Reachable established :=
    .step (.init accepted_init) established_step
  have hclean : Clean oneByte established (.rx 0 dataSeg true) := by
    refine ⟨rfl, ?_⟩
    refine ⟨by decide, by decide, by decide, by decide, by decide⟩
  have hstep : ((connLTS oneByte).restrict (Clean oneByte)).step established (.rx 0 dataSeg true)
      (tcpRx established dataSeg true) := ⟨hclean, dataSeg_fromPeer, rfl⟩
  have h1 := h0.step hstep
  have hacks : (tcpRx established dataSeg true).acks = [0, 1] := by decide
  refine ⟨_, hacks, ?_⟩
  exact (received_in_order oneByte _ h1).2.1 (by decide) 1 (by rw [hacks]; decide) 0 (by decide)
    (by decide)

/-- The data segment is lost and the FIN arrives: `tcp_rx` does not look at its
sequence number, acknowledges the missing byte and closes the socket, and the next
read reports end of file without having returned anything. -/
theorem fin_overtakes_data :
    ¬ ∀ c, (connLTS oneByte).Reachable c → Delivers oneByte c := by
  intro hall
  have h0 : (connLTS oneByte).Reachable established :=
    .step (.init accepted_init) established_step.2
  have hfin : (connLTS oneByte).step established (.rx 1 finSeg true)
      (tcpRx established finSeg true) := ⟨finSeg_fromPeer, rfl⟩
  have hread : ∃ c, sockRead (tcpRx established finSeg true) 1 = some c ∧ c.eof = true ∧
      c.returned = [] := ⟨_, rfl, by decide, by decide⟩
  obtain ⟨c, hc, heof, hret⟩ := hread
  have hlast : (connLTS oneByte).step (tcpRx established finSeg true) (.read 1) c := hc
  have hd := (hall c ((h0.step hfin).step hlast)).2.2 heof
  rw [hret] at hd
  exact absurd hd (by decide)

end AdventOS.Net.TcpReceive
