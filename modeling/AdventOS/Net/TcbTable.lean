import AdventOS.Net.Tcp

/-!
# The table of control blocks

Two invariants of the TCB table over every run of the machine in `Net/Tcp`, for any
layer above, any segments and any tick values:

* two in-use connection TCBs never share (local port, remote address, remote port);
* in an in-use connection TCB `snd_una` lies between the initial sequence number and
  `snd_nxt`, and no step moves it backwards.

The first holds of every run. The second does not: in ESTABLISHED `tcp_rx` copies
whatever acknowledgement number a segment carries, where SYN_SENT, SYN_RCVD,
FIN_WAIT_1 and LAST_ACK all compare it with `snd_nxt` first. It holds of the runs in
which such a segment acknowledges something outstanding (`AckInWindow`).

Sequence numbers wrap, so the order is said with the two counters of a TCB:
`snd_una` is the initial number plus `acked`, `snd_nxt` is it plus `sent`, and
`acked ≤ sent`. For fewer than `2^32` numbers that is the order of the distances
from the initial number, `SndOrdered.between`.

What makes the induction go through is that a pending loopback send that will still
write to its TCB carries a bare ACK: delivering one never sends again, so such a
frame is the top of the stack and its TCB is as the sender left it (`TopOk`).

**Results.**
* `tcb_table`: the invariant, and what each step does to `snd_una`.
* `forged_ack`: a run in which an acknowledgement of bytes never sent is taken.
-/
namespace AdventOS.Net.Tcp
open List

variable {U D K : Type} {C : Prop}

/-! ## Sequence numbers -/

/-- `snd_una` and `snd_nxt` are the initial number plus what was acknowledged and
what was sent. -/
structure SndOrdered (c : Tcb D) : Prop where
  nxt : c.sndNxt = c.sndIsn + UInt32.ofNat c.sent
  una : c.sndUna = c.sndIsn + UInt32.ofNat c.acked
  le : c.acked ≤ c.sent

/-- `a` is in the window from `snd_una` to `snd_nxt`. -/
def AckOk (c : Tcb D) (a : UInt32) : Prop := (a - c.sndUna).toNat ≤ (c.sndNxt - c.sndUna).toNat

instance (c : Tcb D) (a : UInt32) : Decidable (AckOk c a) := Nat.decLe _ _

variable {c c' : Tcb D} {t : TcbId} {s s' s₁ : Machine U D K} {k : Cont K} {payload : List UInt8}
  {g : Seg} {tcbs tcbs' : TcbId → Tcb D} {src : Ip}

theorem SndOrdered.outstanding (h : SndOrdered c) :
    (c.sndNxt - c.sndUna).toNat ≤ c.sent - c.acked := by
  have hd : c.sndNxt - c.sndUna = UInt32.ofNat (c.sent - c.acked) := by
    rw [h.nxt, h.una, UInt32.ofNat_sub h.le]
    grind
  rw [hd, UInt32.toNat_ofNat']
  exact Nat.mod_le _ _

/-- `snd_una` is at most as far from the initial number as `snd_nxt`. -/
def Between (c : Tcb D) : Prop := (c.sndUna - c.sndIsn).toNat ≤ (c.sndNxt - c.sndIsn).toNat

theorem SndOrdered.between (h : SndOrdered c) (hs : c.sent < 2 ^ 32) : Between c := by
  unfold Between
  have hle := h.le
  have hu : c.sndUna - c.sndIsn = UInt32.ofNat c.acked := by
    rw [h.una]
    grind
  have hn : c.sndNxt - c.sndIsn = UInt32.ofNat c.sent := by
    rw [h.nxt]
    grind
  rw [hu, hn, UInt32.toNat_ofNat', UInt32.toNat_ofNat', Nat.mod_eq_of_lt hs,
    Nat.mod_eq_of_lt (by omega)]
  exact hle

theorem SndOrdered.takeAck {a : UInt32} (h : SndOrdered c) (ha : AckOk c a) :
    SndOrdered (takeAck a c) := by
  refine ⟨h.nxt, ?_, ?_⟩
  · show a = c.sndIsn + UInt32.ofNat (c.acked + (a - c.sndUna).toNat)
    rw [UInt32.ofNat_add, ← UInt32.add_assoc, ← h.una, UInt32.ofNat_toNat]
    grind
  · show c.acked + (a - c.sndUna).toNat ≤ c.sent
    have hout := h.outstanding
    have hle := h.le
    unfold AckOk at ha
    omega

theorem SndOrdered.use (h : SndOrdered c) (n : Nat) : SndOrdered (use n c) := by
  refine ⟨?_, h.una, ?_⟩
  · show c.sndNxt + UInt32.ofNat n = c.sndIsn + UInt32.ofNat (c.sent + n)
    rw [h.nxt, UInt32.ofNat_add, UInt32.add_assoc]
  · exact Nat.le_add_right_of_le h.le

theorem ackOk_sndNxt (c : Tcb D) : AckOk c c.sndNxt := le_refl _

/-! ## What can happen to a TCB -/

/-- In use and not a listener. -/
def Tcb.Conn (c : Tcb D) : Prop := c.inUse = true ∧ c.state ≠ .listen

instance (c : Tcb D) : Decidable c.Conn := inferInstanceAs (Decidable (_ ∧ _))

/-- The addresses of the two ends. -/
def Tcb.ends (c : Tcb D) : UInt16 × Ip × UInt16 := (c.localPort, c.remoteIp, c.remotePort)

/-- Released, or the same connection with its send side as it was. -/
structure Same (c c' : Tcb D) : Prop where
  inUse : c.inUse = true
  closed : c'.state = .closed → c.state = .closed
  listen : c'.state = .listen ↔ c.state = .listen
  ends : c'.ends = c.ends
  isn : c'.sndIsn = c.sndIsn
  nxt : c'.sndNxt = c.sndNxt
  una : c'.sndUna = c.sndUna
  sent : c'.sent = c.sent
  acked : c'.acked = c.acked

def Later (c c' : Tcb D) : Prop := c'.inUse = true → Same c c'

theorem Later.refl (c : Tcb D) : Later c c :=
  fun h => ⟨h, id, Iff.rfl, rfl, rfl, rfl, rfl, rfl, rfl⟩

theorem Later.trans {a b : Tcb D} (h : Later a b) (h' : Later b c) : Later a c := by
  intro hc
  have hbc := h' hc
  have hab := h hbc.inUse
  exact ⟨hab.inUse, fun hs => hab.closed (hbc.closed hs), hbc.listen.trans hab.listen,
    hbc.ends.trans hab.ends, hbc.isn.trans hab.isn, hbc.nxt.trans hab.nxt, hbc.una.trans hab.una,
    hbc.sent.trans hab.sent, hbc.acked.trans hab.acked⟩

theorem later_release (c : Tcb D) : Later c c.release := by
  intro h
  cases h

theorem later_advance (n : Nat) (c : Tcb D) : Later c (advance n c) :=
  fun h => ⟨h, id, Iff.rfl, rfl, rfl, rfl, rfl, rfl, rfl⟩

theorem later_setState {st : TcpState} (hl : c.state ≠ .listen) (h : st ≠ .listen)
    (hc : st ≠ .closed) : Later c (setState st c) :=
  fun hu => ⟨hu, fun hs => absurd hs hc, ⟨fun hs => absurd hs h, fun hs => absurd hs hl⟩,
    rfl, rfl, rfl, rfl, rfl, rfl⟩

/-- What a step does to a TCB that was in use, apart from its receive side; an
acknowledgement is in the window if `C` holds. -/
inductive Change (C : Prop) (c c' : Tcb D) : Prop
  | later (h : Later c c')
  | ack (a : UInt32) (ha : C → AckOk c a) (h : Later (takeAck a c) c')
  | send (n : Nat) (h : Later (use n c) c')

/-- The new `snd_una` lies between the old one and the new `snd_nxt`. -/
def Forward (c c' : Tcb D) : Prop :=
  (c'.sndUna - c.sndUna).toNat ≤ (c'.sndNxt - c.sndUna).toNat

theorem Change.conn (h : Change C c c') (hc : c'.Conn) :
    c.Conn ∧ c'.ends = c.ends ∧ (c'.state = .closed → c.state = .closed) := by
  obtain ⟨hu, hl⟩ := hc
  rcases h with h | ⟨a, -, h⟩ | ⟨n, h⟩
  all_goals
    have hs := h hu
    exact ⟨⟨hs.inUse, fun hl' => hl (hs.listen.mpr hl')⟩, hs.ends, hs.closed⟩

theorem Change.ordered (h : Change C c c') (hC : C) (hu : c'.inUse = true)
    (ho : SndOrdered c) : SndOrdered c' := by
  have key : ∀ {d : Tcb D}, SndOrdered d → Same d c' → SndOrdered c' := by
    intro d hd hs
    refine ⟨?_, ?_, ?_⟩
    · rw [hs.nxt, hs.isn, hs.sent, hd.nxt]
    · rw [hs.una, hs.isn, hs.acked, hd.una]
    · rw [hs.acked, hs.sent]
      exact hd.le
  rcases h with h | ⟨a, ha, h⟩ | ⟨n, h⟩
  · exact key ho (h hu)
  · exact key (ho.takeAck (ha hC)) (h hu)
  · exact key (ho.use n) (h hu)

theorem Change.forward (h : Change C c c') (hC : C) (hu : c'.inUse = true) :
    Forward c c' := by
  unfold Forward
  rcases h with h | ⟨a, ha, h⟩ | ⟨n, h⟩
  · rw [(h hu).una, UInt32.sub_self]
    exact Nat.zero_le _
  · rw [(h hu).una, (h hu).nxt]
    exact ha hC
  · rw [(h hu).una]
    show (c.sndUna - c.sndUna).toNat ≤ _
    rw [UInt32.sub_self]
    exact Nat.zero_le _

/-! ## Pending sends -/

/-- Senders that do not touch a TCB after their send. -/
def Cont.plain : Cont K → Bool
  | .connect _ _ | .send _ _ | .close _ | .spawn => true
  | _ => false

/-- The other senders, and their TCB as they left it. -/
def Cont.Waits (tcbs : TcbId → Tcb D) : Cont K → Prop
  | .synAck t _ => (tcbs t).inUse = true ∧ (tcbs t).state = .synSent
  | .synData t _ | .data t _ _ | .fin t => (tcbs t).inUse = true ∧ (tcbs t).state = .established
  | .finWait t =>
    (tcbs t).inUse = true ∧ ((tcbs t).state = .finWait1 ∨ (tcbs t).state = .finWait2)
  | _ => False

/-- A bare ACK. -/
def Seg.bare (g : Seg) : Prop := g.flags = tcpAck ∧ g.rest = []

def TopOk (tcbs : TcbId → Tcb D) (f : Frame K) : Prop :=
  f.cont.plain = true ∨ (f.seg.bare ∧ f.cont.Waits tcbs)

/-- At most one loopback send. -/
def Sends (s s' : Machine U D K) : Prop :=
  s'.stack = s.stack ∨ ∃ f, s'.stack = f :: s.stack ∧ TopOk s'.tcbs f

/-- `s'` differs from `s` in the TCB `t` only, which is the same connection or was
released, and sends nothing. -/
structure Quiet (t : TcbId) (s s' : Machine U D K) : Prop where
  others : ∀ i, i ≠ t → s'.tcbs i = s.tcbs i
  later : Later (s.tcbs t) (s'.tcbs t)
  stack : s'.stack = s.stack

/-- The same, with at most one loopback send. -/
structure Rx (t : TcbId) (s s' : Machine U D K) : Prop where
  others : ∀ i, i ≠ t → s'.tcbs i = s.tcbs i
  later : Later (s.tcbs t) (s'.tcbs t)
  sends : Sends s s'

theorem Quiet.trans {a b c : Machine U D K} (h : Quiet t a b) (h' : Quiet t b c) :
    Quiet t a c :=
  ⟨fun i hi => (h'.others i hi).trans (h.others i hi), h.later.trans h'.later,
    h'.stack.trans h.stack⟩

theorem Quiet.rx (h : Quiet t s s') : Rx t s s' :=
  ⟨h.others, h.later, .inl h.stack⟩

theorem Quiet.then_rx {a b c : Machine U D K} (h : Quiet t a b) (h' : Rx t b c) :
    Rx t a c := by
  refine ⟨fun i hi => (h'.others i hi).trans (h.others i hi), h.later.trans h'.later, ?_⟩
  have hs := h'.sends
  unfold Sends at hs ⊢
  rw [← h.stack]
  exact hs

theorem quiet_refl (t : TcbId) (s : Machine U D K) : Quiet t s s :=
  ⟨fun _ _ => rfl, .refl _, rfl⟩

theorem quiet_setApp (t : TcbId) (s : Machine U D K) (u : U) : Quiet t s (s.setApp u) :=
  ⟨fun _ _ => rfl, .refl _, rfl⟩

theorem quiet_upd {f : Tcb D → Tcb D}
    (h : Later (s.tcbs t) (f (s.tcbs t))) : Quiet t s (s.upd t f) :=
  ⟨fun _ hi => Machine.upd_of_ne f hi, by rw [Machine.upd_self]; exact h, rfl⟩

variable (myIp : Ip) (app : App U D K)

theorem quiet_callConnect (s : Machine U D K) (t : TcbId) : Quiet t s (callConnect app s t) := by
  unfold callConnect
  split
  · refine (quiet_upd ?_).trans (quiet_setApp t _ _)
    exact fun h => ⟨h, id, Iff.rfl, rfl, rfl, rfl, rfl, rfl, rfl⟩
  · exact quiet_refl t s

theorem quiet_callRecv (s : Machine U D K) (t : TcbId) (data : List UInt8) :
    Quiet t s (callRecv app s t data) := by
  unfold callRecv
  split
  · exact quiet_setApp t s _
  · exact quiet_refl t s

theorem quiet_callClose (s : Machine U D K) (t : TcbId) : Quiet t s (callClose app s t) := by
  unfold callClose
  split
  · exact quiet_setApp t s _
  · exact quiet_refl t s

theorem callConnect_inUse (s : Machine U D K) (t i : TcbId) :
    ((callConnect app s t).tcbs i).inUse = (s.tcbs i).inUse := by
  unfold callConnect
  split
  · by_cases hi : i = t
    · subst hi
      simp
    · simp [Machine.upd_of_ne _ hi]
  · rfl

theorem callConnect_state (s : Machine U D K) (t i : TcbId) :
    ((callConnect app s t).tcbs i).state = (s.tcbs i).state := by
  unfold callConnect
  split
  · by_cases hi : i = t
    · subst hi
      simp
    · simp [Machine.upd_of_ne _ hi]
  · rfl

@[simp] theorem callRecv_tcbs (s : Machine U D K) (t : TcbId) (data : List UInt8) :
    (callRecv app s t data).tcbs = s.tcbs := by
  unfold callRecv
  split <;> rfl

/-- An ACK to the machine itself leaves the rest to a frame, an ACK to another
machine leaves nothing. -/
theorem rx_sendAck
    {run : Machine U D K → Machine U D K} (hk : k.Waits s.tcbs) (hrun : Rx t s (run s)) :
    Rx t s (sendAck myIp s t k run) := by
  unfold sendAck sendThen
  split
  · exact ⟨fun _ _ => rfl, .refl _, .inr ⟨_, rfl, .inr ⟨⟨rfl, rfl⟩, hk⟩⟩⟩
  · exact hrun

theorem rx_runFin (h : (s.tcbs t).state ≠ .listen) :
    Rx t s (runFin app t s) :=
  ((quiet_upd (later_setState h (by decide) (by decide))).trans
    (quiet_callClose app _ t)).rx

theorem rx_finPart {fin : Bool} (hu : (s.tcbs t).inUse = true)
    (h : (s.tcbs t).state = .established) : Rx t s (finPart myIp app t fin s) := by
  unfold finPart
  split
  · refine (quiet_upd (later_advance 1 _)).then_rx (rx_sendAck myIp ?_ (rx_runFin app ?_))
    · simpa [Cont.Waits, advance] using ⟨hu, h⟩
    · simp [advance, h]
  · exact (quiet_refl t s).rx

theorem rx_runData {fin : Bool}
    (hu : (s.tcbs t).inUse = true) (h : (s.tcbs t).state = .established) :
    Rx t s (runData myIp app t payload fin s) := by
  refine (quiet_callRecv app s t payload).then_rx (rx_finPart myIp app ?_ ?_)
  · rw [callRecv_tcbs]
    exact hu
  · rw [callRecv_tcbs]
    exact h

theorem rx_runFinWait (s : Machine U D K) (t : TcbId) : Rx t s (runFinWait app t s) :=
  ((quiet_callClose app s t).trans (quiet_upd (later_release _))).rx

theorem rx_runSynAck (hu : (s.tcbs t).inUse = true) (h : (s.tcbs t).state = .synSent) :
    Rx t s (runSynAck myIp app t payload s) := by
  have hset : Quiet t s (s.upd t (setState .established)) :=
    quiet_upd (later_setState (by rw [h]; decide) (by decide) (by decide))
  have hcall := hset.trans (quiet_callConnect app _ t)
  unfold runSynAck
  simp only
  split
  · exact hcall.rx
  · refine hcall.then_rx ((quiet_upd (later_advance _ _)).then_rx (rx_sendAck myIp ?_ ?_))
    · simp only [Cont.Waits, Machine.upd_self, advance, callConnect_inUse, callConnect_state,
        setState]
      exact ⟨hu, trivial⟩
    · exact (quiet_callRecv app _ t payload).rx

theorem rx_resume (h : k.plain = true ∨ k.Waits s.tcbs) :
    ∃ t, Rx t s (resume myIp app k s) := by
  cases k with
  | connect t k => exact ⟨t, (quiet_setApp t s _).rx⟩
  | send len k => exact ⟨0, (quiet_setApp _ s _).rx⟩
  | close k => exact ⟨0, (quiet_setApp _ s _).rx⟩
  | spawn => exact ⟨0, (quiet_refl _ s).rx⟩
  | synAck t payload =>
    obtain ⟨hu, hs⟩ := h.resolve_left (by simp [Cont.plain])
    exact ⟨t, rx_runSynAck myIp app hu hs⟩
  | synData t payload => exact ⟨t, (quiet_callRecv app s t payload).rx⟩
  | data t payload fin =>
    obtain ⟨hu, hs⟩ := h.resolve_left (by simp [Cont.plain])
    exact ⟨t, rx_runData myIp app hu hs⟩
  | fin t =>
    obtain ⟨-, hs⟩ := h.resolve_left (by simp [Cont.plain])
    exact ⟨t, rx_runFin app (by rw [hs]; decide)⟩
  | finWait t => exact ⟨t, rx_runFinWait app s t⟩

/-! ## Segments for a connection -/

/-- The same as `Rx`, but a valid acknowledgement may have been taken. -/
structure Heard (C : Prop) (t : TcbId) (s s' : Machine U D K) : Prop where
  others : ∀ i, i ≠ t → s'.tcbs i = s.tcbs i
  change : Change C (s.tcbs t) (s'.tcbs t)
  sends : Sends s s'

theorem Rx.heard (h : Rx t s s') : Heard C t s s' :=
  ⟨h.others, .later h.later, h.sends⟩

theorem Rx.heard_ack {a : UInt32} {f : Tcb D → Tcb D}
    (h : Rx t (s.upd t f) s') (ha : C → AckOk (s.tcbs t) a)
    (hf : Later (takeAck a (s.tcbs t)) (f (s.tcbs t))) : Heard C t s s' := by
  refine ⟨fun i hi => ?_, ?_, h.sends⟩
  · rw [h.others i hi, Machine.upd_of_ne f hi]
  · have hl := h.later
    rw [Machine.upd_self] at hl
    exact .ack a ha (hf.trans hl)

theorem takeAck_sndUna (c : Tcb D) : takeAck c.sndUna c = c := by
  cases c
  simp [takeAck]

theorem rx_rxEstablished (hs₁ : s₁ = if g.has tcpAck then s.upd t (takeAck g.ack) else s)
    (hu : (s₁.tcbs t).inUse = true) (h : (s₁.tcbs t).state = .established) :
    Rx t s₁ (rxEstablished myIp app s t g payload) := by
  unfold rxEstablished
  simp only [← hs₁]
  split
  · refine (quiet_upd (later_advance _ _)).then_rx (rx_sendAck myIp ?_ (rx_runData myIp app ?_ ?_))
    · simpa [Cont.Waits, advance] using ⟨hu, h⟩
    · simpa [advance] using hu
    · simpa [advance] using h
  · exact rx_finPart myIp app hu h

theorem heard_rxEstablished (hu : (s.tcbs t).inUse = true) (h : (s.tcbs t).state = .established)
    (ha : g.has tcpAck = true → C → AckOk (s.tcbs t) g.ack) :
    Heard C t s (rxEstablished myIp app s t g payload) := by
  by_cases hg : g.has tcpAck = true
  · refine (rx_rxEstablished myIp app (if_pos hg).symm ?_ ?_).heard_ack (ha hg) (.refl _)
    · simpa [takeAck] using hu
    · simpa [takeAck] using h
  · exact (rx_rxEstablished myIp app (if_neg hg).symm hu h).heard

/-- The fall through from SYN_RCVD takes the same number twice. -/
theorem rx_rxEstablished_again (hu : (s.tcbs t).inUse = true) (h : (s.tcbs t).state = .established)
    (ha : g.ack = (s.tcbs t).sndUna) : Rx t s (rxEstablished myIp app s t g payload) := by
  by_cases hg : g.has tcpAck = true
  · refine Quiet.then_rx (quiet_upd ?_) (rx_rxEstablished myIp app (if_pos hg).symm ?_ ?_)
    · rw [ha, takeAck_sndUna]
      exact .refl _
    · simpa [takeAck] using hu
    · simpa [takeAck] using h
  · exact rx_rxEstablished myIp app (if_neg hg).symm hu h

theorem rx_rxFinWait (hu : (s.tcbs t).inUse = true)
    (h : (s.tcbs t).state = .finWait1 ∨ (s.tcbs t).state = .finWait2) :
    Rx t s (rxFinWait myIp app s t g) := by
  unfold rxFinWait
  split
  · refine (quiet_upd (later_advance 1 _)).then_rx (rx_sendAck myIp ?_ (rx_runFinWait app _ t))
    simpa [Cont.Waits, advance] using ⟨hu, h⟩
  · exact (quiet_refl t s).rx

theorem quiet_hangUp (s : Machine U D K) (t : TcbId) :
    Quiet t s ((callClose app s t).upd t Tcb.release) :=
  (quiet_callClose app s t).trans (quiet_upd (later_release _))

theorem heard_rxConn (hu : (s.tcbs t).inUse = true)
    (ha : ¬ g.has tcpRst = true → (s.tcbs t).state = .established → g.has tcpAck = true →
      C → AckOk (s.tcbs t) g.ack) :
    Heard C t s (rxConn myIp app s t g payload) := by
  unfold rxConn
  simp only
  split
  · exact (quiet_hangUp app s t).rx.heard
  rename_i hrst
  split
  · rename_i hst
    split
    · exact (quiet_refl t s).rx.heard
    rename_i hg
    push Not at hg
    refine Rx.heard_ack (a := g.ack) (rx_sendAck myIp ?_ (rx_runSynAck myIp app ?_ ?_)) ?_ ?_
    · simpa [Cont.Waits, takeAck] using ⟨hu, hst⟩
    · simpa [takeAck] using hu
    · simpa [takeAck] using hst
    · rw [hg.2.2]
      exact fun _ => ackOk_sndNxt _
    · exact fun h => ⟨h, id, Iff.rfl, rfl, rfl, rfl, rfl, rfl, rfl⟩
  · rename_i hst
    split
    · exact (quiet_refl t s).rx.heard
    rename_i hg
    push Not at hg
    refine Rx.heard_ack (a := g.ack)
      ((quiet_callConnect app _ t).then_rx (rx_rxEstablished_again myIp app ?_ ?_ ?_)) ?_ ?_
    · simpa [callConnect_inUse, setState, takeAck] using hu
    · simp [callConnect_state, setState]
    · have hl := (quiet_callConnect app
        (s.upd t fun c => setState .established (takeAck g.ack c)) t).later
      rw [(hl (by simpa [callConnect_inUse, setState, takeAck] using hu)).una]
      simp [setState, takeAck]
    · rw [hg.2]
      exact fun _ => ackOk_sndNxt _
    · exact later_setState (by simp [takeAck, hst]) (by decide) (by decide)
  · rename_i hst
    exact heard_rxEstablished myIp app hu hst (ha hrst hst)
  · rename_i hst
    split
    · rename_i hg
      refine Rx.heard_ack (a := g.ack) (rx_rxFinWait myIp app ?_ ?_) ?_ ?_
      · simpa [setState, takeAck] using hu
      · simp [setState]
      · rw [hg.2]
        exact fun _ => ackOk_sndNxt _
      · exact later_setState (by simp [takeAck, hst]) (by decide) (by decide)
    · exact (rx_rxFinWait myIp app hu (.inl hst)).heard
  · rename_i hst
    exact (rx_rxFinWait myIp app hu (.inr hst)).heard
  · split
    · exact (quiet_hangUp app s t).rx.heard
    · exact (quiet_refl t s).rx.heard
  · exact (quiet_refl t s).rx.heard

/-! ## Bare ACKs -/

/-- What a bare ACK leaves of a TCB some sender is waiting on. -/
structure Stays (c c' : Tcb D) : Prop where
  synSent : c.state = .synSent → c'.inUse = c.inUse ∧ c'.state = .synSent
  established : c.state = .established → c'.inUse = c.inUse ∧ c'.state = .established
  finWait : c.state = .finWait1 ∨ c.state = .finWait2 →
    c'.inUse = c.inUse ∧ (c'.state = .finWait1 ∨ c'.state = .finWait2)

theorem Stays.refl (c : Tcb D) : Stays c c :=
  ⟨fun h => ⟨rfl, h⟩, fun h => ⟨rfl, h⟩, fun h => ⟨rfl, h⟩⟩

theorem Cont.Waits.stays (h : k.Waits tcbs)
    (hs : ∀ i, Stays (tcbs i) (tcbs' i)) : k.Waits tcbs' := by
  cases k with
  | synAck t _ =>
    obtain ⟨hu, hst⟩ := h
    have := (hs t).synSent hst
    exact ⟨this.1.trans hu, this.2⟩
  | synData t _ | data t _ _ | fin t =>
    obtain ⟨hu, hst⟩ := h
    have := (hs t).established hst
    exact ⟨this.1.trans hu, this.2⟩
  | finWait t =>
    obtain ⟨hu, hst⟩ := h
    have := (hs t).finWait hst
    exact ⟨this.1.trans hu, this.2⟩
  | connect | send | close | spawn => exact h

theorem Seg.bare.has (h : g.bare) :
    g.has tcpAck = true ∧ g.has tcpSyn = false ∧ g.has tcpFin = false ∧ g.has tcpRst = false := by
  simp only [Seg.has, h.1]
  decide

theorem rxEstablished_bare (h : g.bare) :
    rxEstablished myIp app s t g [] = s.upd t (takeAck g.ack) := by
  simp [rxEstablished, finPart, h.has]

theorem rxConn_bare (h : g.bare) :
    (rxConn myIp app s t g []).stack = s.stack ∧
      (∀ i, i ≠ t → (rxConn myIp app s t g []).tcbs i = s.tcbs i) ∧
      Stays (s.tcbs t) ((rxConn myIp app s t g []).tcbs t) := by
  unfold rxConn
  simp only [h.has, Bool.false_eq_true, if_false, not_false_eq_true, true_or, if_true, true_and,
    not_true_eq_false, false_or, rxEstablished_bare myIp app h, rxFinWait]
  split
  · exact ⟨rfl, fun _ _ => rfl, .refl _⟩
  · rename_i hst
    split
    · exact ⟨rfl, fun _ _ => rfl, .refl _⟩
    · have hq := quiet_callConnect app (s.upd t fun c => setState .established (takeAck g.ack c)) t
      refine ⟨hq.stack, fun i hi => ?_, ?_⟩
      · rw [Machine.upd_of_ne _ hi, hq.others i hi, Machine.upd_of_ne _ hi]
      · refine ⟨fun hc => ?_, fun hc => ?_, fun hc => ?_⟩ <;> rw [hst] at hc <;> simp at hc
  · refine ⟨rfl, fun i hi => Machine.upd_of_ne _ hi, ?_⟩
    rw [Machine.upd_self]
    exact ⟨fun hc => ⟨rfl, hc⟩, fun hc => ⟨rfl, hc⟩, fun hc => ⟨rfl, hc⟩⟩
  · rename_i hst
    split
    · refine ⟨rfl, fun i hi => Machine.upd_of_ne _ hi, ?_⟩
      rw [Machine.upd_self]
      refine ⟨fun hc => ?_, fun hc => ?_, fun _ => ⟨rfl, .inr rfl⟩⟩ <;> rw [hst] at hc <;>
        cases hc
    · exact ⟨rfl, fun _ _ => rfl, .refl _⟩
  · exact ⟨rfl, fun _ _ => rfl, .refl _⟩
  · rename_i hst
    split
    · have hq := quiet_hangUp app s t
      refine ⟨hq.stack, hq.others, ?_⟩
      refine ⟨fun hc => ?_, fun hc => ?_, fun hc => ?_⟩ <;> rw [hst] at hc <;> simp at hc
    · exact ⟨rfl, fun _ _ => rfl, .refl _⟩
  · exact ⟨rfl, fun _ _ => rfl, .refl _⟩

/-! ## One step -/

/-- A TCB that was just taken: its addresses are those of no other connection. -/
structure Fresh (tcbs : TcbId → Tcb D) (t : TcbId) (c : Tcb D) : Prop where
  unused : (tcbs t).inUse = false
  live : c.state ≠ .closed
  new : c.Conn → SndOrdered c ∧
    ∀ i, (tcbs i).Conn → (tcbs i).state ≠ .closed → (tcbs i).ends ≠ c.ends

/-- What a step does to the table. -/
structure Turn (C : Prop) (tcbs tcbs' : TcbId → Tcb D) (t : TcbId) : Prop where
  others : ∀ i, i ≠ t → tcbs' i = tcbs i
  this : Change C (tcbs t) (tcbs' t) ∨ Fresh tcbs t (tcbs' t)

theorem Heard.turn (h : Heard C t s s') :
    Turn C s.tcbs s'.tcbs t ∧ Sends s s' :=
  ⟨⟨h.others, .inl h.change⟩, h.sends⟩

theorem Quiet.turn (h : Quiet t s s') :
    Turn C s.tcbs s'.tcbs t ∧ Sends s s' :=
  h.rx.heard.turn

theorem turn_fresh (h : Fresh s.tcbs t c) :
    Turn C s.tcbs (s.upd t fun _ => c).tcbs t := by
  refine ⟨fun i hi => Machine.upd_of_ne _ hi, .inr ?_⟩
  rw [Machine.upd_self]
  exact h

theorem sends_plain {f : Frame K} (h : s₁.stack = s.stack)
    (hf : f.cont.plain = true) : Sends s (s₁.push f) :=
  .inr ⟨f, by rw [Machine.push_stack, h], .inl hf⟩

theorem tcbAlloc_some (h : tcbAlloc tcbs = some t) :
    (tcbs t).inUse = false := by
  simpa using firstTcb_some h

theorem portInUse_false {p : UInt16} (h : portInUse tcbs p = false)
    {i : TcbId} (hi : (tcbs i).inUse = true) (hs : (tcbs i).state ≠ .closed) :
    (tcbs i).localPort ≠ p := by
  intro hp
  have hall := any_eq_false.mp h i (mem_finRange i)
  simp [hi, hs, hp] at hall

theorem allocEphemeralPort_free {tries : Nat} {eph : UInt16}
    (h : (allocEphemeralPort tcbs tries eph).1 ≠ 0) :
    portInUse tcbs (allocEphemeralPort tcbs tries eph).1 = false := by
  induction tries generalizing eph with
  | zero => exact absurd rfl h
  | succ tries ih =>
    unfold allocEphemeralPort at h ⊢
    by_cases hp : portInUse tcbs (if eph < 49152 then 49152 else eph) = true
    · rw [if_pos hp] at h ⊢
      exact ih h
    · rw [if_neg hp]
      simpa using hp

theorem findTcbForSeg_some (h : findTcbForSeg tcbs src g = some t) :
    ((tcbs t).Conn ∧ (tcbs t).state ≠ .closed ∧ (tcbs t).ends = (g.dstPort, src, g.srcPort)) ∨
      ((tcbs t).inUse = true ∧ (tcbs t).state = .listen ∧ (tcbs t).localPort = g.dstPort ∧
        g.has tcpSyn = true ∧
        ∀ i, (tcbs i).Conn → (tcbs i).state ≠ .closed →
          (tcbs i).ends ≠ (g.dstPort, src, g.srcPort)) := by
  unfold findTcbForSeg at h
  split at h
  · rename_i u hf
    cases h
    have hp := firstTcb_some hf
    simp only [Bool.and_eq_true, decide_eq_true_eq] at hp
    obtain ⟨⟨⟨⟨⟨hu, hl⟩, hc⟩, hlp⟩, hrp⟩, hip⟩ := hp
    exact .inl ⟨⟨hu, hl⟩, hc, by rw [Tcb.ends, hlp, hrp, hip]⟩
  · rename_i hf
    split at h
    · rename_i hsyn
      have hp := firstTcb_some h
      simp only [Bool.and_eq_true, decide_eq_true_eq] at hp
      refine .inr ⟨hp.1.1, hp.1.2, hp.2, hsyn, fun i hi hc he => ?_⟩
      have hn := firstTcb_none hf i
      simp only [Tcb.ends, Prod.mk.injEq] at he
      simp [hi.1, hi.2, hc, he.1, he.2.1, he.2.2] at hn
    · cases h

theorem sndOrdered_start (hn : c.sndNxt = c.sndIsn + 1) (hu : c.sndUna = c.sndIsn)
    (hs : c.sent = 1) (ha : c.acked = 0) : SndOrdered c := by
  refine ⟨?_, ?_, ?_⟩
  · rw [hn, hs]
    rfl
  · rw [hu, ha]
    simp
  · rw [ha]
    exact Nat.zero_le _

theorem fresh_newConn {p port : UInt16} {ip : Ip}
    {isn : UInt32} {ud : Option D} (hp : portInUse tcbs p = false)
    (ht : tcbAlloc tcbs = some t) : Fresh tcbs t (newConn p ip port isn ud) := by
  refine ⟨tcbAlloc_some ht, by simp [newConn], fun _ => ⟨sndOrdered_start rfl rfl rfl rfl, ?_⟩⟩
  intro i hi hs he
  exact portInUse_false hp hi.1 hs (congrArg Prod.fst he)

theorem turn_tcpListen (s : Machine U D K) (port : UInt16) (ud : Option D) :
    ∃ t, Turn C s.tcbs (tcpListen s port ud).2.tcbs t ∧ (tcpListen s port ud).2.stack = s.stack := by
  unfold tcpListen
  split
  · exact ⟨0, (quiet_refl 0 s).turn.1, rfl⟩
  · split
    · exact ⟨0, (quiet_refl 0 s).turn.1, rfl⟩
    · rename_i t ht
      refine ⟨t, turn_fresh ⟨tcbAlloc_some ht, by simp, fun hc => ?_⟩, rfl⟩
      exact absurd rfl hc.2

theorem turn_tcpConnect (s : Machine U D K) (ip : Ip) (port : UInt16) (ticks : UInt32)
    (ud : Option D) (k : K) (ok : Bool) :
    ∃ t, Turn C s.tcbs (tcpConnect myIp app s ip port ticks ud k ok).tcbs t ∧
      Sends s (tcpConnect myIp app s ip port ticks ud k ok) := by
  unfold tcpConnect
  simp only
  split
  · exact ⟨0, (quiet_refl 0 s).turn.1, .inl rfl⟩
  rename_i hp
  have hfree := allocEphemeralPort_free hp
  split
  · exact ⟨0, (quiet_refl 0 s).turn.1, .inl rfl⟩
  rename_i t ht
  have hturn := turn_fresh (C := C) (show Fresh s.tcbs t (newConn _ ip port (isnOf ticks) ud) from
    fresh_newConn hfree ht)
  split
  · exact ⟨t, hturn, sends_plain rfl rfl⟩
  · split
    · exact ⟨t, hturn, .inl rfl⟩
    · refine ⟨t, ⟨fun i hi => ?_, .inl (.later ?_)⟩, .inl rfl⟩
      · rw [Machine.setApp_tcbs, Machine.upd_of_ne _ hi]
        exact hturn.others i hi
      · intro hu
        simp [Tcb.release] at hu

theorem turn_tcpSend (s : Machine U D K) (t : TcbId) (data : List UInt8) (k : K) (ok : Bool) :
    Turn C s.tcbs (tcpSend myIp app s t data k ok).tcbs t ∧
      Sends s (tcpSend myIp app s t data k ok) := by
  have hused : Turn C s.tcbs (s.upd t (use data.length)).tcbs t :=
    ⟨fun i hi => Machine.upd_of_ne _ hi, .inl (.send data.length (by
      rw [Machine.upd_self]; exact .refl _))⟩
  unfold tcpSend
  simp only
  split
  · exact (quiet_setApp t s _).turn
  split
  · exact (quiet_setApp t s _).turn
  split
  · exact ⟨hused, sends_plain rfl rfl⟩
  split
  · exact ⟨hused, .inl rfl⟩
  · exact (quiet_setApp t s _).turn

theorem turn_sendFin {st : TcpState} (k : K)
    (hl : (s.tcbs t).state ≠ .listen) (h : st ≠ .listen) (hc : st ≠ .closed) :
    Turn C s.tcbs (sendFin myIp app s t st k).tcbs t ∧ Sends s (sendFin myIp app s t st k) := by
  have hturn : Turn C s.tcbs (s.upd t fun c => setState st (use 1 c)).tcbs t := by
    refine ⟨fun i hi => Machine.upd_of_ne _ hi, .inl (.send 1 ?_)⟩
    rw [Machine.upd_self]
    exact later_setState hl h hc
  unfold sendFin sendThen
  split
  · exact ⟨hturn, sends_plain rfl rfl⟩
  · exact ⟨hturn, .inl rfl⟩

theorem turn_tcpClose (s : Machine U D K) (t : TcbId) (k : K) :
    Turn C s.tcbs (tcpClose myIp app s t k).tcbs t ∧ Sends s (tcpClose myIp app s t k) := by
  have hdrop : Quiet t s ((s.upd t Tcb.release).setApp (app.closeRet s.app k)) :=
    (quiet_upd (later_release _)).trans (quiet_setApp t _ _)
  unfold tcpClose
  simp only
  split
  · exact (quiet_setApp t s _).turn
  split
  · exact hdrop.turn
  · rename_i hst
    exact turn_sendFin myIp app k (by rw [hst]; decide) (by decide) (by decide)
  · rename_i hst
    exact turn_sendFin myIp app k (by rw [hst]; decide) (by decide) (by decide)
  · exact hdrop.turn
  · exact (quiet_setApp t s _).turn

/-- When an established connection hears an acknowledgement, it is of something
outstanding. -/
def AckInWindow (tcbs : TcbId → Tcb D) (src : Ip) (g : Seg) : Prop :=
  ∀ t, findTcbForSeg tcbs src g = some t → g.has tcpRst = false →
    (tcbs t).state = .established → g.has tcpAck = true → AckOk (tcbs t) g.ack

theorem turn_spawn {l : TcbId} (ticks : UInt32)
    (hp : (s.tcbs l).localPort = g.dstPort)
    (hnew : ∀ i, (s.tcbs i).Conn → (s.tcbs i).state ≠ .closed →
      (s.tcbs i).ends ≠ (g.dstPort, src, g.srcPort)) :
    ∃ t, Turn C s.tcbs (spawnConnFromListener myIp s l src g ticks).tcbs t ∧
      Sends s (spawnConnFromListener myIp s l src g ticks) := by
  unfold spawnConnFromListener
  split
  · exact ⟨0, (quiet_refl 0 s).turn⟩
  rename_i t ht
  have hf : Fresh s.tcbs t (spawnedConn (s.tcbs l) src g.srcPort g.seq (isnOf ticks)) := by
    refine ⟨tcbAlloc_some ht, by simp [spawnedConn], fun _ => ⟨sndOrdered_start rfl rfl rfl rfl, ?_⟩⟩
    intro i hi hs he
    apply hnew i hi hs
    rw [he, ← hp]
    rfl
  unfold sendThen
  split
  · exact ⟨t, turn_fresh hf, sends_plain rfl rfl⟩
  · exact ⟨t, turn_fresh hf, .inl rfl⟩

theorem turn_tcpRx (ticks : UInt32)
    (ha : C → AckInWindow s.tcbs src g) :
    ∃ t, Turn C s.tcbs (tcpRx myIp app s src g ticks).tcbs t ∧
      Sends s (tcpRx myIp app s src g ticks) := by
  unfold tcpRx
  split
  · exact ⟨0, (quiet_refl 0 s).turn⟩
  split
  · exact ⟨0, (quiet_refl 0 s).turn⟩
  rename_i t ht
  rcases findTcbForSeg_some ht with ⟨hc, -, -⟩ | ⟨-, hl, hp, hsyn, hnew⟩
  · rw [if_neg hc.2]
    refine ⟨t, (heard_rxConn myIp app hc.1 fun hr hs hg hC => ha hC t ht ?_ hs hg).turn⟩
    simpa using hr
  · rw [if_pos hl, if_neg (by simp [hsyn])]
    exact turn_spawn myIp ticks hp hnew

theorem tcpRx_bare (src : Ip) (ticks : UInt32) (hg : g.bare) :
    (tcpRx myIp app s src g ticks).stack = s.stack ∧
      ∀ i, Stays (s.tcbs i) ((tcpRx myIp app s src g ticks).tcbs i) := by
  unfold tcpRx
  split
  · exact ⟨rfl, fun _ => .refl _⟩
  split
  · exact ⟨rfl, fun _ => .refl _⟩
  rename_i t ht
  rcases findTcbForSeg_some ht with ⟨hc, -, -⟩ | ⟨-, -, -, hsyn, -⟩
  · rw [if_neg hc.2, hg.2, drop_nil]
    obtain ⟨hst, ho, hs⟩ := rxConn_bare (s := s) (t := t) myIp app hg
    refine ⟨hst, fun i => ?_⟩
    by_cases hi : i = t
    · rw [hi]
      exact hs
    · rw [ho i hi]
      exact .refl _
  · rw [hg.has.2.1] at hsyn
    cases hsyn

/-! ## Runs -/

/-- A pending send that still has work to do on its TCB is the last one. -/
def StackOk (s : Machine U D K) : Prop :=
  ∀ f fs, s.stack = f :: fs → TopOk s.tcbs f ∧ ∀ g ∈ fs, g.cont.plain = true

/-- The condition on a step: the segment it delivers, if any, is in the window of
the connection it is for. -/
def InWindow (s : Machine U D K) (l : Label D K) : Prop :=
  match l.event, s.stack with
  | .rx src g _, _ => AckInWindow s.tcbs src g
  | .loop _, f :: _ => AckInWindow s.tcbs f.src f.seg
  | _, _ => True

theorem Sends.stackOk (h : Sends s s')
    (hp : ∀ g ∈ s.stack, g.cont.plain = true) : StackOk s' := by
  intro f fs hf
  rcases h with h | ⟨f', h, htop⟩
  · rw [h] at hf
    rw [hf] at hp
    exact ⟨.inl (hp f mem_cons_self), fun g hg => hp g (mem_cons_of_mem _ hg)⟩
  · rw [h] at hf
    cases hf
    exact ⟨htop, hp⟩

theorem idle_step (h : whenIdle s s₁ = some s')
    (hs : ∃ t, Turn C s.tcbs s₁.tcbs t ∧ Sends s s₁) :
    (∃ t, Turn C s.tcbs s'.tcbs t) ∧ StackOk s' := by
  unfold whenIdle at h
  split at h
  · rename_i hidle
    cases h
    obtain ⟨t, ht, hsends⟩ := hs
    refine ⟨⟨t, ht⟩, hsends.stackOk ?_⟩
    rw [hidle]
    exact fun g hg => absurd hg not_mem_nil
  · cases h

theorem loop_step {ticks : UInt32}
    (h : loopStep myIp app s ticks = some s') (hs : StackOk s)
    (ha : C → ∀ f fs, s.stack = f :: fs → AckInWindow s.tcbs f.src f.seg) :
    (∃ t, Turn C s.tcbs s'.tcbs t) ∧ StackOk s' := by
  unfold loopStep at h
  split at h
  · cases h
  rename_i f fs hf
  split at h
  · cases h
  cases h
  obtain ⟨htop, hplain⟩ := hs f fs hf
  have hin : C → AckInWindow s.tcbs f.src f.seg := fun hC => ha hC f fs hf
  obtain ⟨t, ht, hsends⟩ := turn_tcpRx myIp app
    (s := { s with stack := { f with delivered := true } :: fs }) ticks hin
  refine ⟨⟨t, ht⟩, ?_⟩
  rcases htop with hp | ⟨hbare, hwaits⟩
  · apply hsends.stackOk
    intro g hg
    rcases mem_cons.mp hg with rfl | hg
    · exact hp
    · exact hplain g hg
  · obtain ⟨hstack, hstays⟩ := tcpRx_bare myIp app
      (s := { s with stack := { f with delivered := true } :: fs }) f.src ticks hbare
    intro f' fs' hf'
    rw [hstack] at hf'
    cases hf'
    exact ⟨.inr ⟨hbare, hwaits.stays hstays⟩, hplain⟩

theorem ret_step (h : retStep myIp app s = some s') (hs : StackOk s) :
    (∃ t, Turn C s.tcbs s'.tcbs t) ∧ StackOk s' := by
  unfold retStep at h
  split at h
  · cases h
  rename_i f fs hf
  split at h
  · cases h
    obtain ⟨htop, hplain⟩ := hs f fs hf
    have hk : f.cont.plain = true ∨ f.cont.Waits s.tcbs := by
      rcases htop with hp | ⟨-, hw⟩
      · exact .inl hp
      · exact .inr hw
    obtain ⟨t, ht⟩ := rx_resume myIp app (s := { s with stack := fs }) hk
    exact ⟨⟨t, ht.heard.turn.1⟩, ht.sends.stackOk hplain⟩
  · cases h

theorem step_turn {l : Label D K} (h : step app s l = some s')
    (hs : StackOk s) (ha : C → InWindow s l) :
    (∃ t, Turn C s.tcbs s'.tcbs t) ∧ StackOk s' := by
  obtain ⟨ip, ev⟩ := l
  cases ev with
  | connect dst port ticks ud k ok =>
    exact idle_step h (turn_tcpConnect ip app s dst port ticks ud k ok)
  | listen port ud =>
    obtain ⟨t, ht, hst⟩ := turn_tcpListen (C := C) s port ud
    exact idle_step h ⟨t, ht, .inl hst⟩
  | send t data k ok => exact idle_step h ⟨t, turn_tcpSend ip app s t data k ok⟩
  | close t k => exact idle_step h ⟨t, turn_tcpClose ip app s t k⟩
  | rx src g ticks => exact idle_step h (turn_tcpRx ip app ticks ha)
  | loop ticks =>
    refine loop_step ip app h hs fun hC f fs hf => ?_
    have hw := ha hC
    simp only [InWindow, hf] at hw
    exact hw
  | ret => exact ret_step ip app h hs

/-- No two connections with the same ends. -/
def Distinct (tcbs : TcbId → Tcb D) : Prop :=
  ∀ i j, (tcbs i).Conn → (tcbs j).Conn → (tcbs i).ends = (tcbs j).ends → i = j

structure Inv (s : Machine U D K) : Prop where
  live : ∀ i, (s.tcbs i).inUse = true → (s.tcbs i).state ≠ .closed
  distinct : Distinct s.tcbs
  stack : StackOk s

theorem Turn.live (h : Turn C tcbs tcbs' t)
    (hl : ∀ i, (tcbs i).inUse = true → (tcbs i).state ≠ .closed) (i : TcbId)
    (hi : (tcbs' i).inUse = true) : (tcbs' i).state ≠ .closed := by
  by_cases hit : i = t
  · subst hit
    rcases h.this with hc | hf
    · intro hcl
      obtain ⟨hconn, -, hcl'⟩ := hc.conn ⟨hi, by rw [hcl]; decide⟩
      exact hl i hconn.1 (hcl' hcl)
    · exact hf.live
  · rw [h.others i hit] at hi ⊢
    exact hl i hi

theorem Turn.distinct (h : Turn C tcbs tcbs' t)
    (hl : ∀ i, (tcbs i).inUse = true → (tcbs i).state ≠ .closed) (hd : Distinct tcbs) :
    Distinct tcbs' := by
  -- against the TCB that changed it is the same connection, or a new one
  have key : ∀ i, i ≠ t → (tcbs i).Conn → (tcbs' t).Conn → (tcbs i).ends ≠ (tcbs' t).ends := by
    intro i hi hci hct he
    rcases h.this with hc | hf
    · obtain ⟨hct', he', -⟩ := hc.conn hct
      exact hi (hd i t hci hct' (he.trans he'))
    · exact (hf.new hct).2 i hci (hl i hci.1) he
  intro i j hi hj he
  by_cases hit : i = t
  · subst hit
    by_cases hji : j = i
    · exact hji.symm
    · rw [h.others j hji] at hj he
      exact absurd he.symm (key j hji hj hi)
  · rw [h.others i hit] at hi he
    by_cases hjt : j = t
    · subst hjt
      exact absurd he (key i hit hi hj)
    · rw [h.others j hjt] at hj he
      exact hd i j hi hj he

theorem Turn.ordered (h : Turn C tcbs tcbs' t) (hC : C)
    (ho : ∀ i, (tcbs i).Conn → SndOrdered (tcbs i)) (i : TcbId) (hi : (tcbs' i).Conn) :
    SndOrdered (tcbs' i) := by
  by_cases hit : i = t
  · subst hit
    rcases h.this with hc | hf
    · exact hc.ordered hC hi.1 (ho i (hc.conn hi).1)
    · exact (hf.new hi).1
  · rw [h.others i hit] at hi ⊢
    exact ho i hi

theorem Turn.forward (h : Turn C tcbs tcbs' t) (hC : C)
    (i : TcbId) (hi : (tcbs i).inUse = true) (hi' : (tcbs' i).inUse = true) :
    Forward (tcbs i) (tcbs' i) := by
  by_cases hit : i = t
  · subst hit
    rcases h.this with hc | hf
    · exact hc.forward hC hi'
    · rw [hf.unused] at hi
      cases hi
  · rw [h.others i hit]
    exact (Change.later (C := C) (.refl _)).forward hC hi

theorem inductive_inv : (system (K := K) app).Inductive Inv where
  init := by
    rintro s ⟨ht, -, hst⟩
    refine ⟨fun i hi => ?_, fun i j hi => ?_, fun f fs hf => ?_⟩
    · rw [ht i] at hi
      cases hi
    · rw [ht i] at hi
      cases hi.1
    · rw [hst] at hf
      cases hf
  step := by
    intro s l s' hinv hs
    obtain ⟨⟨t, hturn⟩, hstack⟩ := step_turn (C := False) app hs hinv.stack False.elim
    exact ⟨hturn.live hinv.live, hturn.distinct hinv.live hinv.distinct, hstack⟩

theorem inductive_ordered : ((system (K := K) app).restrict InWindow).Inductive
    fun s => Inv s ∧ ∀ i, (s.tcbs i).Conn → SndOrdered (s.tcbs i) := by
  refine LTS.Inductive.and ⟨(inductive_inv app).init, fun s l s' h hs => ?_⟩ ?_ ?_
  · exact (inductive_inv app).step s l s' h hs.2
  · rintro s ⟨ht, -, -⟩ i hi
    rw [ht i] at hi
    cases hi.1
  · intro s l s' hinv ho hs
    obtain ⟨⟨t, hturn⟩, -⟩ := step_turn (C := True) app hs.2 hinv.stack fun _ => hs.1
    exact hturn.ordered trivial ho

/-- Over every run of connects, listens, sends, closes and arbitrary
segments, no two in-use connection TCBs share their ends. Over every run whose
acknowledgements of established connections are in the window, in every in-use
connection TCB `snd_una` lies between the initial sequence number and `snd_nxt`, and
no step moves it backwards. -/
theorem tcb_table :
    (∀ s, (system (K := K) app).Reachable s → Distinct s.tcbs) ∧
      ∀ s, ((system (K := K) app).restrict InWindow).Reachable s →
        (∀ t, (s.tcbs t).Conn → SndOrdered (s.tcbs t) ∧
          ((s.tcbs t).sent < 2 ^ 32 → Between (s.tcbs t))) ∧
          ∀ l s', InWindow s l → step app s l = some s' →
            ∀ t, (s.tcbs t).inUse = true → (s'.tcbs t).inUse = true →
              Forward (s.tcbs t) (s'.tcbs t) := by
  refine ⟨fun s hr => ((inductive_inv app).reachable s hr).distinct, fun s hr => ?_⟩
  obtain ⟨hinv, ho⟩ := (inductive_ordered app).reachable s hr
  refine ⟨fun t ht => ⟨ho t ht, (ho t ht).between⟩, fun l s' hw hs t ht ht' => ?_⟩
  obtain ⟨⟨u, hturn⟩, -⟩ := step_turn (C := True) app hs hinv.stack fun _ => hw
  exact hturn.forward trivial t ht ht'

/-! ## Two runs -/

/-- A layer above that does nothing. -/
def mute : App Unit Unit Unit :=
  ⟨fun u _ d => (u, d), fun u _ _ _ => u, fun u _ _ => u, fun u _ _ => u, fun u _ _ => u,
    fun u _ => u⟩

def demoBoot : Machine Unit Unit Unit := ⟨fun _ => Tcb.zero, 49152, [], ()⟩

theorem demoBoot_booted : Booted demoBoot := ⟨fun _ => rfl, rfl, rfl⟩

def demoPeer : Ip := ⟨10, 0, 0, 2⟩

/-- A segment of the peer's web server, for the first ephemeral port. -/
def demoSeg (flags : UInt8) (ack : UInt32) : Event Unit Unit :=
  .rx demoPeer ⟨80, 49152, 7000, ack, 0x50, flags, []⟩ 0

def demoOpen : List (Event Unit Unit) :=
  [.connect demoPeer 80 0 none () true, demoSeg (tcpSyn ||| tcpAck) 1]

def demoLabels (es : List (Event Unit Unit)) : List (Label Unit Unit) :=
  es.map fun e => ⟨⟨10, 0, 0, 1⟩, e⟩

instance (tcbs : TcbId → Tcb D) (src : Ip) (g : Seg) : Decidable (AckInWindow tcbs src g) :=
  inferInstanceAs (Decidable (∀ _, _))

instance (s : Machine U D K) (l : Label D K) : Decidable (InWindow s l) := by
  unfold InWindow
  split <;> infer_instance

/-- Five bytes are sent and three of them acknowledged. -/
theorem tcb_table_three_acked :
    ∃ s, ((system mute).restrict InWindow).Reachable s ∧ (s.tcbs 0).state = .established ∧
      (s.tcbs 0).sndUna = 4 ∧ (s.tcbs 0).sndNxt = 6 ∧ Between (s.tcbs 0) := by
  have he : (LTS.exec (LTS.guarded InWindow (step mute)) demoBoot (demoLabels (demoOpen ++
      [.send 0 [1, 2, 3, 4, 5] () true, demoSeg tcpAck 4]))).map
      (fun s => decide ((s.tcbs 0).Conn ∧ (s.tcbs 0).state = .established ∧
        (s.tcbs 0).sndUna = 4 ∧ (s.tcbs 0).sndNxt = 6 ∧ (s.tcbs 0).sent = 6)) = some true := by
    decide +kernel
  obtain ⟨s, hs, hd⟩ := Option.map_eq_some_iff.mp he
  obtain ⟨hc, hst, hu, hn, hsent⟩ := of_decide_eq_true hd
  have hr : ((system mute).restrict InWindow).Reachable s :=
    ⟨demoBoot, _, demoBoot_booted, LTS.run_restrict_of_exec hs⟩
  obtain ⟨-, hb⟩ := ((tcb_table mute).2 s hr).1 0 hc
  exact ⟨s, hr, hst, hu, hn, hb (by rw [hsent]; decide)⟩

/-- Right after the handshake the peer acknowledges a hundred bytes that were never
sent: `snd_una` is then 100 with `snd_nxt` at 1. -/
theorem forged_ack : ¬ ∀ s, (system mute).Reachable s → ∀ t, (s.tcbs t).Conn →
    (s.tcbs t).state = .established → Between (s.tcbs t) := by
  intro hall
  have he : (LTS.exec (step mute) demoBoot (demoLabels (demoOpen ++ [demoSeg tcpAck 100]))).map
      (fun s => decide ((s.tcbs 0).Conn ∧ (s.tcbs 0).state = .established ∧
        ((s.tcbs 0).sndNxt - (s.tcbs 0).sndIsn).toNat <
          ((s.tcbs 0).sndUna - (s.tcbs 0).sndIsn).toNat)) = some true := by
    decide +kernel
  obtain ⟨s, hs, hd⟩ := Option.map_eq_some_iff.mp he
  obtain ⟨hc, hst, hlt⟩ := of_decide_eq_true hd
  have hr : (system mute).Reachable s := ⟨demoBoot, _, demoBoot_booted, LTS.run_of_exec hs⟩
  have hle := hall s hr 0 hc hst
  unfold Between at hle
  omega

end AdventOS.Net.Tcp
