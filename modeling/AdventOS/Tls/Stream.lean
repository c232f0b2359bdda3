import AdventOS.Core.LTS
import AdventOS.Tls.Record

/-!
# The TLS record stream

`tls_send` and `tls_recv` of `libcrypto/tls.c` on one direction of an established
connection. A sender and a receiver share a byte channel; the network puts
ChangeCipherSpec records between the records in flight. `sent` and `got` are the
buffers accepted by `tls_send` and those returned by `tls_recv`, each with the
counter of its side after the call.

`tls_recv` copies at most `max_n` bytes of a record and drops the rest of it.

* `InFlight`: what is in flight is, record by record, what was sent and not yet
  received;
* `record_stream`;
* `short_read_loses_bytes`: without it, it is not.
-/
namespace AdventOS.Tls
open List

variable (cr : Primitives)

/-- tls.c:1166-1171 -/
def tlsSend (c : Endpoint) (data : Bytes) (n : Int) : Prog (Int × Endpoint) := do
  let r ← sendEncrypted cr c.sendKeys 23 data n
  pure (if r.1 then n else -1, c.setSend r.2)

/-- tls.c:1180-1185 -/
def tlsCloseNotify (c : Endpoint) : Prog (Int × Endpoint) := do
  let r ← sendEncrypted cr c.sendKeys 21 [1, 0] 2
  pure (if r.1 then 0 else -1, c.setSend r.2)

/-- Handshake messages are dropped. tls.c:1192-1201 -/
def tlsRecvLoop (max : Int) : (fuel : Nat) → Endpoint → Prog ((Int × Bytes) × Endpoint)
  | 0, c => pure ((-1, []), c)
  | fuel + 1, c => do
    let r ← recvEncrypted cr c.recvKeys .appBuf
    match r.1 with
    | none => pure ((-1, []), c.setRecv r.2)
    | some m =>
      if m.ty = 22 then tlsRecvLoop max fuel (c.setRecv r.2)
      else if m.ty ≠ 23 then pure ((-1, []), c.setRecv r.2)
      else pure ((min (m.len : Int) max, m.content.take (min (m.len : Int) max).toNat),
        c.setRecv r.2)

/-- The value returned and the bytes stored in `out`. tls.c:1187-1202 -/
def tlsRecv (c : Endpoint) (max : Int) : Prog ((Int × Bytes) × Endpoint) := do
  let s ← get
  tlsRecvLoop cr max (s.inp.length + 1) c

/-! ## The system -/

namespace Stream

/-- The bytes are whole records, each as long as its header says. -/
def wholeRecordsLoop : (fuel : Nat) → Bytes → Bool
  | _, [] => true
  | 0, _ :: _ => false
  | fuel + 1, x :: l =>
    5 ≤ (x :: l).length && 5 + u16At (x :: l) 3 ≤ (x :: l).length &&
      wholeRecordsLoop fuel ((x :: l).drop (5 + u16At (x :: l) 3))

def wholeRecords (l : Bytes) : Bool := wholeRecordsLoop l.length l

structure Sys where
  sender : Endpoint
  receiver : Endpoint
  wire : Bytes
  sent : List (Bytes × Nat)
  got : List (Bytes × Nat)
  overran : Bool

/-- `tls_send(c, buf, |buf|)`; a ChangeCipherSpec record after the first `i` bytes in
flight; `tls_recv(c, out, max)`. -/
inductive Step
  | send (buf : Bytes)
  | ccs (i : Nat) (c : Ccs)
  | recv (max : Nat)

/-- A buffer is sent whole. A read is made for a positive number of bytes, and fails
where no more bytes are delivered. -/
def Sys.step (s : Sys) : Step → Option Sys
  | .send buf =>
    if buf.length < 2 ^ 31 then
      match tlsSend cr s.sender buf buf.length ⟨[], [], [], []⟩ with
      | .ok (n, c) u => some { s with
          sender := c, wire := s.wire ++ u.sent
          sent := if n < 0 then s.sent else s.sent ++ [(buf, c.sendKeys.seq)] }
      | .error _ _ => some { s with overran := true }
    else none
  | .ccs i c =>
    if wholeRecords (s.wire.take i) then
      some { s with wire := s.wire.take i ++ (c.bytes ++ s.wire.drop i) }
    else none
  | .recv max =>
    if 0 < max then
      match tlsRecv cr s.receiver max ⟨s.wire, [], [], []⟩ with
      | .ok ((n, out), c) u => some { s with
          receiver := c, wire := u.inp
          got := if n < 0 then s.got else s.got ++ [(out, c.recvKeys.seq)] }
      | .error _ _ => some { s with overran := true }
    else none

def Sys.start (a b : Endpoint) : Sys := ⟨a, b, [], [], [], false⟩

/-- From any two endpoints that agree on the keys of this direction. -/
def sys : LTS Sys Step :=
  LTS.ofFn (fun s => ∃ a b : Endpoint, a.sendKeys = b.recvKeys ∧ s = .start a b) (Sys.step cr)

/-- What `tls_recv` returned is the beginning of what `tls_send` was given, and the
counters after each delivered record are those after it was sent. -/
structure InOrder (s : Sys) : Prop where
  bytes : s.got.flatMap Prod.fst <+: s.sent.flatMap Prod.fst
  counters : s.got.map Prod.snd <+: s.sent.map Prod.snd

/-- A buffer that `send_encrypted` has room for, or refuses; a read with room for the
next record that was sent. -/
def Roomy (s : Sys) : Step → Prop
  | .send buf => (Access.encrypt buf.length).Fits
  | .ccs _ _ => True
  | .recv max => ∀ p, s.sent[s.got.length]? = some p → p.1.length ≤ max

/-! ## What is in flight -/

inductive Item
  | ccs (c : Ccs)
  | data (buf : Bytes)

variable {cr}

def Item.next (k : Keys) : Item → Keys
  | .ccs _ => k
  | .data _ => k.next

def keysAfter (k : Keys) (l : List Item) : Keys := l.foldl Item.next k

variable (cr) in
def Item.bytes (k : Keys) : Item → Bytes
  | .ccs c => c.bytes
  | .data buf => sealedRecord cr k 23 buf

variable (cr) in
def flight (k : Keys) : List Item → Bytes
  | [] => []
  | i :: l => i.bytes cr k ++ flight (i.next k) l

/-- The entries of `sent` for the items in flight. -/
def pending (k : Keys) : List Item → List (Bytes × Nat)
  | [] => []
  | .ccs _ :: l => pending k l
  | .data buf :: l => (buf, k.next.seq) :: pending k.next l

theorem keysAfter_append (k : Keys) (l m : List Item) :
    keysAfter k (l ++ m) = keysAfter (keysAfter k l) m :=
  foldl_append

theorem flight_append (k : Keys) (l m : List Item) :
    flight cr k (l ++ m) = flight cr k l ++ flight cr (keysAfter k l) m := by
  induction l generalizing k with
  | nil => rfl
  | cons i l ih =>
    rw [cons_append, flight, ih, flight, append_assoc]
    rfl

theorem pending_append (k : Keys) (l m : List Item) :
    pending k (l ++ m) = pending k l ++ pending (keysAfter k l) m := by
  induction l generalizing k with
  | nil => rfl
  | cons i l ih =>
    cases i with
    | ccs c => exact ih k
    | data buf =>
      rw [cons_append, pending, ih, pending, cons_append]
      rfl

variable (cr) in
theorem flight_ccs (k : Keys) (cs : List Ccs) (l : List Item) :
    flight cr k (cs.map .ccs ++ l) = ccsBytes cs ++ flight cr k l := by
  induction cs with
  | nil => rfl
  | cons c cs ih =>
    rw [map_cons, cons_append, flight, ccsBytes, flatMap_cons, append_assoc]
    congr 1

theorem keysAfter_ccs (k : Keys) (cs : List Ccs) : keysAfter k (cs.map .ccs) = k := by
  induction cs with
  | nil => rfl
  | cons c cs ih => exact ih

theorem pending_ccs (k : Keys) (cs : List Ccs) (l : List Item) :
    pending k (cs.map .ccs ++ l) = pending k l := by
  induction cs with
  | nil => rfl
  | cons c cs ih => exact ih

theorem items_split (l : List Item) : (∃ cs : List Ccs, l = cs.map .ccs) ∨
      ∃ (cs : List Ccs) (buf : Bytes) (m : List Item), l = cs.map .ccs ++ .data buf :: m := by
  induction l with
  | nil => exact .inl ⟨[], rfl⟩
  | cons i l ih =>
    cases i with
    | data buf => exact .inr ⟨[], buf, l, rfl⟩
    | ccs c =>
      rcases ih with ⟨cs, h⟩ | ⟨cs, buf, m, h⟩
      · exact .inl ⟨c :: cs, by rw [h]; rfl⟩
      · exact .inr ⟨c :: cs, buf, m, by rw [h]; rfl⟩

/-! ## Record boundaries -/

theorem u16At_append {a b : Bytes} {i : Nat} (h : i + 2 ≤ a.length) :
    u16At (a ++ b) i = u16At a i := by
  unfold u16At
  rw [getD_append _ _ _ _ (by omega), getD_append _ _ _ _ (by omega)]

variable (cr) in
theorem item_framed {k : Keys} {i : Item} (h : ∀ buf, i = .data buf → buf.length ≤ 6144) :
    5 ≤ (i.bytes cr k).length ∧ (i.bytes cr k).length = 5 + u16At (i.bytes cr k) 3 := by
  cases i with
  | ccs c =>
    have hc := c.fits
    have hlen : u16At c.bytes 3 = c.payload.length :=
      u16At_be16 (by omega) [20, c.major, c.minor] c.payload
    have hbytes : c.bytes.length = 5 + c.payload.length := by
      simp [Ccs.bytes, be16]
      omega
    exact ⟨by change 5 ≤ c.bytes.length; omega, hbytes.trans (by rw [← hlen]; rfl)⟩
  | data buf =>
    have hb := h buf rfl
    obtain ⟨n, hn⟩ : ∃ n, n = buf.length + 1 + 16 := ⟨_, rfl⟩
    obtain ⟨ct, hct⟩ : ∃ ct, ct = gcmEncrypt cr k.key (buildNonce k) (recordHeader 23 n)
      (buf ++ [23]) := ⟨_, rfl⟩
    have hseal : Item.bytes cr k (.data buf) = recordHeader 23 n ++ (ct.1 ++ ct.2) := by
      rw [hct, hn, ← append_assoc]
      rfl
    have h1 : ct.1.length = buf.length + 1 := by
      rw [hct, gcmEncrypt_length, length_append, length_singleton]
    have h2 : ct.2.length = 16 := by rw [hct, gcmEncrypt_tag_length]
    have hlen : u16At (recordHeader 23 n ++ (ct.1 ++ ct.2)) 3 = n := by
      rw [u16At_append (le_refl 5)]
      exact u16At_recordHeader (by omega) 23
    rw [hseal, hlen, length_append, length_append, recordHeader_length]
    omega

variable {l : List Item} {buf : Bytes} {s s' : Sys}

theorem flight_boundary {fuel : Nat} {k : Keys} {a b : Bytes}
    (hsmall : ∀ buf, .data buf ∈ l → buf.length ≤ 6144) (h : flight cr k l = a ++ b)
    (hw : wholeRecordsLoop fuel a = true) :
    ∃ l1 l2, l = l1 ++ l2 ∧ flight cr k l1 = a := by
  induction fuel generalizing k l a with
  | zero =>
    cases a with
    | nil => exact ⟨[], l, rfl, rfl⟩
    | cons x a => cases hw
  | succ fuel ih =>
    cases a with
    | nil => exact ⟨[], l, rfl, rfl⟩
    | cons x a =>
      obtain ⟨a', ha'⟩ : ∃ a', a' = x :: a := ⟨_, rfl⟩
      rw [wholeRecordsLoop, ← ha', Bool.and_eq_true, Bool.and_eq_true, decide_eq_true_eq,
        decide_eq_true_eq] at hw
      rw [← ha'] at h ⊢
      cases l with
      | nil =>
        rw [flight] at h
        have := append_eq_nil_iff.1 h.symm
        rw [this.1] at ha'
        cases ha'
      | cons i l =>
        obtain ⟨h5, hlen⟩ := item_framed cr (k := k) (i := i)
          fun buf hi => hsmall buf (by rw [hi]; exact mem_cons_self)
        rw [flight] at h
        have hu : u16At a' 3 = u16At (i.bytes cr k) 3 := by
          rw [← u16At_append (b := b) (by omega), ← h, u16At_append (by omega)]
        -- the first item is the first record of `a`
        have hpre : a' = i.bytes cr k ++ a'.drop (5 + u16At a' 3) := by
          have htake : a'.take (5 + u16At a' 3) = i.bytes cr k := by
            rw [← @take_append_of_le_length _ _ b _ hw.1.2, ← h, hu, ← hlen, take_left]
          conv => lhs; rw [← take_append_drop (5 + u16At a' 3) a']
          rw [htake]
        have hrest : flight cr (i.next k) l = a'.drop (5 + u16At a' 3) ++ b := by
          rw [hpre, append_assoc] at h
          exact append_cancel_left h
        obtain ⟨l1, l2, hl, hf⟩ := ih (fun buf hb => hsmall buf (mem_cons_of_mem _ hb)) hrest hw.2
        refine ⟨i :: l1, l2, by rw [hl]; rfl, ?_⟩
        rw [flight, hf, ← hpre]

/-! ## The calls on an honest connection -/

variable (cr) in
theorem tlsSend_run (c : Endpoint) (h : buf.length ≤ 6144) :
    ∃ log, tlsSend cr c buf buf.length ⟨[], [], [], []⟩ =
      .ok (buf.length, c.setSend c.sendKeys.next)
        ⟨[], [], sealedRecord cr c.sendKeys 23 buf, log⟩ := by
  obtain ⟨log, hrun⟩ := sendEncrypted_run cr 23 (k := c.sendKeys) (s := ⟨[], [], [], []⟩) h rfl
  refine ⟨log, ?_⟩
  unfold tlsSend
  rw [Prog.bind_run hrun, nil_append]
  rfl

variable (cr) in
theorem tlsSend_refused (c : Endpoint) (h : 6383 < buf.length) (hi : buf.length < 2 ^ 31 - 17) :
    ∃ log, tlsSend cr c buf buf.length ⟨[], [], [], []⟩ = .ok (-1, c) ⟨[], [], [], log⟩ := by
  have hguard : wrap32 ((buf.length : Int) + 1 + 16) > 6144 + 256 := by
    have hwrap : wrap32 ((buf.length : Int) + 1 + 16) = buf.length + 1 + 16 := by
      exact Int.bmod_eq_of_le (by norm_num; omega) (by norm_num; omega)
    omega
  have hrun : sendEncrypted cr c.sendKeys 23 buf buf.length ⟨[], [], [], []⟩ =
      .ok (false, c.sendKeys) ⟨[], [], [], [.encrypt buf.length]⟩ := by
    unfold sendEncrypted
    rw [Prog.bind_run (show note _ _ = .ok () _ from rfl), if_pos hguard]
    rfl
  refine ⟨[.encrypt buf.length], ?_⟩
  unfold tlsSend
  rw [Prog.bind_run hrun]
  rw [Endpoint.setSend_sendKeys]
  rfl

variable (cr) in
theorem tlsRecv_run (c : Endpoint) {max : Nat} (cs : List Ccs) (rest : Bytes)
    (hlen : buf.length ≤ 6144) (hmax : buf.length ≤ max) :
    ∃ log, tlsRecv cr c max
        ⟨ccsBytes cs ++ (sealedRecord cr c.recvKeys 23 buf ++ rest), [], [], []⟩ =
      .ok ((buf.length, buf), c.setRecv c.recvKeys.next) ⟨rest, [], [], log⟩ := by
  obtain ⟨s, hs⟩ : ∃ s : Conn, s =
    ⟨ccsBytes cs ++ (sealedRecord cr c.recvKeys 23 buf ++ rest), [], [], []⟩ := ⟨_, rfl⟩
  have hinp : s.inp = ccsBytes cs ++ (sealedRecord cr c.recvKeys 23 buf ++ rest) := by rw [hs]
  obtain ⟨log, hrun⟩ := recvEncrypted_run cr (t := .appBuf) (by decide) hlen
    (by change buf.length + 1 ≤ 6144 + 16; omega) hinp
  have hmin : min (buf.length : Int) max = buf.length := by omega
  refine ⟨log, ?_⟩
  rw [← hs]
  change tlsRecvLoop cr max (s.inp.length + 1) c s = _
  unfold tlsRecvLoop
  rw [Prog.bind_run hrun]
  dsimp only
  rw [if_neg (by decide), if_neg (by decide), hmin, Int.toNat_natCast]
  unfold Record.content
  rw [take_left, take_length, hs]
  rfl

theorem recvHeaderLoop_drained {fuel : Nat} {cs : List Ccs} {s : Conn} (hfuel : cs.length < fuel)
    (h : s.inp = ccsBytes cs) : recvHeaderLoop fuel s = .ok none { s with inp := [] } := by
  induction cs generalizing fuel s with
  | nil =>
    obtain ⟨f, rfl⟩ := Nat.exists_eq_succ_of_ne_zero (by omega : fuel ≠ 0)
    have hread : readN 5 s = .ok none { s with inp := [] } := by
      unfold readN
      rw [h, if_pos (by decide)]
    unfold recvHeaderLoop
    rw [Prog.bind_run hread]
    rfl
  | cons c cs ih =>
    obtain ⟨f, rfl⟩ := Nat.exists_eq_succ_of_ne_zero (by omega : fuel ≠ 0)
    rw [recvHeaderLoop_cons (h.trans flatMap_cons)]
    exact ih (by rw [length_cons] at hfuel; omega) rfl

theorem tlsRecv_drained (c : Endpoint) (max : Nat) (cs : List Ccs) :
    tlsRecv cr c max ⟨ccsBytes cs, [], [], []⟩ = .ok ((-1, []), c) ⟨[], [], [], []⟩ := by
  obtain ⟨s, hs⟩ : ∃ s : Conn, s = ⟨ccsBytes cs, [], [], []⟩ := ⟨_, rfl⟩
  have hlen : cs.length < s.inp.length + 1 := by
    have := ccs_length_le cs
    rw [hs]
    exact Nat.lt_succ_of_le this
  have hhdr : recvHeader s = .ok none { s with inp := [] } :=
    recvHeaderLoop_drained hlen (by rw [hs])
  have hrun : recvEncrypted cr c.recvKeys .appBuf s = .ok (none, c.recvKeys) { s with inp := [] } := by
    unfold recvEncrypted
    rw [Prog.bind_run hhdr]
    rfl
  rw [← hs]
  change tlsRecvLoop cr max (s.inp.length + 1) c s = _
  unfold tlsRecvLoop
  rw [Prog.bind_run hrun]
  rw [Endpoint.setRecv_recvKeys, hs]
  rfl

/-! ## Every run -/

variable (cr) in
/-- `l` is what is in flight: sealed with the keys that the receiver has from here on,
and sent but not received. -/
structure InFlight (s : Sys) (l : List Item) : Prop where
  wire : s.wire = flight cr s.receiver.recvKeys l
  keys : s.sender.sendKeys = keysAfter s.receiver.recvKeys l
  sent : s.sent = s.got ++ pending s.receiver.recvKeys l
  small : ∀ buf, .data buf ∈ l → buf.length ≤ 6144
  fits : s.overran = false

theorem InFlight.send (h : InFlight cr s l)
    (hfit : (Access.encrypt buf.length).Fits) (hs : s.step cr (.send buf) = some s') :
    ∃ l', InFlight cr s' l' := by
  unfold Sys.step at hs
  dsimp only at hs
  split at hs
  case isFalse => cases hs
  case isTrue hint =>
    rcases hfit with ⟨-, hle⟩ | ⟨hlt, hint'⟩
    · obtain ⟨log, hrun⟩ := tlsSend_run cr s.sender (by omega : buf.length ≤ 6144)
      rw [hrun] at hs
      dsimp only at hs
      rw [if_neg (by omega)] at hs
      cases hs
      refine ⟨l ++ [.data buf], ?_, ?_, ?_, ?_, h.fits⟩
      · rw [flight_append, h.wire, h.keys]
        simp [flight, Item.bytes]
      · rw [Endpoint.sendKeys_setSend, keysAfter_append, h.keys]
        rfl
      · rw [Endpoint.sendKeys_setSend, pending_append, h.sent, h.keys, append_assoc]
        rfl
      · intro b hb
        rcases mem_append.1 hb with hb | hb
        · exact h.small b hb
        · cases mem_singleton.1 hb
          omega
    · obtain ⟨log, hrun⟩ := tlsSend_refused cr s.sender (by omega : 6383 < buf.length) (by omega)
      rw [hrun] at hs
      dsimp only at hs
      rw [if_pos (by omega), append_nil] at hs
      cases hs
      exact ⟨l, h.wire, h.keys, h.sent, h.small, h.fits⟩

theorem InFlight.ccs {i : Nat} {c : Ccs}
    (h : InFlight cr s l) (hs : s.step cr (.ccs i c) = some s') :
    ∃ l', InFlight cr s' l' := by
  unfold Sys.step at hs
  dsimp only at hs
  split at hs
  case isFalse => cases hs
  case isTrue hw =>
    cases hs
    have hsplit : flight cr s.receiver.recvKeys l = s.wire.take i ++ s.wire.drop i := by
      rw [take_append_drop, h.wire]
    obtain ⟨l1, l2, hl, hf⟩ := flight_boundary h.small hsplit hw
    have hrest : flight cr (keysAfter s.receiver.recvKeys l1) l2 = s.wire.drop i := by
      rw [hl, flight_append, hf] at hsplit
      exact append_cancel_left hsplit
    refine ⟨l1 ++ .ccs c :: l2, ?_, ?_, ?_, ?_, h.fits⟩
    · rw [flight_append, hf, flight, ← hrest]
      rfl
    · rw [h.keys, hl, keysAfter_append, keysAfter_append]
      rfl
    · rw [h.sent, hl, pending_append, pending_append]
      rfl
    · intro b hb
      refine h.small b ?_
      rw [hl]
      simpa using hb

theorem InFlight.recv {max : Nat} (h : InFlight cr s l)
    (hroom : ∀ p, s.sent[s.got.length]? = some p → p.1.length ≤ max)
    (hs : s.step cr (.recv max) = some s') : ∃ l', InFlight cr s' l' := by
  unfold Sys.step at hs
  dsimp only at hs
  split at hs
  case isFalse => cases hs
  case isTrue hpos =>
    rcases items_split l with ⟨cs, hl⟩ | ⟨cs, buf, m, hl⟩
    · have hwire : s.wire = ccsBytes cs := by
        have := flight_ccs cr s.receiver.recvKeys cs []
        rw [append_nil, ← hl, ← h.wire] at this
        rw [this, flight, append_nil]
      rw [hwire, tlsRecv_drained] at hs
      dsimp only at hs
      rw [if_pos (by decide)] at hs
      cases hs
      have hkeys : keysAfter s.receiver.recvKeys l = s.receiver.recvKeys := by
        rw [hl, keysAfter_ccs]
      have hpend : pending s.receiver.recvKeys l = [] := by
        have := pending_ccs s.receiver.recvKeys cs []
        rwa [append_nil, ← hl] at this
      refine ⟨[], rfl, ?_, ?_, fun b hb => absurd hb not_mem_nil, h.fits⟩
      · exact h.keys.trans hkeys
      · rw [h.sent, hpend]
        rfl
    · have hwire : s.wire = ccsBytes cs ++ (sealedRecord cr s.receiver.recvKeys 23 buf ++
          flight cr s.receiver.recvKeys.next m) := by
        rw [h.wire, hl, flight_ccs]
        rfl
      have hsent : s.sent = s.got ++ (buf, s.receiver.recvKeys.next.seq) ::
          pending s.receiver.recvKeys.next m := by
        rw [h.sent, hl, pending_ccs]
        rfl
      have hmax : buf.length ≤ max := by
        refine hroom (buf, s.receiver.recvKeys.next.seq) ?_
        rw [hsent, getElem?_append_right le_rfl, Nat.sub_self]
        rfl
      have hsmall : buf.length ≤ 6144 := h.small buf (by rw [hl]; simp)
      obtain ⟨log, hrun⟩ := tlsRecv_run cr s.receiver cs
        (flight cr s.receiver.recvKeys.next m) hsmall hmax
      rw [hwire, hrun] at hs
      dsimp only at hs
      rw [if_neg (by omega)] at hs
      cases hs
      refine ⟨m, ?_, ?_, ?_, fun b hb => h.small b (by rw [hl]; simp [hb]), h.fits⟩
      · rw [Endpoint.recvKeys_setRecv]
      · rw [Endpoint.recvKeys_setRecv, h.keys, hl, keysAfter_append, keysAfter_ccs]
        rfl
      · rw [Endpoint.recvKeys_setRecv, hsent, append_assoc]
        rfl

theorem InFlight.step {t : Step} (h : InFlight cr s l)
    (hroom : Roomy s t) (hs : s.step cr t = some s') : ∃ l', InFlight cr s' l' := by
  cases t with
  | send buf => exact h.send hroom hs
  | ccs i c => exact h.ccs hs
  | recv max => exact h.recv hroom hs

theorem inFlight_inductive : ((sys cr).restrict Roomy).Inductive fun s => ∃ l, InFlight cr s l where
  init s h := by
    obtain ⟨a, b, hkeys, rfl⟩ := h
    exact ⟨[], rfl, hkeys, rfl, fun b hb => absurd hb not_mem_nil, rfl⟩
  step s t s' h hs := by
    obtain ⟨l, hl⟩ := h
    exact hl.step hs.1 hs.2

theorem InFlight.inOrder (h : InFlight cr s l) : InOrder s where
  bytes := by
    rw [h.sent, flatMap_append]
    exact prefix_append _ _
  counters := by
    rw [h.sent, map_append]
    exact prefix_append _ _

theorem InFlight.got_eq_sent (h : InFlight cr s l) (hwire : s.wire = []) : s.got = s.sent := by
  cases l with
  | nil =>
    rw [h.sent]
    exact (append_nil _).symm
  | cons i l =>
    have hframed := item_framed cr (k := s.receiver.recvKeys) (i := i)
      fun buf hi => h.small buf (by rw [hi]; exact mem_cons_self)
    have hnil : i.bytes cr s.receiver.recvKeys = [] := by
      have := h.wire
      rw [hwire, flight] at this
      exact (append_eq_nil_iff.1 this.symm).1
    rw [hnil] at hframed
    exact absurd hframed.1 (by decide)

variable (cr)

/-- On an established connection whose buffers fit a record (or are
refused) and whose reads each have room for the record they take, in every state of
every run: what `tls_recv` returned is a prefix of what `tls_send` accepted, whatever
ChangeCipherSpec records are put between; the counters agree record by record; all of
it has been returned once nothing is in flight; and no array was overrun. -/
theorem record_stream (s : Sys) (h : ((sys cr).restrict Roomy).Reachable s) :
    InOrder s ∧ (s.wire = [] → s.got = s.sent) ∧ s.overran = false := by
  obtain ⟨l, hl⟩ := inFlight_inductive.reachable s h
  exact ⟨hl.inOrder, hl.got_eq_sent, hl.fits⟩

instance (s : Sys) (t : Step) : Decidable (Roomy s t) :=
  match t with
  | .send buf => inferInstanceAs (Decidable (Access.encrypt buf.length).Fits)
  | .ccs _ _ => isTrue trivial
  | .recv max =>
    inferInstanceAs (Decidable (∀ p ∈ s.sent[s.got.length]?, p.1.length ≤ max))

/-- A client that sends to its server. -/
def client : Endpoint := ⟨false, .zero, .zero⟩

def server : Endpoint := ⟨true, .zero, .zero⟩

def emptyCcs : Ccs := ⟨3, 3, [], Nat.zero_le _⟩

/-- Two buffers, a ChangeCipherSpec record between them, two reads. -/
theorem record_stream_two_buffers : ∃ s, s.got = [([1, 2, 3], 1), ([4], 2)] ∧
      (InOrder s ∧ (s.wire = [] → s.got = s.sent) ∧ s.overran = false) := by
  have hrun : (LTS.exec (LTS.guarded Roomy (Sys.step .null)) (.start client server)
      [.send [1, 2, 3], .send [4], .ccs 25 emptyCcs, .recv 3, .recv 10]).map Sys.got
        = some [([1, 2, 3], 1), ([4], 2)] := by
    decide +kernel
  obtain ⟨s, hs, hgot⟩ := Option.map_eq_some_iff.1 hrun
  exact ⟨s, hgot, record_stream .null s
    ⟨.start client server, _, ⟨client, server, rfl, rfl⟩, LTS.run_restrict_of_exec hs⟩⟩

/-- A read of one byte takes the record of three: the next one continues with the
record after it. -/
theorem short_read_loses_bytes :
    ¬ ∀ (cr : Primitives) (s : Sys), (sys cr).Reachable s → InOrder s := by
  intro h
  have hrun : (LTS.exec (Sys.step .null) (.start client server)
      [.send [1, 2, 3], .recv 1, .send [4], .recv 1]).map
        (fun s => (s.got.flatMap Prod.fst, s.sent.flatMap Prod.fst))
        = some ([1, 4], [1, 2, 3, 4]) := by
    decide +kernel
  obtain ⟨s, hs, hbytes⟩ := Option.map_eq_some_iff.1 hrun
  obtain ⟨hgot, hsent⟩ := Prod.ext_iff.1 hbytes
  dsimp only at hgot hsent
  have hpre := (h .null s
    ⟨.start client server, _, ⟨client, server, rfl, rfl⟩, LTS.run_of_exec hs⟩).bytes
  rw [hgot, hsent] at hpre
  exact absurd hpre (by decide)

end Stream

end AdventOS.Tls
