import AdventOS.Core.LTS
import AdventOS.Ssh.Packet

/-!
# SSH sessions and their IVs

One endpoint of a connection, `user/sshd.c` or `user/ssh.c`, as the processes
that send on its socket. The process that ran the handshake (here RX, process 0)
sends everything until a shell is opened; then it forks a TX helper that sends
the terminal's bytes with its own copy of the outgoing key and IV.

RX does send again while it has a helper: sshd answers a client's KEXINIT with
three packets before it switches keys, and the client answers CHANNEL_CLOSE. It
seals them with the IV it had at the fork. SIGTERM stops the helper, but not at
once: `sys_wait` returns for any child, and a helper in user mode seals and
writes until it next enters the kernel's signal check.

Receiving is not modelled: what arrives decides which of the enabled steps is
taken, so a run over every order of labels covers every peer. Once a write on
the socket fails, later ones fail too; such packets stay in `unsent`.

* `Disciplined`: RX and its helper never both seal after the fork that made the
  helper's copy, keys of later exchanges are new, and no key seals 2^64 packets;
* `inv_inductive`: then the owner in the sense of `Sealing.Owned` is the helper
  once it has sealed something, and RX otherwise;
* `nonces_unique`.
-/
namespace AdventOS.Ssh.Session
open Function

open AdventOS.Sealing

inductive Role
  | server
  | client
  deriving DecidableEq

/-- The three packets an exchange sends: KEXINIT, ECDH_REPLY (server) or
ECDH_INIT (client), and NEWKEYS. -/
inductive KexMsg
  | kexinit
  | ecdh
  | newkeys
  deriving DecidableEq

/-- Where RX is. sshd.c:1365-1396, 810-815, 1234-1361 and
user/ssh.c:742-871, 382-389, 587-663 -/
inductive Pc
  | kex (initial : Bool) (next : KexMsg)
  | keyed (initial : Bool)
  /-- Userauth, channel set-up and exec: RX is the only process that sends. -/
  | single
  | spawn
  | shell
  /-- In `sys_wait` after the SIGTERM to the helper. -/
  | wait
  | closing
  deriving DecidableEq

/-- Where a TX helper is. sshd.c:1205-1222 and
user/ssh.c:589-609 -/
inductive TxPc
  | data
  | eof
  | close
  | done
  | gone
  deriving DecidableEq

structure Tx where
  pc : TxPc
  sigterm : Bool
  /-- Packets sealed since the fork (not in the code). -/
  sealed : Nat

/-- One endpoint. Process 0 of `net` is RX; the helpers are 1, 2, ... in the
order of their forks. -/
structure Party where
  net : Net Key IV
  pc : Pc
  txPid : Option Nat
  spawned : Nat
  tx : Nat → Tx
  /-- Children that have exited and are not reaped. -/
  zombies : Nat
  /-- The shell process: not started, running, or exited. -/
  shell : Option Bool
  /-- Packets RX sealed since the last fork of a helper (not in the code). -/
  rxSealed : Nat

def Party.start : Party where
  net := Net.start
  pc := .kex true .kexinit
  txPid := none
  spawned := 0
  tx := fun _ => ⟨.gone, false, 0⟩
  zombies := 0
  shell := none
  rxSealed := 0

inductive TxAct
  | data (n : Nat)
  | endOfInput
  | eof
  | close
  | exit
  /-- The default action of SIGTERM. -/
  | die
  deriving DecidableEq

inductive Lbl
  /-- RX sends a payload of `n` bytes. -/
  | send (n : Nat)
  | kex
  | newkeys (ks : Key × IV)
  | keyed
  /-- The client starts a new exchange before the shell (`@rekey;`). -/
  | rekey
  | openShell
  | fork (ok : Bool)
  /-- The client's KEXINIT reaches sshd's RX loop. -/
  | kexinit
  | wait
  /-- The server's CHANNEL_CLOSE reaches the client's RX loop. -/
  | channelClose
  | stop
  | tx (i : Nat) (a : TxAct)
  | write (i : Nat)
  | shellExit
  deriving DecidableEq

/-! ## Steps -/

/-- Every send of RX so far succeeded. -/
def Party.sent (s : Party) : Bool := (s.net.procs 0).unsent.isEmpty

def Party.rxSeal (s : Party) : Party :=
  { s with net := s.net.seal sshIvIncrement 0, rxSealed := s.rxSealed + 1 }

def Party.setTx (s : Party) (i : Nat) (t : Tx) : Party :=
  { s with tx := update s.tx i t }

/-- `send_packet` in helper `i`, which goes on at `pc`. -/
def Party.txSeal (s : Party) (i : Nat) (pc : TxPc) : Party :=
  { s with
    net := s.net.seal sshIvIncrement i
    tx := update s.tx i { s.tx i with pc := pc, sealed := (s.tx i).sealed + 1 } }

def Party.txLeave (s : Party) (i : Nat) : Party :=
  { s.setTx i { s.tx i with pc := .gone } with zombies := s.zombies + 1 }

def Party.killTx (s : Party) : Party :=
  match s.txPid with
  | none => s
  | some i => s.setTx i { s.tx i with sigterm := true }

/-- sshd.c:1205-1222; the client's helper sends no CLOSE
(user/ssh.c:589-609). -/
def stepTx (r : Role) (s : Party) (i : Nat) : TxAct → Option Party
  | .data n =>
    if (s.tx i).pc = .data then some (if sealFits n then s.txSeal i .data else s) else none
  | .endOfInput =>
    if (s.tx i).pc = .data then some (s.setTx i { s.tx i with pc := .eof }) else none
  | .eof =>
    if (s.tx i).pc = .eof then
      some (s.txSeal i (match r with | .server => .close | .client => .done))
    else none
  | .close => if (s.tx i).pc = .close then some (s.txSeal i .done) else none
  | .exit => if (s.tx i).pc = .done then some (s.txLeave i) else none
  | .die => if (s.tx i).sigterm && (s.tx i).pc != .gone then some (s.txLeave i) else none

/-- After NEWKEYS in both directions: sshd goes back to userauth after the first
exchange and forks a new helper after a later one; the client's exchanges all
come before its shell. -/
def afterKeys (r : Role) (initial : Bool) : Pc :=
  match r with
  | .server => if initial then .single else .spawn
  | .client => .single

/-- A fork of a helper; the parent records its pid, or the failure. -/
def Party.forkTx (s : Party) (ok : Bool) : Party :=
  if ok then
    { s with
      net := s.net.fork 0 (s.spawned + 1)
      pc := .shell
      txPid := some (s.spawned + 1)
      spawned := s.spawned + 1
      tx := update s.tx (s.spawned + 1) ⟨.data, false, 0⟩
      shell := s.shell <|> some true
      rxSealed := 0 }
  else { s with pc := .shell, txPid := none, shell := s.shell <|> some true }

def step (r : Role) (s : Party) : Lbl → Option Party
  | .send n =>
    if s.pc = .single then some (if sealFits n then s.rxSeal else s) else none
  | .kex =>
    match s.pc with
    | .kex b .kexinit => if s.sent then some { s.rxSeal with pc := .kex b .ecdh } else none
    | .kex b .ecdh => if s.sent then some { s.rxSeal with pc := .kex b .newkeys } else none
    | _ => none
  | .newkeys ks =>
    match s.pc with
    | .kex b .newkeys =>
      if s.sent then
        some { s with net := s.net.rekey 0 ks, rxSealed := s.rxSealed + 1, pc := .keyed b }
      else none
    | _ => none
  | .keyed =>
    match s.pc with
    | .keyed b => if s.sent then some { s with pc := afterKeys r b } else none
    | _ => none
  | .rekey =>
    if r = .client ∧ s.pc = .single ∧ s.sent then some { s with pc := .kex false .kexinit }
    else none
  | .openShell => if s.pc = .single ∧ s.sent then some { s with pc := .spawn } else none
  | .fork ok => if s.pc = .spawn then some (s.forkTx ok) else none
  | .kexinit =>
    if r = .server ∧ s.pc = .shell then
      match s.txPid with
      | some _ => some { s.killTx with pc := .wait }
      | none => some { s with pc := .kex false .kexinit }
    else none
  | .wait =>
    if s.pc = .wait ∧ 0 < s.zombies then
      some { s with pc := .kex false .kexinit, zombies := s.zombies - 1 }
    else none
  | .channelClose =>
    if r = .client ∧ s.pc = .shell then some { s.rxSeal.killTx with pc := .closing } else none
  | .stop =>
    match r with
    | .server => some { s with pc := .closing }
    | .client => some { s.killTx with pc := .closing }
  | .tx i a => if 0 < i ∧ i ≤ s.spawned then stepTx r s i a else none
  | .write i =>
    if i = 0 ∨ (s.tx i).pc ≠ .gone then (s.net.write i).map fun net => { s with net } else none
  | .shellExit =>
    if s.shell = some true then some { s with shell := some false, zombies := s.zombies + 1 }
    else none

def sessionLTS (r : Role) : LTS Party Lbl := LTS.ofFn (· = Party.start) (step r)

/-! ## The condition -/

/-- Process `i` has sealed fewer than 2^64 packets with its key. -/
def Party.Room (s : Party) (i : Nat) : Prop :=
  ∀ x ∈ (s.net.procs i).keys, keyCount s.net.log x.1 < 2 ^ 64

/-- RX may seal: its helper has sealed nothing since it was forked. -/
def Party.RxTurn (s : Party) : Prop := s.Room 0 ∧ ∀ i ∈ s.txPid, (s.tx i).sealed = 0

/-- Helper `i` may seal: it is the current one, and RX has sealed nothing since
it was forked. -/
def Party.TxTurn (s : Party) (i : Nat) : Prop := s.Room i ∧ s.txPid = some i ∧ s.rxSealed = 0

def Disciplined (s : Party) : Lbl → Prop
  | .send _ | .kex | .channelClose => s.RxTurn
  | .newkeys ks =>
    s.RxTurn ∧ FreshKey s.net.log ks.1 ∧ ∀ x ∈ (s.net.procs 0).keys, x.1 ≠ ks.1
  | .tx i (.data _) | .tx i .eof | .tx i .close => s.TxTurn i
  | _ => True

instance (s : Party) (i : Nat) : Decidable (s.Room i) :=
  inferInstanceAs (Decidable (∀ x ∈ (s.net.procs i).keys, keyCount s.net.log x.1 < 2 ^ 64))

instance (s : Party) : Decidable s.RxTurn :=
  inferInstanceAs (Decidable (_ ∧ ∀ i ∈ s.txPid, (s.tx i).sealed = 0))

instance (s : Party) (i : Nat) : Decidable (s.TxTurn i) :=
  inferInstanceAs (Decidable (_ ∧ _ ∧ _))

instance (log : List (Packet Key IV)) (k : Key) : Decidable (FreshKey log k) :=
  inferInstanceAs (Decidable (∀ x ∈ nonces log, x.1 ≠ k))

instance (s : Party) (l : Lbl) : Decidable (Disciplined s l) :=
  match l with
  | .send _ | .kex | .channelClose => inferInstanceAs (Decidable s.RxTurn)
  | .newkeys ks =>
    inferInstanceAs (Decidable
      (s.RxTurn ∧ FreshKey s.net.log ks.1 ∧ ∀ x ∈ (s.net.procs 0).keys, x.1 ≠ ks.1))
  | .tx i (.data _) | .tx i .eof | .tx i .close => inferInstanceAs (Decidable (s.TxTurn i))
  | .tx _ .endOfInput | .tx _ .exit | .tx _ .die | .keyed | .rekey | .openShell | .fork _
  | .kexinit | .wait | .stop | .write _ | .shellExit => inferInstanceAs (Decidable True)

/-! ## Invariant -/

/-- The process whose copy of the pair is the current one. -/
def Party.owner (s : Party) : Nat :=
  match s.txPid with
  | some i => if (s.tx i).sealed = 0 then 0 else i
  | none => 0

/-- RX has sealed, or may seal at any time: no helper's copy is in use. -/
def Pc.sending : Pc → Prop
  | .kex _ .ecdh | .kex _ .newkeys | .keyed _ | .single | .spawn => True
  | .kex _ .kexinit | .shell | .wait | .closing => False

structure Inv (s : Party) : Prop where
  owned : Owned sshIvIncrement s.owner s.net
  pid_ne : ∀ i, s.txPid = some i → i ≠ 0
  shared : ∀ i, s.txPid = some i → s.rxSealed = 0 →
    (s.net.procs 0).unsent = [] ∧
      ((s.tx i).sealed = 0 → (s.net.procs i).keys = (s.net.procs 0).keys)
  began : s.pc.sending → ∀ i, s.txPid = some i → (s.tx i).sealed = 0 ∧ 0 < s.rxSealed
  spawn_sent : s.pc = .spawn → (s.net.procs 0).unsent = []

variable {s s' : Party} {i : Nat} {r : Role}

theorem owner_eq_zero (h : ∀ i, s.txPid = some i → (s.tx i).sealed = 0) :
    s.owner = 0 := by
  unfold Party.owner
  split
  · rename_i i hi
    rw [if_pos (h i hi)]
  · rfl

theorem owner_eq_tx (hi : s.txPid = some i) (hs : (s.tx i).sealed ≠ 0) :
    s.owner = i := by
  simp [Party.owner, hi, hs]

theorem sent_iff : s.sent = true ↔ (s.net.procs 0).unsent = [] := by
  simp [Party.sent]

theorem inv_start : Inv Party.start where
  owned := owned_start 0
  pid_ne i h := by cases h
  shared i h := by cases h
  began _ i h := by cases h
  spawn_sent h := by cases h

theorem Inv.quiet (h : Inv s) (hnet : s'.net = s.net) (hpid : s'.txPid = s.txPid)
    (hrx : s'.rxSealed = s.rxSealed) (htx : ∀ i, (s'.tx i).sealed = (s.tx i).sealed)
    (hpc : s'.pc.sending → s.pc.sending)
    (hspawn : s'.pc = .spawn → (s.net.procs 0).unsent = []) : Inv s' where
  owned := by
    have ho : s'.owner = s.owner := by unfold Party.owner; rw [hpid]; simp only [htx]
    rw [ho, hnet]; exact h.owned
  pid_ne i hi := h.pid_ne i (hpid.symm.trans hi)
  shared i hi h0 := by
    rw [hnet, htx i]
    exact h.shared i (hpid.symm.trans hi) (hrx.symm.trans h0)
  began hs i hi := by
    rw [htx i, hrx]
    exact h.began (hpc hs) i (hpid.symm.trans hi)
  spawn_sent hp := by rw [hnet]; exact hspawn hp

theorem Inv.rx_owned (h : Inv s) (ht : s.RxTurn) : Owned sshIvIncrement 0 s.net := by
  have ho := owner_eq_zero ht.2
  rw [← ho]; exact h.owned

theorem Inv.of_rx (h : Inv s) (ht : s.RxTurn)
    (hown : Owned sshIvIncrement 0 s'.net) (hpid : s'.txPid = s.txPid)
    (htx : ∀ i, (s'.tx i).sealed = (s.tx i).sealed) (hrx : s'.rxSealed = s.rxSealed + 1)
    (hpc : s'.pc ≠ .spawn) : Inv s' where
  owned := by
    have ho : s'.owner = 0 :=
      owner_eq_zero fun i hi => (htx i).trans (ht.2 i (hpid.symm.trans hi))
    rw [ho]; exact hown
  pid_ne i hi := h.pid_ne i (hpid.symm.trans hi)
  shared i _ h0 := by omega
  began _ i hi := ⟨(htx i).trans (ht.2 i (hpid.symm.trans hi)), by omega⟩
  spawn_sent hp := absurd hp hpc

theorem Inv.rxSeal (h : Inv s) (ht : s.RxTurn) (hnet : s'.net = s.rxSeal.net)
    (hpid : s'.txPid = s.txPid) (htx : ∀ i, (s'.tx i).sealed = (s.tx i).sealed)
    (hrx : s'.rxSealed = s.rxSealed + 1) (hpc : s'.pc ≠ .spawn) : Inv s' := by
  refine h.of_rx ht ?_ hpid htx hrx hpc
  rw [hnet]
  exact (h.rx_owned ht).seal sshIvIncrement_period ht.1

theorem Inv.tx_owned (h : Inv s) (ht : s.TxTurn i) :
    Owned sshIvIncrement i s.net := by
  obtain ⟨-, hpid, h0⟩ := ht
  obtain ⟨hsent, hkeys⟩ := h.shared i hpid h0
  by_cases hs : (s.tx i).sealed = 0
  · have ho : s.owner = 0 := owner_eq_zero fun j hj => by
      rw [hpid] at hj; cases hj; exact hs
    have hown := h.owned
    rw [ho] at hown
    exact hown.transfer (hkeys hs) hsent (hown.others i (h.pid_ne i hpid))
  · rw [← owner_eq_tx hpid hs]; exact h.owned

theorem Inv.txSeal (h : Inv s) (ht : s.TxTurn i) (pc : TxPc) :
    Inv (s.txSeal i pc) := by
  have hown := (h.tx_owned ht).seal sshIvIncrement_period ht.1
  obtain ⟨-, hpid, h0⟩ := ht
  have hi := h.pid_ne i hpid
  have hsent := (h.shared i hpid h0).1
  have hs : ((s.txSeal i pc).tx i).sealed ≠ 0 := by simp [Party.txSeal]
  have hpid' : (s.txSeal i pc).txPid = some i := hpid
  refine ⟨?_, h.pid_ne, fun j hj _ => ⟨?_, fun hz => ?_⟩, fun hp j hj => ?_, fun hp => ?_⟩
  · rw [owner_eq_tx hpid' hs]; exact hown
  · simp only [Party.txSeal]
    rw [s.net.seal_ne _ (Ne.symm hi)]; exact hsent
  · rw [hpid'] at hj; cases hj; exact absurd hz hs
  · have := (h.began hp i hpid).2; omega
  · simp only [Party.txSeal]
    rw [s.net.seal_ne _ (Ne.symm hi)]; exact hsent

theorem Inv.write {net : Net Key IV} (h : Inv s)
    (hw : s.net.write i = some net) : Inv { s with net } := by
  have hsent : (s.net.procs 0).unsent = [] → (net.procs 0).unsent = [] := by
    intro h0
    by_cases hi : i = 0
    · subst hi; simp [Net.write, h0] at hw
    · rw [s.net.write_ne hw (Ne.symm hi)]; exact h0
  refine ⟨h.owned.write hw, h.pid_ne, fun j hj h0 => ?_, h.began, fun hp => ?_⟩
  · obtain ⟨h1, h2⟩ := h.shared j hj h0
    refine ⟨hsent h1, fun hz => ?_⟩
    rw [s.net.write_keys hw, s.net.write_keys hw]; exact h2 hz
  · exact hsent (h.spawn_sent hp)

theorem Inv.forkTx (h : Inv s) (hpc : s.pc = .spawn) (ok : Bool) :
    Inv (s.forkTx ok) := by
  have ho : s.owner = 0 := owner_eq_zero fun i hi => (h.began (by rw [hpc]; trivial) i hi).1
  have hown := h.owned
  rw [ho] at hown
  cases ok with
  | false =>
    refine ⟨hown, fun i hi => ?_, fun i hi => ?_, fun hp => ?_, fun hp => ?_⟩
    · cases hi
    · cases hi
    · cases hp
    · cases hp
  | true =>
    have hne : (0 : Nat) ≠ s.spawned + 1 := by omega
    refine ⟨?_, fun i hi => ?_, fun i hi _ => ?_, fun hp => ?_, fun hp => ?_⟩
    · rw [owner_eq_zero fun i hi => by cases hi; simp [Party.forkTx]]
      exact hown.fork (Ne.symm hne)
    · cases hi; omega
    · cases hi
      simp only [Party.forkTx, if_true]
      rw [s.net.fork_ne hne, s.net.fork_same]
      exact ⟨h.spawn_sent hpc, fun _ => rfl⟩
    · cases hp
    · cases hp

theorem killTx_sealed (s : Party) (i : Nat) : (s.killTx.tx i).sealed = (s.tx i).sealed := by
  unfold Party.killTx
  split
  · rfl
  · rename_i j hj
    by_cases hij : i = j
    · subst hij; simp [Party.setTx]
    · simp [Party.setTx, hij]

@[simp] theorem killTx_net (s : Party) : s.killTx.net = s.net := by
  unfold Party.killTx; split <;> rfl

@[simp] theorem killTx_txPid (s : Party) : s.killTx.txPid = s.txPid := by
  unfold Party.killTx; split <;> rfl

@[simp] theorem killTx_rxSealed (s : Party) : s.killTx.rxSealed = s.rxSealed := by
  unfold Party.killTx; split <;> rfl

theorem Inv.setTx (h : Inv s) {t : Tx}
    (htx : s'.tx = update s.tx i t) (ht : t.sealed = (s.tx i).sealed)
    (hnet : s'.net = s.net) (hpid : s'.txPid = s.txPid) (hrx : s'.rxSealed = s.rxSealed)
    (hpc : s'.pc = s.pc) : Inv s' := by
  refine h.quiet hnet hpid hrx (fun j => ?_) (by rw [hpc]; exact id)
    (by rw [hpc]; exact h.spawn_sent)
  rw [htx]
  by_cases hj : j = i
  · subst hj; simp [ht]
  · simp [hj]

/-! ## Runs -/

theorem inv_tx {a : TxAct} (h : Inv s)
    (hd : Disciplined s (.tx i a)) (hs : stepTx r s i a = some s') : Inv s' := by
  cases a with
  | data n =>
    simp only [stepTx] at hs
    split at hs
    · cases hs
      split
      · exact h.txSeal hd .data
      · exact h
    · cases hs
  | endOfInput =>
    simp only [stepTx] at hs
    split at hs
    · cases hs
      exact h.setTx rfl rfl rfl rfl rfl rfl
    · cases hs
  | eof =>
    simp only [stepTx] at hs
    split at hs
    · cases hs
      exact h.txSeal hd _
    · cases hs
  | close =>
    simp only [stepTx] at hs
    split at hs
    · cases hs
      exact h.txSeal hd .done
    · cases hs
  | exit =>
    simp only [stepTx] at hs
    split at hs
    · cases hs
      exact h.setTx rfl rfl rfl rfl rfl rfl
    · cases hs
  | die =>
    simp only [stepTx] at hs
    split at hs
    · cases hs
      exact h.setTx rfl rfl rfl rfl rfl rfl
    · cases hs

theorem inv_kex (h : Inv s) (ht : s.RxTurn)
    (hs : step r s .kex = some s') : Inv s' := by
  simp only [step] at hs
  split at hs
  · split at hs
    · cases hs
      exact h.rxSeal ht rfl rfl (fun _ => rfl) rfl (by simp)
    · cases hs
  · split at hs
    · cases hs
      exact h.rxSeal ht rfl rfl (fun _ => rfl) rfl (by simp)
    · cases hs
  · cases hs

theorem inv_newkeys {ks : Key × IV} (h : Inv s)
    (hd : Disciplined s (.newkeys ks)) (hs : step r s (.newkeys ks) = some s') : Inv s' := by
  obtain ⟨ht, hfresh, hne⟩ := hd
  simp only [step] at hs
  split at hs
  · split at hs
    · cases hs
      refine h.of_rx ht ?_ rfl (fun _ => rfl) rfl (by simp)
      exact (h.rx_owned ht).rekey sshIvIncrement_period ht.1 hfresh hne
    · cases hs
  · cases hs

theorem inv_keyed (h : Inv s) (hs : step r s .keyed = some s') :
    Inv s' := by
  simp only [step] at hs
  split at hs
  · rename_i b hpc
    split at hs
    · rename_i hsent
      cases hs
      exact h.quiet rfl rfl rfl (fun _ => rfl) (fun _ => by rw [hpc]; trivial)
        fun _ => sent_iff.1 hsent
    · cases hs
  · cases hs

theorem inv_kexinit (h : Inv s) (hs : step r s .kexinit = some s') :
    Inv s' := by
  simp only [step] at hs
  split at hs
  · split at hs
    · cases hs
      exact h.quiet (by simp) (by simp) (by simp) (killTx_sealed s) False.elim (by simp)
    · cases hs
      exact h.quiet rfl rfl rfl (fun _ => rfl) False.elim (by simp)
  · cases hs

theorem inv_stop (h : Inv s) (hs : step r s .stop = some s') :
    Inv s' := by
  simp only [step] at hs
  split at hs
  · cases hs
    exact h.quiet rfl rfl rfl (fun _ => rfl) False.elim (by simp)
  · cases hs
    exact h.quiet (by simp) (by simp) (by simp) (killTx_sealed s) False.elim (by simp)

theorem inv_inductive (r : Role) : ((sessionLTS r).restrict Disciplined).Inductive Inv where
  init s hs := by
    cases hs
    exact inv_start
  step s l s' h hstep := by
    obtain ⟨hd, hs⟩ := hstep
    replace hs : step r s l = some s' := hs
    cases l with
    | kex => exact inv_kex h hd hs
    | newkeys ks => exact inv_newkeys h hd hs
    | keyed => exact inv_keyed h hs
    | kexinit => exact inv_kexinit h hs
    | stop => exact inv_stop h hs
    | send n =>
      simp only [step] at hs
      split at hs
      · rename_i hpc
        cases hs
        split
        · exact h.rxSeal hd rfl rfl (fun _ => rfl) rfl (by simp [Party.rxSeal, hpc])
        · exact h
      · cases hs
    | rekey =>
      simp only [step] at hs
      split at hs
      · cases hs
        exact h.quiet rfl rfl rfl (fun _ => rfl) False.elim (by simp)
      · cases hs
    | openShell =>
      simp only [step] at hs
      split at hs
      · rename_i hpc
        cases hs
        exact h.quiet rfl rfl rfl (fun _ => rfl) (fun _ => by rw [hpc.1]; trivial)
          fun _ => sent_iff.1 hpc.2
      · cases hs
    | fork ok =>
      simp only [step] at hs
      split at hs
      · rename_i hpc
        cases hs
        exact h.forkTx hpc ok
      · cases hs
    | wait =>
      simp only [step] at hs
      split at hs
      · cases hs
        exact h.quiet rfl rfl rfl (fun _ => rfl) False.elim (by simp)
      · cases hs
    | channelClose =>
      simp only [step] at hs
      split at hs
      · cases hs
        exact h.rxSeal hd (by simp) (by simp [Party.rxSeal]) (killTx_sealed s.rxSeal)
          (by simp [Party.rxSeal]) (by simp)
      · cases hs
    | tx i a =>
      simp only [step] at hs
      split at hs
      · exact inv_tx h hd hs
      · cases hs
    | write i =>
      simp only [step] at hs
      split at hs
      · obtain ⟨net, hw, rfl⟩ := Option.map_eq_some_iff.1 hs
        exact h.write hw
      · cases hs
    | shellExit =>
      simp only [step] at hs
      split at hs
      · cases hs
        exact h.quiet rfl rfl rfl (fun _ => rfl) id h.spawn_sent
      · cases hs

/-- The pairs used in one direction are distinct, and the peer's next open uses
the pair the packet was sealed with. -/
def NonceSafe (s : Party) : Prop :=
  (nonces s.net.log).Nodup ∧ Opens sshIvIncrement none s.net.wire

/-- In every state of every disciplined run of sshd or of the
client, no pair of key and IV was used twice, and what was written opens in
order. -/
theorem nonces_unique (r : Role) (s : Party)
    (h : ((sessionLTS r).restrict Disciplined).Reachable s) : NonceSafe s := by
  have hinv := (inv_inductive r).reachable s h
  exact ⟨hinv.owned.unique, hinv.owned.opens_wire⟩

/-! ## Two runs -/

end AdventOS.Ssh.Session
