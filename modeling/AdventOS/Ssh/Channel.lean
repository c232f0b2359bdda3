import AdventOS.Ssh.Wire

/-!
# sshd service, channel and rekey messages

The other handlers of `user/sshd.c` that take a decrypted payload apart:
`do_service_request`, `do_channel_open`, one turn of `do_channel_requests`, and
the rekey branch of `run_shell` with the part of `do_rekey` that reads what the
client sent.

* `channelOpen_safe_iff`, `channelRequest_safe_iff`, `rekeyPath_safe_iff`: which
  payloads keep every access in bounds.
-/
namespace AdventOS.Ssh

def userauthLit : List UInt8 :=
  ascii ['s', 's', 'h', '-', 'u', 's', 'e', 'r', 'a', 'u', 't', 'h']
def sessionLit : List UInt8 := ascii ['s', 'e', 's', 's', 'i', 'o', 'n']
def ptyReqLit : List UInt8 := ascii ['p', 't', 'y', '-', 'r', 'e', 'q']
def envLit : List UInt8 := ascii ['e', 'n', 'v']
def execLit : List UInt8 := ascii ['e', 'x', 'e', 'c']
def shellLit : List UInt8 := ascii ['s', 'h', 'e', 'l', 'l']
def extInfoLit : List UInt8 := ascii ['e', 'x', 't', '-', 'i', 'n', 'f', 'o', '-', 'c']

/-! ## Service request and channel open -/

/-- sshd.c:819-835, up to the reply. -/
def serviceRequest (b : Buf) : Acc Bool :=
  if b.n < 1 then pure false
  else do
    let m ← b.read 0
    if m ≠ 5 then pure false
    else do
      let r ← getString b 1 b.n
      match r.1 with
      | none => pure false
      | some (svc, len) => if len ≠ 12 then pure false else b.matchBytes svc userauthLit

/-- sshd.c:977-983 -/
structure Channel where
  theirId : Nat
  ourId : Nat
  theirWindow : Nat
  ourWindow : Nat
  maxPacket : Nat

/-- The OPEN_FAILURE reply in `r[64]`. sshd.c:999-1006 -/
def openFailure : Acc (Option Channel) := do
  Acc.span 64 0 48
  pure none

/-- sshd.c:985-1022. The three numbers after the type are read
whether or not the type parsed. -/
def channelOpen (b : Buf) : Acc (Option Channel) :=
  if b.n < 1 then pure none
  else do
    let m ← b.read 0
    if m ≠ 90 then pure none
    else do
      let t ← getString b 1 b.n
      let theirId ← getU32 b t.2
      let theirWindow ← getU32 b theirId.2
      let theirMax ← getU32 b theirWindow.2
      match t.1 with
      | none => openFailure
      | some (ty, tl) =>
        if tl ≠ 7 then openFailure
        else do
          let ok ← b.matchBytes ty sessionLit
          if !ok then openFailure
          else do
            Acc.span 32 0 17
            pure (some ⟨theirId.1, 0, theirWindow.1, 0x100000, min theirMax.1 16384⟩)

theorem channelOpen_safe_iff (b : Buf) :
    (channelOpen b).safe = true ↔
      (1 ≤ b.n → b.mem 0 = 90 → (getString b 1 b.n).val.2 + 12 ≤ b.n) := by
  unfold channelOpen
  split
  · have : ¬ 1 ≤ b.n := by omega
    simp [this]
  rw [Acc.bind_safe, Bool.and_eq_true, Buf.read_safe, Buf.read_val]
  by_cases hm : b.mem 0 = 90
  · have hpos : 0 < b.n := by omega
    rw [if_neg (by simpa using hm)]
    simp only [Acc.bind_safe, Bool.and_eq_true, getString_safe (Nat.le_refl _), getU32_safe,
      getU32_ptr, hm, hpos, true_and, forall_const]
    constructor
    · intro ⟨_, _, h3, _⟩ _
      omega
    · intro h
      have h := h hpos
      refine ⟨by omega, by omega, by omega, ?_⟩
      split
      · decide
      rename_i ty tl ht
      split
      · decide
      have hs : (getString b 1 b.n).val = (some (ty, tl), _) := Prod.ext ht rfl
      obtain ⟨h1, h2, h3, -⟩ := getString_some hs
      have hlit : sessionLit.length = 7 := rfl
      rw [Acc.bind_safe, Bool.and_eq_true]
      refine ⟨b.matchBytes_safe _ _ (by omega), ?_⟩
      split
      · decide
      · rfl
  · rw [if_pos hm]
    have hpos : 0 < b.n := by omega
    simp [hm, hpos]

/-! ## Channel requests -/

/-- How a turn of `do_channel_requests` ends. -/
inductive ReqStep
  | reject
  | windowAdjust (n : Nat)
  | reply (ok : Bool) (wantReply : Bool)
  | exec (cmd : List UInt8) (wantReply : Bool)
  | shell (wantReply : Bool)

/-- `tl == len && t[0] == ... && ...`, where `t` is NULL when the type did not
parse. -/
def typeIs (b : Buf) (t : Option (Nat × Nat)) (tl : Nat) (lit : List UInt8) : Acc Bool :=
  if tl = lit.length then
    match t with
    | some (off, _) => b.matchBytes off lit
    | none => Acc.null false
  else pure false

/-- The five-byte answer in `reply[8]`. -/
def sendReply (wantReply : Bool) (r : ReqStep) : Acc ReqStep := do
  Acc.span 8 0 (if wantReply then 5 else 0)
  pure r

/-- The command is copied to `cmd[1024]`. sshd.c:1068-1077 -/
def execRequest (b : Buf) (p : Nat) (wantReply : Bool) : Acc ReqStep := do
  let cs ← getString b p b.n
  match cs.1 with
  | none => sendReply wantReply (.reply false wantReply)
  | some (c, cl) => do
    let cl := if cl ≥ 1024 then 1023 else cl
    let s ← b.copy c cl
    Acc.span 1024 0 (cl + 1)
    sendReply wantReply (.exec (s.takeWhile (· != 0)) wantReply)

/-- sshd.c:1036-1096: one turn. `tl0` is what the local `tl` holds
when `ssh_get_string` does not set it. -/
def channelRequest (b : Buf) (tl0 : Nat) : Acc ReqStep :=
  if b.n < 1 then pure .reject
  else do
    let m ← b.read 0
    if m = 93 then do
      let _ ← getU32 b 1
      let w ← getU32 b 5
      pure (.windowAdjust w.1)
    else if m ≠ 98 then pure .reject
    else do
      let _ ← getU32 b 1
      let t ← getString b 5 b.n
      let wr ← getU8 b t.2
      let want := wr.1 != 0
      let tl := match t.1 with | some (_, l) => l | none => tl0
      let isPty ← typeIs b t.1 tl ptyReqLit
      if isPty then sendReply want (.reply true want)
      else do
        let isEnv ← typeIs b t.1 tl envLit
        if isEnv then sendReply want (.reply true want)
        else do
          let isExec ← typeIs b t.1 tl execLit
          if isExec then execRequest b wr.2 want
          else do
            let isShell ← typeIs b t.1 tl shellLit
            if isShell then do
              Acc.span 1024 0 1
              sendReply want (.shell want)
            else sendReply want (.reply false want)

theorem sendReply_safe (want : Bool) (r : ReqStep) : (sendReply want r).safe = true := by
  cases want <;> rfl

theorem execRequest_safe (b : Buf) (p : Nat) (want : Bool) :
    (execRequest b p want).safe = true := by
  unfold execRequest
  rw [Acc.bind_safe, Bool.and_eq_true]
  refine ⟨getString_safe (Nat.le_refl _), ?_⟩
  split
  · exact sendReply_safe _ _
  rename_i c cl hc
  have hs : (getString b p b.n).val = (some (c, cl), _) := Prod.ext hc rfl
  obtain ⟨h1, h2, h3, -⟩ := getString_some hs
  have hle : (if cl ≥ 1024 then 1023 else cl) ≤ cl := by split <;> omega
  have hlt : (if cl ≥ 1024 then 1023 else cl) < 1024 := by split <;> omega
  simp only [Acc.bind_safe, Bool.and_eq_true, Buf.copy_safe, Acc.span_safe]
  exact ⟨by omega, by omega, sendReply_safe _ _⟩

variable {b : Buf} {len off : Nat}

theorem typeIs_safe {tl : Nat} (h : off + len ≤ b.n) (htl : tl = len)
    (lit : List UInt8) : (typeIs b (some (off, len)) tl lit).safe = true := by
  unfold typeIs
  split
  · exact b.matchBytes_safe lit off (by omega)
  · rfl

theorem channelRequest_safe_of {tl0 t tl p : Nat} (hn : 5 ≤ b.n) (hm : b.mem 0 = 98)
    (ht : (getString b 5 b.n).val = (some (t, tl), p)) (hp : p < b.n) :
    (channelRequest b tl0).safe = true := by
  obtain ⟨h1, h2, h3, -⟩ := getString_some ht
  have hty : ∀ lit, (typeIs b (some (t, tl)) tl lit).safe = true :=
    fun lit => typeIs_safe (by omega) rfl lit
  unfold channelRequest
  rw [if_neg (by omega), Acc.bind_safe, Bool.and_eq_true, Buf.read_safe, Buf.read_val,
    if_neg (by rw [hm]; decide), if_neg (by simpa using hm)]
  simp only [Acc.bind_safe, Bool.and_eq_true, getU32_safe, getString_safe (Nat.le_refl _), ht,
    getU8_safe, hty, true_and]
  refine ⟨by omega, by omega, hp, Acc.ite_safe.2 ⟨fun _ => sendReply_safe _ _, fun _ => ?_⟩⟩
  rw [Acc.bind_safe, hty, Bool.true_and]
  refine Acc.ite_safe.2 ⟨fun _ => sendReply_safe _ _, fun _ => ?_⟩
  rw [Acc.bind_safe, hty, Bool.true_and]
  refine Acc.ite_safe.2 ⟨fun _ => execRequest_safe _ _ _, fun _ => ?_⟩
  rw [Acc.bind_safe, hty, Bool.true_and]
  exact Acc.ite_safe.2 ⟨fun _ => by rw [Acc.bind_safe, sendReply_safe]; rfl,
    fun _ => sendReply_safe _ _⟩

/-- Which payloads keep a turn in bounds whatever the unset local holds. -/
def RequestBounds (b : Buf) : Prop :=
  1 ≤ b.n →
    (b.mem 0 = 93 → 9 ≤ b.n) ∧
    (b.mem 0 = 98 → 5 ≤ b.n ∧
      ∃ t tl p, (getString b 5 b.n).val = (some (t, tl), p) ∧ p < b.n)

theorem windowAdjust_safe_iff (hn : 1 ≤ b.n) (hm : b.mem 0 = 93) (tl0 : Nat) :
    (channelRequest b tl0).safe = true ↔ 9 ≤ b.n := by
  have hpos : 0 < b.n := by omega
  unfold channelRequest
  rw [if_neg (by omega), Acc.bind_safe, Bool.and_eq_true, Buf.read_safe, Buf.read_val, if_pos hm]
  simp only [Acc.bind_safe, Bool.and_eq_true, getU32_safe, Acc.pure_safe, and_true, hpos, true_and]
  omega

/-- What a request that stays in bounds must look like: with 3 in the unset
local, a type that does not parse is compared with `env` through NULL. -/
theorem channelRequest_safe_imp (hn : 1 ≤ b.n) (hm : b.mem 0 = 98)
    (h : (channelRequest b 3).safe = true) :
    5 ≤ b.n ∧ ∃ t tl p, (getString b 5 b.n).val = (some (t, tl), p) ∧ p < b.n := by
  unfold channelRequest at h
  rw [if_neg (by omega), Acc.bind_safe, Bool.and_eq_true, Buf.read_safe, Buf.read_val,
    if_neg (by rw [hm]; decide), if_neg (by simpa using hm)] at h
  simp only [Acc.bind_safe, Bool.and_eq_true, getU32_safe, getU8_safe] at h
  obtain ⟨-, h5, -, hp, -, hrest⟩ := h
  refine ⟨h5, ?_⟩
  obtain ⟨o, q, hq⟩ : ∃ o q, (getString b 5 b.n).val = (o, q) := ⟨_, _, rfl⟩
  rw [hq] at hp hrest
  cases o with
  | some x => exact ⟨x.1, x.2, q, hq, hp⟩
  | none =>
    have hpty : (typeIs b none 3 ptyReqLit).val = false := rfl
    have henv : (typeIs b none 3 envLit).safe = false := rfl
    simp [hpty, henv] at hrest

theorem channelRequest_safe_iff (b : Buf) :
    (∀ tl0, (channelRequest b tl0).safe = true) ↔ RequestBounds b := by
  constructor
  · intro h hn
    refine ⟨fun hm => (windowAdjust_safe_iff hn hm 3).1 (h 3), fun hm => ?_⟩
    exact channelRequest_safe_imp hn hm (h 3)
  · intro h tl0
    by_cases hn : 1 ≤ b.n
    · obtain ⟨h93, h98⟩ := h hn
      by_cases hm : b.mem 0 = 93
      · exact (windowAdjust_safe_iff hn hm tl0).2 (h93 hm)
      by_cases hm' : b.mem 0 = 98
      · obtain ⟨h5, t, tl, p, ht, hp⟩ := h98 hm'
        exact channelRequest_safe_of h5 hm' ht hp
      · unfold channelRequest
        rw [if_neg (by omega), Acc.bind_safe, Bool.and_eq_true, Buf.read_safe, Buf.read_val,
          if_neg hm, if_pos hm']
        exact ⟨by omega, rfl⟩
    · unfold channelRequest
      rw [if_pos (by omega)]
      rfl

/-! ## Rekey -/

/-- `o + ll <= n` for `o = 21`, `n >= 21` and the `int` that the word `u` is. From
2^31 on `u` is negative and so is the sum or it is below 21; within 21 of 2^31 the
sum wraps to a negative number. -/
def sumFits (n u : Nat) : Bool := 2 ^ 31 ≤ u + 21 || u + 21 ≤ n

/-- The length as the loop of `name_list_contains` sees it: a negative one scans
nothing. -/
def listLen (u : Nat) : Nat := if u < 2 ^ 31 then u else 0

def comma : UInt8 := 44

/-- `i == 0 || list[i - 1] == ','`. -/
def sepBefore (b : Buf) (off i : Nat) : Acc Bool :=
  if i > 0 then do
    let x ← b.read (off + i - 1)
    pure (x == comma)
  else pure true

/-- The scan of `name_list_contains`, from `i` on, over the list of `len` bytes
at `off`. sshd.c:597-606 -/
def nameListLoop (b : Buf) (off len : Nat) (needle : List UInt8) : (fuel i : Nat) → Acc Bool
  | 0, _ => pure false
  | fuel + 1, i =>
    if i + needle.length ≤ len then do
      let sep ← sepBefore b off i
      if !sep then nameListLoop b off len needle fuel (i + 1)
      else do
        let m ← b.matchBytes (off + i) needle
        if !m then nameListLoop b off len needle fuel (i + 1)
        else if i + needle.length = len then pure true
        else do
          let x ← b.read (off + i + needle.length)
          if x = comma then pure true else nameListLoop b off len needle fuel (i + 1)
    else pure false

/-- sshd.c:594-607 -/
def nameListContains (b : Buf) (off len : Nat) (needle : List UInt8) : Acc Bool :=
  nameListLoop b off len needle (len + 1) 0

/-- `c->i_c` after the copy of a payload: its first `min n 4096` bytes, and what
lies behind them. -/
def savedKexinit (b : Buf) (behind : Nat → UInt8) : Buf where
  mem i := if i < min b.n 4096 then b.mem i else behind i
  n := min b.n 4096

/-- The advertisement scan. sshd.c:1335-1343 -/
def scanExtInfo (n : Nat) (ic : Buf) : Acc Bool :=
  if n ≥ 21 then do
    let r ← getU32 ic 17
    if sumFits n r.1 then nameListContains ic 21 (listLen r.1) extInfoLit else pure false
  else pure false

/-- What `do_kex_ecdh` reads: the client's ECDH_INIT in `buf[256]`, and the saved
KEXINIT at its recorded length. sshd.c:654-662, 688-692 -/
def kexEcdh (e : Buf) (n : Nat) (ic : Buf) : Acc Bool :=
  if e.n < 1 then pure false
  else do
    let m ← e.read 0
    if m ≠ 30 then pure false
    else do
      let q ← getString e 1 e.n
      match q.1 with
      | none => pure false
      | some (qp, ql) =>
        if ql ≠ 32 then pure false
        else do
          let _ ← e.copy qp 32
          Acc.span 32 0 32
          let _ ← ic.copy 0 n
          pure true

/-- The rekey branch of `run_shell`: the KEXINIT payload `b`, then the next
packet. sshd.c:1300-1346 -/
def rekeyPath (b : Buf) (behind : Nat → UInt8) (next : Option Buf) : Acc Bool :=
  if b.n < 1 then pure false
  else do
    let m ← b.read 0
    if m ≠ 20 then pure false
    else do
      let _ ← b.copy 0 (min b.n 4096)
      Acc.span 4096 0 (min b.n 4096)
      let ic := savedKexinit b behind
      let _ ← scanExtInfo b.n ic
      match next with
      | none => pure false
      | some e => kexEcdh e b.n ic

/-- The token, as an element of the list that is not its last. -/
def TokenAt (b : Buf) (off : Nat) (needle : List UInt8) (j : Nat) : Prop :=
  (j = 0 ∨ b.mem (off + j - 1) = comma) ∧ b.bytes (off + j) needle.length = needle ∧
    b.mem (off + j + needle.length) = comma

theorem sepBefore_val (b : Buf) (off i : Nat) :
    (sepBefore b off i).val = true ↔ i = 0 ∨ b.mem (off + i - 1) = comma := by
  unfold sepBefore
  by_cases hi : i > 0
  · have : i ≠ 0 := by omega
    simp [hi, this]
  · have : i = 0 := by omega
    simp [this]

theorem sepBefore_safe (b : Buf) (off i : Nat) :
    (sepBefore b off i).safe = true ↔ i = 0 ∨ off + i - 1 < b.n := by
  unfold sepBefore
  by_cases hi : i > 0
  · have : i ≠ 0 := by omega
    simp [hi, this]
  · have : i = 0 := by omega
    simp [this]

theorem nameListLoop_safe {needle : List UInt8}
    (hnl : 0 < needle.length) (h : off + len ≤ b.n) :
    ∀ fuel i, (nameListLoop b off len needle fuel i).safe = true := by
  intro fuel
  induction fuel with
  | zero => intro i; rfl
  | succ fuel ih =>
    intro i
    unfold nameListLoop
    split
    · rw [Acc.bind_safe, Bool.and_eq_true, sepBefore_safe]
      refine ⟨by omega, Acc.ite_safe.2 ⟨fun _ => ih _, fun _ => ?_⟩⟩
      rw [Acc.bind_safe, Bool.and_eq_true]
      refine ⟨b.matchBytes_safe _ _ (by omega), Acc.ite_safe.2 ⟨fun _ => ih _, fun _ => ?_⟩⟩
      refine Acc.ite_safe.2 ⟨fun _ => rfl, fun hne => ?_⟩
      rw [Acc.bind_safe, Bool.and_eq_true, Buf.read_safe]
      exact ⟨by omega, Acc.ite_safe.2 ⟨fun _ => rfl, fun _ => ih _⟩⟩
    · rfl

/-- A list that claims to go on far past the buffer is scanned in bounds exactly
if the token is found before the end. The induction is on what is left to scan:
past the end the next separator test reads outside. -/
theorem nameListLoop_safe_iff {needle : List UInt8}
    (hlen : b.n + needle.length + 2 ≤ len) :
    ∀ fuel i, i ≤ b.n + 1 → b.n + 2 ≤ fuel + i →
      ((nameListLoop b off len needle fuel i).safe = true ↔
        ∃ j, i ≤ j ∧ off + j + needle.length < b.n ∧ TokenAt b off needle j) := by
  intro fuel
  induction fuel with
  | zero => intro i h1 h2; omega
  | succ fuel ih =>
    intro i h1 h2
    -- skipping position `i`, which holds no token
    have hskip : i ≤ b.n → ¬ TokenAt b off needle i →
        ((nameListLoop b off len needle fuel (i + 1)).safe = true ↔
          ∃ j, i ≤ j ∧ off + j + needle.length < b.n ∧ TokenAt b off needle j) := by
      intro hi hno
      rw [ih (i + 1) (by omega) (by omega)]
      constructor
      · intro ⟨j, hj, hjn, ht⟩
        exact ⟨j, by omega, hjn, ht⟩
      · intro ⟨j, hj, hjn, ht⟩
        have hne : j ≠ i := by
          intro he; subst he; exact hno ht
        exact ⟨j, by omega, hjn, ht⟩
    -- no token fits at or after a position that is too close to the end
    have hnone : b.n ≤ off + i + needle.length →
        ¬ ∃ j, i ≤ j ∧ off + j + needle.length < b.n ∧ TokenAt b off needle j := by
      intro hk ⟨j, hj, hjn, _⟩
      omega
    unfold nameListLoop
    rw [if_pos (by omega), Acc.bind_safe, Bool.and_eq_true, sepBefore_safe]
    by_cases hin : i = 0 ∨ off + i - 1 < b.n
    · have hle : i ≤ b.n := by omega
      simp only [hin, true_and]
      cases hsep : (sepBefore b off i).val with
      | false =>
        have hno : ¬ TokenAt b off needle i := by
          intro ht
          rw [(sepBefore_val b off i).2 ht.1] at hsep
          cases hsep
        simpa using hskip hle hno
      | true =>
        simp only [Bool.not_true, Bool.false_eq_true, if_false, Acc.bind_safe, Bool.and_eq_true]
        cases hm : (b.matchBytes (off + i) needle).val with
        | false =>
          have hno : ¬ TokenAt b off needle i := by
            intro ht
            rw [(b.matchBytes_val needle (off + i)).2 ht.2.1] at hm
            cases hm
          simp only [Bool.not_false, if_true, hskip hle hno]
          constructor
          · exact And.right
          · intro hj
            refine ⟨b.matchBytes_safe _ _ ?_, hj⟩
            by_contra hfit
            exact hnone (by omega) hj
        | true =>
          have hbytes := (b.matchBytes_val needle (off + i)).1 hm
          have hne : i + needle.length ≠ len := by omega
          simp only [Bool.not_true, Bool.false_eq_true, if_false, hne, Acc.bind_safe,
            Bool.and_eq_true, Buf.read_safe, Buf.read_val]
          by_cases hlt : off + i + needle.length < b.n
          · have hms := b.matchBytes_safe needle (off + i) (by omega)
            by_cases hc : b.mem (off + i + needle.length) = comma
            · have htok : TokenAt b off needle i := ⟨(sepBefore_val b off i).1 hsep, hbytes, hc⟩
              simp only [hms, hlt, hc, if_true, Acc.pure_safe, true_and, true_iff]
              exact ⟨i, Nat.le_refl i, hlt, htok⟩
            · simp only [hms, hlt, hc, if_false, true_and]
              exact hskip hle fun ht => hc ht.2.2
          · simp only [hlt, false_and, and_false, false_iff]
            exact hnone (by omega)
    · simp only [hin, false_and, false_iff]
      exact hnone (by omega)

/-- Which KEXINIT payloads keep the rekey path in bounds, whatever lies behind
`i_c` and whatever the client sends next: the payload fits `i_c`, and if adding
21 to the declared length of its first name-list overflows an `int`, the scan
finds `ext-info-c` before the end. -/
def RekeyBounds (b : Buf) : Prop :=
  1 ≤ b.n → b.mem 0 = 20 →
    b.n ≤ 4096 ∧
      (21 ≤ b.n → 2 ^ 31 - 21 ≤ lenAt b 17 → lenAt b 17 < 2 ^ 31 →
        ∃ j, 21 + j + extInfoLit.length < b.n ∧ TokenAt b 21 extInfoLit j)

section Saved

variable {b : Buf} {behind : Nat → UInt8} (hfit : b.n ≤ 4096)
include hfit

theorem savedKexinit_n : (savedKexinit b behind).n = b.n := by
  simp [savedKexinit, hfit]

theorem savedKexinit_mem {i : Nat} (h : i < b.n) : (savedKexinit b behind).mem i = b.mem i := by
  have hi : i < min b.n 4096 := by omega
  exact if_pos hi

theorem savedKexinit_lenAt (h : 21 ≤ b.n) : lenAt (savedKexinit b behind) 17 = lenAt b 17 := by
  unfold lenAt
  rw [getU32_val, getU32_val]
  simp only [savedKexinit_mem hfit (show 17 < b.n by omega),
    savedKexinit_mem hfit (show 17 + 1 < b.n by omega),
    savedKexinit_mem hfit (show 17 + 2 < b.n by omega),
    savedKexinit_mem hfit (show 17 + 3 < b.n by omega)]

theorem savedKexinit_token {j : Nat} (h : 21 + j + extInfoLit.length < b.n) :
    TokenAt (savedKexinit b behind) 21 extInfoLit j ↔ TokenAt b 21 extInfoLit j := by
  have hlit : extInfoLit.length = 10 := rfl
  have hbytes : (savedKexinit b behind).bytes (21 + j) extInfoLit.length =
      b.bytes (21 + j) extInfoLit.length := by
    apply List.map_congr_left
    intro i hi
    rw [List.mem_range] at hi
    exact savedKexinit_mem hfit (by omega)
  unfold TokenAt
  rw [hbytes, savedKexinit_mem hfit (show 21 + j - 1 < b.n by omega), savedKexinit_mem hfit h]

/-- The scan as the declared length decides it: a negative one scans nothing, one
whose sum with 21 wraps passes the test and is no bound, and any other is checked
against the payload. -/
theorem nameListContains_safe_iff {u : Nat} (hsum : sumFits b.n u = true) :
    (nameListContains (savedKexinit b behind) 21 (listLen u) extInfoLit).safe = true ↔
      (2 ^ 31 - 21 ≤ u → u < 2 ^ 31 →
        ∃ j, 21 + j + extInfoLit.length < b.n ∧ TokenAt b 21 extInfoLit j) := by
  have hlit : extInfoLit.length = 10 := rfl
  have hn : (savedKexinit b behind).n = b.n := savedKexinit_n hfit
  simp only [sumFits, Bool.or_eq_true, decide_eq_true_eq] at hsum
  unfold nameListContains listLen
  by_cases hneg : u < 2 ^ 31
  · rw [if_pos hneg]
    by_cases hwrap : 2 ^ 31 - 21 ≤ u
    · rw [nameListLoop_safe_iff (by rw [hn]; omega) _ _ (by omega) (by rw [hn]; omega), hn]
      constructor
      · intro ⟨j, _, hj, ht⟩ _ _
        exact ⟨j, hj, (savedKexinit_token hfit hj).1 ht⟩
      · intro h
        obtain ⟨j, hj, ht⟩ := h hwrap hneg
        exact ⟨j, Nat.zero_le j, hj, (savedKexinit_token hfit hj).2 ht⟩
    · refine iff_of_true ?_ fun h => absurd h hwrap
      exact nameListLoop_safe (by decide) (by rw [hn]; omega) _ _
  · rw [if_neg hneg]
    exact iff_of_true rfl fun _ h => absurd h hneg

theorem scanExtInfo_safe_iff :
    (scanExtInfo b.n (savedKexinit b behind)).safe = true ↔
      (21 ≤ b.n → 2 ^ 31 - 21 ≤ lenAt b 17 → lenAt b 17 < 2 ^ 31 →
        ∃ j, 21 + j + extInfoLit.length < b.n ∧ TokenAt b 21 extInfoLit j) := by
  unfold scanExtInfo
  by_cases h21 : 21 ≤ b.n
  · have hval : (getU32 (savedKexinit b behind) 17).val.1 = lenAt b 17 := savedKexinit_lenAt hfit h21
    rw [if_pos h21, Acc.bind_safe, Bool.and_eq_true, getU32_safe, savedKexinit_n hfit, hval,
      Acc.ite_safe]
    constructor
    · intro ⟨_, hscan, _⟩ _ hwrap
      have hsum : sumFits b.n (lenAt b 17) = true := by simp [sumFits]; omega
      exact (nameListContains_safe_iff hfit hsum).1 (hscan hsum) hwrap
    · intro h
      exact ⟨by omega, fun hsum => (nameListContains_safe_iff hfit hsum).2 (h h21), fun _ => rfl⟩
  · rw [if_neg h21]
    exact iff_of_true rfl fun h => absurd h h21

theorem kexEcdh_safe (e : Buf) : (kexEcdh e b.n (savedKexinit b behind)).safe = true := by
  unfold kexEcdh
  split
  · rfl
  rw [Acc.bind_safe, Bool.and_eq_true, Buf.read_safe, Buf.read_val]
  refine ⟨by omega, Acc.ite_safe.2 ⟨fun _ => rfl, fun _ => ?_⟩⟩
  rw [Acc.bind_safe, Bool.and_eq_true]
  refine ⟨getString_safe (Nat.le_refl _), ?_⟩
  split
  · rfl
  rename_i qp ql hq
  refine Acc.ite_safe.2 ⟨fun _ => rfl, fun hql => ?_⟩
  have hs : (getString e 1 e.n).val = (some (qp, ql), _) := Prod.ext hq rfl
  obtain ⟨h1, h2, h3, -⟩ := getString_some hs
  simp only [Acc.bind_safe, Bool.and_eq_true, Buf.copy_safe, Acc.span_safe, Acc.pure_safe,
    and_true, savedKexinit_n hfit]
  omega

end Saved

/-- An ECDH_INIT with a 32-byte point. -/
def demoEcdh : Buf where
  mem i := if i = 0 then 30 else if i = 4 then 32 else 0
  n := 37

theorem kexEcdh_not_safe {behind : Nat → UInt8} (h : 4096 < b.n) :
    (kexEcdh demoEcdh b.n (savedKexinit b behind)).safe = false := by
  have hcopy : ((savedKexinit b behind).copy 0 b.n).safe = false := by
    have hn : (savedKexinit b behind).n = 4096 := by simp [savedKexinit]; omega
    rw [← Bool.not_eq_true, Buf.copy_safe, hn]
    omega
  have hq : (getString demoEcdh 1 demoEcdh.n).val = (some (5, 32), 37) := by decide
  unfold kexEcdh
  rw [if_neg (by decide), Acc.bind_safe, Buf.read_val, if_neg (by decide), Acc.bind_safe, hq]
  simp [hcopy]

theorem rekeyPath_safe_iff (b : Buf) :
    (∀ behind next, (rekeyPath b behind next).safe = true) ↔ RekeyBounds b := by
  unfold rekeyPath RekeyBounds
  by_cases hn : b.n < 1
  · have : ¬ 1 ≤ b.n := by omega
    simp [hn, this]
  have hpos : 0 < b.n := by omega
  have h1 : 1 ≤ b.n := hpos
  by_cases hm : b.mem 0 = 20
  · have hcopy : (b.copy 0 (min b.n 4096)).safe = true := by
      rw [Buf.copy_safe]
      omega
    have hspan : (Acc.span 4096 0 (min b.n 4096)).safe = true := by
      rw [Acc.span_safe]
      omega
    simp only [hn, if_false, Acc.bind_safe, Buf.read_val, hm, ne_eq, not_true_eq_false,
      Bool.and_eq_true, Buf.read_safe, hpos, hcopy, hspan, true_and, h1, forall_const]
    constructor
    · intro h
      have hfit : b.n ≤ 4096 := by
        by_contra hlong
        have := (h (fun _ => 0) (some demoEcdh)).2
        simp [kexEcdh_not_safe (show 4096 < b.n by omega)] at this
      exact ⟨hfit, (scanExtInfo_safe_iff hfit).1 (h (fun _ => 0) none).1⟩
    · rintro ⟨hfit, hscan⟩ behind next
      refine ⟨(scanExtInfo_safe_iff hfit).2 hscan, ?_⟩
      cases next with
      | none => rfl
      | some e => exact kexEcdh_safe hfit e
  · simp [hn, hm, hpos]

end AdventOS.Ssh
