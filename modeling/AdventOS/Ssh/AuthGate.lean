import AdventOS.Ssh.Bounds
import AdventOS.Core.LTS

/-!
# The authentication gate of sshd

`serve_one` (`user/sshd.c:1365-1397`) after the key exchange: service request, at
most four authentication requests, the change of uid, channel open, channel
requests, and then `run_exec` or `run_shell`. A step is one packet of the client
(or a failed receive) together with the outcome of the reply.

`Genuine` is what a request has to say to be an authentication for an account. It
speaks about the bytes of the request in the encoding of the protocol, with every
string at its declared length.

The server compares C strings: it cuts the user name and the password at 63 bytes
and at the first NUL, and it writes `ssh-connection` into the signed blob whatever
service the request names. `ambiguous` is the requests for which that makes a
difference.

* `accept_genuine`: an accepted request that is not ambiguous is genuine;
* `session_authenticated`;
* `nul_in_user_name`: the same fails when requests may be ambiguous.
-/
namespace AdventOS.Ssh
open List

/-! ## What a request must say -/

/-- A key or a signature in the encoding of RFC 4253: `ssh-ed25519`, then the raw
bytes. Bytes behind them are ignored. -/
def edEncoded (blob raw : List UInt8) : Prop :=
  ∃ more, blob = sshString ed25519Lit ++ sshString raw ++ more

/-- The start of every USERAUTH_REQUEST. -/
def requestHead (name service method : List UInt8) : List UInt8 :=
  [50] ++ sshString name ++ sshString service ++ sshString method

/-- The request carries a password that hashes to the one stored for `u`. -/
def GenuinePassword (cfg : Config) (input : List UInt8) (u : UserEntry) : Prop :=
  ∃ service flag password rest,
    input = requestHead u.name service passwordLit ++ (flag :: sshString password) ++ rest ∧
    hexLower (cfg.crypto.sha256 (u.salt ++ password)) = u.hash

/-- The request carries a signature of the blob of RFC 4252 section 7 that
verifies under a key authorized for `u`. -/
def GenuineSignature (cfg : Config) (input : List UInt8) (u : UserEntry) : Prop :=
  ∃ service flag key pk sigBlob sig rest, input = requestHead u.name service publickeyLit ++
      (flag :: sshString ed25519Lit ++ sshString key ++ sshString sigBlob) ++ rest ∧
    flag ≠ 0 ∧ edEncoded key pk ∧ edEncoded sigBlob sig ∧ ⟨u.name, pk⟩ ∈ cfg.authKeys ∧
    cfg.crypto.ed25519Verify sig (signedBlob cfg.sessionId u.name service ed25519Lit key) pk = true

/-- The request authenticates as the configured account `u`. -/
def Genuine (cfg : Config) (input : List UInt8) (u : UserEntry) : Prop :=
  u ∈ cfg.users ∧ (GenuinePassword cfg input u ∨ GenuineSignature cfg input u)

/-! ## Requests that the C strings change -/

/-- The password is not the C string it is copied to, and that one is right. -/
def cutPassword (cfg : Config) (b : Buf) (h : AuthHeader) (u : UserEntry) : Bool :=
  match (getString b (h.p + 1) b.n).val.1 with
  | none => false
  | some (ps, pl) =>
    (copyCString b ps pl).val != b.bytes ps pl && verifyPassword cfg u (copyCString b ps pl).val

/-- The request is for another service, and carries a signature of an authorized key. -/
def otherService (cfg : Config) (b : Buf) (h : AuthHeader) (username : List UInt8) : Bool :=
  b.bytes h.ss h.sl != connectionLit && match (parsePubkey cfg b h username).val with
    | .ok r => r.hasSig
    | _ => false

/-- The request names an account only after the cut, or its password is right only
after the cut, or its signature is checked for a service it does not name. -/
def ambiguous (cfg : Config) (b : Buf) : Bool :=
  match (authHeader b).val with
  | none => false
  | some h =>
    let username := (copyCString b h.us h.ul).val
    match findUser cfg username with
    | none => false
    | some u =>
      username != b.bytes h.us h.ul ||
      (b.bytes h.ms h.ml == passwordLit && cutPassword cfg b h u) ||
      (b.bytes h.ms h.ml == publickeyLit && otherService cfg b h username)

/-! ## Accepted requests are genuine -/

variable {cfg : Config} {u : UserEntry} {b : Buf} {h : AuthHeader} {p1 p2 : Nat} {s : Gate}

theorem findUser_some {name : List UInt8}
    (h : findUser cfg name = some u) : u ∈ cfg.users ∧ u.name = name := by
  exact ⟨mem_of_find?_eq_some h, by simpa using find?_some h⟩

theorem pubkeyAuthorized_mem {user pk : List UInt8}
    (h : pubkeyAuthorized cfg user pk = true) : ⟨user, pk⟩ ∈ cfg.authKeys := by
  obtain ⟨k, hk, he⟩ := any_eq_true.1 h
  simp only [Bool.and_eq_true, beq_iff_eq] at he
  obtain ⟨rfl, rfl⟩ := he
  exact hk

theorem AuthHeader.At.input (hat : h.At b p1 p2) :
    b.input = requestHead (b.bytes h.us h.ul) (b.bytes h.ss h.sl) (b.bytes h.ms h.ml) ++
      b.bytes h.p (b.n - h.p) := by
  obtain ⟨-, -, -, -, -, -, hp⟩ := hat.bounds
  obtain ⟨h1, h2, h3, -⟩ := getString_some hat.user
  have hfirst : b.bytes 0 b.n = [50] ++ b.bytes 1 (b.n - 1) := by
    have hs := b.bytes_split (show 0 ≤ 1 by omega) (show 1 ≤ b.n by omega)
    rw [Nat.sub_zero, Nat.sub_zero, b.bytes_succ 0 0, hat.msg, Buf.bytes_zero] at hs
    exact hs
  unfold Buf.input requestHead
  rw [hfirst, getString_split hat.user, getString_split hat.service, getString_split hat.method]
  simp

theorem edBlob_encoded {off len want raw : Nat} (h : (edBlob b off len want).val = some raw) :
    edEncoded (b.bytes off len) (b.bytes raw want) := by
  obtain ⟨t, rl, h1, hlit, h2, rfl, -, -, -⟩ := edBlob_some h
  refine ⟨b.bytes t (off + len - t), ?_⟩
  have hs1 := getString_split h1
  have hs2 := getString_split h2
  rw [show off + len - off = len by omega, hlit, hs2] at hs1
  rw [hs1, append_assoc]

theorem flag_string {q d len p : Nat} (h : (getString b (q + 1) b.n).val = (some (d, len), p)) :
    b.bytes q (b.n - q) = (b.mem q :: sshString (b.bytes d len)) ++ b.bytes p (b.n - p) := by
  obtain ⟨h1, h2, h3, -⟩ := getString_some h
  rw [show b.n - q = (b.n - (q + 1)) + 1 by omega, Buf.bytes_succ, getString_split h, cons_append]

theorem password_genuine (hat : h.At b p1 p2) (hname : b.bytes h.us h.ul = u.name)
    (hmethod : b.bytes h.ms h.ml = passwordLit) (hcut : cutPassword cfg b h u = false)
    (hacc : PasswordAccepted cfg b h u.name u) : GenuinePassword cfg b.input u := by
  obtain ⟨ps, pl, p, hps, -, hver⟩ := hacc
  have hfull : (copyCString b ps pl).val = b.bytes ps pl := by
    unfold cutPassword at hcut
    rw [hps] at hcut
    simpa [hver] using hcut
  refine ⟨b.bytes h.ss h.sl, b.mem h.p, b.bytes ps pl, b.bytes p (b.n - p), ?_, ?_⟩
  · rw [hat.input, hname, hmethod, flag_string hps, append_assoc]
  · rw [hfull] at hver
    simpa [verifyPassword] using hver

theorem signature_genuine (hat : h.At b p1 p2) (hname : b.bytes h.us h.ul = u.name)
    (hmethod : b.bytes h.ms h.ml = publickeyLit) (hservice : b.bytes h.ss h.sl = connectionLit)
    (hacc : SignatureAccepted cfg b h u.name u) : GenuineSignature cfg b.input u := by
  obtain ⟨r, sb, sbLen, p, sigRaw, hok, -, hsig, hsb, hraw, hver⟩ := hacc
  obtain ⟨q, hr⟩ := parsePubkey_ok hok
  refine ⟨connectionLit, b.mem h.p, b.bytes r.blob r.blobLen, b.bytes r.pkRaw 32, b.bytes sb sbLen,
    b.bytes sigRaw 64, b.bytes p (b.n - p), ?_, ?_, edBlob_encoded hr.pk, edBlob_encoded hraw,
    pubkeyAuthorized_mem hr.authorized, ?_⟩
  · rw [hat.input, hname, hservice, hmethod, flag_string hr.algo, hr.isEd, getString_split hr.blob,
      getString_split hsb]
    simp
  · have := hr.sig
    rw [hsig] at this
    simpa using this.symm
  · rw [hr.isEd] at hver
    exact hver

theorem service_of_accepted {username : List UInt8} (hacc : SignatureAccepted cfg b h username u)
    (hother : otherService cfg b h username = false) : b.bytes h.ss h.sl = connectionLit := by
  obtain ⟨r, -, -, -, -, hok, -, hsig, -⟩ := hacc
  unfold otherService at hother
  rw [hok] at hother
  simpa [hsig] using hother

theorem account_of_accepted {username : List UInt8}
    (hacc : PasswordAccepted cfg b h username u ∨ SignatureAccepted cfg b h username u) :
    findUser cfg username = some u := by
  rcases hacc with ⟨_, _, _, _, hu, _⟩ | ⟨r, _, _, _, _, hok, rfl, _⟩
  · exact hu
  · obtain ⟨q, hr⟩ := parsePubkey_ok hok
    exact hr.user

theorem accept_genuine (hacc : (authBody cfg b).val = .accept u) (hamb : ambiguous cfg b = false) :
    Genuine cfg b.input u := by
  obtain ⟨h, hhead, hcase⟩ := authBody_accept hacc
  obtain ⟨p1, p2, hat⟩ := authHeader_some hhead
  have hfind : findUser cfg (copyCString b h.us h.ul).val = some u := by
    refine account_of_accepted (b := b) (h := h) ?_
    rcases hcase with hp | hs
    · exact .inl hp.2
    · exact .inr hs.2
  obtain ⟨hmem, hname⟩ := findUser_some hfind
  unfold ambiguous at hamb
  rw [hhead] at hamb
  simp only [hfind, Bool.or_eq_false_iff, bne_eq_false_iff_eq] at hamb
  obtain ⟨⟨hfull, hpw⟩, hpk⟩ := hamb
  rw [← hname] at hcase hfull hpk
  refine ⟨hmem, ?_⟩
  rcases hcase with ⟨hmethod, hp⟩ | ⟨hmethod, hs⟩
  · left
    have hcut : cutPassword cfg b h u = false := by simpa [hmethod] using hpw
    exact password_genuine hat hfull.symm hmethod hcut hp
  · right
    have hother : otherService cfg b h u.name = false := by simpa [hmethod] using hpk
    exact signature_genuine hat hfull.symm hmethod (service_of_accepted hs hother) hs

/-! ## The gate -/

/-- Where `serve_one` is. `auth k` waits for authentication request number `k`. -/
inductive Phase
  | service
  | auth (attempt : Nat)
  | channelOpen
  | requests
  | exec (cmd : List UInt8)
  | shell
  | bye
  deriving DecidableEq

/-- A connection after the key exchange: the uid of the process, and the request
that USERAUTH_SUCCESS answered, with the account it was for. -/
structure Gate where
  phase : Phase
  uid : Nat
  accepted : Option (Buf × UserEntry)

/-- A packet of the client, with the outcome of the reply to it and what an unset
local of `do_channel_requests` holds, or a receive that fails. -/
inductive Event
  | recv (b : Buf) (sent : Bool) (tl0 : Nat)
  | recvFail

/-- The size of the buffer each phase receives into; a longer payload fails. -/
def Phase.cap : Phase → Nat
  | .service => 256
  | .auth _ => 1024
  | .channelOpen => 256
  | .requests => 4096
  | _ => 0

/-- syscall.c:1505-1520, on the argument as the kernel sees it. -/
def sysSetuid (cur : Nat) (target : Int) : Option Nat :=
  if target < 0 ∨ 0xFFFF < target then none
  else if cur = 0 then some target.toNat
  else if target.toNat = cur then some cur
  else none

/-- sshd.c:841 and 959-972: the next turn, if there is one. -/
def nextAttempt (k : Nat) (sent : Bool) : Phase := if sent ∧ k + 1 < 4 then .auth (k + 1) else .bye

/-- sshd.c:873-876, 952-955 and 1383-1385 -/
def logIn (s : Gate) (b : Buf) (u : UserEntry) (sent : Bool) : Gate :=
  if sent then
    match sysSetuid s.uid u.uid with
    | some uid => { phase := .channelOpen, uid, accepted := some (b, u) }
    | none => { s with phase := .bye, accepted := some (b, u) }
  else { s with phase := .bye }

/-- sshd.c:1086-1095 and 1391-1393 -/
def afterRequest (sent : Bool) : ReqStep → Phase
  | .reject => .bye
  | .windowAdjust _ => .requests
  | .reply _ want => if want ∧ ¬ sent then .bye else .requests
  | .exec cmd want => if want ∧ ¬ sent then .bye else .exec cmd
  | .shell want => if want ∧ ¬ sent then .bye else .shell

/-- The phase's handler on a payload that is neither IGNORE nor DEBUG. -/
def Gate.handle (cfg : Config) (s : Gate) (b : Buf) (sent : Bool) (tl0 : Nat) : Gate :=
  match s.phase with
  | .service =>
    { s with phase := if (serviceRequest b).val ∧ sent then .auth 0 else .bye }
  | .auth k =>
    match (authBody cfg b).val with
    | .reject => { s with phase := .bye }
    | .failure => { s with phase := nextAttempt k sent }
    | .probeOk => { s with phase := nextAttempt k sent }
    | .accept u => logIn s b u sent
  | .channelOpen =>
    { s with phase := if (channelOpen b).val.isSome ∧ sent then .requests else .bye }
  | .requests => { s with phase := afterRequest sent (channelRequest b tl0).val }
  | _ => s

/-- sshd.c:515-523: IGNORE and DEBUG are skipped. -/
def skipped (b : Buf) : Bool := decide (1 ≤ b.n) && (b.mem 0 == 2 || b.mem 0 == 4)

/-- The phases that wait for a packet. -/
def Phase.waiting : Phase → Bool
  | .service | .auth _ | .channelOpen | .requests => true
  | _ => false

/-- sshd.c:1379-1393 -/
def Gate.step (cfg : Config) (s : Gate) (e : Event) : Option Gate :=
  if s.phase.waiting then
    match e with
    | .recvFail => some { s with phase := .bye }
    | .recv b sent tl0 =>
      if s.phase.cap < b.n then some { s with phase := .bye }
      else if skipped b then some s
      else some (s.handle cfg b sent tl0)
  else none

def gate (cfg : Config) : LTS Gate Event :=
  LTS.ofFn (fun s => s.phase = .service ∧ s.accepted = none) (Gate.step cfg)

/-- Authentication requests are not ambiguous. -/
def plainRequest (cfg : Config) (s : Gate) (e : Event) : Bool :=
  match s.phase, e with
  | .auth _, .recv b _ _ => !ambiguous cfg b
  | _, _ => true

/-! ## Every session is authenticated -/

/-- A genuine request was accepted, and the process has the account's uid. -/
def Authenticated (cfg : Config) (s : Gate) : Prop :=
  ∃ b u, s.accepted = some (b, u) ∧ (authBody cfg b).val = .accept u ∧
    Genuine cfg b.input u ∧ (s.uid : Int) = u.uid

def Phase.loggedIn : Phase → Bool
  | .channelOpen | .requests | .exec _ | .shell => true
  | _ => false

/-- The phases in which `run_exec` or `run_shell` has been called. -/
def Phase.session : Phase → Bool
  | .exec _ | .shell => true
  | _ => false

def GateInv (cfg : Config) (s : Gate) : Prop := s.phase.loggedIn = true → Authenticated cfg s

theorem sysSetuid_some {cur : Nat} {target : Int} {uid : Nat}
    (h : sysSetuid cur target = some uid) : (uid : Int) = target := by
  unfold sysSetuid at h
  split at h
  · cases h
  split at h
  · cases h
    omega
  split at h
  · cases h
    omega
  · cases h

theorem nextAttempt_loggedIn (k : Nat) (sent : Bool) : (nextAttempt k sent).loggedIn = false := by
  unfold nextAttempt
  split <;> rfl

theorem Authenticated.of_eq {s' : Gate} (h : Authenticated cfg s)
    (ha : s'.accepted = s.accepted) (hu : s'.uid = s.uid) : Authenticated cfg s' := by
  unfold Authenticated at h ⊢
  rw [ha, hu]
  exact h

theorem GateInv.logIn {sent : Bool}
    (hacc : (authBody cfg b).val = .accept u) (hg : Genuine cfg b.input u) :
    GateInv cfg (logIn s b u sent) := by
  unfold Ssh.logIn
  split
  · split
    · rename_i uid hset
      intro _
      exact ⟨b, u, rfl, hacc, hg, sysSetuid_some hset⟩
    · intro h
      cases h
  · intro h
    cases h

theorem GateInv.handle (hi : GateInv cfg s) {sent : Bool}
    {tl0 : Nat} (hplain : plainRequest cfg s (.recv b sent tl0) = true) :
    GateInv cfg (s.handle cfg b sent tl0) := by
  unfold Gate.handle
  cases hph : s.phase with
  | service =>
    intro h
    dsimp only at h
    split at h
    · cases h
    · cases h
  | auth k =>
    have hamb : ambiguous cfg b = false := by
      unfold plainRequest at hplain
      rw [hph] at hplain
      simpa using hplain
    dsimp only
    split
    · intro h
      cases h
    · intro h
      rw [nextAttempt_loggedIn] at h
      cases h
    · intro h
      rw [nextAttempt_loggedIn] at h
      cases h
    · rename_i u hacc
      exact GateInv.logIn hacc (accept_genuine hacc hamb)
  | channelOpen =>
    intro _
    exact (hi (by rw [hph]; rfl)).of_eq rfl rfl
  | requests =>
    intro _
    exact (hi (by rw [hph]; rfl)).of_eq rfl rfl
  | exec cmd => exact hi
  | shell => exact hi
  | bye => exact hi

theorem GateInv.step {s' : Gate} {e : Event} (hi : GateInv cfg s)
    (hplain : plainRequest cfg s e = true) (hs : s.step cfg e = some s') : GateInv cfg s' := by
  unfold Gate.step at hs
  split at hs
  · split at hs
    · cases hs
      intro h
      cases h
    · split at hs
      · cases hs
        intro h
        cases h
      split at hs
      · cases hs
        exact hi
      · cases hs
        exact hi.handle hplain
  · cases hs

theorem gateInv_inductive (cfg : Config) :
    ((gate cfg).restrict fun s e => plainRequest cfg s e = true).Inductive (GateInv cfg) where
  init s h := by
    intro hl
    rw [h.1] at hl
    cases hl
  step s e s' hi hs := hi.step hs.1 hs.2

/-- In every run whose authentication requests are not ambiguous,
`run_exec` and `run_shell` are reached only after a genuine request, and the
session has the uid of the account it authenticated. -/
theorem session_authenticated (cfg : Config) (s : Gate)
    (h : ((gate cfg).restrict fun s e => plainRequest cfg s e = true).Reachable s)
    (hs : s.phase.session = true) : Authenticated cfg s := by
  refine (gateInv_inductive cfg).reachable s h ?_
  cases hph : s.phase with
  | exec cmd => rfl
  | shell => rfl
  | service => rw [hph] at hs; cases hs
  | auth k => rw [hph] at hs; cases hs
  | channelOpen => rw [hph] at hs; cases hs
  | requests => rw [hph] at hs; cases hs
  | bye => rw [hph] at hs; cases hs

/-! ## Two sessions -/

def guestName : List UInt8 := ascii ['g', 'u', 'e', 's', 't']

/-- SHA-256 of `naclpw`. -/
def guestDigest : List UInt8 :=
  [227, 9, 9, 246, 179, 64, 166, 45, 165, 66, 24, 171, 72, 16, 32, 63, 34, 174, 202, 90, 53, 97,
    56, 248, 13, 243, 28, 189, 234, 177, 88, 17]

theorem guestName_no_nul : 0 ∉ guestName := by decide

theorem guestName_lt : guestName.length < 32 := by decide

/-- The account `guest` with password `pw`. -/
def guest : UserEntry where
  name := guestName
  salt := ascii ['n', 'a', 'c', 'l']
  hash := hexLower guestDigest
  uid := 1000
  gid := 1000
  no_nul := guestName_no_nul
  name_lt := guestName_lt

theorem guest_sid_len : (List.replicate 32 (0 : UInt8)).length = 32 := length_replicate

def guestConfig : Config where
  users := [guest]
  authKeys := []
  sessionId := List.replicate 32 0
  sid_len := guest_sid_len
  crypto := {
    sha256 := fun m => if m = ascii ['n', 'a', 'c', 'l', 'p', 'w'] then guestDigest else []
    ed25519Verify := fun _ _ _ => false }

def guestRequest (name : List UInt8) : List UInt8 :=
  requestHead name connectionLit passwordLit ++ (0 :: sshString (ascii ['p', 'w']))

/-- The packets of a client that logs in as `name` and asks for a shell. -/
def shellFor (name : List UInt8) : List Event :=
  [5 :: sshString userauthLit, guestRequest name, 90 :: sshString sessionLit ++ List.replicate 12 0,
    98 :: [0, 0, 0, 0] ++ sshString shellLit ++ [0]].map fun l => .recv (bufOf l) true 0

def rootGate : Gate := ⟨.service, 0, none⟩

/-- A client that logs in as `guest` gets a shell with the uid of `guest`. -/
theorem session_authenticated_guest :
    (LTS.exec (Gate.step guestConfig) rootGate (shellFor guestName)).map Gate.phase = some .shell ∧
      ∃ s, s.phase.session = true ∧ Authenticated guestConfig s := by
  have hrun : (LTS.exec (LTS.guarded (fun s e => plainRequest guestConfig s e = true)
      (Gate.step guestConfig)) rootGate (shellFor guestName)).map Gate.phase = some .shell := by
    decide +kernel
  obtain ⟨s, hs, hph⟩ := Option.map_eq_some_iff.1 hrun
  have hsess : s.phase.session = true := by rw [hph]; rfl
  exact ⟨by decide +kernel, s, hsess, session_authenticated guestConfig s
    ⟨rootGate, _, ⟨rfl, rfl⟩, LTS.run_restrict_of_exec hs⟩ hsess⟩

/-- `guest`, NUL, `x`. -/
def cutName : List UInt8 := guestName ++ [0, 120]

/-- `cutName` is no account's name, and it is accepted. -/
theorem nul_in_user_name :
    ¬ ∀ (cfg : Config) (s : Gate), (gate cfg).Reachable s → s.phase.session = true →
      Authenticated cfg s := by
  intro h
  have hrun : (LTS.exec (Gate.step guestConfig) rootGate (shellFor cutName)).map
      (fun s => (s.phase, s.accepted.map fun r => r.1.input))
        = some (.shell, some (guestRequest cutName)) := by
    decide +kernel
  obtain ⟨s, hs, he⟩ := Option.map_eq_some_iff.1 hrun
  obtain ⟨hph, hin⟩ := Prod.ext_iff.1 he
  dsimp only at hph hin
  obtain ⟨b, u, hacc, -, ⟨hu, hg⟩, -⟩ := h guestConfig s
    ⟨rootGate, _, ⟨rfl, rfl⟩, LTS.run_of_exec hs⟩ (by rw [hph]; rfl)
  rw [hacc] at hin
  simp only [Option.map_some, Option.some.injEq] at hin
  obtain rfl : u = guest := by simpa [guestConfig] using hu
  -- the declared length of the name is 7, not 5
  have hlen : ∀ service method rest, b.input ≠ requestHead guest.name service method ++ rest := by
    intro service method rest heq
    rw [hin] at heq
    have h5 : some (7 : UInt8) = some 5 := congrArg (fun l => l[4]?) heq
    cases h5
  rcases hg with ⟨_, _, _, _, heq, -⟩ | ⟨_, _, _, _, _, _, _, heq, -⟩
  · rw [append_assoc] at heq
    exact hlen _ _ _ heq
  · rw [append_assoc] at heq
    exact hlen _ _ _ heq

end AdventOS.Ssh
