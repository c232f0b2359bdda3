import AdventOS.Ssh.Wire

/-!
# sshd user authentication

One turn of the loop of `do_userauth` (`user/sshd.c`): what it does with one
decrypted payload. The 1024-byte receive buffer holds the payload and, after it,
whatever earlier packets left there. SHA-256 and Ed25519 verification are
parameters.

Strings from the payload are copied to 64-byte arrays and used as C strings from
then on: `copyCString` is that copy.

* `authBody_safe_iff`: which payloads make the turn access only the payload and
  its own arrays;
* `authBody_accept`: which payloads are accepted, and for whom.
-/
namespace AdventOS.Ssh

/-! ## Accounts -/

/-- sshd.c:263-271. `parse_passwd_line` bounds the name. -/
structure UserEntry where
  name : List UInt8
  salt : List UInt8
  hash : List UInt8
  uid : Int
  gid : Int
  no_nul : 0 ∉ name
  name_lt : name.length < 32

/-- sshd.c:134-137 -/
structure AuthKey where
  user : List UInt8
  pubkey : List UInt8
  deriving DecidableEq

/-- The primitives of `libcrypto` that authentication uses. -/
structure Crypto where
  sha256 : List UInt8 → List UInt8
  ed25519Verify : (sig msg pk : List UInt8) → Bool

/-- What the server knows when authentication starts. -/
structure Config where
  users : List UserEntry
  authKeys : List AuthKey
  sessionId : List UInt8
  sid_len : sessionId.length = 32
  crypto : Crypto

/-- sshd.c:360-365 -/
def findUser (cfg : Config) (name : List UInt8) : Option UserEntry :=
  cfg.users.find? fun u => u.name == name

def hexDigit (n : Nat) : UInt8 := UInt8.ofNat (if n < 10 then 48 + n else 87 + n)

/-- sshd.c:290-297 -/
def hexLower (l : List UInt8) : List UInt8 :=
  l.flatMap fun x => [hexDigit (x.toNat / 16), hexDigit (x.toNat % 16)]

/-- sshd.c:367-379 -/
def verifyPassword (cfg : Config) (u : UserEntry) (password : List UInt8) : Bool :=
  hexLower (cfg.crypto.sha256 (u.salt ++ password)) == u.hash

/-- sshd.c:154-170 -/
def pubkeyAuthorized (cfg : Config) (user pk : List UInt8) : Bool :=
  cfg.authKeys.any fun k => k.user == user && k.pubkey == pk

/-! ## One request -/

def passwordLit : List UInt8 := ascii ['p', 'a', 's', 's', 'w', 'o', 'r', 'd']
def publickeyLit : List UInt8 := ascii ['p', 'u', 'b', 'l', 'i', 'c', 'k', 'e', 'y']
def ed25519Lit : List UInt8 := ascii ['s', 's', 'h', '-', 'e', 'd', '2', '5', '5', '1', '9']
def connectionLit : List UInt8 :=
  ascii ['s', 's', 'h', '-', 'c', 'o', 'n', 'n', 'e', 'c', 't', 'i', 'o', 'n']

/-- The blob of RFC 4252 section 7 that a publickey request signs. -/
def signedBlob (sessionId name service algo blob : List UInt8) : List UInt8 :=
  sshString sessionId ++ [50] ++ sshString name ++ sshString service ++
    sshString publickeyLit ++ [1] ++
    sshString algo ++ sshString blob

/-- The three strings that start a USERAUTH_REQUEST, and the pointer after them. -/
structure AuthHeader where
  us : Nat
  ul : Nat
  ss : Nat
  sl : Nat
  ms : Nat
  ml : Nat
  p : Nat

/-- sshd.c:843-851; `none` is `return -1`. -/
def authHeader (b : Buf) : Acc (Option AuthHeader) :=
  if b.n < 1 then pure none
  else do
    let m ← b.read 0
    if m ≠ 50 then pure none
    else do
      let r1 ← getString b 1 b.n
      let r2 ← getString b r1.2 b.n
      let r3 ← getString b r2.2 b.n
      match r1.1, r2.1, r3.1 with
      | some (us, ul), some (ss, sl), some (ms, ml) => pure (some ⟨us, ul, ss, sl, ms, ml, r3.2⟩)
      | _, _, _ => pure none

/-- The copy to a 64-byte array, and the C string it holds.
sshd.c:853-856 and 865-868. -/
def copyCString (b : Buf) (off len : Nat) : Acc (List UInt8) := do
  let len := if len ≥ 64 then 63 else len
  let s ← b.copy off len
  Acc.span 64 0 (len + 1)
  pure (s.takeWhile (· != 0))

def methodIs (b : Buf) (h : AuthHeader) (lit : List UInt8) : Acc Bool :=
  if h.ml = lit.length then b.matchBytes h.ms lit else pure false

/-- How one turn of the loop ends: `return -1`, USERAUTH_FAILURE, PK_OK, or
success for an account. -/
inductive AuthStep
  | reject
  | failure
  | probeOk
  | accept (u : UserEntry)

/-- The 24-byte reply in `fail[64]`. sshd.c:963-970 -/
def sendFailure : Acc AuthStep := do
  Acc.span 64 0 24
  pure .failure

/-- sshd.c:858-880 -/
def authPassword (cfg : Config) (b : Buf) (h : AuthHeader) (username : List UInt8) :
    Acc AuthStep := do
  let flag ← getU8 b h.p
  let r ← getString b flag.2 b.n
  match r.1 with
  | none => pure .reject
  | some (ps, pl) => do
    let pass ← copyCString b ps pl
    match findUser cfg username with
    | none => sendFailure
    | some u => if verifyPassword cfg u pass then pure (.accept u) else sendFailure

/-- A blob `string "ssh-ed25519" || string raw` with `want` raw bytes: where
they are. sshd.c:899-907 and 928-936. -/
def edBlob (b : Buf) (off len want : Nat) : Acc (Option Nat) := do
  let t ← getString b off (off + len)
  match t.1 with
  | none => pure none
  | some (tn, tl) =>
    if tl ≠ 11 then pure none
    else do
      let ok ← b.matchBytes tn ed25519Lit
      if !ok then pure none
      else do
        let r ← getString b t.2 (off + len)
        match r.1 with
        | none => pure none
        | some (raw, rl) => if rl = want then pure (some raw) else pure none

/-- A publickey request for a known account and a key authorized for it. -/
structure PubkeyReq where
  hasSig : Bool
  algo : Nat
  algoLen : Nat
  blob : Nat
  blobLen : Nat
  pkRaw : Nat
  p : Nat
  user : UserEntry

inductive PubkeyParse
  | reject
  | fail
  | ok (r : PubkeyReq)

/-- sshd.c:889-910 -/
def parsePubkey (cfg : Config) (b : Buf) (h : AuthHeader) (username : List UInt8) :
    Acc PubkeyParse := do
  let sig ← getU8 b h.p
  let a ← getString b sig.2 b.n
  let k ← getString b a.2 b.n
  match a.1, k.1 with
  | some (algo, algoLen), some (blob, blobLen) =>
    if algoLen ≠ 11 then pure .fail
    else do
      let ed ← b.matchBytes algo ed25519Lit
      if !ed then pure .fail
      else do
        let pk ← edBlob b blob blobLen 32
        match pk with
        | none => pure .fail
        | some pkRaw => do
          let pkBytes ← b.copy pkRaw 32
          match findUser cfg username with
          | none => pure .fail
          | some u =>
            if pubkeyAuthorized cfg username pkBytes then
              pure (.ok ⟨sig.1 != 0, algo, algoLen, blob, blobLen, pkRaw, k.2, u⟩)
            else pure .fail
  | _, _ => pure .reject

/-- The reply in `ok[256]`. sshd.c:912-921 -/
def pkOk (b : Buf) (r : PubkeyReq) : Acc AuthStep := do
  let _ ← b.copy r.algo r.algoLen
  let _ ← b.copy r.blob r.blobLen
  Acc.span 256 0 (1 + (4 + r.algoLen) + (4 + r.blobLen))
  pure .probeOk

/-- sshd.c:924-958 -/
def authSignature (cfg : Config) (b : Buf) (username : List UInt8) (r : PubkeyReq) :
    Acc AuthStep := do
  let s ← getString b r.p b.n
  match s.1 with
  | none => sendFailure
  | some (sb, sbLen) => do
    let sig ← edBlob b sb sbLen 64
    match sig with
    | none => sendFailure
    | some sigRaw => do
      let algo ← b.copy r.algo r.algoLen
      let blob ← b.copy r.blob r.blobLen
      let msg := signedBlob cfg.sessionId username connectionLit algo blob
      Acc.span 1024 0 msg.length
      let sigBytes ← b.copy sigRaw 64
      let pkBytes ← b.copy r.pkRaw 32
      if cfg.crypto.ed25519Verify sigBytes msg pkBytes then pure (.accept r.user)
      else sendFailure

/-- sshd.c:881-960 -/
def authPubkey (cfg : Config) (b : Buf) (h : AuthHeader) (username : List UInt8) :
    Acc AuthStep := do
  let q ← parsePubkey cfg b h username
  match q with
  | .reject => pure .reject
  | .fail => sendFailure
  | .ok r => if r.hasSig then authSignature cfg b username r else pkOk b r

/-- sshd.c:842-971: one turn. -/
def authBody (cfg : Config) (b : Buf) : Acc AuthStep := do
  let h ← authHeader b
  match h with
  | none => pure .reject
  | some h => do
    let username ← copyCString b h.us h.ul
    let pw ← methodIs b h passwordLit
    if pw then authPassword cfg b h username
    else do
      let pk ← methodIs b h publickeyLit
      if pk then authPubkey cfg b h username else sendFailure

/-! ## Values -/

/-- What a header that parses says about the payload. -/
structure AuthHeader.At (b : Buf) (h : AuthHeader) (p1 p2 : Nat) : Prop where
  msg : b.mem 0 = 50
  user : (getString b 1 b.n).val = (some (h.us, h.ul), p1)
  service : (getString b p1 b.n).val = (some (h.ss, h.sl), p2)
  method : (getString b p2 b.n).val = (some (h.ms, h.ml), h.p)

variable {b : Buf} {h : AuthHeader} {len off p1 : Nat} {cfg : Config} {username : List UInt8}
  {r : PubkeyReq} {u : UserEntry}

theorem authHeader_some (hv : (authHeader b).val = some h) :
    ∃ p1 p2, h.At b p1 p2 := by
  unfold authHeader at hv
  split at hv
  · cases hv
  rw [Acc.bind_val, Buf.read_val] at hv
  split at hv
  · cases hv
  rename_i hm
  simp only [Acc.bind_val] at hv
  split at hv
  · rename_i us ul ss sl ms ml h1 h2 h3
    cases hv
    exact ⟨_, _, by simpa using hm, Prod.ext h1 rfl, Prod.ext h2 rfl, Prod.ext h3 rfl⟩
  · cases hv

theorem AuthHeader.At.bounds {p2 : Nat} (hat : h.At b p1 p2) :
    h.us = 5 ∧ h.ul + 5 = p1 ∧ h.ss = p1 + 4 ∧ h.ss + h.sl = p2 ∧ h.ms = p2 + 4 ∧
      h.ms + h.ml = h.p ∧ h.p ≤ b.n := by
  obtain ⟨h1, h2, -, -⟩ := getString_some hat.user
  obtain ⟨h3, h4, -, -⟩ := getString_some hat.service
  obtain ⟨h5, h6, h7, -⟩ := getString_some hat.method
  omega

theorem copyCString_val (b : Buf) (off len : Nat) :
    (copyCString b off len).val =
      (b.bytes off (if len ≥ 64 then 63 else len)).takeWhile (· != 0) := rfl

theorem length_copyCString (b : Buf) (off len : Nat) :
    (copyCString b off len).val.length ≤ len := by
  have h := (List.takeWhile_sublist (fun x : UInt8 => x != 0)
    (l := b.bytes off (if len ≥ 64 then 63 else len))).length_le
  rw [Buf.length_bytes, ← copyCString_val] at h
  have hle : (if len ≥ 64 then 63 else len) ≤ len := by split <;> omega
  exact Nat.le_trans h hle

theorem methodIs_val (b : Buf) (h : AuthHeader) (lit : List UInt8) :
    (methodIs b h lit).val = true ↔ b.bytes h.ms h.ml = lit := by
  unfold methodIs
  split_ifs with hl
  · rw [Buf.matchBytes_val, hl]
  · simp only [Acc.pure_val, Bool.false_eq_true, false_iff]
    intro he
    have := congrArg List.length he
    rw [Buf.length_bytes] at this
    exact hl this

theorem edBlob_some {want raw : Nat}
    (h : (edBlob b off len want).val = some raw) :
    ∃ t rl, (getString b off (off + len)).val = (some (off + 4, 11), off + 15) ∧
      b.bytes (off + 4) 11 = ed25519Lit ∧
      (getString b (off + 15) (off + len)).val = (some (raw, rl), t) ∧ rl = want ∧
      raw = off + 19 ∧ t = raw + want ∧ t ≤ off + len := by
  unfold edBlob at h
  simp only [Acc.bind_val] at h
  split at h
  · cases h
  rename_i tn tl h1
  split at h
  · cases h
  rename_i htl
  simp only [ne_eq, Decidable.not_not] at htl
  simp only [Acc.bind_val] at h
  split at h
  · cases h
  rename_i hmatch
  simp only [Bool.not_eq_true', Bool.not_eq_false, Buf.matchBytes_val] at hmatch
  simp only [Acc.bind_val] at h
  split at h
  · cases h
  rename_i raw' rl h2
  split at h
  · rename_i hrl
    cases h
    obtain ⟨o1, q1, hr1⟩ : ∃ o q, (getString b off (off + len)).val = (o, q) := ⟨_, _, rfl⟩
    rw [hr1] at h1 h2
    obtain ⟨o2, q2, hr2⟩ : ∃ o q, (getString b q1 (off + len)).val = (o, q) := ⟨_, _, rfl⟩
    rw [hr2] at h2
    subst h1 h2 htl hrl
    obtain ⟨rfl, g2, -, -⟩ := getString_some hr1
    have hq1 : q1 = off + 15 := by omega
    subst hq1
    obtain ⟨g3, g4, g5, -⟩ := getString_some hr2
    exact ⟨q2, rl, hr1, hmatch, hr2, rfl, g3, g4, g5⟩
  · cases h

/-- What a publickey request that parses says about the payload. -/
structure PubkeyReq.At (cfg : Config) (b : Buf) (h : AuthHeader) (username : List UInt8)
    (r : PubkeyReq) (p1 : Nat) : Prop where
  sig : r.hasSig = (b.mem h.p != 0)
  algo : (getString b (h.p + 1) b.n).val = (some (r.algo, r.algoLen), p1)
  blob : (getString b p1 b.n).val = (some (r.blob, r.blobLen), r.p)
  isEd : b.bytes r.algo r.algoLen = ed25519Lit
  pk : (edBlob b r.blob r.blobLen 32).val = some r.pkRaw
  user : findUser cfg username = some r.user
  authorized : pubkeyAuthorized cfg username (b.bytes r.pkRaw 32) = true

theorem parsePubkey_ok (hv : (parsePubkey cfg b h username).val = .ok r) :
    ∃ p1, r.At cfg b h username p1 := by
  unfold parsePubkey at hv
  simp only [Acc.bind_val, getU8_val] at hv
  split at hv
  · rename_i algo algoLen blob blobLen h1 h2
    split at hv
    · cases hv
    rename_i hlen
    simp only [ne_eq, Decidable.not_not] at hlen
    simp only [Acc.bind_val] at hv
    split at hv
    · cases hv
    rename_i hmatch
    simp only [Bool.not_eq_true', Bool.not_eq_false, Buf.matchBytes_val] at hmatch
    simp only [Acc.bind_val] at hv
    split at hv
    · cases hv
    rename_i pkRaw hpk
    rw [Acc.bind_val, Buf.copy_val] at hv
    split at hv
    · cases hv
    rename_i u hu
    split at hv
    · rename_i hauth
      cases hv
      subst hlen
      exact ⟨_, rfl, Prod.ext h1 rfl, Prod.ext h2 rfl, hmatch, hpk, hu, hauth⟩
    · cases hv
  · cases hv

theorem PubkeyReq.At.bounds (hat : r.At cfg b h username p1) :
    r.algoLen = 11 ∧ r.algo = h.p + 5 ∧ r.blob = h.p + 20 ∧ r.blob + r.blobLen = r.p ∧
      r.p ≤ b.n ∧ r.pkRaw + 32 ≤ r.p := by
  obtain ⟨h1, h2, -, -⟩ := getString_some hat.algo
  obtain ⟨h3, h4, h5, -⟩ := getString_some hat.blob
  obtain ⟨t, rl, -, -, -, -, h6, h7, h8⟩ := edBlob_some hat.pk
  have hlen := congrArg List.length hat.isEd
  rw [Buf.length_bytes] at hlen
  have h11 : r.algoLen = 11 := hlen
  omega

/-- What an accepted password request says about the payload. -/
def PasswordAccepted (cfg : Config) (b : Buf) (h : AuthHeader) (username : List UInt8)
    (u : UserEntry) : Prop :=
  ∃ ps pl p, (getString b (h.p + 1) b.n).val = (some (ps, pl), p) ∧
    findUser cfg username = some u ∧ verifyPassword cfg u (copyCString b ps pl).val = true

theorem authPassword_accept (hv : (authPassword cfg b h username).val = .accept u) :
    PasswordAccepted cfg b h username u := by
  unfold authPassword at hv
  rw [Acc.bind_val, getU8_val, Acc.bind_val] at hv
  split at hv
  · cases hv
  rename_i ps pl hps
  rw [Acc.bind_val] at hv
  split at hv
  · cases hv
  rename_i u' hu
  split_ifs at hv with hver
  · cases hv
    exact ⟨ps, pl, _, Prod.ext hps rfl, hu, hver⟩
  · cases hv

/-- What an accepted publickey request says about the payload. -/
def SignatureAccepted (cfg : Config) (b : Buf) (h : AuthHeader) (username : List UInt8)
    (u : UserEntry) : Prop :=
  ∃ r sb sbLen p sigRaw, (parsePubkey cfg b h username).val = .ok r ∧ r.user = u ∧
    r.hasSig = true ∧
    (getString b r.p b.n).val = (some (sb, sbLen), p) ∧
    (edBlob b sb sbLen 64).val = some sigRaw ∧
    cfg.crypto.ed25519Verify (b.bytes sigRaw 64)
      (signedBlob cfg.sessionId username connectionLit (b.bytes r.algo r.algoLen)
        (b.bytes r.blob r.blobLen)) (b.bytes r.pkRaw 32) = true

theorem authPubkey_accept (hv : (authPubkey cfg b h username).val = .accept u) :
    SignatureAccepted cfg b h username u := by
  unfold authPubkey at hv
  rw [Acc.bind_val] at hv
  split at hv
  · cases hv
  · cases hv
  rename_i r hr
  split_ifs at hv with hsig
  · unfold authSignature at hv
    rw [Acc.bind_val] at hv
    split at hv
    · cases hv
    rename_i sb sbLen hsb
    rw [Acc.bind_val] at hv
    split at hv
    · cases hv
    rename_i sigRaw hraw
    rw [Acc.bind_val, Buf.copy_val, Acc.bind_val, Buf.copy_val, Acc.bind_val, Acc.bind_val,
      Buf.copy_val, Acc.bind_val, Buf.copy_val] at hv
    split_ifs at hv with hver
    · cases hv
      exact ⟨r, sb, sbLen, _, sigRaw, hr, rfl, hsig, Prod.ext hsb rfl, hraw, hver⟩
    · cases hv
  · cases hv

theorem authBody_accept (hv : (authBody cfg b).val = .accept u) :
    ∃ h, (authHeader b).val = some h ∧
      ((b.bytes h.ms h.ml = passwordLit ∧
          PasswordAccepted cfg b h (copyCString b h.us h.ul).val u) ∨
        (b.bytes h.ms h.ml = publickeyLit ∧
          SignatureAccepted cfg b h (copyCString b h.us h.ul).val u)) := by
  unfold authBody at hv
  rw [Acc.bind_val] at hv
  split at hv
  · cases hv
  rename_i h hh
  refine ⟨h, hh, ?_⟩
  rw [Acc.bind_val, Acc.bind_val] at hv
  split_ifs at hv with hpw
  · exact .inl ⟨(methodIs_val b h passwordLit).1 hpw, authPassword_accept hv⟩
  · rw [Acc.bind_val] at hv
    split_ifs at hv with hpk
    · exact .inr ⟨(methodIs_val b h publickeyLit).1 hpk, authPubkey_accept hv⟩
    · cases hv

/-! ## Bounds -/

theorem authHeader_safe (b : Buf) : (authHeader b).safe = true := by
  unfold authHeader
  split
  · rfl
  rw [Acc.bind_safe, Bool.and_eq_true, Buf.read_safe]
  refine ⟨by omega, ?_⟩
  split
  · rfl
  simp only [Acc.bind_safe, Bool.and_eq_true]
  refine ⟨getString_safe (Nat.le_refl _), getString_safe (Nat.le_refl _),
    getString_safe (Nat.le_refl _), ?_⟩
  split <;> rfl

theorem copyCString_safe (h : off + len ≤ b.n) :
    (copyCString b off len).safe = true := by
  have hle : (if len ≥ 64 then 63 else len) ≤ len := by split <;> omega
  have hlt : (if len ≥ 64 then 63 else len) < 64 := by split <;> omega
  simp only [copyCString, Acc.bind_safe, Bool.and_eq_true, Buf.copy_safe, Acc.span_safe,
    Acc.pure_safe, and_true]
  omega

theorem methodIs_safe (hb : h.ms + h.ml ≤ b.n) (lit : List UInt8) :
    (methodIs b h lit).safe = true := by
  unfold methodIs
  split
  · exact b.matchBytes_safe lit h.ms (by omega)
  · rfl

theorem sendFailure_safe : sendFailure.safe = true := by decide

theorem edBlob_safe (h : off + len ≤ b.n) (want : Nat) :
    (edBlob b off len want).safe = true := by
  unfold edBlob
  rw [Acc.bind_safe, Bool.and_eq_true]
  refine ⟨getString_safe h, ?_⟩
  split
  · rfl
  rename_i tn tl ht
  split
  · rfl
  have hs : (getString b off (off + len)).val = (some (tn, tl), _) := Prod.ext ht rfl
  obtain ⟨h1, h2, h3, -⟩ := getString_some hs
  have hlit : ed25519Lit.length = 11 := rfl
  rw [Acc.bind_safe, Bool.and_eq_true]
  refine ⟨b.matchBytes_safe _ _ (by omega), ?_⟩
  split
  · rfl
  rw [Acc.bind_safe, Bool.and_eq_true]
  refine ⟨getString_safe h, ?_⟩
  split
  · rfl
  split <;> rfl

/-- The one unchecked read of the password branch is the flag after the method. -/
theorem authPassword_safe_iff (cfg : Config) (b : Buf) (h : AuthHeader) (username : List UInt8) :
    (authPassword cfg b h username).safe = true ↔ h.p < b.n := by
  unfold authPassword
  rw [Acc.bind_safe, Bool.and_eq_true, getU8_safe]
  refine ⟨And.left, fun hp => ⟨hp, ?_⟩⟩
  rw [Acc.bind_safe, Bool.and_eq_true]
  refine ⟨getString_safe (Nat.le_refl _), ?_⟩
  split
  · rfl
  rename_i ps pl hps
  have hs : (getString b (getU8 b h.p).val.2 b.n).val = (some (ps, pl), _) := Prod.ext hps rfl
  obtain ⟨h1, h2, h3, -⟩ := getString_some hs
  rw [Acc.bind_safe, Bool.and_eq_true]
  refine ⟨copyCString_safe (by omega), ?_⟩
  split
  · exact sendFailure_safe
  split
  · rfl
  · exact sendFailure_safe

theorem parsePubkey_safe_iff (cfg : Config) (b : Buf) (h : AuthHeader) (username : List UInt8) :
    (parsePubkey cfg b h username).safe = true ↔ h.p < b.n := by
  unfold parsePubkey
  rw [Acc.bind_safe, Bool.and_eq_true, getU8_safe]
  refine ⟨And.left, fun hp => ⟨hp, ?_⟩⟩
  rw [Acc.bind_safe, Bool.and_eq_true]
  refine ⟨getString_safe (Nat.le_refl _), ?_⟩
  rw [Acc.bind_safe, Bool.and_eq_true]
  refine ⟨getString_safe (Nat.le_refl _), ?_⟩
  split
  · rename_i algo algoLen blob blobLen ha hk
    have hsa : (getString b (getU8 b h.p).val.2 b.n).val = (some (algo, algoLen), _) :=
      Prod.ext ha rfl
    have hsk : (getString b _ b.n).val = (some (blob, blobLen), _) := Prod.ext hk rfl
    obtain ⟨a1, a2, a3, -⟩ := getString_some hsa
    obtain ⟨k1, k2, k3, -⟩ := getString_some hsk
    split
    · rfl
    have hlit : ed25519Lit.length = 11 := rfl
    rw [Acc.bind_safe, Bool.and_eq_true]
    refine ⟨b.matchBytes_safe _ _ (by omega), ?_⟩
    split
    · rfl
    rw [Acc.bind_safe, Bool.and_eq_true]
    refine ⟨edBlob_safe (by omega) 32, ?_⟩
    split
    · rfl
    rename_i pkRaw hpk
    obtain ⟨t, rl, -, -, -, -, h6, h7, h8⟩ := edBlob_some hpk
    rw [Acc.bind_safe, Bool.and_eq_true, Buf.copy_safe]
    refine ⟨.inr (by omega), ?_⟩
    split
    · rfl
    split <;> rfl
  · rfl

/-- The PK_OK reply fits its array exactly up to a 236-byte key blob. -/
theorem pkOk_safe_iff (hat : r.At cfg b h username p1) :
    (pkOk b r).safe = true ↔ r.blobLen ≤ 236 := by
  obtain ⟨h1, h2, h3, h4, h5, -⟩ := hat.bounds
  simp only [pkOk, Acc.bind_safe, Bool.and_eq_true, Buf.copy_safe, Acc.span_safe, Acc.pure_safe,
    and_true]
  omega

/-- The signed blob always fits: the payload that brought its parts is shorter
than the array. -/
theorem authSignature_safe {q1 q2 : Nat} (hn : b.n ≤ 1024) (hh : h.At b q1 q2)
    (hml : h.ml = 9) (hul : username.length ≤ h.ul) (hat : r.At cfg b h username p1) :
    (authSignature cfg b username r).safe = true := by
  obtain ⟨u1, u2, u3, u4, u5, u6, u7⟩ := hh.bounds
  obtain ⟨h1, h2, h3, h4, h5, h6⟩ := hat.bounds
  unfold authSignature
  rw [Acc.bind_safe, Bool.and_eq_true]
  refine ⟨getString_safe (Nat.le_refl _), ?_⟩
  split
  · exact sendFailure_safe
  rename_i sb sbLen hsb
  have hs : (getString b r.p b.n).val = (some (sb, sbLen), _) := Prod.ext hsb rfl
  obtain ⟨s1, s2, s3, -⟩ := getString_some hs
  rw [Acc.bind_safe, Bool.and_eq_true]
  refine ⟨edBlob_safe (by omega) 64, ?_⟩
  split
  · exact sendFailure_safe
  rename_i sigRaw hsig
  obtain ⟨t, rl, -, -, -, -, g6, g7, g8⟩ := edBlob_some hsig
  have hlen : (signedBlob cfg.sessionId username connectionLit (b.bytes r.algo r.algoLen)
      (b.bytes r.blob r.blobLen)).length = 92 + username.length + r.blobLen := by
    simp only [signedBlob, List.length_append, length_sshString, Buf.length_bytes, cfg.sid_len,
      List.length_singleton, h1]
    have c1 : connectionLit.length = 14 := rfl
    have c2 : publickeyLit.length = 9 := rfl
    omega
  simp only [Acc.bind_safe, Buf.copy_val, Bool.and_eq_true, Buf.copy_safe, Acc.span_safe, hlen]
  exact ⟨by omega, by omega, by omega, by omega, by omega,
    Acc.ite_safe.2 ⟨fun _ => rfl, fun _ => sendFailure_safe⟩⟩

/-- Every access of a turn is in bounds exactly if a password or publickey
request has a byte after its method string, and a probe that is answered has a
key blob of at most 236 bytes. -/
def AuthBounds (cfg : Config) (b : Buf) : Prop :=
  ∀ h, (authHeader b).val = some h →
    (b.bytes h.ms h.ml = passwordLit → h.p < b.n) ∧
    (b.bytes h.ms h.ml = publickeyLit → h.p < b.n ∧
      ∀ r, (parsePubkey cfg b h (copyCString b h.us h.ul).val).val = .ok r →
        r.hasSig = false → r.blobLen ≤ 236)

theorem authPubkey_safe_iff {q1 q2 : Nat} (hn : b.n ≤ 1024) (hh : h.At b q1 q2) (hml : h.ml = 9)
    (hul : username.length ≤ h.ul) :
    (authPubkey cfg b h username).safe = true ↔ h.p < b.n ∧
      ∀ r, (parsePubkey cfg b h username).val = .ok r → r.hasSig = false → r.blobLen ≤ 236 := by
  unfold authPubkey
  rw [Acc.bind_safe, Bool.and_eq_true, parsePubkey_safe_iff]
  refine and_congr_right fun _ => ?_
  cases hq : (parsePubkey cfg b h username).val with
  | reject => simp
  | fail => simp [sendFailure_safe]
  | ok r =>
    obtain ⟨p1, hat⟩ := parsePubkey_ok hq
    simp only [PubkeyParse.ok.injEq, forall_eq']
    cases hsig : r.hasSig with
    | true => simp [authSignature_safe hn hh hml hul hat]
    | false => simp [pkOk_safe_iff hat]

theorem authBody_safe_iff (cfg : Config) (hn : b.n ≤ 1024) :
    (authBody cfg b).safe = true ↔ AuthBounds cfg b := by
  unfold authBody AuthBounds
  rw [Acc.bind_safe, authHeader_safe, Bool.true_and]
  cases hv : (authHeader b).val with
  | none => simp
  | some h =>
    obtain ⟨p1, p2, hat⟩ := authHeader_some hv
    obtain ⟨u1, u2, u3, u4, u5, u6, u7⟩ := hat.bounds
    have hmeth : h.ms + h.ml ≤ b.n := by omega
    have hcopy : (copyCString b h.us h.ul).safe = true := copyCString_safe (by omega)
    have hne : passwordLit ≠ publickeyLit := by decide
    simp only [Option.some.injEq, forall_eq', Acc.bind_safe, hcopy, methodIs_safe hmeth,
      Bool.true_and, methodIs_val]
    by_cases hpw : b.bytes h.ms h.ml = passwordLit
    · simp [hpw, hne, authPassword_safe_iff]
    · by_cases hpk : b.bytes h.ms h.ml = publickeyLit
      · have hml : h.ml = 9 := by
          have := congrArg List.length hpk
          rw [Buf.length_bytes] at this
          exact this
        have hul := length_copyCString b h.us h.ul
        simp [hpk, hne.symm, methodIs_safe hmeth, methodIs_val, authPubkey_safe_iff hn hat hml hul]
      · simp [hpw, hpk, methodIs_safe hmeth, methodIs_val, sendFailure_safe]

end AdventOS.Ssh
