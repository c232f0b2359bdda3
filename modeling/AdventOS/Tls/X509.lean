import AdventOS.Tls.Crypto

/-!
# Certificates

The DER reader, certificate parser, key extraction and chain check of
`libcrypto/x509.c`. A pointer with its end is the list of the bytes between them;
`readTlv` gives the value and the bytes after it, so a slice `[start, p)` of the
source is what the rest after `p` leaves of the list at `start`.

* `extractPubkey_length`: which certificates give a key of more than 65 bytes.
-/
namespace AdventOS.Tls

/-- x509.c:455-477: tag, value, and what follows. -/
def readTlv : Bytes → Option (UInt8 × Bytes × Bytes)
  | tag :: b :: rest =>
    if b < 0x80 then
      if rest.length < b.toNat then none
      else some (tag, rest.take b.toNat, rest.drop b.toNat)
    else
      let nlen := b.toNat % 128
      if nlen = 0 ∨ nlen > 3 ∨ rest.length < nlen then none
      else
        let len := (rest.take nlen).foldl (fun acc x => acc * 256 + x.toNat) 0
        let rest := rest.drop nlen
        if rest.length < len then none else some (tag, rest.take len, rest.drop len)
  | _ => none

/-- `dr_read_tlv(...) != tag` fails. -/
def expectTlv (tag : UInt8) (l : Bytes) : Option (Bytes × Bytes) :=
  match readTlv l with
  | some (t, v, rest) => if t = tag then some (v, rest) else none
  | none => none

/-- The bytes from the start of `l` to where `rest` starts. -/
def sliceTo (l rest : Bytes) : Bytes := l.take (l.length - rest.length)

def asn1Integer : UInt8 := 0x02
def asn1Bitstring : UInt8 := 0x03
def asn1Oid : UInt8 := 0x06
def asn1Sequence : UInt8 := 0x30
def asn1Ctx0 : UInt8 := 0xA0

/-! ## Times -/

def isLeap (y : Nat) : Bool := (y % 4 == 0 && y % 100 != 0) || y % 400 == 0

def monthDays : List Nat := [0, 31, 59, 90, 120, 151, 181, 212, 243, 273, 304, 334]

/-- x509.c:492-502 -/
def civilToEpoch (y mo d h mn s : Nat) : Nat :=
  let years := ((List.range (y - 1970)).map fun i => if isLeap (1970 + i) then 366 else 365).sum
  let days := years + monthDays.getD (mo - 1) 0 + (if mo > 2 ∧ isLeap y then 1 else 0) + (d - 1)
  (days * 86400 + h * 3600 + mn * 60 + s) % 2 ^ 32

/-- x509.c:505-515 -/
def readDigits (l : Bytes) : Option Nat :=
  if l.all fun c => 48 ≤ c ∧ c ≤ 57 then
    some (l.foldl (fun v c => v * 10 + (c.toNat - 48)) 0)
  else none

/-- x509.c:520-548 -/
def parseX509Time (l : Bytes) : Option Nat := do
  let (y, rest) ←
    if l.length = 13 then do
      let yy ← readDigits (l.take 2)
      some (if yy < 50 then 2000 + yy else 1900 + yy, l.drop 2)
    else if l.length = 15 then do
      let y ← readDigits (l.take 4)
      some (y, l.drop 4)
    else none
  let mo ← readDigits (rest.take 2)
  let d ← readDigits ((rest.drop 2).take 2)
  let h ← readDigits ((rest.drop 4).take 2)
  let mn ← readDigits ((rest.drop 6).take 2)
  let s ← readDigits ((rest.drop 8).take 2)
  if rest.drop 10 ≠ [90] then none
  else if mo < 1 ∨ mo > 12 ∨ d < 1 ∨ d > 31 then none
  else some (civilToEpoch y mo d h mn s)

/-! ## Certificates -/

def oidEd25519 : Bytes := [0x2B, 0x65, 0x70]
def oidEcPubkey : Bytes := [0x2A, 0x86, 0x48, 0xCE, 0x3D, 0x02, 0x01]
def oidEcdsaSha256 : Bytes := [0x2A, 0x86, 0x48, 0xCE, 0x3D, 0x04, 0x03, 0x02]
def oidRsaSha256 : Bytes := [0x2A, 0x86, 0x48, 0x86, 0xF7, 0x0D, 0x01, 0x01, 0x0B]
def oidRsaEncryption : Bytes := [0x2A, 0x86, 0x48, 0x86, 0xF7, 0x0D, 0x01, 0x01, 0x01]

/-- The three kinds of key, which are also the three kinds of signature:
`X509_PK_*` and `X509_SIG_*` share their numbers. -/
inductive Alg
  | ed25519
  | p256
  | rsa
  deriving DecidableEq

/-- x509.c:571-597 -/
def parseAlgId (l : Bytes) : Option (Alg × Bytes) := do
  let (v, rest) ← expectTlv asn1Sequence l
  let (oid, _) ← expectTlv asn1Oid v
  if oid = oidEd25519 then some (.ed25519, rest)
  else if oid = oidEcPubkey ∨ oid = oidEcdsaSha256 then some (.p256, rest)
  else if oid = oidRsaSha256 ∨ oid = oidRsaEncryption then some (.rsa, rest)
  else none

/-- bignum.c:46-61: 144 limbs of 32 bits. -/
def bnFromBytesBe (l : Bytes) : Bignum := l.foldl (fun v c => v * 256 + c.toNat) 0 % 2 ^ (32 * 144)

/-- bignum.c:79-89 -/
def bnByteLength (n : Bignum) : Nat := (n.size + 7) / 8

/-- bignum.c:63-77 -/
def bnToBytesBe (n : Bignum) (len : Nat) : Bytes :=
  (List.range len).map fun i => UInt8.ofNat (n / 2 ^ (8 * (len - 1 - i)))

/-- The value of a DER INTEGER, without the zero that marks it positive. -/
def integerValue (v : Bytes) : Bignum :=
  bnFromBytesBe (if v.length > 1 ∧ v.head? = some 0 then v.tail else v)

/-- x509.c:604-625 -/
def parseRsaPubkey (l : Bytes) : Option (Bignum × Bignum) := do
  let (seq, _) ← expectTlv asn1Sequence l
  let (n, rest) ← expectTlv asn1Integer seq
  let (e, _) ← expectTlv asn1Integer rest
  some (integerValue n, integerValue e)

/-- The key of a certificate: raw bytes, or modulus and exponent. -/
inductive PubKey
  | ed25519 (pk : Bytes) (len : pk.length = 32)
  | p256 (pk : Bytes) (len : pk.length = 65)
  | rsa (n e : Bignum)
  deriving DecidableEq

/-- mirrors libcrypto/x509.h `struct x509_cert`. -/
structure X509Cert where
  tbs : Bytes
  issuer : Bytes
  subject : Bytes
  notBefore : Nat
  notAfter : Nat
  key : PubKey
  sigAlg : Alg
  sig : Bytes
  deriving DecidableEq

def bitString (l : Bytes) : Option (Bytes × Bytes) :=
  match expectTlv asn1Bitstring l with
  | some (u :: v, rest) => if u = 0 then some (v, rest) else none
  | _ => none

/-- x509.c:715-741 -/
def parseKey (alg : Alg) (bits : Bytes) : Option PubKey :=
  match alg with
  | .ed25519 => if h : bits.length = 32 then some (.ed25519 bits h) else none
  | .p256 =>
    if h : bits.length = 65 then if bits.head? = some 4 then some (.p256 bits h) else none
    else none
  | .rsa => (parseRsaPubkey bits).map fun ne => .rsa ne.1 ne.2

/-- A Time of a certificate: UTCTime or GeneralizedTime. -/
def timeField (l : Bytes) : Option (Nat × Bytes) := do
  let (tag, v, rest) ← readTlv l
  if tag ≠ 0x17 ∧ tag ≠ 0x18 then none
  else do
    let t ← parseX509Time v
    some (t, rest)

/-- x509.c:661-672: the optional version and the algorithm inside
the TBS may be skipped, the serial number may not. -/
def skipToIssuer (tbs : Bytes) : Option Bytes := do
  let p ← if tbs.head? = some asn1Ctx0 then (expectTlv asn1Ctx0 tbs).map Prod.snd else some tbs
  let (_, p) ← expectTlv asn1Integer p
  match parseAlgId p with
  | some (_, p) => some p
  | none => (expectTlv asn1Sequence p).map Prod.snd

/-- x509.c:627-761 -/
def parseCert (der : Bytes) : Option X509Cert :=
  if der.length < 8 then none
  else do
    let (cert, _) ← expectTlv asn1Sequence der
    let (tbs, afterTbs) ← expectTlv asn1Sequence cert
    let pIssuer ← skipToIssuer tbs
    let (_, pValidity) ← expectTlv asn1Sequence pIssuer
    let (validity, pSubject) ← expectTlv asn1Sequence pValidity
    let (notBefore, p) ← timeField validity
    let (notAfter, _) ← timeField p
    let (_, pSpki) ← expectTlv asn1Sequence pSubject
    let (spki, _) ← expectTlv asn1Sequence pSpki
    let (alg, p) ← parseAlgId spki
    let (bits, _) ← bitString p
    let key ← parseKey alg bits
    let (sigAlg, p) ← parseAlgId afterTbs
    let (sig, _) ← bitString p
    some {
      tbs := sliceTo cert afterTbs
      issuer := sliceTo pIssuer pValidity
      subject := sliceTo pSubject pSpki
      notBefore, notAfter, key, sigAlg, sig }

/-- x509.c:763-787: the TLS scheme, the bytes that are stored in
`out_pk`, and `out_pk_len`. -/
def extractPubkey (der : Bytes) : Option (Nat × Bytes) :=
  (parseCert der).map fun c =>
    match c.key with
    | .ed25519 pk _ => (0x0807, pk)
    | .p256 pk _ => (0x0403, pk)
    | .rsa n _ => (0x0401, (bnToBytesBe n (bnByteLength n)).take 256)

/-- The certificate has an RSA key with a modulus of more than 65 bytes. -/
def longRsaKey (der : Bytes) : Bool :=
  match (parseCert der).map X509Cert.key with
  | some (.rsa n _) => 65 < bnByteLength n
  | _ => false

theorem length_bnToBytesBe (n : Bignum) (len : Nat) : (bnToBytesBe n len).length = len := by
  simp [bnToBytesBe]

/-- A key is longer than the buffer of the TLS client exactly if it is a long RSA key. -/
theorem extractPubkey_length {der pk : Bytes} {alg : Nat} (h : extractPubkey der = some (alg, pk)) :
    65 < pk.length ↔ longRsaKey der = true := by
  obtain ⟨c, hc, he⟩ := Option.map_eq_some_iff.1 h
  unfold longRsaKey
  rw [hc, Option.map_some]
  cases hk : c.key with
  | ed25519 raw len =>
    rw [hk] at he
    cases he
    simp [len]
  | p256 raw len =>
    rw [hk] at he
    cases he
    simp [len]
  | rsa n e =>
    rw [hk] at he
    cases he
    rw [List.length_take, length_bnToBytesBe, decide_eq_true_iff]
    omega

variable (cr : Primitives)

/-- x509.c:793-821 -/
def verifyCertSignature (leaf issuer : X509Cert) : Bool :=
  match leaf.sigAlg, issuer.key with
  | .ed25519, .ed25519 pk _ => leaf.sig.length == 64 && cr.ed25519Verify leaf.sig leaf.tbs pk
  | .p256, .p256 pk _ =>
    match cr.p256SigFromDer leaf.sig with
    | some rs => cr.p256Verify rs (cr.sha256 leaf.tbs) (pk.drop 1)
    | none => false
  | .rsa, .rsa n e => cr.rsaVerify leaf.tbs leaf.sig n e
  | _, _ => false

/-- The roots a client trusts. mirrors libcrypto/x509.h `struct ca_store`. -/
structure CaStore where
  roots : List X509Cert
  deriving DecidableEq

def inValidity (now : Nat) (c : X509Cert) : Bool :=
  now == 0 || (c.notBefore ≤ now && now ≤ c.notAfter)

/-- The loop over the intermediates: the last certificate, if each was issued by
the next. x509.c:898-911 -/
def walkIntermediates (now : Nat) : X509Cert → List Bytes → Option X509Cert
  | current, [] => some current
  | current, der :: ders => do
    let inter ← parseCert der
    if inValidity now inter ∧ current.issuer = inter.subject ∧ verifyCertSignature cr current inter
    then walkIntermediates now inter ders
    else none

/-- x509.c:880-921; `true` is 0. -/
def verifyChain (leafDer : Bytes) (intermediates : List Bytes) (store : CaStore) (now : Nat) :
    Bool :=
  match parseCert leafDer with
  | none => false
  | some leaf =>
    inValidity now leaf && decide (intermediates.length ≤ 8) &&
      match walkIntermediates cr now leaf intermediates with
      | none => false
      | some current =>
        store.roots.any fun root => current.issuer == root.subject &&
          verifyCertSignature cr current root

end AdventOS.Tls
