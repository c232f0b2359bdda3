import AdventOS.Tls.Record

/-!
# TLS handshakes

The four handshakes of `libcrypto/tls.c`: server and client, with a PSK and with
certificates. Each is a program that ends with the application keys or stops with
the return value of the function.

Random bytes are arguments. So is `scratch`, what the 64-byte stack array of the
Finished record holds before: its first 36 bytes are compared whatever the length
of the record.
-/
namespace AdventOS.Tls

variable (cr : Primitives)

/-! ## Messages -/

def be24 (n : Nat) : Bytes := UInt8.ofNat (n / 2 ^ 16) :: be16 n

/-- tls.c:158-166 -/
def hsPack (ty : UInt8) (body : Bytes) : Bytes := ty :: (be24 body.length ++ body)

def messages (l : List (UInt8 × Bytes)) : Bytes := l.flatMap fun m => hsPack m.1 m.2

def basepoint : Bytes := 9 :: List.replicate 31 0

def check (ok : Prop) [Decidable ok] (code : Int) : Except Int Unit :=
  if ok then .ok () else .error code

/-- The 16-bit fields of a list of them. -/
def u16s : Bytes → List Nat
  | a :: b :: l => u16At [a, b] 0 :: u16s l
  | _ => []

/-- `recv_record` for a plaintext handshake record. -/
def recvHandshakePlain (t : Array) (code : Int) : Prog Bytes := do
  let o ← recvPlain t
  let m ← expect code o
  require (m.ty = 22) code
  pure m.content

/-- `recv_record` for an encrypted handshake record. -/
def recvHandshake (k : Keys) (t : Array) (code : Int) : Prog (Record × Keys) := do
  let r ← recvEncrypted cr k t
  let m ← expect code r.1
  require (m.ty = 22) code
  pure (m, r.2)

/-- Finished of the peer: what is compared is the array, what is hashed the record.
tls.c:345-357, 394-403, 766-777 -/
def recvFinished (k : Keys) (t : Array) (scratch : Bytes) (expected : Bytes)
    (noRecord noFinished wrong : Int) : Prog Bytes := do
  let r ← recvHandshake cr k t noRecord
  require (4 ≤ r.1.len ∧ r.1.out.getD 0 0 = 20) noFinished
  require (((r.1.out ++ scratch.drop r.1.out.length).drop 4).take 32 = expected) wrong
  pure r.1.content

/-- The Finished of our own, encrypted. -/
def sendFinished (k : Keys) (verify : BytesN 32) (code : Int) : Prog Unit := do
  let r ← sendEncrypted cr k 22 (hsPack 20 verify) 36
  require (r.1 = true) code

/-! ## PSK -/

/-- What the server takes from a ClientHello: the key share and the bytes hashed. -/
structure PskHello where
  clientPub : Bytes
  message : Bytes

/-- tls.c:299-316 -/
def parsePskClientHello (pskId m : Bytes) : Except Int PskHello := do
  check (4 ≤ m.length) (-2)
  check (m.getD 0 0 = 1) (-3)
  check (u24At m 1 + 4 ≤ m.length) (-4)
  check (66 ≤ u24At m 1) (-5)
  check (u16At m 36 ≤ 64 ∧ 38 + u16At m 36 + 32 ≤ m.length) (-6)
  check (u16At m 36 = pskId.length) (-7)
  check ((m.drop 38).take (u16At m 36) = pskId) (-8)
  pure ⟨(m.drop (38 + u16At m 36)).take 32, m.take (u24At m 1 + 4)⟩

/-- tls.c:280-360 -/
def serverHandshakePsk (rnd priv : BytesN 32) (psk pskId scratch : Bytes) : Prog Endpoint := do
  let m ← recvHandshakePlain .recbuf (-1)
  let hello ← parsed (parsePskClientHello pskId m)
  let shMsg := hsPack 2 (rnd.val ++ (cr.x25519 priv basepoint).val)
  let sent ← sendRecord 22 shMsg
  require (sent = true) (-10)
  let transcript := hello.message ++ shMsg
  let hs := computeHandshakeKeys cr psk (cr.x25519 priv hello.clientPub) transcript
  let verify := computeFinished cr hs.sHsTraffic transcript
  sendFinished cr hs.sHs verify (-11)
  let transcript := transcript ++ hsPack 20 verify
  let fin ← recvFinished cr hs.cHs .cfin scratch (computeFinished cr hs.cHsTraffic transcript)
    (-12) (-13) (-14)
  let ap := computeApplicationKeys cr hs.handshakeSecret (transcript ++ fin)
  pure ⟨true, ap.1, ap.2⟩

/-- tls.c:380-388 -/
def parsePskServerHello (m : Bytes) : Except Int (Bytes × Bytes) := do
  check (4 ≤ m.length ∧ m.getD 0 0 = 2) (-3)
  check (u24At m 1 + 4 ≤ m.length ∧ 64 ≤ u24At m 1) (-4)
  pure ((m.drop 36).take 32, m.take (u24At m 1 + 4))

def pskClientHello (rnd : BytesN 32) (pskId : Bytes) (pub : BytesN 32) : Bytes :=
  hsPack 1 (rnd.val ++ be16 pskId.length ++ pskId ++ pub.val)

/-- tls.c:347-417 -/
def clientHandshakePsk (rnd priv : BytesN 32) (psk pskId scratch : Bytes) : Prog Endpoint := do
  note (.pskIdentity pskId.length)
  store .pskBody (32 + 2 + pskId.length + 32)
  let chMsg := pskClientHello rnd pskId (cr.x25519 priv basepoint)
  let sent ← sendRecord 22 chMsg
  require (sent = true) (-1)
  let m ← recvHandshakePlain .recbuf (-2)
  let hello ← parsed (parsePskServerHello m)
  let transcript := chMsg ++ hello.2
  let hs := computeHandshakeKeys cr psk (cr.x25519 priv hello.1) transcript
  let fin ← recvFinished cr hs.sHs .sfin scratch (computeFinished cr hs.sHsTraffic transcript)
    (-5) (-6) (-7)
  let transcript := transcript ++ fin
  let verify := computeFinished cr hs.cHsTraffic transcript
  sendFinished cr hs.cHs verify (-8)
  let ap := computeApplicationKeys cr hs.handshakeSecret (transcript ++ hsPack 20 verify)
  pure ⟨false, ap.1, ap.2⟩

/-! ## Certificates: the server -/

/-- What the extensions of a ClientHello have shown so far. -/
structure HelloExts where
  tls13 : Bool
  sigMatch : Bool
  share : Option Bytes

/-- The last X25519 entry of a key share list. tls.c:478-490 -/
def keyShares : (fuel : Nat) → Bytes → Option Bytes → Except Int (Option Bytes)
  | 0, _, acc => .ok acc
  | fuel + 1, l, acc =>
    if l.length < 4 then .ok acc
    else if l.length < 4 + u16At l 2 then .error (-8)
    else keyShares fuel (l.drop (4 + u16At l 2))
      (if u16At l 0 = 0x1D ∧ u16At l 2 = 32 then some ((l.drop 4).take 32) else acc)

/-- One extension. tls.c:452-493 -/
def helloExtension (want : Int) (ty : Nat) (data : Bytes) (e : HelloExts) : Except Int HelloExts :=
  if ty = 0x2B then do
    check (1 ≤ data.length) (-2)
    check (2 ≤ (data.getD 0 0).toNat ∧ (data.getD 0 0).toNat + 1 ≤ data.length) (-3)
    let versions := u16s ((data.drop 1).take (data.getD 0 0).toNat)
    pure { e with tls13 := e.tls13 || versions.contains 0x0304 }
  else if ty = 0x0D then do
    check (2 ≤ data.length) (-4)
    check (u16At data 0 + 2 ≤ data.length) (-5)
    let schemes := u16s ((data.drop 2).take (u16At data 0))
    pure { e with sigMatch := e.sigMatch || schemes.any fun sa => (sa : Int) == want }
  else if ty = 0x33 then do
    check (2 ≤ data.length) (-6)
    check (u16At data 0 + 2 ≤ data.length) (-7)
    let share ← keyShares data.length ((data.drop 2).take (u16At data 0)) e.share
    pure { e with share }
  else .ok e

/-- tls.c:446-498 -/
def helloExtensions (want : Int) : (fuel : Nat) → Bytes → HelloExts → Except Int HelloExts
  | 0, _, e => .ok e
  | fuel + 1, l, e =>
    if l.length < 4 then .ok e
    else if l.length < 4 + u16At l 2 then .error (-1)
    else do
      let e ← helloExtension want (u16At l 0) ((l.drop 4).take (u16At l 2)) e
      helloExtensions want fuel (l.drop (4 + u16At l 2)) e

/-- The client's key share. tls.c:436-503 -/
def parseClienthelloExtensions (want : Int) (ext : Bytes) : Except Int Bytes := do
  let e ← helloExtensions want (ext.length + 1) ext ⟨false, false, none⟩
  check (e.tls13 = true) (-10)
  check (e.sigMatch = true) (-11)
  match e.share with
  | some pub => .ok pub
  | none => .error (-12)

/-- What the server takes from a ClientHello. -/
structure CertHello where
  sessionId : Bytes
  clientPub : Bytes
  message : Bytes

/-- tls.c:588-653 -/
def parseClientHello (want : Int) (m : Bytes) : Except Int CertHello := do
  check (4 ≤ m.length ∧ m.getD 0 0 = 1) (-2)
  check (u24At m 1 + 4 ≤ m.length) (-3)
  check (38 ≤ m.length) (-4)
  let sid := m.drop 38
  check (1 ≤ sid.length) (-5)
  let sidLen := (sid.getD 0 0).toNat
  check (sidLen ≤ 32 ∧ 1 + sidLen ≤ sid.length) (-6)
  let suites := sid.drop (1 + sidLen)
  check (2 ≤ suites.length) (-7)
  let csLen := u16At suites 0
  check (2 ≤ csLen ∧ csLen % 2 = 0 ∧ 2 + csLen ≤ suites.length) (-8)
  check (0x1301 ∈ u16s ((suites.drop 2).take csLen)) (-9)
  let methods := suites.drop (2 + csLen)
  check (1 ≤ methods.length) (-10)
  let cmLen := (methods.getD 0 0).toNat
  check (1 + cmLen ≤ methods.length) (-11)
  let exts := methods.drop (1 + cmLen)
  check (2 ≤ exts.length) (-12)
  check (2 + u16At exts 0 ≤ exts.length) (-13)
  match parseClienthelloExtensions want ((exts.drop 2).take (u16At exts 0)) with
  | .ok pub => .ok ⟨(sid.drop 1).take sidLen, pub, m.take (u24At m 1 + 4)⟩
  | .error code => .error (-1400 + code)

/-- tls.c:506-536 -/
def serverHelloBody (rnd : BytesN 32) (sessionId : Bytes) (pub : BytesN 32) : Bytes :=
  [3, 3] ++ rnd.val ++ (UInt8.ofNat sessionId.length :: sessionId) ++ [0x13, 0x01, 0] ++
    be16 46 ++ [0, 0x2B, 0, 2, 3, 4] ++ [0, 0x33, 0, 36, 0, 0x1D, 0, 32] ++ pub.val

/-- `TLS 1.3, server CertificateVerify` -/
def cvContext : Bytes :=
  [84, 76, 83, 32, 49, 46, 51, 44, 32, 115, 101, 114, 118, 101, 114, 32, 67, 101, 114, 116, 105,
    102, 105, 99, 97, 116, 101, 86, 101, 114, 105, 102, 121]

/-- tls.c:545-553 -/
def cvSignInput (hash : BytesN 32) : Bytes := List.replicate 64 0x20 ++ cvContext ++ [0] ++ hash.val

/-- tls.c:168-183: the flight and the transcript. -/
def hsAppend (flight transcript : Bytes) (ty : UInt8) (body : Bytes) (code : Int) :
    Except Int (Bytes × Bytes) :=
  if flight.length + (4 + body.length) > 6144 then .error code
  else .ok (flight ++ hsPack ty body, transcript ++ hsPack ty body)

/-- What the caller of the server put into `tls_conn`. -/
structure ServerConfig where
  certDer : Bytes
  certLen : CInt
  sk : Bytes
  sigAlg : Int
  len_le : certLen.val ≤ certDer.length

/-- The scheme asked for, and after the parse the scheme chosen. -/
def ServerConfig.want (cfg : ServerConfig) : Int := if cfg.sigAlg ≠ 0 then cfg.sigAlg else 0x0807

/-- tls.c:689-699 -/
def certificateBody (cert : Bytes) : Bytes :=
  0 :: (be24 (cert.length + 5) ++ be24 cert.length ++ cert ++ [0, 0])

/-- tls.c:716-748 -/
def certificateVerifyBody (cfg : ServerConfig) (transcript : Bytes) : Except Int Bytes :=
  let toSign := cvSignInput (cr.sha256 transcript)
  if cfg.want = 0x0403 then
    match cr.p256Sign (cr.sha256 toSign) cfg.sk with
    | none => .error (-210)
    | some rs =>
      match cr.p256SigToDer rs with
      | none => .error (-211)
      | some der => .ok ([4, 3] ++ be16 der.val.length ++ der.val)
  else .ok ([8, 7, 0, 0x40] ++ (cr.ed25519Sign toSign cfg.sk).val)

/-- tls.c:674-757: the flight and the transcript after it. -/
def serverFlight (cfg : ServerConfig) (sHsTraffic transcript : Bytes) :
    Except Int (Bytes × Bytes) := do
  let r ← hsAppend [] transcript 8 [0, 0] (-17)
  let r ← hsAppend r.1 r.2 11 (certificateBody (cfg.certDer.take cfg.certLen.val.toNat)) (-20)
  let cv ← certificateVerifyBody cr cfg r.2
  let r ← hsAppend r.1 r.2 15 cv (-21)
  hsAppend r.1 r.2 20 (computeFinished cr sHsTraffic r.2) (-22)

/-- tls.c:555-783 -/
def serverHandshakeCert (cfg : ServerConfig) (rnd priv : BytesN 32) (scratch : Bytes) :
    Prog Endpoint := do
  let m ← recvHandshakePlain .recbuf (-1)
  let hello ← parsed (parseClientHello cfg.want m)
  let shMsg := hsPack 2 (serverHelloBody rnd hello.sessionId (cr.x25519 priv basepoint))
  let sent ← sendRecord 22 shMsg
  require (sent = true) (-15)
  let sent ← sendRecord 20 [1]
  require (sent = true) (-16)
  let transcript := hello.message ++ shMsg
  let hs := computeHandshakeKeys cr (zeros 32) (cr.x25519 priv hello.clientPub) transcript
  require (0 < cfg.certLen.val) (-18)
  note (.certificate cfg.certLen.val)
  require (wrap32 (cfg.certLen.val + 9) ≤ 1600 + 16) (-19)
  store .certBody (cfg.certLen.val.toNat + 9)
  let r ← parsed (serverFlight cr cfg hs.sHsTraffic transcript)
  let sent ← sendEncrypted cr hs.sHs 22 r.1 r.1.length
  require (sent.1 = true) (-23)
  let ap := computeApplicationKeys cr hs.handshakeSecret r.2
  let _ ← recvFinished cr hs.cHs .cfin scratch (computeFinished cr hs.cHsTraffic r.2)
    (-24) (-25) (-26)
  pure ⟨true, ap.1, ap.2⟩

/-! ## Certificates: the client -/

/-- What the caller of the client put into `tls_conn`. -/
structure ClientConfig where
  serverName : Bytes
  caStore : Option CaStore
  now : Nat

/-- The server name extension; a NULL and an empty name send none.
tls.c:851-866 -/
def serverNameExt (name : Bytes) : Bytes :=
  if name = [] then []
  else [0, 0] ++ be16 (name.length + 5) ++ be16 (name.length + 3) ++ [0] ++ be16 name.length ++ name

/-- tls.c:803-846 -/
def clientHelloExts (pub : BytesN 32) (name : Bytes) : Bytes :=
  [0, 0x2B, 0, 3, 2, 3, 4] ++ [0, 0x0A, 0, 4, 0, 2, 0, 0x1D] ++
    [0, 0x0D, 0, 12, 0, 10, 4, 3, 8, 4, 8, 5, 8, 6, 8, 7] ++
    [0, 0x33, 0, 38, 0, 36, 0, 0x1D, 0, 32] ++ pub.val ++ serverNameExt name

/-- tls.c:791-873 -/
def clientHelloBody (rnd pub : BytesN 32) (name : Bytes) : Bytes :=
  [3, 3] ++ rnd.val ++ [0] ++ [0, 2, 0x13, 0x01] ++ [1, 0] ++
    be16 (clientHelloExts pub name).length ++ clientHelloExts pub name

/-- The last X25519 key share of a ServerHello. tls.c:877-894 -/
def serverShare : (fuel : Nat) → Bytes → Option Bytes → Except Int (Option Bytes)
  | 0, _, acc => .ok acc
  | fuel + 1, l, acc =>
    if l.length < 4 then .ok acc
    else if l.length < 4 + u16At l 2 then .error (-11)
    else
      let data := (l.drop 4).take (u16At l 2)
      serverShare fuel (l.drop (4 + u16At l 2))
        (if u16At l 0 = 0x33 ∧ 36 ≤ u16At l 2 ∧ u16At data 0 = 0x1D ∧ u16At data 2 = 32
          then some ((data.drop 4).take 32) else acc)

/-- The server's key share and the bytes hashed. tls.c:946-971 -/
def parseServerHello (m : Bytes) : Except Int (Bytes × Bytes) := do
  check (4 ≤ m.length ∧ m.getD 0 0 = 2) (-4)
  check (u24At m 1 + 4 ≤ m.length) (-5)
  check (38 ≤ m.length) (-6)
  let sidLen := (m.getD 38 0).toNat
  check (sidLen ≤ 32 ∧ 39 + sidLen ≤ m.length) (-7)
  let r := m.drop (39 + sidLen)
  check (3 ≤ r.length) (-8)
  let r := r.drop 3
  check (2 ≤ r.length) (-9)
  check (2 + u16At r 0 ≤ r.length) (-10)
  match ← serverShare (r.length + 1) ((r.drop 2).take (u16At r 0)) none with
  | some pub => .ok (pub, m.take (u24At m 1 + 4))
  | none => .error (-11)

/-- The first certificate of a Certificate message. tls.c:1033-1045 -/
def leafCert (body : Bytes) : Except Int Bytes := do
  check (1 ≤ body.length) (-110)
  let q := 1 + (body.getD 0 0).toNat
  check (q + 3 ≤ body.length) (-111)
  check (q + 6 ≤ body.length ∧ 3 ≤ u24At body q) (-112)
  check (q + 6 + u24At body (q + 3) ≤ body.length) (-113)
  pure ((body.drop (q + 6)).take (u24At body (q + 3)))

/-- The signature of a CertificateVerify under the key of the certificate; `hash` is of
the transcript before the message. tls.c:1074-1119 -/
def checkCertVerify (key : Option (Nat × Bytes)) (hash : BytesN 32) (body : Bytes) :
    Except Int Unit :=
  match key with
  | none => .error (-120)
  | some (alg, pk) => do
    check (4 ≤ body.length) (-121)
    check (4 + u16At body 2 ≤ body.length) (-122)
    let sig := (body.drop 4).take (u16At body 2)
    check (u16At body 0 = alg) (-123)
    if alg = 0x0807 then do
      check (u16At body 2 = 64) (-124)
      check (cr.ed25519Verify sig (cvSignInput hash) pk = true) (-125)
    else if alg = 0x0403 then
      match cr.p256SigFromDer sig with
      | none => .error (-126)
      | some rs => check (cr.p256Verify rs (cr.sha256 (cvSignInput hash)) (pk.drop 1) = true) (-127)
    else .error (-128)

/-- The state of the client while it reads the server's flight. `seen` lists the
messages that were processed. -/
structure FlightState where
  buf : Bytes
  keys : Keys
  transcript : Bytes
  certPk : Option (Nat × Bytes)
  finished : Option (Bytes × Bytes)
  seen : List (UInt8 × Bytes)

/-- The first whole message of the buffer and what is behind it. -/
def nextMessage (l : Bytes) : Option ((UInt8 × Bytes) × Bytes) :=
  if l.length < 4 then none
  else if l.length < 4 + u24At l 1 then none
  else some ((l.getD 0 0, (l.drop 4).take (u24At l 1)), l.drop (4 + u24At l 1))

def FlightState.append (st : FlightState) (m : UInt8 × Bytes) : FlightState :=
  { st with transcript := st.transcript ++ hsPack m.1 m.2, seen := st.seen ++ [m] }

/-- The `Certificate` branch. tls.c:1027-1070 -/
def processCertificate (cfg : ClientConfig) (st : FlightState) (m : UInt8 × Bytes) :
    Prog FlightState := do
  let der ← parsed (leafCert m.2)
  note (.leafKey der)
  let key ← expect (-114) (extractPubkey der)
  store .certPk key.2.length
  require (∀ store ∈ cfg.caStore, verifyChain cr der [] store cfg.now = true) (-115)
  pure { st.append m with certPk := some key }

/-- tls.c:1027-1121 -/
def processMessage (cfg : ClientConfig) (st : FlightState) (m : UInt8 × Bytes) : Prog FlightState :=
  if m.1 = 11 then processCertificate cr cfg st m
  else if m.1 = 15 then do
    parsed (checkCertVerify cr st.certPk (cr.sha256 st.transcript) m.2)
    pure (st.append m)
  else if m.1 = 20 then do
    require (m.2.length ≤ 32) (-14)
    pure { st.append m with finished := some (m.2, st.transcript) }
  else pure (st.append m)

/-- The messages that are whole. tls.c:1020-1126 -/
def walkMessages (cfg : ClientConfig) : (fuel : Nat) → FlightState → Prog FlightState
  | 0, st => pure st
  | fuel + 1, st =>
    match nextMessage st.buf with
    | none => pure st
    | some (m, rest) => do
      let st ← processMessage cr cfg { st with buf := rest } m
      walkMessages cfg fuel st

/-- tls.c:1009-1135 -/
def flightLoop (cfg : ClientConfig) : (fuel : Nat) → FlightState → Prog FlightState
  | 0, _ => throw (.ret (-12))
  | fuel + 1, st => do
    let r ← recvHandshake cr st.keys .recbuf2 (-12)
    require (st.buf.length + r.1.len ≤ 6144 + 16) (-13)
    let buf := st.buf ++ r.1.content
    let st ← walkMessages cr cfg buf.length { st with buf, keys := r.2 }
    if st.finished.isSome then pure st else flightLoop cfg fuel st

/-- The Finished of the flight, with the transcript before it.
tls.c:1138-1148 -/
def checkServerFinished (sHsTraffic : Bytes) : Option (Bytes × Bytes) → Except Int Unit
  | none => .error (-12)
  | some (verify, transcript) => do
    check (verify.length = 32) (-15)
    check (verify = (computeFinished cr sHsTraffic transcript).val) (-16)

/-- What the client ends with: its keys, the hellos it hashed, the flight. -/
structure ClientDone where
  endpoint : Endpoint
  hellos : Bytes
  flight : FlightState

def certClientHello (rnd pub : BytesN 32) (name : Bytes) : Bytes :=
  hsPack 1 (clientHelloBody rnd pub name)

/-- tls.c:896-1162 -/
def clientHandshakeCert (cfg : ClientConfig) (rnd priv : BytesN 32) : Prog ClientDone := do
  note (.serverName cfg.serverName.length)
  store .chBody (clientHelloBody rnd (cr.x25519 priv basepoint) cfg.serverName).length
  let chMsg := certClientHello rnd (cr.x25519 priv basepoint) cfg.serverName
  let sent ← sendRecord 22 chMsg
  require (sent = true) (-1)
  let sent ← sendRecord 20 [1]
  require (sent = true) (-2)
  let m ← recvHandshakePlain .recbuf (-3)
  let hello ← parsed (parseServerHello m)
  let hellos := chMsg ++ hello.2
  let hs := computeHandshakeKeys cr (zeros 32) (cr.x25519 priv hello.1) hellos
  let s ← get
  let st ← flightLoop cr cfg (s.inp.length + 1) ⟨[], hs.sHs, hellos, none, none, []⟩
  parsed (checkServerFinished cr hs.sHsTraffic st.finished)
  let ap := computeApplicationKeys cr hs.handshakeSecret st.transcript
  sendFinished cr hs.cHs (computeFinished cr hs.cHsTraffic st.transcript) (-17)
  pure ⟨⟨false, ap.1, ap.2⟩, hellos, st⟩

end AdventOS.Tls
