import AdventOS.Core.Duplex
import AdventOS.Tls.BufferBounds
import AdventOS.Tls.Messages
import AdventOS.Tls.Runs
import AdventOS.Tls.ServerAuth

/-!
# Handshake agreement

The client and the server of each mode of `libcrypto/tls.c` against each other, over two
reliable byte channels that deliver in any order and in pieces of any size. What a side
has written by the time it waits for more is a function of what was delivered to it
(`output`), so the two are an instance of `Duplex`.

Assumed of the primitives: X25519 shared secrets commute, and the key pair of the server
signs what verifies under the certificate (`KeyPair`). AES-GCM needs no assumption.

* `Plays`: a run of the two sides, step by step, with what each does when only a part of
  a record is there;
* `handshake_agreement`;
* `long_certificate_refused`: but not for every certificate.
-/
namespace AdventOS.Tls
open List

/-- What a process has written when it has read `inp` and waits, or is done. -/
def output {α : Type} (p : Prog α) (inp : Bytes) : Bytes := (after (p ⟨inp, [], [], []⟩)).sent

theorem Does.output_eq {α : Type} {p : Prog α} {inp out rest : Bytes} {a : α}
    (h : Does p inp a out rest) : output p inp = out := by
  obtain ⟨log, hp⟩ := h [] []
  unfold output
  rw [hp]
  rfl

theorem Starves.output_eq {α : Type} {p : Prog α} {inp out : Bytes} (h : Starves p inp out) :
    output p inp = out := by
  obtain ⟨code, log, hp⟩ := h [] []
  unfold output
  rw [hp]
  rfl

/-- The client opens with `M` and closes with `N`; the server answers with `A` to the
part `K` of the opening. -/
structure Plays (client server : Prog Endpoint) (K M N A : Bytes) (cAp sAp : Keys) : Prop where
  opening : K <+: M
  opens : ∀ a, a <+: A → a ≠ A → Starves client a M
  closes : Does client A ⟨false, cAp, sAp⟩ (M ++ N) []
  waits : ∀ b, b <+: K → b ≠ K → Starves server b []
  answers : ∀ b, K <+: b → b <+: M ++ N → b ≠ M ++ N → Starves server b A
  ends : Does server (M ++ N) ⟨true, cAp, sAp⟩ A []

/-- Both sides have returned 0 on what was delivered, and hold the same application keys
with both counters at zero; no byte is left over. -/
def Established (client server : Prog Endpoint) (w : Duplex.Delivered UInt8) : Prop :=
  ∃ (c s : Endpoint) (u v : Conn), client ⟨w.1, [], [], []⟩ = .ok c u ∧
    server ⟨w.2, [], [], []⟩ = .ok s v ∧ u.inp = [] ∧ v.inp = [] ∧
    c.isServer = false ∧ s.isServer = true ∧ c.cAp = s.cAp ∧ c.sAp = s.sAp ∧
    c.cAp.seq = 0 ∧ c.sAp.seq = 0

/-- Every schedule ends, with both sides established. -/
def Agrees (client server : Prog Endpoint) : Prop :=
  ∃ w, Duplex.Converges (output client) (output server) w ∧ Established client server w

theorem Plays.agrees {client server : Prog Endpoint} {K M N A : Bytes} {cAp sAp : Keys}
    (h : Plays client server K M N A cAp sAp) (hc : cAp.seq = 0) (hs : sAp.seq = 0) :
    Agrees client server := by
  refine ⟨(A, M ++ N), ?_, ?_⟩
  · refine Duplex.exchange h.opening (fun a ha hne => (h.opens a ha hne).output_eq)
      h.closes.output_eq (fun b hb hne => (h.waits b hb hne).output_eq) fun b hK hb => ?_
    by_cases he : b = M ++ N
    · rw [he]
      exact h.ends.output_eq
    · exact (h.answers b hK hb he).output_eq
  · obtain ⟨log, hclient⟩ := h.closes [] []
    obtain ⟨log', hserver⟩ := h.ends [] []
    exact ⟨_, _, _, _, hclient, hserver, rfl, rfl, rfl, rfl, rfl, rfl, hc, hs⟩

theorem noCcs {l m : Bytes} (h : l <+: m) : l <+: ccsBytes [] ++ m := h

variable (cr : Primitives)

/-- Both sides compute the same shared secret. -/
def SharedSecrets : Prop :=
  ∀ a b : Bytes, cr.x25519 a (cr.x25519 b basepoint).val = cr.x25519 b (cr.x25519 a basepoint).val

/-! ## PSK -/

theorem pskClientHello_length {rnd pub : BytesN 32} {pskId : Bytes} (h : pskId.length ≤ 64) :
    (pskClientHello rnd pskId pub).length ≤ 134 := by
  rw [pskClientHello, hsPack_length]
  simp only [length_append, be16_length]
  omega

theorem psk_plays (hx : SharedSecrets cr) {pskId : Bytes} (hid : pskId.length ≤ 64)
    (rc pc rs ps : BytesN 32) (psk sc ss : Bytes) :
    ∃ K M N A cAp sAp, Plays (clientHandshakePsk cr rc pc psk pskId sc)
      (serverHandshakePsk cr rs ps psk pskId ss) K M N A cAp sAp ∧ cAp.seq = 0 ∧ sAp.seq = 0 := by
  obtain ⟨pubC, hpubC⟩ : ∃ pubC, pubC = cr.x25519 pc.val basepoint := ⟨_, rfl⟩
  obtain ⟨pubS, hpubS⟩ : ∃ pubS, pubS = cr.x25519 ps.val basepoint := ⟨_, rfl⟩
  obtain ⟨ch, hch⟩ : ∃ ch, ch = pskClientHello rc pskId pubC := ⟨_, rfl⟩
  obtain ⟨sh, hsh⟩ : ∃ sh, sh = hsPack 2 (rs.val ++ pubS.val) := ⟨_, rfl⟩
  obtain ⟨hs, hhs⟩ : ∃ hs, hs = computeHandshakeKeys cr psk (cr.x25519 pc.val pubS.val) (ch ++ sh) :=
    ⟨_, rfl⟩
  obtain ⟨vs, hvs⟩ : ∃ vs, vs = computeFinished cr hs.sHsTraffic (ch ++ sh) := ⟨_, rfl⟩
  obtain ⟨vc, hvc⟩ : ∃ vc, vc = computeFinished cr hs.cHsTraffic (ch ++ sh ++ hsPack 20 vs.val) :=
    ⟨_, rfl⟩
  obtain ⟨ap, hap⟩ : ∃ ap, ap = computeApplicationKeys cr hs.handshakeSecret
    (ch ++ sh ++ hsPack 20 vs.val ++ hsPack 20 vc.val) := ⟨_, rfl⟩
  have hshared : cr.x25519 ps.val pubC.val = cr.x25519 pc.val pubS.val := by
    rw [hpubC, hpubS, hx]
  have hchlen : ch.length ≤ 134 := hch ▸ pskClientHello_length hid
  have hshlen : sh.length = 68 := by
    rw [hsh, hsPack_length, length_append, rs.property, pubS.property]
  have hparseC : parsePskClientHello pskId ch = .ok ⟨pubC.val, ch⟩ := by
    rw [hch]
    exact parsePskClientHello_pack rc pubC hid
  have hparseS : parsePskServerHello sh = .ok (pubS.val, sh) := by
    rw [hsh]
    exact parsePskServerHello_pack rs pubS
  have hcap : 37 ≤ Array.cap .cfin := by decide
  have hcap' : 37 ≤ Array.cap .sfin := by decide
  have hrec : ∀ l : Bytes, l.length ≤ 134 → l.length ≤ Array.cap .recbuf := fun l hl => by
    change l.length ≤ 6144 + 16
    omega
  refine ⟨plainRecord 22 ch, plainRecord 22 ch, sealedRecord cr hs.cHs 22 (hsPack 20 vc.val),
    plainRecord 22 sh ++ sealedRecord cr hs.sHs 22 (hsPack 20 vs.val), ap.1, ap.2,
    ⟨prefix_rfl, fun a ha hne => ?_, ?_, fun b hb hne => ?_, fun b hK hb hne => ?_, ?_⟩,
    by rw [hap]; rfl, by rw [hap]; rfl⟩
  · -- the client waits for the server's hello, or for its Finished
    refine Does.silent_starves (does_note _ _) (Does.silent_starves (does_store ?_ _) ?_)
    · change 32 + 2 + pskId.length + 32 ≤ 32 + 2 + 64 + 32
      omega
    dsimp only
    rw [← hpubC, ← hch]
    refine (Does.starves (does_sendRecord (by omega) _)
      (Does.silent_starves (does_require rfl _ _) ?_)).of_eq (append_nil _)
    rcases prefix_append_cases ha with ⟨hp, hnp⟩ | ⟨r, hr, hrp⟩
    · exact (starves_recvHandshakePlain _ (by omega) (hrec _ (by omega)) hp hnp).bind
    · have hrne : r ≠ sealedRecord cr hs.sHs 22 (hsPack 20 vs.val) := fun he => hne (by rw [hr, he])
      rw [hr]
      refine Does.silent_starves (does_recvHandshakePlain _ _ (by omega) (hrec _ (by omega)))
        (Does.silent_starves (does_parsed hparseS _) ?_)
      rw [← hhs, ← hvs]
      exact (starves_recvFinished cr _ _ _ hcap' (noCcs hrp) hrne).bind
  · refine Does.silent (does_note _ _) (Does.silent (does_store ?_ _) ?_)
    · change 32 + 2 + pskId.length + 32 ≤ 32 + 2 + 64 + 32
      omega
    dsimp only
    rw [← hpubC, ← hch]
    refine (Does.bind (does_sendRecord (by omega) _) (Does.silent (does_require rfl _ _) ?_))
    refine Does.silent (does_recvHandshakePlain _ _ (by omega) (hrec _ (by omega)))
      (Does.silent (does_parsed hparseS _) ?_)
    rw [← hhs, ← hvs, ← append_nil (sealedRecord cr hs.sHs 22 (hsPack 20 vs.val))]
    refine Does.silent (does_recvFinished cr [] vs sc _ _ _ _ hcap') ?_
    rw [← hvc, ← hap, ← append_nil (sealedRecord cr hs.cHs 22 (hsPack 20 vc.val))]
    exact Does.bind (does_sendFinished cr _ _ _ _) (Does.pure _ _)
  · exact (starves_recvHandshakePlain _ (by omega) (hrec _ (by omega)) hb hne).bind
  · obtain ⟨r, hr⟩ := hK
    rw [← hr] at hb hne ⊢
    have hrp := (prefix_append_right_inj _).1 hb
    have hrne : r ≠ sealedRecord cr hs.cHs 22 (hsPack 20 vc.val) := fun he => hne (by rw [he])
    refine Does.silent_starves (does_recvHandshakePlain _ _ (by omega) (hrec _ (by omega)))
      (Does.silent_starves (does_parsed hparseC _) ?_)
    dsimp only
    rw [← hpubS, ← hsh, hshared, ← hhs, ← hvs, ← hvc]
    refine Does.starves (does_sendRecord (by omega) _)
      (Does.silent_starves (does_require rfl _ _) ?_)
    refine (Does.starves (does_sendFinished cr _ _ _ _) ?_).of_eq (append_nil _)
    exact (starves_recvFinished cr _ _ _ hcap (noCcs hrp) hrne).bind
  · refine Does.silent (does_recvHandshakePlain _ _ (by omega) (hrec _ (by omega)))
      (Does.silent (does_parsed hparseC _) ?_)
    dsimp only
    rw [← hpubS, ← hsh, hshared, ← hhs, ← hvs, ← hvc]
    refine Does.bind (does_sendRecord (by omega) _) (Does.silent (does_require rfl _ _) ?_)
    refine (Does.bind (does_sendFinished cr _ _ _ _) ?_).of_eq (append_nil _)
    rw [← append_nil (sealedRecord cr hs.cHs 22 (hsPack 20 vc.val))]
    refine Does.silent (does_recvFinished cr [] vc ss _ _ _ _ hcap) ?_
    rw [← hap]
    exact Does.pure _ _

/-! ## Certificates: the flight -/

section
variable {cfg : ServerConfig} {client : ClientConfig} {alg : Nat} {pk : Bytes}

theorem hsAppend_run {flight transcript body : Bytes} {ty : UInt8} (code : Int)
    (h : flight.length + (4 + body.length) ≤ 6144) :
    hsAppend flight transcript ty body code =
      .ok (flight ++ hsPack ty body, transcript ++ hsPack ty body) := by
  unfold hsAppend
  rw [if_neg (by omega)]

theorem certificateBody_length (cert : Bytes) :
    (certificateBody cert).length = cert.length + 9 := by
  unfold certificateBody be24
  simp only [length_cons, length_append, be16_length, length_nil]
  omega

/-- The messages of the flight, the last with the Finished `verify`. -/
def flightMessages (cert cv : Bytes) (verify : BytesN 32) : List (UInt8 × Bytes) :=
  [(8, [0, 0]), (11, certificateBody cert), (15, cv), (20, verify.val)]

theorem messages_flight (cert cv : Bytes) (verify : BytesN 32) :
    messages (flightMessages cert cv verify) = hsPack 8 [0, 0] ++ (hsPack 11 (certificateBody cert) ++
      (hsPack 15 cv ++ (hsPack 20 verify.val ++ []))) := rfl

variable {cv hellos inp : Bytes} {fuel : Nat}

theorem serverFlight_run {traffic transcript : Bytes} {verify : BytesN 32}
    (hcert : (cfg.certDer.take cfg.certLen.val.toNat).length ≤ 1607) (hcvlen : cv.length ≤ 76)
    (hcv : certificateVerifyBody cr cfg (transcript ++ hsPack 8 [0, 0] ++
      hsPack 11 (certificateBody (cfg.certDer.take cfg.certLen.val.toNat))) = .ok cv)
    (hverify : verify = computeFinished cr traffic (transcript ++ hsPack 8 [0, 0] ++
      hsPack 11 (certificateBody (cfg.certDer.take cfg.certLen.val.toNat)) ++ hsPack 15 cv)) :
    serverFlight cr cfg traffic transcript =
      .ok (messages (flightMessages (cfg.certDer.take cfg.certLen.val.toNat) cv verify),
        transcript ++ messages (flightMessages (cfg.certDer.take cfg.certLen.val.toNat) cv verify)) := by
  have hbody := certificateBody_length (cfg.certDer.take cfg.certLen.val.toNat)
  obtain ⟨m8, hm8⟩ : ∃ m, m = hsPack 8 [0, 0] := ⟨_, rfl⟩
  obtain ⟨m11, hm11⟩ : ∃ m, m = hsPack 11
    (certificateBody (cfg.certDer.take cfg.certLen.val.toNat)) := ⟨_, rfl⟩
  obtain ⟨m15, hm15⟩ : ∃ m, m = hsPack 15 cv := ⟨_, rfl⟩
  have h8 : m8.length = 6 := by rw [hm8, hsPack_length]; rfl
  have h11 : m11.length ≤ 1620 := by rw [hm11, hsPack_length]; omega
  have h15 : m15.length ≤ 80 := by rw [hm15, hsPack_length]; omega
  rw [messages_flight]
  rw [← hm8, ← hm11] at hcv hverify ⊢
  rw [← hm15] at hverify ⊢
  unfold serverFlight
  rw [hsAppend_run _ (by decide), ok_bind, nil_append, ← hm8]
  dsimp only
  rw [hsAppend_run _ (by omega), ok_bind, ← hm11]
  rw [hcv, ok_bind, hsAppend_run _ (by rw [length_append]; omega), ok_bind, ← hm15]
  rw [← hverify, hsAppend_run _ (by rw [length_append, length_append]; omega)]
  simp only [append_assoc, append_nil]

/-! ## Certificates: the client on the flight -/

theorem does_walk {st st1 st2 : FlightState} {m : UInt8 × Bytes} {rest : Bytes}
    (hlen : m.2.length < 2 ^ 24) (hbuf : st.buf = hsPack m.1 m.2 ++ rest)
    (hm : Does (processMessage cr client { st with buf := rest } m) inp st1 [] inp)
    (hw : Does (walkMessages cr client fuel st1) inp st2 [] inp) :
    Does (walkMessages cr client (fuel + 1) st) inp st2 [] inp := by
  unfold walkMessages
  rw [hbuf, nextMessage_hsPack hlen]
  exact hm.silent hw

theorem does_walk_done {st : FlightState} (hbuf : st.buf = []) :
    Does (walkMessages cr client fuel st) inp st [] inp := by
  cases fuel with
  | zero => exact Does.pure st inp
  | succ fuel =>
    unfold walkMessages
    rw [hbuf]
    exact Does.pure st inp

/-- The state of the client after the flight. -/
def flightDone (keys : Keys) (hellos cert cv : Bytes) (key : Nat × Bytes) (verify : BytesN 32) :
    FlightState where
  buf := []
  keys := keys
  transcript := hellos ++ messages (flightMessages cert cv verify)
  certPk := some key
  finished := some (verify.val, hellos ++ hsPack 8 [0, 0] ++ hsPack 11 (certificateBody cert) ++
    hsPack 15 cv)
  seen := flightMessages cert cv verify

theorem does_walkFlight (fuel : Nat) (keys : Keys) {cert : Bytes} (inp : Bytes)
    (verify : BytesN 32) (hcert : cert.length ≤ 1607) (hcvlen : cv.length ≤ 76)
    (hkey : extractPubkey cert = some (alg, pk)) (hpk : pk.length ≤ 65)
    (hchain : ∀ store ∈ client.caStore, verifyChain cr cert [] store client.now = true)
    (hcv : checkCertVerify cr (some (alg, pk)) (cr.sha256 (hellos ++ hsPack 8 [0, 0] ++
      hsPack 11 (certificateBody cert))) cv = .ok ()) :
    Does (walkMessages cr client (fuel + 4)
        ⟨messages (flightMessages cert cv verify), keys, hellos, none, none, []⟩) inp
      (flightDone keys hellos cert cv (alg, pk) verify) [] inp := by
  have hver := verify.property
  have hbody := certificateBody_length cert
  have hend : flightDone keys hellos cert cv (alg, pk) verify =
      ⟨[], keys, hellos ++ hsPack 8 [0, 0] ++ hsPack 11 (certificateBody cert) ++ hsPack 15 cv ++
        hsPack 20 verify.val, some (alg, pk), some (verify.val, hellos ++ hsPack 8 [0, 0] ++
        hsPack 11 (certificateBody cert) ++ hsPack 15 cv), flightMessages cert cv verify⟩ := by
    rw [flightDone, messages_flight]
    simp only [append_assoc, append_nil]
  rw [hend, messages_flight]
  have h8 : Does (processMessage cr client ⟨hsPack 11 (certificateBody cert) ++ (hsPack 15 cv ++
      (hsPack 20 verify.val ++ [])), keys, hellos, none, none, []⟩ (8, [0, 0])) inp
      ⟨hsPack 11 (certificateBody cert) ++ (hsPack 15 cv ++ (hsPack 20 verify.val ++ [])), keys,
        hellos ++ hsPack 8 [0, 0], none, none, [(8, [0, 0])]⟩ [] inp :=
    Does.pure _ inp
  have h11 : Does (processMessage cr client ⟨hsPack 15 cv ++ (hsPack 20 verify.val ++ []), keys,
      hellos ++ hsPack 8 [0, 0], none, none, [(8, [0, 0])]⟩ (11, certificateBody cert)) inp
      ⟨hsPack 15 cv ++ (hsPack 20 verify.val ++ []), keys,
        hellos ++ hsPack 8 [0, 0] ++ hsPack 11 (certificateBody cert), some (alg, pk), none,
        [(8, [0, 0]), (11, certificateBody cert)]⟩ [] inp := by
    refine Does.silent (does_parsed (leafCert_pack hcert) inp) (Does.silent (does_note _ inp) ?_)
    refine Does.silent (does_expect hkey _ inp) (Does.silent (does_store hpk inp) ?_)
    exact Does.silent (does_require hchain _ inp) (Does.pure _ inp)
  have h15 : Does (processMessage cr client ⟨hsPack 20 verify.val ++ [], keys,
      hellos ++ hsPack 8 [0, 0] ++ hsPack 11 (certificateBody cert), some (alg, pk), none,
      [(8, [0, 0]), (11, certificateBody cert)]⟩ (15, cv)) inp
      ⟨hsPack 20 verify.val ++ [], keys,
        hellos ++ hsPack 8 [0, 0] ++ hsPack 11 (certificateBody cert) ++ hsPack 15 cv,
        some (alg, pk), none, [(8, [0, 0]), (11, certificateBody cert), (15, cv)]⟩ [] inp :=
    Does.silent (does_parsed hcv inp) (Does.pure _ inp)
  have h20 : Does (processMessage cr client ⟨[], keys,
      hellos ++ hsPack 8 [0, 0] ++ hsPack 11 (certificateBody cert) ++ hsPack 15 cv,
      some (alg, pk), none, [(8, [0, 0]), (11, certificateBody cert), (15, cv)]⟩
      (20, verify.val)) inp
      ⟨[], keys, hellos ++ hsPack 8 [0, 0] ++ hsPack 11 (certificateBody cert) ++ hsPack 15 cv ++
        hsPack 20 verify.val, some (alg, pk), some (verify.val, hellos ++ hsPack 8 [0, 0] ++
        hsPack 11 (certificateBody cert) ++ hsPack 15 cv), flightMessages cert cv verify⟩ [] inp :=
    Does.silent (does_require hver.le _ inp) (Does.pure _ inp)
  exact does_walk cr (by decide) rfl h8 <| does_walk cr (by dsimp only; omega) rfl h11 <|
    does_walk cr (by dsimp only; omega) rfl h15 <| does_walk cr (by dsimp only; omega) rfl h20 <|
      does_walk_done cr rfl

theorem does_flightLoop {keys : Keys} {cert : Bytes} {cs : List Ccs}
    {verify : BytesN 32} (hcert : cert.length ≤ 1607) (hcvlen : cv.length ≤ 76)
    (hkey : extractPubkey cert = some (alg, pk)) (hpk : pk.length ≤ 65)
    (hchain : ∀ store ∈ client.caStore, verifyChain cr cert [] store client.now = true)
    (hcv : checkCertVerify cr (some (alg, pk)) (cr.sha256 (hellos ++ hsPack 8 [0, 0] ++
      hsPack 11 (certificateBody cert))) cv = .ok ()) :
    Does (flightLoop cr client (fuel + 1) ⟨[], keys, hellos, none, none, []⟩)
      (ccsBytes cs ++ (sealedRecord cr keys 22 (messages (flightMessages cert cv verify)) ++ []))
      (flightDone keys.next hellos cert cv (alg, pk) verify) [] [] := by
  have hver := verify.property
  have hbody := certificateBody_length cert
  obtain ⟨F, hF⟩ : ∃ F, F = messages (flightMessages cert cv verify) := ⟨_, rfl⟩
  have hlen : F.length = 6 + (13 + cert.length) + (4 + cv.length) + 36 := by
    rw [hF, messages_flight]
    simp only [length_append, hsPack_length, length_cons, length_nil, hbody, hver]
    omega
  have hcontent : Record.content ⟨22, F ++ [22], F.length⟩ = F := take_left
  have hfuel : F.length = F.length - 4 + 4 := by omega
  have hcap : F.length + 1 ≤ Array.cap .recbuf2 := by
    change F.length + 1 ≤ 6144 + 16
    omega
  have hwalk := does_walkFlight cr (F.length - 4) keys.next [] verify hcert hcvlen hkey hpk hchain hcv
  rw [← hF, ← hfuel] at hwalk
  rw [← hF]
  refine Does.silent (does_recvHandshake cr cs _ [] (by omega) hcap) ?_
  refine Does.silent (does_require ?_ _ _) ?_
  · change 0 + F.length ≤ 6144 + 16
    omega
  rw [hcontent, nil_append]
  exact Does.silent hwalk (Does.pure _ _)

theorem starves_flightLoop {keys : Keys} {F : Bytes} {cs : List Ccs}
    (hF : F.length ≤ 6144) (h : inp <+: ccsBytes cs ++ sealedRecord cr keys 22 F)
    (hne : inp ≠ ccsBytes cs ++ sealedRecord cr keys 22 F) :
    Starves (flightLoop cr client (fuel + 1) ⟨[], keys, hellos, none, none, []⟩) inp [] := by
  have hcap : F.length + 1 ≤ Array.cap .recbuf2 := by
    change F.length + 1 ≤ 6144 + 16
    omega
  exact (starves_recvHandshake cr _ hF hcap h hne).bind

/-! ## Certificates: both sides -/

theorem one_fits : ([1] : Bytes).length ≤ 6144 + 256 := by decide

/-- The ChangeCipherSpec that both sides send. -/
def helloCcs : Ccs := ⟨3, 3, [1], one_fits⟩

theorem ccsBytes_hello : ccsBytes [helloCcs] = plainRecord 20 [1] := rfl

theorem certClientHello_length (rnd pub : BytesN 32) {name : Bytes} (h : name.length ≤ 387) :
    (certClientHello rnd pub name).length ≤ 516 := by
  have := (clientHelloBody_length rnd pub name).2 h
  rw [certClientHello, hsPack_length]
  omega

theorem serverHello_length (rnd pub : BytesN 32) :
    (hsPack 2 (serverHelloBody rnd [] pub)).length = 90 := by
  have hrnd := rnd.property
  have hpub := pub.property
  rw [hsPack_length, serverHelloBody]
  simp only [length_append, length_cons, length_nil, be16_length, hrnd, hpub]

theorem KeyPair.certLen_pos (h : KeyPair cr cfg alg pk) : 0 < cfg.certLen.val := by
  by_contra hle
  have hzero : cfg.certLen.val.toNat = 0 := by omega
  have hcert := h.cert
  rw [hzero, take_zero] at hcert
  cases hcert

theorem cert_plays (hx : SharedSecrets cr) (hpair : KeyPair cr cfg alg pk)
    (hlen : cfg.certLen.val ≤ 1607) (hname : client.serverName.length ≤ 387)
    (hchain : ∀ store ∈ client.caStore,
      verifyChain cr (cfg.certDer.take cfg.certLen.val.toNat) [] store client.now = true)
    (rc pc rs ps : BytesN 32) (ss : Bytes) :
    ∃ K M N A cAp sAp, Plays
      (do let d ← clientHandshakeCert cr client rc pc; pure d.endpoint)
      (serverHandshakeCert cr cfg rs ps ss) K M N A cAp sAp ∧ cAp.seq = 0 ∧ sAp.seq = 0 := by
  obtain ⟨pubC, hpubC⟩ : ∃ pubC, pubC = cr.x25519 pc.val basepoint := ⟨_, rfl⟩
  obtain ⟨pubS, hpubS⟩ : ∃ pubS, pubS = cr.x25519 ps.val basepoint := ⟨_, rfl⟩
  obtain ⟨ch, hch⟩ : ∃ ch, ch = certClientHello rc pubC client.serverName := ⟨_, rfl⟩
  obtain ⟨sh, hsh⟩ : ∃ sh, sh = hsPack 2 (serverHelloBody rs [] pubS) := ⟨_, rfl⟩
  obtain ⟨hs, hhs⟩ : ∃ hs, hs = computeHandshakeKeys cr (zeros 32).val
    (cr.x25519 pc.val pubS.val) (ch ++ sh) := ⟨_, rfl⟩
  obtain ⟨cert, hcert⟩ : ∃ cert, cert = cfg.certDer.take cfg.certLen.val.toNat := ⟨_, rfl⟩
  have hcertlen : cert.length ≤ 1607 := by
    rw [hcert, length_take]
    omega
  obtain ⟨cv, hcvbody, hcvlen, hcvok⟩ := hpair.signs (ch ++ sh ++ hsPack 8 [0, 0] ++
    hsPack 11 (certificateBody cert))
  obtain ⟨vs, hvs⟩ : ∃ vs, vs = computeFinished cr hs.sHsTraffic (ch ++ sh ++ hsPack 8 [0, 0] ++
    hsPack 11 (certificateBody cert) ++ hsPack 15 cv) := ⟨_, rfl⟩
  obtain ⟨F, hF⟩ : ∃ F, F = messages (flightMessages cert cv vs) := ⟨_, rfl⟩
  obtain ⟨vc, hvc⟩ : ∃ vc, vc = computeFinished cr hs.cHsTraffic (ch ++ sh ++ F) := ⟨_, rfl⟩
  obtain ⟨ap, hap⟩ : ∃ ap, ap = computeApplicationKeys cr hs.handshakeSecret (ch ++ sh ++ F) :=
    ⟨_, rfl⟩
  have hflight : serverFlight cr cfg hs.sHsTraffic (ch ++ sh) = .ok (F, ch ++ sh ++ F) := by
    have := serverFlight_run cr (hcert ▸ hcertlen) hcvlen (hcert ▸ hcvbody)
      (hcert ▸ hvs)
    rw [← hcert, ← hF] at this
    exact this
  have hFlen : F.length ≤ 6144 := serverFlight_length cr hflight
  have hshared : cr.x25519 ps.val pubC.val = cr.x25519 pc.val pubS.val := by
    rw [hpubC, hpubS, hx]
  have hchlen : ch.length ≤ 516 := hch ▸ certClientHello_length rc pubC hname
  have hshlen : sh.length = 90 := hsh ▸ serverHello_length rs pubS
  have hparseC : parseClientHello cfg.want ch = .ok ⟨[], pubC.val, ch⟩ := by
    rw [hch]
    exact parseClientHello_pack rc pubC hpair.offered hname
  have hparseS : parseServerHello sh = .ok (pubS.val, sh) := by
    rw [hsh]
    exact parseServerHello_pack rs pubS
  have hrec : ∀ l : Bytes, l.length ≤ 516 → l.length ≤ Array.cap .recbuf := fun l hl => by
    change l.length ≤ 6144 + 16
    omega
  have hbody : (clientHelloBody rc pubC client.serverName).length ≤ Array.cap .chBody :=
    (clientHelloBody_length rc pubC _).2 hname
  have hfin : checkServerFinished cr hs.sHsTraffic (some (vs.val, ch ++ sh ++ hsPack 8 [0, 0] ++
      hsPack 11 (certificateBody cert) ++ hsPack 15 cv)) = .ok () := by
    unfold checkServerFinished
    dsimp only
    rw [check_bind vs.property, ← hvs]
    exact if_pos rfl
  have hcap : 37 ≤ Array.cap .cfin := by decide
  have hpos := hpair.certLen_pos
  have hwrap := (wrap32_certificate cfg.certLen).2 (.inl hlen)
  have hccs : ∀ l : Bytes, plainRecord 20 [1] ++ l = ccsBytes [helloCcs] ++ l := fun l => rfl
  refine ⟨plainRecord 22 ch, plainRecord 22 ch ++ plainRecord 20 [1],
    sealedRecord cr hs.cHs 22 (hsPack 20 vc.val),
    plainRecord 22 sh ++ (plainRecord 20 [1] ++ sealedRecord cr hs.sHs 22 F), ap.1, ap.2,
    ⟨prefix_append _ _, fun a ha hne => ?_, ?_, fun b hb hne => ?_, fun b hK hb hne => ?_, ?_⟩,
    by rw [hap]; rfl, by rw [hap]; rfl⟩
  · -- the client waits for the server's hello, or for its flight
    refine Starves.bind (Does.silent_starves (does_note _ _) ?_)
    rw [← hpubC]
    refine Does.silent_starves (does_store hbody _) ?_
    rw [← hch]
    refine Does.starves (does_sendRecord (by omega) _)
      (Does.silent_starves (does_require rfl _ _) ?_)
    refine (Does.starves (does_sendRecord (by decide) _)
      (Does.silent_starves (does_require rfl _ _) ?_)).of_eq (append_nil _)
    rcases prefix_append_cases ha with ⟨hp, hnp⟩ | ⟨r, hr, hrp⟩
    · exact (starves_recvHandshakePlain _ (by omega) (hrec _ (by omega)) hp hnp).bind
    · have hrne : r ≠ ccsBytes [helloCcs] ++ sealedRecord cr hs.sHs 22 F :=
        fun he => hne (by rw [hr, he, ccsBytes_hello])
      rw [hr]
      refine Does.silent_starves (does_recvHandshakePlain _ _ (by omega) (hrec _ (by omega)))
        (Does.silent_starves (does_parsed hparseS _) (Starves.get fun sent log => ?_))
      rw [← hhs]
      exact (starves_flightLoop cr hFlen (hccs _ ▸ hrp) hrne).bind
  · have hclient : Does (clientHandshakeCert cr client rc pc)
        (plainRecord 22 sh ++ (plainRecord 20 [1] ++ sealedRecord cr hs.sHs 22 F))
        ⟨⟨false, ap.1, ap.2⟩, ch ++ sh, flightDone hs.sHs.next (ch ++ sh) cert cv (alg, pk) vs⟩
        (plainRecord 22 ch ++ (plainRecord 20 [1] ++
          (sealedRecord cr hs.cHs 22 (hsPack 20 vc.val) ++ []))) [] := by
      refine Does.silent (does_note _ _) ?_
      rw [← hpubC]
      refine Does.silent (does_store hbody _) ?_
      rw [← hch]
      refine Does.bind (does_sendRecord (by omega) _) (Does.silent (does_require rfl _ _) ?_)
      refine Does.bind (does_sendRecord (by decide) _) (Does.silent (does_require rfl _ _) ?_)
      refine Does.silent (does_recvHandshakePlain _ _ (by omega) (hrec _ (by omega)))
        (Does.silent (does_parsed hparseS _) (Does.get fun sent log => ?_))
      rw [← hhs, hF, ← append_nil (sealedRecord cr hs.sHs 22 _), hccs]
      refine Does.silent (does_flightLoop cr hcertlen hcvlen (hcert ▸ hpair.cert) hpair.pk_length
        (hcert ▸ hchain) hcvok) (Does.silent (does_parsed hfin _) ?_)
      have htrans : (flightDone hs.sHs.next (ch ++ sh) cert cv (alg, pk) vs).transcript =
          ch ++ sh ++ F := by rw [hF]; rfl
      rw [htrans, ← hvc, ← hap]
      exact Does.bind (does_sendFinished cr _ _ _ _) (Does.pure _ _)
    refine (hclient.map ClientDone.endpoint).of_eq ?_
    rw [append_nil, append_assoc]
  · exact (starves_recvHandshakePlain _ (by omega) (hrec _ (by omega)) hb hne).bind
  · obtain ⟨r, hr⟩ := hK
    rw [← hr] at hb hne ⊢
    rw [append_assoc] at hb hne
    have hrp := (prefix_append_right_inj _).1 hb
    have hrne : r ≠ ccsBytes [helloCcs] ++ sealedRecord cr hs.cHs 22 (hsPack 20 vc.val) :=
      fun he => hne (by rw [he, ccsBytes_hello])
    refine Does.silent_starves (does_recvHandshakePlain _ _ (by omega) (hrec _ (by omega)))
      (Does.silent_starves (does_parsed hparseC _) ?_)
    dsimp only
    rw [← hpubS, ← hsh, hshared, ← hhs]
    refine Does.starves (does_sendRecord (by omega) _)
      (Does.silent_starves (does_require rfl _ _) ?_)
    refine Does.starves (does_sendRecord (by decide) _)
      (Does.silent_starves (does_require rfl _ _) ?_)
    refine Does.silent_starves (does_require hpos _ _) (Does.silent_starves (does_note _ _) ?_)
    refine Does.silent_starves (does_require hwrap _ _) (Does.silent_starves (does_store ?_ _) ?_)
    · change cfg.certLen.val.toNat + 9 ≤ 1600 + 16
      omega
    refine Does.silent_starves (does_parsed hflight _) ?_
    rw [← hvc]
    refine (Does.starves (does_sendEncrypted cr hFlen rfl _)
      (Does.silent_starves (does_require rfl _ _) ?_)).of_eq (append_nil _)
    exact (starves_recvFinished cr _ _ _ hcap (hccs _ ▸ hrp) hrne).bind
  · rw [append_assoc]
    refine Does.silent (does_recvHandshakePlain _ _ (by omega) (hrec _ (by omega)))
      (Does.silent (does_parsed hparseC _) ?_)
    dsimp only
    rw [← hpubS, ← hsh, hshared, ← hhs]
    refine Does.bind (does_sendRecord (by omega) _) (Does.silent (does_require rfl _ _) ?_)
    refine Does.bind (does_sendRecord (by decide) _) (Does.silent (does_require rfl _ _) ?_)
    refine Does.silent (does_require hpos _ _) (Does.silent (does_note _ _) ?_)
    refine Does.silent (does_require hwrap _ _) (Does.silent (does_store ?_ _) ?_)
    · change cfg.certLen.val.toNat + 9 ≤ 1600 + 16
      omega
    refine Does.silent (does_parsed hflight _) ?_
    rw [← hvc, ← hap]
    refine (Does.bind (does_sendEncrypted cr hFlen rfl _)
      (Does.silent (does_require rfl _ _) ?_)).of_eq (append_nil _)
    rw [hccs, ← append_nil (sealedRecord cr hs.cHs 22 (hsPack 20 vc.val))]
    exact Does.silent (does_recvFinished cr [helloCcs] vc ss _ _ _ _ hcap) (Does.pure _ _)

end

/-! ## Every mode -/

/-- The pairs of handshake functions, with what their callers give them. -/
inductive Mode
  | psk (key pskId : Bytes)
  | cert (server : ServerConfig) (client : ClientConfig)

def Mode.client (rnd priv : BytesN 32) (scratch : Bytes) : Mode → Prog Endpoint
  | .psk key pskId => clientHandshakePsk cr rnd priv key pskId scratch
  | .cert _ client => do let d ← clientHandshakeCert cr client rnd priv; pure d.endpoint

def Mode.server (rnd priv : BytesN 32) (scratch : Bytes) : Mode → Prog Endpoint
  | .psk key pskId => serverHandshakePsk cr rnd priv key pskId scratch
  | .cert server _ => serverHandshakeCert cr server rnd priv scratch

/-- The identity is one the server accepts; the certificate has the server's key, and the
client trusts it or has no trust store. The server name fits its array. -/
def Mode.Given : Mode → Prop
  | .psk _ pskId => pskId.length ≤ 64
  | .cert server client => (∃ alg pk, KeyPair cr server alg pk) ∧
      client.serverName.length ≤ 387 ∧ ∀ store ∈ client.caStore,
        verifyChain cr (server.certDer.take server.certLen.val.toNat) [] store client.now = true

/-- The certificate fits the array of the server. -/
def Mode.Fits : Mode → Prop
  | .psk _ _ => True
  | .cert server _ => server.certLen.val ≤ 1607

/-- For every PSK and identity the server accepts, every certificate and key
pair of at most 1607 bytes, and all random bytes: in every schedule of the two channels
both handshake functions return 0, with the same application keys and IVs in each direction
and the counters at zero. -/
theorem handshake_agreement (hx : SharedSecrets cr) (mode : Mode) (hgiven : mode.Given cr)
    (hfits : mode.Fits) (rc pc rs ps : BytesN 32) (sc ss : Bytes) :
    Agrees (mode.client cr rc pc sc) (mode.server cr rs ps ss) := by
  cases mode with
  | psk key pskId =>
    obtain ⟨K, M, N, A, cAp, sAp, h, hc, hs⟩ := psk_plays cr hx hgiven rc pc rs ps key sc ss
    exact h.agrees hc hs
  | cert server client =>
    obtain ⟨⟨alg, pk, hpair⟩, hname, hchain⟩ := hgiven
    obtain ⟨K, M, N, A, cAp, sAp, h, hc, hs⟩ := cert_plays cr hx hpair hfits hname hchain rc pc
      rs ps ss
    exact h.agrees hc hs

/-! ## Two certificates -/

theorem demoCert_length : (169 : Int) ≤ demoCert.length := by decide +kernel

theorem demo_int : -2 ^ 31 ≤ (169 : Int) ∧ (169 : Int) < 2 ^ 31 := by decide

def demoServerConfig : ServerConfig := ⟨demoCert, ⟨169, demo_int⟩, [], 0, demoCert_length⟩

/-- The certificate of 169 bytes, and an identity of two. -/
theorem handshake_agreement_demo :
    Agrees (Mode.client .null (zeros 32) (zeros 32) [] (.cert demoServerConfig (demoClient [demoCert])))
        (Mode.server .null (zeros 32) (zeros 32) []
          (.cert demoServerConfig (demoClient [demoCert]))) ∧
      Agrees (Mode.client .null (zeros 32) (zeros 32) [] (.psk [1] [104, 105]))
        (Mode.server .null (zeros 32) (zeros 32) [] (.psk [1] [104, 105])) := by
  have hx : SharedSecrets .null := fun _ _ => rfl
  have hkey : extractPubkey demoCert = some (0x0807, List.replicate 32 7) := by decide +kernel
  have hpair : KeyPair .null demoServerConfig 0x0807 (List.replicate 32 7) :=
    ⟨hkey, rfl, fun h => absurd h (by decide), fun _ _ => rfl, .inr rfl⟩
  have hchain : ∀ store ∈ (demoClient [demoCert]).caStore,
      verifyChain .null (demoServerConfig.certDer.take demoServerConfig.certLen.val.toNat) []
        store 0 = true := by
    decide +kernel
  have hgiven : Mode.Given .null (.cert demoServerConfig (demoClient [demoCert])) :=
    ⟨⟨_, _, hpair⟩, Nat.zero_le _, hchain⟩
  have hfits : (169 : Int) ≤ 1607 := by decide
  have hid : ([104, 105] : Bytes).length ≤ 64 := by decide
  exact ⟨handshake_agreement .null hx (.cert demoServerConfig (demoClient [demoCert])) hgiven hfits
      _ _ _ _ _ _,
    handshake_agreement .null hx (.psk [1] [104, 105]) hid trivial _ _ _ _ _ _⟩

def longCert : Bytes :=
  [0x30, 0x82, 0x06, 0x44] ++ demoTbs ++ [3, 0x82, 0x05, 0xDD, 0] ++ List.replicate 1500 9

theorem longCert_length : (1608 : Int) ≤ longCert.length := by decide +kernel

theorem long_int : -2 ^ 31 ≤ (1608 : Int) ∧ (1608 : Int) < 2 ^ 31 := by decide

def longServerConfig : ServerConfig := ⟨longCert, ⟨1608, long_int⟩, [], 0, longCert_length⟩

theorem serverHandshakeCert_certLen {cfg : ServerConfig} {rnd priv : BytesN 32} {scratch : Bytes}
    {e : Endpoint} {s u : Conn} (h : serverHandshakeCert cr cfg rnd priv scratch s = .ok e u) :
    cfg.certLen.val ≤ 1607 ∨ 2 ^ 31 - 9 ≤ cfg.certLen.val := by
  obtain ⟨m, s1, -, h⟩ := Prog.bind_ok h
  obtain ⟨hello, s2, -, h⟩ := Prog.bind_ok h
  obtain ⟨ok, s3, -, h⟩ := Prog.bind_ok h
  obtain ⟨u1, s4, -, h⟩ := Prog.bind_ok h
  obtain ⟨ok, s5, -, h⟩ := Prog.bind_ok h
  obtain ⟨u2, s6, -, h⟩ := Prog.bind_ok h
  obtain ⟨u3, s7, -, h⟩ := Prog.bind_ok h
  obtain ⟨u4, s8, -, h⟩ := Prog.bind_ok h
  obtain ⟨u5, s9, hle, h⟩ := Prog.bind_ok h
  exact (wrap32_certificate cfg.certLen).1 (require_ok hle).1

/-- The server refuses a certificate that its array does not hold. -/
theorem long_certificate_refused :
    ¬ ∀ (cr : Primitives) (mode : Mode), SharedSecrets cr → mode.Given cr →
      ∀ (rc pc rs ps : BytesN 32) (sc ss : Bytes),
        Agrees (mode.client cr rc pc sc) (mode.server cr rs ps ss) := by
  intro h
  have hx : SharedSecrets .null := fun _ _ => rfl
  have hkey : extractPubkey (longServerConfig.certDer.take longServerConfig.certLen.val.toNat) =
      some (0x0807, List.replicate 32 7) := by
    decide +kernel
  have hpair : KeyPair .null longServerConfig 0x0807 (List.replicate 32 7) :=
    ⟨hkey, rfl, fun h => absurd h (by decide), fun _ _ => rfl, .inr rfl⟩
  obtain ⟨w, -, c, s, u, v, -, hserver, -⟩ := h .null (.cert longServerConfig ⟨[], none, 0⟩) hx
    ⟨⟨_, _, hpair⟩, Nat.zero_le _, fun store hs => absurd hs (by simp)⟩ (zeros 32) (zeros 32)
    (zeros 32) (zeros 32) [] []
  have hlen : (1608 : Int) ≤ 1607 ∨ (2 ^ 31 - 9 : Int) ≤ 1608 :=
    serverHandshakeCert_certLen .null hserver
  omega

/-! ## What it is for -/

theorem Established.keys {client server : Prog Endpoint} {w : Duplex.Delivered UInt8}
    (h : Established client server w) :
    ∃ (c s : Endpoint) (u v : Conn), client ⟨w.1, [], [], []⟩ = .ok c u ∧
      server ⟨w.2, [], [], []⟩ = .ok s v ∧ c.sendKeys = s.recvKeys ∧ s.sendKeys = c.recvKeys := by
  obtain ⟨c, s, u, v, hc, hs, -, -, hcs, hss, hcap, hsap, -⟩ := h
  refine ⟨c, s, u, v, hc, hs, ?_, ?_⟩
  · unfold Endpoint.sendKeys Endpoint.recvKeys
    rw [hcs, hss]
    exact hcap
  · unfold Endpoint.sendKeys Endpoint.recvKeys
    rw [hcs, hss]
    exact hsap.symm

end AdventOS.Tls
