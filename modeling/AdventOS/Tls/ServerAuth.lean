import AdventOS.Tls.Handshake

/-!
# Server authentication of the certificate client

What `tls_client_handshake_cert` has checked when it returns 0 with a trust store. The
loop over the server's flight takes the messages in any order and number; the checks
are made when a Certificate and when a CertificateVerify come in, and the end of the
flight asks for a Finished only.

* `FlightInv`: each Certificate that was processed has a chain to the store, and a
  CertificateVerify directly after it has a good signature under its key;
* `server_authenticated`: so a flight that has the two messages authenticates the
  server;
* `finished_only_accepted`: a flight without them is accepted as well.
-/
namespace AdventOS.Tls
open List

variable (cr : Primitives)

def ChainAccepted (store : CaStore) (now : Nat) (cert : Bytes) : Prop :=
  ∃ leaf, leafCert cert = .ok leaf ∧ verifyChain cr leaf [] store now = true

/-- The CertificateVerify is signed with the key of the leaf certificate, over the hash of
the transcript. -/
def SignedBy (cert transcript cv : Bytes) : Prop :=
  ∃ leaf key, leafCert cert = .ok leaf ∧ extractPubkey leaf = some key ∧
    checkCertVerify cr (some key) (cr.sha256 transcript) cv = .ok ()

/-- Among the messages there is a Certificate with a chain to the store, and later a
CertificateVerify signed with its key over the transcript up to that Certificate. -/
def ServerAuthenticated (store : CaStore) (now : Nat) (hellos : Bytes)
    (seen : List (UInt8 × Bytes)) : Prop :=
  ∃ (i j : Nat) (cert cv : Bytes), i < j ∧ seen[i]? = some (11, cert) ∧ seen[j]? = some (15, cv) ∧
    ChainAccepted cr store now cert ∧
    SignedBy cr cert (hellos ++ messages (seen.take (i + 1))) cv

def CertThenVerify (seen : List (UInt8 × Bytes)) : Prop :=
  ∃ (i : Nat) (cert cv : Bytes), seen[i]? = some (11, cert) ∧ seen[i + 1]? = some (15, cv)

def VerifyAfterCert (seen : List (UInt8 × Bytes)) : Prop :=
  ∃ (i j : Nat) (cert cv : Bytes), i < j ∧ seen[i]? = some (11, cert) ∧ seen[j]? = some (15, cv)

/-! ## What the loop has checked -/

structure FlightInv (cfg : ClientConfig) (hellos : Bytes) (st : FlightState) : Prop where
  transcript : st.transcript = hellos ++ messages st.seen
  chain : ∀ (i : Nat) (cert : Bytes), st.seen[i]? = some (11, cert) →
    ∀ store ∈ cfg.caStore, ChainAccepted cr store cfg.now cert
  key : ∀ (i : Nat) (cert : Bytes), st.seen[i]? = some (11, cert) → i + 1 = st.seen.length →
    ∃ leaf key, leafCert cert = .ok leaf ∧ extractPubkey leaf = some key ∧ st.certPk = some key
  signed : ∀ (i : Nat) (cert cv : Bytes), st.seen[i]? = some (11, cert) → st.seen[i + 1]? = some (15, cv) →
    SignedBy cr cert (hellos ++ messages (st.seen.take (i + 1))) cv

/-- What processing one message does. -/
structure Processed (cfg : ClientConfig) (st st' : FlightState) (m : UInt8 × Bytes) : Prop where
  seen : st'.seen = st.seen ++ [m]
  transcript : st'.transcript = st.transcript ++ hsPack m.1 m.2
  cert : m.1 = 11 → ∃ leaf key, leafCert m.2 = .ok leaf ∧ extractPubkey leaf = some key ∧
    st'.certPk = some key ∧ ∀ store ∈ cfg.caStore, verifyChain cr leaf [] store cfg.now = true
  verify : m.1 = 15 → checkCertVerify cr st.certPk (cr.sha256 st.transcript) m.2 = .ok ()

variable {cr}

variable {s s' : Conn} {cfg : ClientConfig} {st st' : FlightState} {m : UInt8 × Bytes}
  {hellos : Bytes}

theorem processCertificate_ok (hm : m.1 = 11) (h : processCertificate cr cfg st m s = .ok st' s') :
    Processed cr cfg st st' m := by
  obtain ⟨leaf, s1, hleaf, h⟩ := Prog.bind_ok h
  obtain ⟨u, s2, -, h⟩ := Prog.bind_ok h
  obtain ⟨key, s3, hkey, h⟩ := Prog.bind_ok h
  obtain ⟨u, s4, -, h⟩ := Prog.bind_ok h
  obtain ⟨u, s5, hchain, h⟩ := Prog.bind_ok h
  cases h
  exact ⟨rfl, rfl, fun _ => ⟨leaf, key, (parsed_ok hleaf).1, (expect_ok hkey).1, rfl,
    (require_ok hchain).1⟩, fun h15 => absurd (hm.symm.trans h15) (by decide)⟩

theorem processMessage_ok
    (h : processMessage cr cfg st m s = .ok st' s') : Processed cr cfg st st' m := by
  unfold processMessage at h
  split at h
  · rename_i h11
    exact processCertificate_ok h11 h
  · rename_i h11
    split at h
    · obtain ⟨u, s1, hcv, h⟩ := Prog.bind_ok h
      cases h
      exact ⟨rfl, rfl, fun h => absurd h h11, fun _ => (parsed_ok hcv).1⟩
    · rename_i h15
      split at h
      · obtain ⟨u, s1, -, h⟩ := Prog.bind_ok h
        cases h
        exact ⟨rfl, rfl, fun h => absurd h h11, fun h => absurd h h15⟩
      · cases h
        exact ⟨rfl, rfl, fun h => absurd h h11, fun h => absurd h h15⟩

theorem messages_snoc (l : List (UInt8 × Bytes)) (m : UInt8 × Bytes) :
    messages (l ++ [m]) = messages l ++ hsPack m.1 m.2 := by
  unfold messages
  rw [flatMap_append, flatMap_singleton]

theorem getElem?_snoc {α : Type} {l : List α} {x y : α} {i : Nat} (h : (l ++ [x])[i]? = some y) :
    l[i]? = some y ∨ i = l.length ∧ x = y := by
  rw [getElem?_append] at h
  split at h
  · exact .inl h
  · rw [getElem?_singleton] at h
    split at h
    · cases h
      exact .inr ⟨by omega, rfl⟩
    · cases h

theorem FlightInv.step (h : FlightInv cr cfg hellos st) (hp : Processed cr cfg st st' m) :
    FlightInv cr cfg hellos st' where
  transcript := by
    rw [hp.transcript, hp.seen, messages_snoc, h.transcript, append_assoc]
  chain i cert hi store hstore := by
    rw [hp.seen] at hi
    rcases getElem?_snoc hi with hi | ⟨-, rfl⟩
    · exact h.chain i cert hi store hstore
    · obtain ⟨leaf, key, hleaf, -, -, hchain⟩ := hp.cert rfl
      exact ⟨leaf, hleaf, hchain store hstore⟩
  key i cert hi hlast := by
    rw [hp.seen] at hi hlast
    rcases getElem?_snoc hi with hi | ⟨-, rfl⟩
    · have hlt := (List.getElem?_eq_some_iff.1 hi).1
      rw [length_append, length_singleton] at hlast
      omega
    · obtain ⟨leaf, key, hleaf, hkey, hpk, -⟩ := hp.cert rfl
      exact ⟨leaf, key, hleaf, hkey, hpk⟩
  signed i cert cv hi hj := by
    rw [hp.seen] at hi hj
    rcases getElem?_snoc hj with hj | ⟨hlast, rfl⟩
    · have hlt := (List.getElem?_eq_some_iff.1 hj).1
      rw [getElem?_append_left (by omega)] at hi
      rw [hp.seen, take_append_of_le_length (by omega)]
      exact h.signed i cert cv hi hj
    · -- the key is that of the Certificate before, and so is the transcript
      rw [getElem?_append_left (by omega)] at hi
      obtain ⟨leaf, key, hleaf, hkey, hpk⟩ := h.key i cert hi hlast
      have hcv := hp.verify rfl
      rw [hpk, h.transcript] at hcv
      refine ⟨leaf, key, hleaf, hkey, ?_⟩
      rw [hp.seen, take_append_of_le_length (by omega), hlast, take_length]
      exact hcv

theorem FlightInv.walk {fuel : Nat} (hinv : FlightInv cr cfg hellos st)
    (h : walkMessages cr cfg fuel st s = .ok st' s') : FlightInv cr cfg hellos st' := by
  induction fuel generalizing st s with
  | zero =>
    cases h
    exact hinv
  | succ fuel ih =>
    unfold walkMessages at h
    cases hnext : nextMessage st.buf with
    | none =>
      rw [hnext] at h
      cases h
      exact hinv
    | some r =>
      obtain ⟨m, rest⟩ := r
      rw [hnext] at h
      obtain ⟨st1, s1, hp, h⟩ := Prog.bind_ok h
      have hbuf : FlightInv cr cfg hellos { st with buf := rest } :=
        ⟨hinv.transcript, hinv.chain, hinv.key, hinv.signed⟩
      exact ih (hbuf.step (processMessage_ok hp)) h

theorem FlightInv.loop {fuel : Nat} (hinv : FlightInv cr cfg hellos st)
    (h : flightLoop cr cfg fuel st s = .ok st' s') : FlightInv cr cfg hellos st' := by
  induction fuel generalizing st s with
  | zero => cases h
  | succ fuel ih =>
    obtain ⟨r, s1, -, h⟩ := Prog.bind_ok h
    obtain ⟨u, s2, -, h⟩ := Prog.bind_ok h
    obtain ⟨st1, s3, hwalk, h⟩ := Prog.bind_ok h
    have hbuf : FlightInv cr cfg hellos { st with buf := st.buf ++ r.1.content, keys := r.2 } :=
      ⟨hinv.transcript, hinv.chain, hinv.key, hinv.signed⟩
    have hinv1 := hbuf.walk hwalk
    split at h
    · cases h
      exact hinv1
    · exact ih hinv1 h

theorem clientHandshakeCert_inv {rnd priv : BytesN 32} {done : ClientDone}
    (h : clientHandshakeCert cr cfg rnd priv s = .ok done s') :
    FlightInv cr cfg done.hellos done.flight := by
  obtain ⟨u, s1, -, h⟩ := Prog.bind_ok h
  obtain ⟨u, s2, -, h⟩ := Prog.bind_ok h
  obtain ⟨ok, s3, -, h⟩ := Prog.bind_ok h
  obtain ⟨u, s4, -, h⟩ := Prog.bind_ok h
  obtain ⟨ok, s5, -, h⟩ := Prog.bind_ok h
  obtain ⟨u, s6, -, h⟩ := Prog.bind_ok h
  obtain ⟨m, s7, -, h⟩ := Prog.bind_ok h
  obtain ⟨hello, s8, -, h⟩ := Prog.bind_ok h
  obtain ⟨s9, s10, -, h⟩ := Prog.bind_ok h
  obtain ⟨st, s11, hloop, h⟩ := Prog.bind_ok h
  obtain ⟨u, s12, -, h⟩ := Prog.bind_ok h
  obtain ⟨u, s13, -, h⟩ := Prog.bind_ok h
  cases h
  refine FlightInv.loop ⟨?_, fun i cert hi => ?_, fun i cert hi => ?_, fun i cert cv hi => ?_⟩ hloop
  · exact (append_nil _).symm
  · cases hi
  · cases hi
  · cases hi

variable (cr)

/-- Whatever the peer delivers: if the client returns 0 with a trust store,
and among the messages of the flight a Certificate is directly followed by a
CertificateVerify, then the server is authenticated. A server is authenticated only if a
CertificateVerify came after a Certificate. -/
theorem server_authenticated (cfg : ClientConfig) (store : CaStore) (rnd priv : BytesN 32)
    (inp : Bytes) (sends : List Bool) (done : ClientDone) (s : Conn)
    (hstore : cfg.caStore = some store)
    (h : clientHandshakeCert cr cfg rnd priv ⟨inp, sends, [], []⟩ = .ok done s) :
    (CertThenVerify done.flight.seen →
        ServerAuthenticated cr store cfg.now done.hellos done.flight.seen) ∧
      (ServerAuthenticated cr store cfg.now done.hellos done.flight.seen →
        VerifyAfterCert done.flight.seen) := by
  have hinv := clientHandshakeCert_inv h
  constructor
  · intro ⟨i, cert, cv, hi, hj⟩
    exact ⟨i, i + 1, cert, cv, Nat.lt_succ_self i, hi, hj, hinv.chain i cert hi store hstore,
      hinv.signed i cert cv hi hj⟩
  · intro ⟨i, j, cert, cv, hlt, hi, hj, _⟩
    exact ⟨i, j, cert, cv, hlt, hi, hj⟩

/-! ## Two servers -/

/-- The signed part of an Ed25519 certificate without names, and its algorithm. -/
def demoTbs : Bytes :=
  [0x30, 0x5A, 0x02, 0x01, 0x01] ++ [0x30, 5, 6, 3, 0x2B, 0x65, 0x70] ++ [0x30, 0, 0x30, 0x1E] ++
    [0x17, 13, 50, 53, 48, 49, 48, 49, 48, 48, 48, 48, 48, 48, 90] ++
    [0x17, 13, 51, 53, 48, 49, 48, 49, 48, 48, 48, 48, 48, 48, 90] ++
    [0x30, 0, 0x30, 0x2A, 0x30, 5, 6, 3, 0x2B, 0x65, 0x70, 3, 0x21, 0] ++ List.replicate 32 7 ++
    [0x30, 5, 6, 3, 0x2B, 0x65, 0x70]

def demoCert : Bytes := [0x30, 0x81, 0xA6] ++ demoTbs ++ [3, 0x41, 0] ++ List.replicate 64 9

def demoClient (roots : List Bytes) : ClientConfig := ⟨[], some ⟨roots.filterMap parseCert⟩, 0⟩

/-- What a server sends: its hello, and its flight in one record. -/
def demoServer (flight : List (UInt8 × Bytes)) : Bytes :=
  plainRecord 22 (hsPack 2 (serverHelloBody (zeros 32) [] (zeros 32))) ++
    sealedRecord .null .zero 22 (messages flight)

def demoCv : Bytes := [8, 7, 0, 64] ++ List.replicate 64 1

def demoFlight : List (UInt8 × Bytes) :=
  [(8, [0, 0]), (11, certificateBody demoCert), (15, demoCv), (20, (zeros 32).val)]

/-- The messages a client has processed when it returns 0. -/
def acceptedFlight (roots : List Bytes) (flight : List (UInt8 × Bytes)) :
    Option (List (UInt8 × Bytes)) :=
  match clientHandshakeCert .null (demoClient roots) (zeros 32) (zeros 32)
      ⟨demoServer flight, [], [], []⟩ with
  | .ok done _ => some done.flight.seen
  | .error _ _ => none

theorem acceptedFlight_ok {roots : List Bytes} {flight seen : List (UInt8 × Bytes)}
    (h : acceptedFlight roots flight = some seen) :
    ∃ done s, clientHandshakeCert .null (demoClient roots) (zeros 32) (zeros 32)
      ⟨demoServer flight, [], [], []⟩ = .ok done s ∧ done.flight.seen = seen := by
  unfold acceptedFlight at h
  split at h
  · rename_i done s hrun
    exact ⟨done, s, hrun, Option.some.inj h⟩
  · cases h

/-- A server with a certificate of a root is authenticated. -/
theorem server_authenticated_demo : ∃ hellos seen, seen = demoFlight ∧
      ServerAuthenticated .null ⟨[demoCert].filterMap parseCert⟩ 0 hellos seen := by
  have hseen : acceptedFlight [demoCert] demoFlight = some demoFlight := by decide +kernel
  obtain ⟨done, s, hrun, hflight⟩ := acceptedFlight_ok hseen
  refine ⟨done.hellos, done.flight.seen, hflight, ?_⟩
  exact (server_authenticated .null (demoClient [demoCert]) _ (zeros 32) (zeros 32) _ [] done s
    rfl hrun).1 ⟨1, certificateBody demoCert, demoCv, by rw [hflight]; rfl, by rw [hflight]; rfl⟩

/-- A Finished is enough, and no certificate is trusted. -/
theorem finished_only_accepted :
    ¬ ∀ (cr : Primitives) (cfg : ClientConfig) (store : CaStore) (rnd priv : BytesN 32)
      (inp : Bytes) (sends : List Bool) (done : ClientDone) (s : Conn),
      cfg.caStore = some store →
      clientHandshakeCert cr cfg rnd priv ⟨inp, sends, [], []⟩ = .ok done s →
      ServerAuthenticated cr store cfg.now done.hellos done.flight.seen := by
  intro h
  have hseen : acceptedFlight [] [(20, (zeros 32).val)] = some [(20, (zeros 32).val)] := by
    decide +kernel
  obtain ⟨done, s, hrun, hflight⟩ := acceptedFlight_ok hseen
  obtain ⟨i, j, cert, cv, -, hi, -⟩ := h .null (demoClient []) _ (zeros 32) (zeros 32) _ [] done s
    rfl hrun
  rw [hflight, getElem?_singleton] at hi
  split at hi
  · cases hi
  · cases hi

end AdventOS.Tls
