import AdventOS.Crypto.Rsa
import AdventOS.Tls.X509Pointer

/-!
# RSA verification with the key of a certificate

The parser takes a modulus and an exponent of any length the encoding allows and keeps
them modulo `2 ^ 4608` (`BN_MAX_LIMBS`); the verifier writes as many bytes as that modulus
has into two arrays of 512 (`RSA_MAX_BYTES`); its products are cut at `2 ^ 4608` again.

* `rsaVerify_parsed`: for a key with the numbers `N` and `E`, verification stays inside its
  arrays exactly when the signature is refused before the power or the modulus takes at most
  512 bytes, and an accepted signature is one of `N` and `E` when neither number is cut and
  no product reaches `2 ^ 4608`.
* `rsaVerify_parsed_513`: a certificate with a modulus of 513 bytes.
-/
namespace AdventOS.Tls.X509

open AdventOS.Crypto

/-! ## The numbers of a key are determined by its bytes -/

theorem LengthOctets.length_unique {h h' : List UInt8} {l l' : Nat} (a : LengthOctets h l)
    (a' : LengthOctets h' l') (hhead : h.head? = h'.head?) : h.length = h'.length := by
  cases a with
  | short c hc =>
    cases a' with
    | short => rfl
    | long c' ds hlen hpos =>
      cases hhead
      omega
  | long c ds hlen hpos =>
    cases a' with
    | short c' hc =>
      cases hhead
      omega
    | long c' ds' hlen' hpos' =>
      cases hhead
      simp only [List.length_cons]
      omega

theorem LengthOctets.unique {h : List UInt8} {l l' : Nat} (a : LengthOctets h l)
    (a' : LengthOctets h l') : l = l' := by
  cases a with
  | short c hc =>
    cases a' with
    | short => rfl
    | long c' ds hlen hpos => exact absurd hpos (lt_irrefl 0)
  | long c ds hlen hpos =>
    cases a' with
    | short c' hc => exact absurd hpos (lt_irrefl 0)
    | long => rfl

variable {b : Buf} {p stop : Nat}

theorem TlvAt.unique {t u : Tlv} (ht : TlvAt b p stop t) (hu : TlvAt b p stop u) : t = u := by
  have h1 := ht.start_lt
  have h2 := hu.start_lt
  have hlen := ht.octets.length_unique hu.octets (by
    rw [show t.p - (p + 1) = (t.p - (p + 2)) + 1 by omega,
      show u.p - (p + 1) = (u.p - (p + 2)) + 1 by omega, b.bytes_succ, b.bytes_succ]
    rfl)
  rw [b.length_bytes, b.length_bytes] at hlen
  have hp : t.p = u.p := by omega
  have hvl : t.vl = u.vl := ht.octets.unique (hp ▸ hu.octets)
  have htag : t.tag = u.tag := ht.tag_eq.trans hu.tag_eq.symm
  cases t
  cases u
  simp only at hp hvl htag
  rw [hp, hvl, htag]

theorem RsaKeyAt.unique {len N E N' E' : Nat} (h : RsaKeyAt b p len N E)
    (h' : RsaKeyAt b p len N' E') : N = N' ∧ E = E' := by
  obtain ⟨seq, n, e, hseq, hn, he, _, hN, hE⟩ := h.elements
  obtain ⟨seq', n', e', hseq', hn', he', _, hN', hE'⟩ := h'.elements
  obtain rfl := hseq.unique hseq'
  obtain rfl := hn.unique hn'
  obtain rfl := he.unique he'
  exact ⟨hN.trans hN'.symm, hE.trans hE'.symm⟩

/-! ## Verification -/

/-- What verification with a key owes its caller: no access outside its arrays, and an
accepted signature is a number below the modulus whose power is the encoded message. -/
structure Verifies (msg : List UInt8) (sig : Buf) (n e : Crypto.Bignum) (N E : Nat) : Prop where
  in_bounds : (rsaVerify msg sig n e).safe = true
  sound : (rsaVerify msg sig n e).val = true →
    sigNat sig < N ∧ sigNat sig ^ E % N = encodingNat (byteLength N) msg

/-- For every certificate the parser accepts with an RSA key of the numbers
`N` and `E`, every message and every signature. -/
theorem rsaVerify_parsed (b : Buf) (c : Cert) (N E : Nat)
    (hparse : (x509ParseCert b).run.val = some c) (hrsa : c.key.pkType = .rsa)
    (hkey : RsaKeyAt b c.key.bits.off c.key.bits.len N E) (msg : List UInt8) (sig : Buf) :
    (Verifies msg sig c.key.rsaN c.key.rsaE N E →
      Refused sig c.key.rsaN ∨ byteLength c.key.rsaN.val ≤ rsaMaxBytes) ∧
    (Refused sig c.key.rsaN ∨ byteLength c.key.rsaN.val ≤ rsaMaxBytes ∧ N < bnLimit ∧
        E < bnLimit ∧ Fits (sigNat sig) E N →
      Verifies msg sig c.key.rsaN c.key.rsaE N E) := by
  have hnumbers := ((x509ParseCert_safe b).2 c hparse).key_at.numbers hrsa
  obtain ⟨N', E', hkey', hn, he⟩ := hnumbers.numbers
  obtain ⟨rfl, rfl⟩ := hkey.unique hkey'
  have hnwf := hnumbers.n_wf
  have hewf := hnumbers.e_wf
  refine ⟨fun h => (rsaVerify_safe_iff hnwf hewf).mp h.in_bounds, ?_⟩
  intro hcond
  have hbound : Refused sig c.key.rsaN ∨ byteLength c.key.rsaN.val ≤ rsaMaxBytes :=
    hcond.imp_right And.left
  refine ⟨(rsaVerify_safe_iff hnwf hewf).mpr hbound, ?_⟩
  intro haccept
  obtain ⟨hnot, h62, hpow⟩ := (rsaVerify_ok hnwf hewf hbound).val.mp haccept
  obtain ⟨_, hN, hE, hfits⟩ := hcond.resolve_left hnot
  rw [Nat.mod_eq_of_lt hN] at hn
  rw [Nat.mod_eq_of_lt hE] at he
  rw [hn] at h62 hpow
  rw [he] at hpow
  have hone : 1 < N := one_lt_of_byteLength h62
  have hlt : sigNat sig < N := by
    unfold Refused at hnot
    omega
  exact ⟨hlt, by rw [← powMod_eq hone hfits, hpow]⟩

/-! ## A modulus of 513 bytes -/

theorem le_bytesNat {f : Nat → UInt8} {i : Nat} (h : f i ≠ 0) : ∀ {n : Nat}, i < n →
    2 ^ (8 * (n - 1 - i)) ≤ bytesNat f n
  | n + 1, hi => by
    have hpos : 0 < (f i).toNat := pos_of_ne_zero fun h0 => h (UInt8.toNat_inj.mp h0)
    rw [bytesNat]
    by_cases hin : i = n
    · subst hin
      simp only [Nat.add_sub_cancel, Nat.sub_self, mul_zero, pow_zero]
      omega
    · have ih := le_bytesNat h (show i < n by omega)
      rw [show 8 * (n + 1 - 1 - i) = 8 * (n - 1 - i) + 8 by omega, pow_add]
      omega

/-- An element with the tag and the content given, its length in two bytes where one does
not do. -/
def element (tag : UInt8) (l : List UInt8) : List UInt8 :=
  if l.length < 128 then tag :: UInt8.ofNat l.length :: l
  else tag :: 0x82 :: UInt8.ofNat (l.length / 256) :: UInt8.ofNat l.length :: l

def sha256WithRsa : List UInt8 := element asn1Sequence (element asn1Oid oidRsaSha256)

/-- 1 January 2025, twice. -/
def someValidity : List UInt8 :=
  let time := element 0x17 [50, 53, 48, 49, 48, 49, 48, 48, 48, 48, 48, 48, 90]
  element asn1Sequence (time ++ time)

def rsaCert (n e : List UInt8) : List UInt8 :=
  let key := element asn1Sequence (element asn1Integer n ++ element asn1Integer e)
  let spki := element asn1Sequence (sha256WithRsa ++ element asn1Bitstring (0 :: key))
  let tbs := element asn1Sequence (element asn1Integer [1] ++ sha256WithRsa ++
    element asn1Sequence [] ++ someValidity ++ element asn1Sequence [] ++ spki)
  element asn1Sequence (tbs ++ sha256WithRsa ++ element asn1Bitstring [0])

def bufOf (l : List UInt8) : Buf := ⟨fun i => l.getD i 0, l.length⟩

def cert513 : Buf := bufOf (rsaCert (0 :: List.replicate 513 0xFF) [1, 0, 1])

theorem cert513_parses : ∃ c, (x509ParseCert cert513).run.val = some c ∧ c.key.pkType = .rsa ∧
    c.key.bits.off = 82 ∧ c.key.bits.len = 527 := by
  have h : (x509ParseCert cert513).run.val.map
      (fun c => (c.key.pkType, c.key.bits.off, c.key.bits.len)) = some (.rsa, 82, 527) := by
    decide +kernel
  obtain ⟨c, hc, heq⟩ := Option.map_eq_some_iff.mp h
  simp only [Prod.mk.injEq] at heq
  exact ⟨c, hc, heq.1, heq.2.1, heq.2.2⟩

def modulus513 : Nat := integerAt cert513 90 514

def exponent513 : Nat := integerAt cert513 606 3

theorem cert513_key : RsaKeyAt cert513 82 527 modulus513 exponent513 := by
  refine ⟨⟨0x30, 523, 86⟩, ⟨0x02, 514, 90⟩, ⟨0x02, 3, 606⟩, ⟨?_, ?_, ?_, ?_⟩, ⟨?_, ?_, ?_, ?_⟩,
    ⟨?_, ?_, ?_, ?_⟩, ⟨rfl, rfl, rfl⟩, rfl, rfl⟩
  · simp
  · simp
  · decide +kernel
  · have h : cert513.bytes 83 3 = [0x82, 0x02, 0x0B] := by decide +kernel
    exact h ▸ .long 0x82 [0x02, 0x0B] rfl (by simp)
  · simp
  · simp
  · decide +kernel
  · have h : cert513.bytes 87 3 = [0x82, 0x02, 0x02] := by decide +kernel
    exact h ▸ .long 0x82 [0x02, 0x02] rfl (by simp)
  · simp
  · simp
  · decide +kernel
  · have h : cert513.bytes 605 1 = [0x03] := by decide +kernel
    exact h ▸ .short 0x03 (by simp)

theorem rsaVerify_parsed_513 : ∃ c, (x509ParseCert cert513).run.val = some c ∧
    (Verifies [] ⟨fun _ => 0, 0⟩ c.key.rsaN c.key.rsaE modulus513 exponent513 →
      Refused ⟨fun _ => 0, 0⟩ c.key.rsaN ∨ byteLength c.key.rsaN.val ≤ rsaMaxBytes) ∧
    (Refused ⟨fun _ => 0, 0⟩ c.key.rsaN ∨ byteLength c.key.rsaN.val ≤ rsaMaxBytes ∧
        modulus513 < bnLimit ∧ exponent513 < bnLimit ∧
        Fits (sigNat ⟨fun _ => 0, 0⟩) exponent513 modulus513 →
      Verifies [] ⟨fun _ => 0, 0⟩ c.key.rsaN c.key.rsaE modulus513 exponent513) := by
  obtain ⟨c, hc, hrsa, hoff, hlen⟩ := cert513_parses
  exact ⟨c, hc, rsaVerify_parsed cert513 c modulus513 exponent513
    hc hrsa (by rw [hoff, hlen]; exact cert513_key) [] ⟨fun _ => 0, 0⟩⟩

theorem byteLength_integerAt {n : Nat} (h0 : b.mem (p + 0) = 0) (h1 : b.mem (p + 1) ≠ 0) :
    byteLength (integerAt b p (n + 2)) = n + 1 := by
  have hlow : 2 ^ (8 * (n + 2 - 1 - 1)) ≤ integerAt b p (n + 2) :=
    le_bytesNat (f := fun i => b.mem (p + i)) h1 (by omega)
  have hhigh : integerAt b p (n + 2) < 2 ^ (8 * (n + 1)) := by
    rw [integerAt, bytesNat_drop_zero h0]
    exact bytesNat_lt _ _
  have hlt := Nat.lt_size.mpr hlow
  have hle := Nat.size_le.mpr hhigh
  unfold byteLength
  omega

theorem byteLength_modulus513 : byteLength modulus513 = 513 :=
  byteLength_integerAt (n := 512) (by decide +kernel) (by decide +kernel)

theorem bytesNat_zero : ∀ n : Nat, bytesNat (fun _ => 0) n = 0
  | 0 => rfl
  | n + 1 => by rw [bytesNat, bytesNat_zero n]; rfl

theorem lt_bnLimit_of_byteLength {v n : Nat} (h : byteLength v = n) (hn : n ≤ 4 * bnMaxLimbs) :
    v < bnLimit :=
  (lt_pow_byteLength v).trans_le (Nat.pow_le_pow_right (by omega) (by omega))

/-- For a signature of 513 zero bytes the arrays of 512 are left. -/
theorem rsaVerify_leaves_em : ¬ ∀ (b : Buf) (c : Cert) (N E : Nat),
    (x509ParseCert b).run.val = some c → c.key.pkType = .rsa →
    RsaKeyAt b c.key.bits.off c.key.bits.len N E → ∀ (msg : List UInt8) (sig : Buf),
    Verifies msg sig c.key.rsaN c.key.rsaE N E := by
  intro h
  obtain ⟨c, hc, hrsa, hoff, hlen⟩ := cert513_parses
  have hkey : RsaKeyAt cert513 c.key.bits.off c.key.bits.len modulus513 exponent513 := by
    rw [hoff, hlen]
    exact cert513_key
  have hsafe := (h cert513 c _ _ hc hrsa hkey [] ⟨fun _ => 0, 513⟩).in_bounds
  have hnumbers := ((x509ParseCert_safe cert513).2 c hc).key_at.numbers hrsa
  obtain ⟨N, E, hkey', hn, _⟩ := hnumbers.numbers
  obtain ⟨rfl, rfl⟩ := hkey.unique hkey'
  have hlimit := lt_bnLimit_of_byteLength byteLength_modulus513 (by decide)
  rw [Nat.mod_eq_of_lt hlimit] at hn
  have hlen : byteLength c.key.rsaN.val = 513 := by
    rw [hn]
    exact byteLength_modulus513
  rcases (rsaVerify_safe_iff hnumbers.n_wf hnumbers.e_wf).mp hsafe with hrefused | hle
  · rcases hrefused with h0 | hne | hge
    · omega
    · exact hne hlen.symm
    · have hzero : sigNat ⟨fun _ => 0, 513⟩ = 0 := bytesNat_zero 513
      rw [hzero] at hge
      have hpos := byteLength_pos (n := c.key.rsaN.val) (by omega)
      omega
  · rw [hlen] at hle
    simp [rsaMaxBytes] at hle

end AdventOS.Tls.X509
