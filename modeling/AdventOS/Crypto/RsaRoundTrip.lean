import AdventOS.Crypto.RsaCrt

/-!
# A signature verifies

`IsKeygen bits kp` is what `rsa_keygen` leaves in a key pair: two primes of half the
size, the larger first, their product of exactly `bits` bits, the exponent 65537, its
inverse and the three numbers of the Chinese remainder.

* `rsaSign_ok`: at every admitted size signing returns the power `m ^ d % n` of the
  encoded message: its products stay below `2 ^ 4096`.
* `rsaSign_verifies`.
* `rsa_2306_rejected`: a key of 2306 bits whose signature is refused.
-/
namespace AdventOS.Crypto

open AdventOS.Acc

/-- What `rsa_keygen` leaves behind when it returns 0.
rsa.c:165-209 -/
structure IsKeygen (bits : Nat) (kp : RsaKeypair) : Prop where
  wf : kp.n.WF ∧ kp.e.WF ∧ kp.d.WF ∧ kp.p.WF ∧ kp.q.WF ∧ kp.dp.WF ∧ kp.dq.WF ∧ kp.qinv.WF
  even : bits % 2 = 0
  le : bits ≤ 4096
  p_prime : kp.p.val.Prime
  q_prime : kp.q.val.Prime
  q_lt_p : kp.q.val < kp.p.val
  p_size : Nat.size kp.p.val = bits / 2
  q_size : Nat.size kp.q.val = bits / 2
  n_eq : kp.n.val = kp.p.val * kp.q.val
  n_size : Nat.size kp.n.val = bits
  e_eq : kp.e.val = 65537
  d_lt : kp.d.val < (kp.p.val - 1) * (kp.q.val - 1)
  d_inv : kp.d.val * 65537 % ((kp.p.val - 1) * (kp.q.val - 1)) = 1
  dp_eq : kp.dp.val = kp.d.val % (kp.p.val - 1)
  dq_eq : kp.dq.val = kp.d.val % (kp.q.val - 1)
  qinv_lt : kp.qinv.val < kp.p.val
  qinv_inv : kp.qinv.val * kp.q.val % kp.p.val = 1

variable {bits : Nat} {kp : RsaKeypair} {msg : List UInt8}

namespace IsKeygen

section
variable (h : IsKeygen bits kp)
include h

theorem lt_pow_half : kp.p.val < 2 ^ (bits / 2) := by
  rw [← h.p_size]
  exact Nat.lt_size_self _

theorem n_lt_pow : kp.n.val < 2 ^ bits := by
  conv_rhs => rw [← h.n_size]
  exact Nat.lt_size_self _

theorem p_lt : kp.p.val < halfLimit :=
  h.lt_pow_half.trans_le (Nat.pow_le_pow_right (by omega) (by
    have := h.le
    simp only [bnMaxLimbs]
    omega))

theorem d_modEq : kp.d.val * kp.e.val ≡ 1 [MOD (kp.p.val - 1) * (kp.q.val - 1)] := by
  have hone : 1 % ((kp.p.val - 1) * (kp.q.val - 1)) = 1 :=
    calc 1 % ((kp.p.val - 1) * (kp.q.val - 1)) = kp.d.val * 65537 %
          ((kp.p.val - 1) * (kp.q.val - 1)) % ((kp.p.val - 1) * (kp.q.val - 1)) := by rw [h.d_inv]
      _ = 1 := by rw [Nat.mod_mod, h.d_inv]
  rw [h.e_eq]
  exact h.d_inv.trans hone.symm

theorem undo (x : Nat) : x ^ (kp.d.val * 65537) ≡ x [MOD kp.n.val] := by
  have hmod := h.d_modEq
  rw [h.e_eq] at hmod
  rw [h.n_eq]
  apply pow_undo h.p_prime h.q_prime h.q_lt_p.ne' hmod
  apply Nat.pos_of_ne_zero
  intro h0
  have hinv := h.d_inv
  rw [h0, Nat.zero_mod] at hinv
  omega

theorem two_lt_q (hbits : 496 ≤ bits) : 2 < kp.q.val := by
  have hle : 2 ^ 2 ≤ kp.q.val := by
    apply Nat.lt_size.mp
    rw [h.q_size]
    omega
  omega

end
end IsKeygen

/-! ## The Chinese remainder -/

namespace IsKeygen

theorem crtKey (h : IsKeygen bits kp) : CrtKey kp where
  wf := h.wf
  p_prime := h.p_prime
  q_prime := h.q_prime
  q_lt_p := h.q_lt_p
  n_eq := h.n_eq
  d_inv := h.d_modEq
  dp_eq := by
    rw [h.dp_eq]
    exact Nat.mod_modEq _ _
  dq_eq := by
    rw [h.dq_eq]
    exact Nat.mod_modEq _ _
  qinv_lt := h.qinv_lt
  qinv_inv := h.qinv_inv.trans (Nat.mod_eq_of_lt h.p_prime.one_lt).symm

end IsKeygen

theorem rsaPrivOpCrt_ok {m : Bignum} (h : IsKeygen bits kp) (hbits : 496 ≤ bits) (hm : m.WF) :
    (rsaPrivOpCrt m kp).Ok fun s => s.WF ∧ s.val = m.val ^ kp.d.val % kp.n.val := by
  have hq2 := h.two_lt_q hbits
  exact h.crtKey.crt_ok h.p_lt hm fun h2 => by omega

variable {k p x : Nat}

/-! ## Signing -/

theorem encodingNat_lt (hk : 0 < k) (msg : List UInt8) :
    encodingNat k msg < 2 ^ (8 * (k - 1)) := by
  obtain ⟨j, rfl⟩ := Nat.exists_eq_succ_of_ne_zero hk.ne'
  rw [encodingNat, bytesNat_drop_zero rfl]
  exact bytesNat_lt _ _

namespace IsKeygen

theorem byteLength_bounds (h : IsKeygen bits kp) (hbits : 496 ≤ bits) :
    62 ≤ byteLength kp.n.val ∧ byteLength kp.n.val ≤ rsaMaxBytes := by
  have hle := h.le
  have hmax : rsaMaxBytes = 512 := rfl
  unfold byteLength
  rw [h.n_size, hmax]
  omega

theorem encodingNat_lt_n (h : IsKeygen bits kp) (hbits : 496 ≤ bits) (msg : List UInt8) :
    encodingNat (byteLength kp.n.val) msg < kp.n.val := by
  have hk := (h.byteLength_bounds hbits).1
  refine (encodingNat_lt (by omega) msg).trans_le ?_
  apply Nat.lt_size.mp
  unfold byteLength
  rw [h.n_size]
  omega

end IsKeygen

theorem rsaSign_ok (h : IsKeygen bits kp) (hbits : 496 ≤ bits) {sig : Nat → UInt8} {sigCap : Nat}
    (hcap : byteLength kp.n.val ≤ sigCap) :
    (rsaSign sig sigCap msg kp).Ok fun r => ∃ out, r = some (out, byteLength kp.n.val) ∧
      bytesNat out (byteLength kp.n.val) =
        encodingNat (byteLength kp.n.val) msg ^ kp.d.val % kp.n.val := by
  obtain ⟨hn, _, _, hp, hq, _⟩ := h.wf
  obtain ⟨h62, h512⟩ := h.byteLength_bounds hbits
  have hpn : 0 < kp.p.n :=
    Nat.pos_of_ne_zero (mt hp.val_eq_zero_iff.mpr h.p_prime.ne_zero)
  have hqn : 0 < kp.q.n :=
    Nat.pos_of_ne_zero (mt hq.val_eq_zero_iff.mpr h.q_prime.ne_zero)
  refine Ok.bind (bnByteLength_ok hn) ?_
  intro k hk
  have hk : k = byteLength kp.n.val := hk
  rw [← hk] at h62 h512 hcap ⊢
  rw [if_neg (by omega)]
  refine Ok.bind (emEncode_ok h512) ?_
  intro r hr
  obtain ⟨em, hem, hbytes⟩ := hr.2 h62
  rw [hem]
  refine Ok.bind (bnFromBytesBe_ok (by simpa using h512)) ?_
  intro m hm
  have hmval : m.val = encodingNat k msg := by
    have hlt := h.encodingNat_lt_n hbits msg
    have hlimit := kp.n.val_lt
    have hval := hm.2
    simp only [Nat.zero_add] at hval
    rw [bytesNat_congr hbytes, ← encodingNat, Nat.mod_eq_of_lt (by rw [hk]; omega)] at hval
    exact hval
  rw [if_pos ⟨hpn, hqn⟩]
  refine Ok.bind (rsaPrivOpCrt_ok h hbits hm.1) ?_
  intro s hs
  refine Ok.bind (bnToBytesBe_ok s hcap) ?_
  intro out hout
  refine Ok.pure ⟨out, rfl, ?_⟩
  have hlt : s.val < 2 ^ (8 * k) := by
    have hpow := lt_pow_byteLength kp.n.val
    have hmod := Nat.mod_lt (m.val ^ kp.d.val) (show kp.n.val > 0 by
      rw [h.n_eq]
      exact Nat.mul_pos h.p_prime.pos h.q_prime.pos)
    rw [hs.2, hk]
    omega
  rw [← (forall_byteBe_iff hlt).mp hout.1, hs.2, hmval]

/-! ## The round trip -/

/-- Signing succeeds and its signature verifies. -/
def SignsAndVerifies (kp : RsaKeypair) (msg : List UInt8) (sig : Nat → UInt8) (sigCap : Nat) :
    Prop :=
  (rsaSign sig sigCap msg kp).Ok fun r => ∃ out k, r = some (out, k) ∧
    (rsaVerify msg ⟨out, k⟩ kp.n kp.e).Ok (· = true)

def signature (kp : RsaKeypair) (msg : List UInt8) : Nat :=
  encodingNat (byteLength kp.n.val) msg ^ kp.d.val % kp.n.val

theorem signature_lt (h : IsKeygen bits kp) (msg : List UInt8) : signature kp msg < kp.n.val := by
  apply Nat.mod_lt
  rw [h.n_eq]
  exact Nat.mul_pos h.p_prime.pos h.q_prime.pos

theorem signature_pow (h : IsKeygen bits kp) (hbits : 496 ≤ bits) (msg : List UInt8) :
    signature kp msg ^ 65537 % kp.n.val = encodingNat (byteLength kp.n.val) msg := by
  rw [signature, ← Nat.pow_mod, ← pow_mul, h.undo, Nat.mod_eq_of_lt (h.encodingNat_lt_n hbits msg)]

theorem verify_signature (h : IsKeygen bits kp) (hbits : 496 ≤ bits) {out : Nat → UInt8}
    (hout : bytesNat out (byteLength kp.n.val) = signature kp msg) :
    (rsaVerify msg ⟨out, byteLength kp.n.val⟩ kp.n kp.e).Ok
      (· = true ↔ powMod (signature kp msg) 65537 kp.n.val =
        encodingNat (byteLength kp.n.val) msg) := by
  obtain ⟨hn, he, _⟩ := h.wf
  obtain ⟨h62, h512⟩ := h.byteLength_bounds hbits
  refine (rsaVerify_ok hn he (Or.inr h512)).mono ?_
  intro r hr
  have hnat : sigNat ⟨out, byteLength kp.n.val⟩ = signature kp msg := hout
  have hnot : ¬ Refused ⟨out, byteLength kp.n.val⟩ kp.n := by
    have hlt := signature_lt h msg
    unfold Refused
    rw [hnat]
    simp only [ne_eq, not_true_eq_false, false_or]
    omega
  rw [hr, hnat, h.e_eq]
  simp only [hnot, h62, not_false_eq_true, true_and]

theorem fits_of_bits (h : IsKeygen bits kp) (hbits : bits ≤ 2304) (msg : List UInt8) :
    Fits (signature kp msg) 65537 kp.n.val := by
  have hlt := signature_lt h msg
  apply fits_of_small (by omega)
  exact Nat.le_of_lt (h.n_lt_pow.trans_le (Nat.pow_le_pow_right (by omega) (by
    simp only [bnMaxLimbs]
    omega)))

/-- For every key pair of an even size from 496 to 4096 bits, every message and
every buffer that is large enough: signing succeeds and the signature verifies, provided no
product of the verification reaches `2 ^ 4608`. -/
theorem rsaSign_verifies (bits : Nat) (kp : RsaKeypair) (h : IsKeygen bits kp)
    (hbits : 496 ≤ bits) (msg : List UInt8) (sig : Nat → UInt8) (sigCap : Nat)
    (hcap : byteLength kp.n.val ≤ sigCap)
    (hfits : bits ≤ 2304 ∨ Fits (signature kp msg) 65537 kp.n.val) :
    SignsAndVerifies kp msg sig sigCap := by
  have hfits := hfits.elim (fun hle => fits_of_bits h hle msg) id
  refine (rsaSign_ok h hbits hcap).mono ?_
  intro r ⟨out, hr, hout⟩
  have hone := one_lt_of_byteLength (h.byteLength_bounds hbits).1
  refine ⟨out, _, hr, (verify_signature h hbits hout).mono ?_⟩
  intro v hv
  exact hv.mpr (by rw [powMod_eq hone hfits, signature_pow h hbits])

/-! ## A key of 2306 bits -/

def Bignum.ofNat (x : Nat) : Bignum :=
  ⟨fun i => UInt32.ofNat (x / (2 ^ 32) ^ i), (Nat.size x + 31) / 32⟩

theorem Bignum.ofNat_val (h : x < bnLimit) : (Bignum.ofNat x).val = x := by
  rw [← bnLimit_eq] at h
  calc (Bignum.ofNat x).val = radix (2 ^ 32) (fun i => x / (2 ^ 32) ^ i % 2 ^ 32) bnMaxLimbs :=
        radix_congr fun i _ => UInt32.toNat_ofNat'
    _ = x := by rw [radix_digits, Nat.mod_eq_of_lt h]

theorem Bignum.WF.ofNat (h : x < bnLimit) : (Bignum.ofNat x).WF := by
  have hsize : Nat.size x ≤ 32 * bnMaxLimbs := Nat.size_le.mpr h
  refine ⟨?_, ?_, ?_⟩
  · show (Nat.size x + 31) / 32 ≤ bnMaxLimbs
    omega
  · intro i hi
    have hi : (Nat.size x + 31) / 32 ≤ i := hi
    have hlt : x < (2 ^ 32) ^ i := by
      rw [← pow_mul]
      exact (Nat.lt_size_self x).trans_le (Nat.pow_le_pow_right (by omega) (by omega))
    show UInt32.ofNat (x / (2 ^ 32) ^ i) = 0
    rw [Nat.div_eq_of_lt hlt]
    rfl
  · intro hpos
    have hpos : 0 < (Nat.size x + 31) / 32 := hpos
    show UInt32.ofNat (x / (2 ^ 32) ^ ((Nat.size x + 31) / 32 - 1)) ≠ 0
    generalize hk : (Nat.size x + 31) / 32 - 1 = k
    have hle : (2 ^ 32) ^ k ≤ x := by
      rw [← pow_mul]
      exact Nat.lt_size.mp (by omega)
    have hlt : x < (2 ^ 32) ^ k * 2 ^ 32 := by
      rw [← pow_succ, ← pow_mul]
      exact (Nat.lt_size_self x).trans_le (Nat.pow_le_pow_right (by omega) (by omega))
    have hdiv : x / (2 ^ 32) ^ k < 2 ^ 32 := Nat.div_lt_of_lt_mul hlt
    have hdpos : 0 < x / (2 ^ 32) ^ k := Nat.div_pos hle (Nat.pow_pos (by omega))
    intro h0
    have h0 := congrArg UInt32.toNat h0
    rw [UInt32.toNat_ofNat_of_lt' hdiv, UInt32.toNat_zero] at h0
    omega

/-- The key pair of two primes, an inverse of 65537 and an inverse of `q`. -/
def keyOf (p q d qinv : Nat) : RsaKeypair where
  n := .ofNat (p * q)
  e := .ofNat 65537
  d := .ofNat d
  p := .ofNat p
  q := .ofNat q
  dp := .ofNat (d % (p - 1))
  dq := .ofNat (d % (q - 1))
  qinv := .ofNat qinv

/-- What there is to check of such a pair besides the primes. -/
def keyChecks (bits p q d qinv : Nat) : Prop :=
  bits % 2 = 0 ∧ bits ≤ 4096 ∧ q < p ∧ (2 ^ (bits / 2 - 1) ≤ q ∧ p < 2 ^ (bits / 2)) ∧
    (2 ^ (bits - 1) ≤ p * q ∧ p * q < 2 ^ bits) ∧
    (d < (p - 1) * (q - 1) ∧ d * 65537 % ((p - 1) * (q - 1)) = 1) ∧
    (qinv < p ∧ qinv * q % p = 1)

instance (bits p q d qinv : Nat) : Decidable (keyChecks bits p q d qinv) :=
  inferInstanceAs (Decidable (_ ∧ _))

theorem size_eq_of (hk : 0 < k) (h1 : 2 ^ (k - 1) ≤ x)
    (h2 : x < 2 ^ k) : Nat.size x = k := by
  have hlt := Nat.lt_size.mpr h1
  have hle := Nat.size_le.mpr h2
  omega

theorem keyOf_keygen {bits q d qinv : Nat} (hp : p.Prime) (hq : q.Prime) (hbits : 496 ≤ bits)
    (h : keyChecks bits p q d qinv) : IsKeygen bits (keyOf p q d qinv) := by
  obtain ⟨heven, hle, hlt, ⟨hqlow, hphigh⟩, ⟨hnlow, hnhigh⟩, ⟨hdlt, hdinv⟩, hqlt, hqinv⟩ := h
  have hlimit : 2 ^ bits ≤ bnLimit := Nat.pow_le_pow_right (by omega) (by
    simp only [bnMaxLimbs]
    omega)
  have hp1 := hp.one_lt
  have hq1 := hq.one_lt
  have hn : p * q < bnLimit := by omega
  have hpn : p ≤ p * q := Nat.le_mul_of_pos_right p (by omega)
  have hphi : (p - 1) * (q - 1) ≤ p * q := Nat.mul_le_mul (by omega) (by omega)
  have hdp : d % (p - 1) ≤ d := Nat.mod_le _ _
  have hdq : d % (q - 1) ≤ d := Nat.mod_le _ _
  have he : 65537 < bnLimit := lt_of_lt_of_le (show 65537 < 2 ^ 17 by omega)
    (Nat.pow_le_pow_right (by omega) (by decide))
  have val : ∀ {x : Nat}, x < bnLimit → (Bignum.ofNat x).val = x := Bignum.ofNat_val
  refine {
    wf := ⟨.ofNat hn, .ofNat he, .ofNat (by omega), .ofNat (by omega), .ofNat (by omega),
      .ofNat (by omega), .ofNat (by omega), .ofNat (by omega)⟩
    even := heven
    le := hle
    p_prime := by rwa [keyOf, val (by omega)]
    q_prime := by rwa [keyOf, val (by omega)]
    q_lt_p := by rwa [keyOf, val (by omega), val (by omega)]
    p_size := by
      rw [keyOf, val (by omega)]
      exact size_eq_of (by omega) (by omega) hphigh
    q_size := by
      rw [keyOf, val (by omega)]
      exact size_eq_of (by omega) hqlow (by omega)
    n_eq := by rw [keyOf, val hn, val (by omega), val (by omega)]
    n_size := by
      rw [keyOf, val hn]
      exact size_eq_of (by omega) hnlow hnhigh
    e_eq := val he
    d_lt := by rwa [keyOf, val (by omega), val (by omega), val (by omega)]
    d_inv := by rwa [keyOf, val (by omega), val (by omega), val (by omega)]
    dp_eq := by rw [keyOf, val (by omega), val (by omega), val (by omega)]
    dq_eq := by rw [keyOf, val (by omega), val (by omega), val (by omega)]
    qinv_lt := by rwa [keyOf, val (by omega), val (by omega)]
    qinv_inv := by rwa [keyOf, val (by omega), val (by omega), val (by omega)] }

/-- What there is to compute for the primality of `p`, where `p - 1 = a * b * 2 ^ j` and `x`
generates the units. -/
def primeChecks (p x k a b j : Nat) : Prop :=
  p ≤ 2 ^ k ∧ 1 < p ∧ modPow p k x (p - 1) = 1 ∧ p - 1 = a * b * 2 ^ j ∧
    ∀ r ∈ [2, a, b], modPow p k x ((p - 1) / r) ≠ 1

instance (p x k a b j : Nat) : Decidable (primeChecks p x k a b j) :=
  inferInstanceAs (Decidable (_ ∧ _))

theorem prime_of_checks {a b j : Nat} (ha : a.Prime) (hb : b.Prime)
    (h : primeChecks p x k a b j) : p.Prime := by
  obtain ⟨hk, hp, hone, hm, hne⟩ := h
  refine prime_of_modPow hk hp hone ?_ hne
  intro r hr hdvd
  rw [hm] at hdvd
  rcases hr.dvd_mul.mp hdvd with hdvd | hdvd
  · rcases hr.dvd_mul.mp hdvd with hdvd | hdvd
    · simp [(Nat.prime_dvd_prime_iff_eq hr ha).mp hdvd]
    · simp [(Nat.prime_dvd_prime_iff_eq hr hb).mp hdvd]
  · simp [(Nat.prime_dvd_prime_iff_eq hr Nat.prime_two).mp (hr.dvd_of_dvd_pow hdvd)]

/-! ## A key of 496 bits -/

def p496 : Nat := 205 * 2 ^ 240 + 1

def q496 : Nat := 817 * 2 ^ 238 + 1

def kp496 : RsaKeypair :=
  keyOf p496 q496 ((1 + 56172 * ((p496 - 1) * (q496 - 1))) / 65537)
    0x44555555555555555555555555555555555555555555555555555555555667

theorem checks_496 : primeChecks p496 3 248 5 41 240 ∧ primeChecks q496 3 248 19 43 238 ∧
    keyChecks 496 p496 q496 ((1 + 56172 * ((p496 - 1) * (q496 - 1))) / 65537)
      0x44555555555555555555555555555555555555555555555555555555555667 := by
  decide +kernel

theorem kp496_keygen : IsKeygen 496 kp496 :=
  keyOf_keygen (prime_of_checks (by norm_num) (by norm_num) checks_496.1)
    (prime_of_checks (by norm_num) (by norm_num) checks_496.2.1) (Nat.le_refl _) checks_496.2.2

theorem byteLength_496 : byteLength kp496.n.val = 62 := by
  unfold byteLength
  rw [kp496_keygen.n_size]

theorem rsaSign_verifies_496 : SignsAndVerifies kp496 [] (fun _ => 0) 62 :=
  rsaSign_verifies 496 kp496 kp496_keygen (Nat.le_refl _) [] (fun _ => 0) 62
    (Nat.le_of_eq byteLength_496) (Or.inl (by omega))

/-! ## A key of 2306 bits -/

def p2306 : Nat := 6433 * 2 ^ 1140 + 1

def q2306 : Nat := 6193 * 2 ^ 1140 + 1

def d2306 : Nat := (1 + 38535 * ((p2306 - 1) * (q2306 - 1))) / 65537

def kp2306 : RsaKeypair := keyOf p2306 q2306 d2306 ((6433 + 223 * p2306) / 240)

/-- The last of these: the signature of the empty message, raised to the public exponent, is
not the encoded message. -/
theorem checks_2306 : primeChecks p2306 3 1153 7 919 1140 ∧ primeChecks q2306 3 1153 11 563 1140 ∧
    keyChecks 2306 p2306 q2306 d2306 ((6433 + 223 * p2306) / 240) ∧
    (p2306 * q2306 < bnLimit ∧ d2306 < bnLimit ∧ d2306 < 2 ^ 2306) ∧
    powBits (modPow (p2306 * q2306) 2306 (encodingNat 289 []) d2306) 65537
      (p2306 * q2306) 17 ≠ encodingNat 289 [] := by
  decide +kernel

theorem kp2306_keygen : IsKeygen 2306 kp2306 :=
  keyOf_keygen (prime_of_checks (by norm_num) (by norm_num) checks_2306.1)
    (prime_of_checks (by norm_num) (by norm_num) checks_2306.2.1) (by omega) checks_2306.2.2.1

/-- A key whose verification computes another power than the encoded message. -/
theorem not_signsAndVerifies {n d j : Nat} {sig : Nat → UInt8} {sigCap : Nat}
    (h : IsKeygen bits kp) (hbits : 496 ≤ bits) (hcap : byteLength kp.n.val ≤ sigCap)
    (hn : kp.n.val = n) (hd : kp.d.val = d) (hk : byteLength kp.n.val = k) (hexp : d < 2 ^ j)
    (hne : powBits (modPow n j (encodingNat k msg) d) 65537 n 17 ≠ encodingNat k msg) :
    ¬ SignsAndVerifies kp msg sig sigCap := by
  intro ⟨_, out, l, hr, hv⟩
  have hsign : (rsaSign sig sigCap msg kp).Ok _ := rsaSign_ok h hbits hcap
  obtain ⟨_, out', hr', hout⟩ := hsign
  have heq := hr.symm.trans hr'
  simp only [Option.some.injEq, Prod.mk.injEq] at heq
  rw [heq.1, heq.2] at hv
  have hpow := (verify_signature h hbits hout).val.mp hv.val
  have hsize : Nat.size 65537 = 17 := size_eq_of (by omega) (by omega) (by omega)
  rw [signature, hk, hn, hd, powMod, hsize, ← modPow_eq n _ d hexp] at hpow
  exact hne hpow

/-- The empty message, signed with a key of 2306 bits: verification refuses the signature. -/
theorem rsa_2306_rejected : ¬ ∀ (bits : Nat) (kp : RsaKeypair), IsKeygen bits kp → 496 ≤ bits →
    ∀ (msg : List UInt8) (sig : Nat → UInt8) (sigCap : Nat), byteLength kp.n.val ≤ sigCap →
    SignsAndVerifies kp msg sig sigCap := by
  intro h
  have hbits : 496 ≤ 2306 := by omega
  have hlen : byteLength kp2306.n.val = 289 := by
    unfold byteLength
    rw [kp2306_keygen.n_size]
  obtain ⟨hnlt, hdlt, hexp⟩ := checks_2306.2.2.2.1
  have hn : kp2306.n.val = p2306 * q2306 := Bignum.ofNat_val hnlt
  have hd : kp2306.d.val = d2306 := Bignum.ofNat_val hdlt
  have hne := checks_2306.2.2.2.2
  exact not_signsAndVerifies kp2306_keygen hbits (Nat.le_of_eq hlen) hn hd hlen hexp hne
    (h 2306 kp2306 kp2306_keygen hbits [] (fun _ => 0) 289 (Nat.le_of_eq hlen))

end AdventOS.Crypto
