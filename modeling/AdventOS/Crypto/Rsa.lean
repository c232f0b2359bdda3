import AdventOS.Crypto.BignumPower
import AdventOS.Crypto.Sha256

/-!
# RSA signatures, PKCS#1 v1.5 with SHA-256

`rsa_sign_pkcs1_sha256` and `rsa_verify_pkcs1_sha256` over the bignums of
`AdventOS.Crypto.Bignum`; the byte arrays `em` and `em_prime` have `RSA_MAX_BYTES`
elements, and every access to them is checked.

`encoding k msg` is the encoded message of RFC 8017 as a list, written on its own, and
`encodingNat` its number.

* `rsaVerify_ok`: verification in terms of numbers.
-/
namespace AdventOS.Crypto
open Function List

open AdventOS.Acc

/-- rsa.h:45 -/
def rsaMaxBytes : Nat := 512

/-- rsa.c:14-18 -/
def sha256DigestInfoPrefix : List UInt8 :=
  [0x30, 0x31, 0x30, 0x0d, 0x06, 0x09, 0x60, 0x86, 0x48, 0x01, 0x65, 0x03, 0x04, 0x02, 0x01, 0x05,
    0x00, 0x04, 0x20]

/-- rsa.c:21 -/
def tLen : Nat := 51

def storeBytes (size : Nat) (em : Nat → UInt8) (off : Nat) (l : List UInt8) : Acc (Nat → UInt8) :=
  up l.length em fun i em => store size em (off + i) (l.getD i 0)

/-- `none` where the code returns -1.
rsa.c:32-50 -/
def emEncode (em : Nat → UInt8) (k : Nat) (msg : List UInt8) : Acc (Option (Nat → UInt8)) :=
  if k < tLen + 11 then pure none else do
    let hash := sha256 msg
    let psLen := k - tLen - 3
    let em ← store rsaMaxBytes em 0 0x00
    let em ← store rsaMaxBytes em 1 0x01
    let em ← storeBytes rsaMaxBytes em 2 (List.replicate psLen 0xFF)
    let em ← store rsaMaxBytes em (2 + psLen) 0x00
    let em ← storeBytes rsaMaxBytes em (3 + psLen) sha256DigestInfoPrefix
    let em ← storeBytes rsaMaxBytes em (3 + psLen + 19) hash
    pure (some em)

/-- `for (int i = 0; i < k; i++) if (em[i] != em_prime[i]) return -1;` -/
def sameBytes (u w : Nat → UInt8) : Nat → Acc Bool
  | 0 => pure true
  | i + 1 => do
    let same ← sameBytes u w i
    if same then do
      let x ← load rsaMaxBytes u i
      let y ← load rsaMaxBytes w i
      pure (x = y)
    else pure false

/-- `true` where the code returns 0. `sig` is the signature with its length.
rsa.c:124-151 -/
def rsaVerify (msg : List UInt8) (sig : Buf) (n e : Bignum) : Acc Bool := do
  let k ← bnByteLength n
  if k = 0 ∨ sig.n ≠ k then pure false else do
    let s ← bnFromBytesBe sig 0 sig.n
    let c ← bnCmp s n
    if c ≠ .lt then pure false else do
      let m ← bnModpow s e n
      let emPrime ← bnToBytesBe m rsaMaxBytes (fun _ => 0) k
      let em ← emEncode (fun _ => 0) k msg
      em.elim (pure false) fun em => sameBytes em emPrime k

/-- rsa.h:47-59 -/
structure RsaKeypair where
  n : Bignum
  e : Bignum
  d : Bignum
  p : Bignum
  q : Bignum
  dp : Bignum
  dq : Bignum
  qinv : Bignum

/-- `m1 - m2`, brought back above zero by `p`; a difference that `bn_sub` refuses
leaves `diff` as the stack had it, here zero.
rsa.c:74-81 -/
def crtDiff (m1 m2 p : Bignum) : Acc Bignum := do
  let c ← bnCmp m1 m2
  if c ≠ .lt then do
    let diff ← bnSub m1 m2
    pure (diff.getD bnZero)
  else do
    let tmp ← bnSub m2 m1
    let diff ← bnSub p (tmp.getD bnZero)
    pure (diff.getD bnZero)

/-- rsa.c:64-87 -/
def rsaPrivOpCrt (m : Bignum) (kp : RsaKeypair) : Acc Bignum := do
  let m1 ← bnModpow m kp.dp kp.p
  let m2 ← bnModpow m kp.dq kp.q
  let diff ← crtDiff m1 m2 kp.p
  let h ← bnModmul kp.qinv diff kp.p
  let prod ← bnMul h kp.q
  bnAdd m2 prod

/-- rsa.c:90-94 -/
def rsaPrivOpD (m : Bignum) (kp : RsaKeypair) : Acc Bignum := bnModpow m kp.d kp.n

/-- The signature buffer, of `sigCap` bytes, and the length written; `none` where the
code returns -1.
rsa.c:96-120 -/
def rsaSign (sig : Nat → UInt8) (sigCap : Nat) (msg : List UInt8) (kp : RsaKeypair) :
    Acc (Option ((Nat → UInt8) × Nat)) := do
  let k ← bnByteLength kp.n
  if k = 0 ∨ sigCap < k then pure none else do
    let em ← emEncode (fun _ => 0) k msg
    em.elim (pure none) fun em => do
      let m ← bnFromBytesBe ⟨em, rsaMaxBytes⟩ 0 k
      let s ← (if 0 < kp.p.n ∧ 0 < kp.q.n then rsaPrivOpCrt m kp else rsaPrivOpD m kp)
      let sig ← bnToBytesBe s sigCap sig k
      pure (some (sig, k))

/-! ## Bytes and numbers -/

variable {n k : Nat} {f g : Nat → UInt8}

theorem bytesNat_lt (f : Nat → UInt8) : ∀ n : Nat, bytesNat f n < 2 ^ (8 * n)
  | 0 => by simp [bytesNat]
  | n + 1 => by
    have h := bytesNat_lt f n
    have hf := (f n).toNat_lt
    rw [bytesNat, show 8 * (n + 1) = 8 * n + 8 by ring, pow_add]
    omega

theorem bytesNat_congr : ∀ {n : Nat}, (∀ i, i < n → f i = g i) → bytesNat f n = bytesNat g n
  | 0, _ => rfl
  | n + 1, h => by
    rw [bytesNat, bytesNat, bytesNat_congr fun i hi => h i (by omega), h n (Nat.lt_succ_self n)]

theorem bytesNat_inj : ∀ {n : Nat}, bytesNat f n = bytesNat g n → ∀ i, i < n → f i = g i
  | 0, _, i, hi => absurd hi (Nat.not_lt_zero i)
  | n + 1, h, i, hi => by
    have hf := (f n).toNat_lt
    have hg := (g n).toNat_lt
    rw [bytesNat, bytesNat] at h
    by_cases hin : i = n
    · rw [hin]
      apply UInt8.toNat_inj.mp
      omega
    · have hrest : bytesNat f n = bytesNat g n := by omega
      exact bytesNat_inj hrest i (by omega)

theorem byteBe_shift (x k : Nat) {i : Nat} (hi : i < k) :
    byteBe x (k + 1) i = byteBe (x / 2 ^ 8) k i := by
  unfold byteBe
  rw [Nat.div_div_eq_div_mul, ← pow_add, show 8 + 8 * (k - 1 - i) = 8 * (k + 1 - 1 - i) by omega]

theorem bytesNat_byteBe : ∀ x k : Nat, bytesNat (byteBe x k) k = x % 2 ^ (8 * k)
  | x, 0 => by simp [bytesNat, Nat.mod_one]
  | x, k + 1 => by
    have hlow : (byteBe x (k + 1) k).toNat = x % 2 ^ 8 := by
      rw [byteBe, UInt8.toNat_ofNat', Nat.add_sub_cancel, Nat.sub_self, mul_zero, pow_zero,
        Nat.div_one]
    rw [bytesNat, bytesNat_congr fun i hi => byteBe_shift x k hi, bytesNat_byteBe, hlow,
      show 8 * (k + 1) = 8 + 8 * k by ring, pow_add, Nat.mod_mul]
    ring

variable {e m size x : Nat} {em : Nat → UInt8} {l msg : List UInt8} {sig : Buf}

theorem forall_byteBe_iff (hx : x < 2 ^ (8 * k)) :
    (∀ i, i < k → f i = byteBe x k i) ↔ x = bytesNat f k := by
  constructor
  · intro h
    rw [bytesNat_congr h, bytesNat_byteBe, Nat.mod_eq_of_lt hx]
  · intro h
    apply bytesNat_inj
    rw [bytesNat_byteBe, Nat.mod_eq_of_lt hx, h]

/-! ## The encoded message -/

/-- The encoded message of RFC 8017, section 9.2, of `k` bytes. -/
def encoding (k : Nat) (msg : List UInt8) : List UInt8 :=
  [0x00, 0x01] ++ List.replicate (k - 54) 0xFF ++ [0x00] ++ sha256DigestInfoPrefix ++ sha256 msg

def encodingNat (k : Nat) (msg : List UInt8) : Nat := bytesNat (fun i => (encoding k msg).getD i 0) k

/-- The array starts with the bytes of the list. -/
def StartsWith (em : Nat → UInt8) (l : List UInt8) : Prop := ∀ i, i < l.length → em i = l.getD i 0

theorem StartsWith.append {w : Nat → UInt8} {l' : List UInt8} (h : StartsWith em l)
    (hold : ∀ i, i < l.length → w i = em i)
    (hnew : ∀ i, i < l'.length → w (l.length + i) = l'.getD i 0) : StartsWith w (l ++ l') := by
  intro i hi
  rw [length_append] at hi
  by_cases hlt : i < l.length
  · rw [hold i hlt, h i hlt, getD_append _ _ _ _ hlt]
  · rw [getD_append_right _ _ _ _ (by omega), ← hnew (i - l.length) (by omega),
      Nat.add_sub_cancel' (by omega)]

theorem storeBytes_ok {off : Nat} {l' : List UInt8}
    (h : StartsWith em l) (hoff : off = l.length) (hsize : off + l'.length ≤ size) :
    (storeBytes size em off l').Ok fun w => StartsWith w (l ++ l') := by
  refine (up_ok (fun i w => (∀ j, j < l.length → w j = em j) ∧
    ∀ j, j < i → w (l.length + j) = l'.getD j 0) ⟨fun _ _ => rfl, fun j hj => by omega⟩ ?_).mono ?_
  · intro i w hi ⟨hold, hnew⟩
    refine (store_ok (by omega)).mono ?_
    intro u hu
    refine ⟨?_, ?_⟩
    · intro j hj
      rw [hu, update_apply, if_neg (by omega)]
      exact hold j hj
    · intro j hj
      rw [hu, update_apply]
      by_cases hji : j = i
      · rw [if_pos (by omega), hji]
      · rw [if_neg (by omega)]
        exact hnew j (by omega)
  · intro w ⟨hold, hnew⟩
    exact h.append hold hnew

theorem storeByte_ok {off : Nat} {x : UInt8}
    (h : StartsWith em l) (hoff : off = l.length) (hsize : off < size) :
    (store size em off x).Ok fun w => StartsWith w (l ++ [x]) := by
  subst hoff
  refine (store_ok hsize).mono ?_
  intro w hw
  refine h.append ?_ ?_
  · intro i hi
    rw [hw, update_apply, if_neg (by omega)]
  · intro i hi
    obtain rfl : i = 0 := by simpa using hi
    rw [hw, add_zero, update_self]
    rfl

theorem length_encoding (hk : 54 ≤ k) (msg : List UInt8) : (encoding k msg).length = k := by
  simp only [encoding, sha256DigestInfoPrefix, length_append, length_replicate,
    length_cons, length_nil, length_sha256]
  omega

theorem emEncode_ok (hk : k ≤ rsaMaxBytes) : (emEncode em k msg).Ok fun r => (k < 62 → r = none) ∧
      (62 ≤ k → ∃ w, r = some w ∧ ∀ i, i < k → w i = (encoding k msg).getD i 0) := by
  have hmax : rsaMaxBytes = 512 := rfl
  have ht : tLen = 51 := rfl
  refine Ok.ite ?_ ?_
  · intro hlt
    exact Ok.pure ⟨fun _ => rfl, fun h => by omega⟩
  · intro hge
    refine Ok.bind (storeByte_ok (l := []) (fun i hi => absurd hi (Nat.not_lt_zero i)) rfl
      (by omega)) ?_
    intro em1 h1
    refine Ok.bind (storeByte_ok h1 rfl (by omega)) ?_
    intro em2 h2
    refine Ok.bind (storeBytes_ok h2 rfl (by simp only [length_replicate]; omega)) ?_
    intro em3 h3
    refine Ok.bind (storeByte_ok h3 (by simp; omega) (by omega)) ?_
    intro em4 h4
    refine Ok.bind (storeBytes_ok h4 (by simp; omega) ?_) ?_
    · simp only [sha256DigestInfoPrefix, length_cons, length_nil]
      omega
    intro em5 h5
    refine Ok.bind (storeBytes_ok h5 (by simp [sha256DigestInfoPrefix]; omega) ?_) ?_
    · rw [length_sha256]
      omega
    intro em6 h6
    refine Ok.pure ⟨fun h => by omega, fun _ => ⟨em6, rfl, ?_⟩⟩
    have hps : k - tLen - 3 = k - 54 := by omega
    rw [hps] at h6
    have hem : StartsWith em6 (encoding k msg) := h6
    intro i hi
    exact hem i (by rw [length_encoding (by omega)]; exact hi)

theorem sameBytes_ok {u w : Nat → UInt8} : ∀ {k : Nat}, k ≤ rsaMaxBytes →
    (sameBytes u w k).Ok (· = true ↔ ∀ i, i < k → u i = w i)
  | 0, _ => Ok.pure (by simp)
  | k + 1, hk => by
    refine Ok.bind (sameBytes_ok (by omega)) ?_
    intro same hsame
    refine Ok.ite ?_ ?_
    · intro h
      have hlow := hsame.mp h
      refine Ok.bind (load_ok (by omega)) ?_
      intro x hx
      refine Ok.bind (load_ok (by omega)) ?_
      intro y hy
      refine Ok.pure ?_
      rw [hx, hy, decide_eq_true_iff]
      constructor
      · intro heq i hi
        by_cases hik : i = k
        · rw [hik, heq]
        · exact hlow i (by omega)
      · intro hall
        exact hall k (Nat.lt_succ_self k)
    · intro h
      refine Ok.pure ⟨fun hf => absurd hf Bool.false_ne_true, ?_⟩
      intro hall
      exact absurd (hsame.mpr fun i hi => hall i (by omega)) h

/-! ## Verification -/

def sigNat (sig : Buf) : Nat := bytesNat sig.mem sig.n

/-- The bytes a modulus takes. -/
def byteLength (n : Nat) : Nat := (Nat.size n + 7) / 8

theorem lt_pow_byteLength (n : Nat) : n < 2 ^ (8 * byteLength n) :=
  lt_of_lt_of_le (Nat.lt_size_self n) (Nat.pow_le_pow_right (by omega) (by unfold byteLength; omega))

theorem byteLength_pos {n : Nat} (h : byteLength n ≠ 0) : 0 < n := by
  by_contra h0
  obtain rfl : n = 0 := by omega
  exact h (by simp [byteLength])

theorem one_lt_of_byteLength {n : Nat} (h : 62 ≤ byteLength n) : 1 < n := by
  by_contra hle
  have hsize := Nat.size_le_size (show n ≤ 1 by omega)
  rw [Nat.size_one] at hsize
  unfold byteLength at h
  omega

theorem powMod_lt (hm : 1 < m) : powMod x e m < m := by
  have hlt : ∀ i, powBits x e m i < m := by
    intro i
    induction i with
    | zero => exact hm
    | succ i ih =>
      rw [powBits]
      split
      · exact Nat.mod_lt _ (by omega)
      · exact ih
  exact hlt _

/-- The signature is refused before any exponentiation. -/
def Refused (sig : Buf) (n : Bignum) : Prop :=
  byteLength n.val = 0 ∨ sig.n ≠ byteLength n.val ∨ n.val ≤ sigNat sig

theorem Bignum.byteLength_le (n : Bignum) : byteLength n.val ≤ 576 := by
  have h : Nat.size n.val ≤ 32 * bnMaxLimbs := Nat.size_le.mpr n.val_lt
  have hmax : bnMaxLimbs = 144 := rfl
  unfold byteLength
  omega

theorem sigNat_mod (h : sig.n ≤ 576) :
    bytesNat (fun i => sig.mem (0 + i)) sig.n % bnLimit = sigNat sig := by
  simp only [zero_add]
  apply Nat.mod_eq_of_lt
  refine lt_of_lt_of_le (bytesNat_lt _ _) ?_
  exact Nat.pow_le_pow_right (by omega) (by simp only [bnMaxLimbs]; omega)

theorem rsaVerify_ok {n e : Bignum} (hn : n.WF) (he : e.WF)
    (h : Refused sig n ∨ byteLength n.val ≤ rsaMaxBytes) :
    (rsaVerify msg sig n e).Ok (· = true ↔ ¬ Refused sig n ∧ 62 ≤ byteLength n.val ∧
      powMod (sigNat sig) e.val n.val = encodingNat (byteLength n.val) msg) := by
  refine Ok.bind (bnByteLength_ok hn) ?_
  intro k hk
  have hk : k = byteLength n.val := hk
  refine Ok.ite ?_ ?_
  · intro hrefused
    refine Ok.pure ⟨fun hf => absurd hf Bool.false_ne_true, ?_⟩
    intro ⟨hnot, _⟩
    unfold Refused at hnot
    omega
  · intro hlen
    obtain ⟨hk0, hsig⟩ := not_or.mp hlen
    refine Ok.bind (bnFromBytesBe_ok (by omega)) ?_
    intro s ⟨hs, hsval⟩
    have hle := n.byteLength_le
    rw [sigNat_mod (by omega)] at hsval
    refine Ok.bind (bnCmp_ok hs hn) ?_
    intro c hc
    have hlt : c = .lt ↔ sigNat sig < n.val := by
      rw [hc, hsval]
      exact compare_lt_iff_lt
    refine Ok.ite ?_ ?_
    · intro hge
      refine Ok.pure ⟨fun hf => absurd hf Bool.false_ne_true, ?_⟩
      intro ⟨hnot, _⟩
      exact absurd (Or.inr (Or.inr (not_lt.mp (mt hlt.mpr hge)))) hnot
    · intro hlow
      have hlow : sigNat sig < n.val := hlt.mp (not_not.mp hlow)
      have hnot : ¬ Refused sig n := by
        unfold Refused
        omega
      have hmax : byteLength n.val ≤ rsaMaxBytes := h.resolve_left hnot
      refine Ok.bind (bnModpow_ok hs he hn) ?_
      intro m ⟨hm, hmval⟩
      rw [hsval] at hmval
      refine Ok.bind (bnToBytesBe_ok m (by omega)) ?_
      intro emPrime ⟨hprime, _⟩
      refine Ok.bind (emEncode_ok (by omega)) ?_
      intro r ⟨hnone, hsome⟩
      by_cases hk62 : k < 62
      · rw [hnone hk62]
        refine Ok.pure ⟨fun hf => absurd hf Bool.false_ne_true, ?_⟩
        intro ⟨_, hge, _⟩
        omega
      · obtain ⟨em, hem, hbytes⟩ := hsome (by omega)
        rw [hem]
        refine (sameBytes_ok (by omega)).mono ?_
        intro same hsame
        have h62 : 62 ≤ byteLength n.val := by omega
        have hmlt : m.val < 2 ^ (8 * k) := by
          have hpow := lt_pow_byteLength n.val
          have hone : 1 < n.val := one_lt_of_byteLength h62
          have := powMod_lt (x := sigNat sig) (e := e.val) hone
          rw [hk]
          omega
        have heq : (∀ i, i < k → em i = emPrime i) ↔ m.val = encodingNat k msg := by
          rw [encodingNat, ← bytesNat_congr hbytes, ← forall_byteBe_iff hmlt]
          constructor
          · intro hall i hi
            rw [hall i hi, hprime i hi]
          · intro hall i hi
            rw [hall i hi, hprime i hi]
        rw [hsame, heq, hmval, hk]
        simp [hnot, h62]

theorem bnToBytesBe_overrun {buf : Nat → UInt8} (b : Bignum) (h : size < k) :
    (bnToBytesBe b size buf k).safe = false := by
  obtain ⟨j, rfl⟩ := Nat.exists_eq_add_of_lt h
  apply bind_faults
  refine bind_faults (Ok.bind_faults (load_ok (by decide)) ?_)
  intro x _
  exact bind_faults (decide_eq_false (by omega))

theorem rsaVerify_overrun {n e : Bignum} (hn : n.WF) (he : e.WF)
    (h : ¬ Refused sig n) (hk : rsaMaxBytes < byteLength n.val) :
    (rsaVerify msg sig n e).safe = false := by
  obtain ⟨hk0, hlen, hlt⟩ := not_or.mp h |>.imp_right not_or.mp
  refine Ok.bind_faults (bnByteLength_ok hn) ?_
  intro k hkn
  have hkn : k = byteLength n.val := hkn
  rw [if_neg (by omega)]
  refine Ok.bind_faults (bnFromBytesBe_ok (by omega)) ?_
  intro s ⟨hs, hsval⟩
  have hle := n.byteLength_le
  rw [sigNat_mod (by omega)] at hsval
  refine Ok.bind_faults (bnCmp_ok hs hn) ?_
  intro c hc
  rw [if_neg (not_not.mpr (hc ▸ compare_lt_iff_lt.mpr (by omega)))]
  refine Ok.bind_faults (bnModpow_ok hs he hn) ?_
  intro m _
  exact bind_faults (bnToBytesBe_overrun m (by omega))

theorem rsaVerify_safe_iff {n e : Bignum} (hn : n.WF) (he : e.WF) :
    (rsaVerify msg sig n e).safe = true ↔ Refused sig n ∨ byteLength n.val ≤ rsaMaxBytes := by
  constructor
  · intro hsafe
    by_contra h
    obtain ⟨hnot, hk⟩ := not_or.mp h
    rw [rsaVerify_overrun hn he hnot (by omega)] at hsafe
    exact Bool.false_ne_true hsafe
  · intro h
    exact (rsaVerify_ok hn he h).safe

end AdventOS.Crypto
