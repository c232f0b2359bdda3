import AdventOS.Tls.X509

/-!
# Self-signed certificates

The certificate builders of `libcrypto/x509.c` write DER backwards, from the right
edge of a buffer, and learn each length after its content. The parser of `X509.lean`
reads the same bytes forwards. A `Dw` is what has been written so far; a byte that does
not fit is dropped and marks the overflow.

* `Writes`: an emitter puts a fixed string in front of what is written, or overflows;
  `Writes.comp` and `Writes.wrap` are its rules.
* `readTlv_derTlv`: what `dw_wrap` closes, `dr_read_tlv` opens, in all three forms of
  the length.
* `p256SigFromDer_toDer`: the DER form of an ECDSA signature reads back.
* `selfSigned_roundTrip`.
-/
namespace AdventOS.Tls
open Option

/-! ## The backward writer -/

/-- x509.c:63-74: `buf[cap - pos .. cap)` is `bytes`. -/
structure Dw where
  cap : Nat
  bytes : Bytes
  overflow : Bool
  deriving DecidableEq

def Dw.pos (w : Dw) : Nat := w.bytes.length

def dwInit (cap : Nat) : Dw := { cap, bytes := [], overflow := false }

/-- x509.c:76-80 -/
def dwPut (w : Dw) (b : UInt8) : Dw :=
  if w.cap ≤ w.pos then { w with overflow := true } else { w with bytes := b :: w.bytes }

/-- x509.c:85-87: the last byte goes first. -/
def dwRaw (w : Dw) (src : Bytes) : Dw := src.reverse.foldl dwPut w

/-- x509.c:94-105 -/
def dwLen (w : Dw) (n : Nat) : Dw :=
  if n < 0x80 then dwPut w (.ofNat n)
  else if n < 0x100 then dwPut (dwPut w (.ofNat n)) 0x81
  else dwPut (dwPut (dwPut w (.ofNat (n % 256))) (.ofNat (n / 256 % 256))) 0x82

/-- x509.c:110-116 -/
def dwWrap (w : Dw) (tag : UInt8) (snap : Nat) : Dw := dwPut (dwLen w (w.pos - snap)) tag

/-- The emitters take a snapshot, write their content and wrap it. -/
def dwTlv (tag : UInt8) (content : Dw → Dw) (w : Dw) : Dw := dwWrap (content w) tag w.pos

/-! ## What an emitter writes -/

/-- The length of `n` content bytes in DER, for `n` below 65536. -/
def derLen (n : Nat) : Bytes :=
  if n < 0x80 then [.ofNat n]
  else if n < 0x100 then [0x81, .ofNat n]
  else [0x82, .ofNat (n / 256 % 256), .ofNat (n % 256)]

def derTlv (tag : UInt8) (content : Bytes) : Bytes := tag :: derLen content.length ++ content

/-- `f` puts `out` in front of what is written where it fits, and overflows where not. -/
structure Writes (f : Dw → Dw) (out : Bytes) : Prop where
  fits : ∀ w, w.pos + out.length ≤ w.cap → f w = { w with bytes := out ++ w.bytes }
  full : ∀ w, w.pos ≤ w.cap → w.cap < w.pos + out.length → (f w).overflow = true
  sticky : ∀ w, w.overflow = true → (f w).overflow = true

variable {f : Dw → Dw} {alg c cn der n rs sig spki v : Bytes} {sigAlg : Alg} {key : PubKey}

theorem Writes.comp {g : Dw → Dw} {a b : Bytes} (hf : Writes f a) (hg : Writes g b) :
    Writes (fun w => g (f w)) (b ++ a) := by
  refine ⟨fun w h => ?_, fun w hw h => ?_, fun w h => hg.sticky _ (hf.sticky _ h)⟩
  · rw [List.length_append] at h
    rw [hf.fits w (by omega), hg.fits _ (by simp only [Dw.pos, List.length_append] at h ⊢; omega)]
    simp only [List.append_assoc]
  · rw [List.length_append] at h
    by_cases ha : w.pos + a.length ≤ w.cap
    · rw [hf.fits w ha]
      refine hg.full _ ?_ ?_
      · simp only [Dw.pos, List.length_append] at ha ⊢
        omega
      · simp only [Dw.pos, List.length_append] at h ⊢
        omega
    · exact hg.sticky _ (hf.full w hw (by omega))

theorem writes_put (b : UInt8) : Writes (dwPut · b) [b] := by
  refine ⟨fun w h => ?_, fun w _ h => ?_, fun w h => ?_⟩
  · rw [List.length_singleton] at h
    rw [dwPut, if_neg (by omega)]
    rfl
  · rw [List.length_singleton] at h
    rw [dwPut, if_pos (by omega)]
  · unfold dwPut
    split
    · rfl
    · exact h

theorem writes_foldl (l : Bytes) : Writes (l.foldl dwPut) l.reverse := by
  induction l with
  | nil =>
    refine ⟨fun w _ => rfl, fun w hw h => ?_, fun w h => h⟩
    simp only [List.reverse_nil, List.length_nil] at h
    omega
  | cons b l ih =>
    rw [List.reverse_cons]
    exact (writes_put b).comp ih

theorem writes_raw (src : Bytes) : Writes (dwRaw · src) src := by
  have h := writes_foldl src.reverse
  rw [List.reverse_reverse] at h
  exact h

theorem writes_len (n : Nat) : Writes (dwLen · n) (derLen n) := by
  unfold dwLen derLen
  split
  · exact writes_put _
  · split
    · exact (writes_put _).comp (writes_put _)
    · exact ((writes_put _).comp (writes_put _)).comp (writes_put _)

theorem Writes.wrap (hf : Writes f c) (tag : UInt8) :
    Writes (dwTlv tag f) (derTlv tag c) := by
  have hl (n : Nat) := (writes_len n).comp (writes_put tag)
  have hlen : (derTlv tag c).length = 1 + (derLen c.length).length + c.length := by
    simp only [derTlv, List.length_append, List.length_cons]
    omega
  refine ⟨fun w h => ?_, fun w hw h => ?_, fun w h => ?_⟩
  · have hpos : (f w).pos - w.pos = c.length := by
      rw [hf.fits w (by omega)]
      simp only [Dw.pos, List.length_append]
      omega
    unfold dwTlv dwWrap
    rw [hpos, hf.fits w (by omega), (hl c.length).fits]
    · simp only [derTlv, List.cons_append, List.nil_append, List.append_assoc]
    · simp only [Dw.pos, List.length_append, List.length_singleton] at h ⊢
      omega
  · unfold dwTlv dwWrap
    by_cases hc : w.pos + c.length ≤ w.cap
    · have hpos : (f w).pos - w.pos = c.length := by
        rw [hf.fits w hc]
        simp only [Dw.pos, List.length_append]
        omega
      rw [hpos, hf.fits w hc]
      refine (hl c.length).full _ ?_ ?_
      · simp only [Dw.pos, List.length_append] at hc ⊢
        omega
      · simp only [Dw.pos, List.length_append, List.length_singleton] at h ⊢
        omega
    · exact (hl _).sticky _ (hf.full w hw (by omega))
  · exact (hl _).sticky _ (hf.sticky w h)

/-! ## The emitters -/

def oidCn : Bytes := [0x55, 0x04, 0x03]
def oidPrime256v1 : Bytes := [0x2A, 0x86, 0x48, 0xCE, 0x3D, 0x03, 0x01, 0x07]

def asn1PrintStr : UInt8 := 0x13
def asn1UtcTime : UInt8 := 0x17
def asn1Set : UInt8 := 0x31

/-- The bytes of a number from the low end, at least one. mirrors the first loop of
x509.c:128 -/
def leDigits : Nat → Nat → Bytes
  | 0, _ => []
  | k + 1, v => .ofNat (v % 256) :: if v / 256 = 0 then [] else leDigits k (v / 256)

/-- The content of an INTEGER, low byte first. -/
def intDigits (v : Nat) : Bytes :=
  let b := leDigits 4 v
  if 0x80 ≤ b.getLastD 0 then b ++ [0] else b

/-- x509.c:123-135 -/
def derIntU32 (v : Nat) : Dw → Dw := dwTlv asn1Integer ((intDigits v).foldl dwPut)

/-- x509.c:138-142 -/
def derOid (body : Bytes) : Dw → Dw := dwTlv asn1Oid (dwRaw · body)

/-- x509.c:212-216, 358-362: `der_alg_ed25519`, `der_alg_ecdsa_sha256`. -/
def derAlg (oid : Bytes) : Dw → Dw := dwTlv asn1Sequence (derOid oid)

/-- x509.c:149-166 -/
def derSpkiEd25519 (pk : Bytes) : Dw → Dw :=
  dwTlv asn1Sequence fun w =>
    dwTlv asn1Sequence (derOid oidEd25519)
      (dwTlv asn1Bitstring (fun w => dwPut (dwRaw w pk) 0x00) w)

/-- x509.c:336-354: `pub` is X and Y of 32 bytes each. -/
def derSpkiP256 (pub : Bytes) : Dw → Dw :=
  dwTlv asn1Sequence fun w =>
    dwTlv asn1Sequence (fun w => derOid oidEcPubkey (derOid oidPrime256v1 w))
      (dwTlv asn1Bitstring
        (fun w => dwPut (dwPut (dwRaw (dwRaw w (pub.drop 32)) (pub.take 32)) 0x04) 0x00) w)

/-- x509.c:170-188; `cn` is the text before its NUL. -/
def derNameCn (cn : Bytes) : Dw → Dw :=
  dwTlv asn1Sequence <| dwTlv asn1Set <| dwTlv asn1Sequence fun w =>
    derOid oidCn (dwTlv asn1PrintStr (dwRaw · cn) w)

/-- `260101000000Z`. -/
def notBefore2026 : Bytes := [50, 54, 48, 49, 48, 49, 48, 48, 48, 48, 48, 48, 90]

/-- `360101000000Z`. -/
def notAfter2036 : Bytes := [51, 54, 48, 49, 48, 49, 48, 48, 48, 48, 48, 48, 90]

/-- x509.c:193-207 -/
def derValidity20262036 : Dw → Dw :=
  dwTlv asn1Sequence fun w =>
    dwTlv asn1UtcTime (dwRaw · notBefore2026) (dwTlv asn1UtcTime (dwRaw · notAfter2036) w)

/-- x509.c:223-255, 364-399: `build_tbs` and `build_tbs_p256` differ in
the key and in the algorithm. -/
def buildTbs (spki : Dw → Dw) (alg : Bytes) (cn : Bytes) : Dw → Dw :=
  dwTlv asn1Sequence fun w =>
    dwTlv asn1Ctx0 (derIntU32 2)
      (derIntU32 1 (derAlg alg (derNameCn cn (derValidity20262036 (derNameCn cn (spki w))))))

/-- The part both builders end with: the signature's bits, the algorithm and the copied
TBS, wrapped. x509.c:283-317, 422-450 -/
def assemble (alg tbs sig : Bytes) : Dw → Dw :=
  dwTlv asn1Sequence fun w =>
    dwRaw (derAlg alg (dwTlv asn1Bitstring (fun w => dwPut (dwRaw w sig) 0x00) w)) tbs

def x509MaxCert : Nat := 1600

/-- What a writer holds, unless it overflowed. -/
def Dw.done (w : Dw) : Option Bytes := if w.overflow then none else some w.bytes

variable (cr : Primitives)

/-- x509.c:261-317: the certificate, or `none` for -1. -/
def x509BuildSelfSignedEd25519 (pk sk cn : Bytes) (outCap : Nat) : Option Bytes := do
  let tbs ← (buildTbs (derSpkiEd25519 pk) oidEd25519 cn (dwInit x509MaxCert)).done
  let sig := cr.ed25519Sign tbs sk
  (assemble oidEd25519 tbs sig (dwInit outCap)).done

/-- x509.c:401-450 -/
def x509BuildSelfSignedP256 (pub priv cn : Bytes) (outCap : Nat) : Option Bytes := do
  let tbs ← (buildTbs (derSpkiP256 pub) oidEcdsaSha256 cn (dwInit x509MaxCert)).done
  let rawSig ← cr.p256Sign (cr.sha256 tbs) priv
  let derSig ← cr.p256SigToDer rawSig
  (assemble oidEcdsaSha256 tbs derSig (dwInit outCap)).done

/-! ## The bytes they write -/

def intTlv (v : Nat) : Bytes := derTlv asn1Integer (intDigits v).reverse

def algId (oid : Bytes) : Bytes := derTlv asn1Sequence (derTlv asn1Oid oid)

def bits (v : Bytes) : Bytes := derTlv asn1Bitstring (0 :: v)

def spkiEd25519 (pk : Bytes) : Bytes := derTlv asn1Sequence (algId oidEd25519 ++ bits pk)

def spkiP256 (pub : Bytes) : Bytes :=
  derTlv asn1Sequence
    (derTlv asn1Sequence (derTlv asn1Oid oidEcPubkey ++ derTlv asn1Oid oidPrime256v1) ++
      bits (4 :: pub))

def nameCn (cn : Bytes) : Bytes :=
  derTlv asn1Sequence <| derTlv asn1Set <| derTlv asn1Sequence <|
    derTlv asn1Oid oidCn ++ derTlv asn1PrintStr cn

def validity20262036 : Bytes :=
  derTlv asn1Sequence (derTlv asn1UtcTime notBefore2026 ++ derTlv asn1UtcTime notAfter2036)

def tbsContent (spki alg cn : Bytes) : Bytes :=
  derTlv asn1Ctx0 (intTlv 2) ++ (intTlv 1 ++ (algId alg ++
    (nameCn cn ++ (validity20262036 ++ (nameCn cn ++ spki)))))

def tbsCert (spki alg cn : Bytes) : Bytes := derTlv asn1Sequence (tbsContent spki alg cn)

def certOf (alg tbs sig : Bytes) : Bytes := derTlv asn1Sequence (tbs ++ (algId alg ++ bits sig))

theorem writes_int (v : Nat) : Writes (derIntU32 v) (intTlv v) :=
  (writes_foldl _).wrap _

theorem writes_oid (body : Bytes) : Writes (derOid body) (derTlv asn1Oid body) :=
  (writes_raw body).wrap _

theorem writes_alg (oid : Bytes) : Writes (derAlg oid) (algId oid) :=
  (writes_oid oid).wrap _

theorem writes_spkiEd25519 (pk : Bytes) : Writes (derSpkiEd25519 pk) (spkiEd25519 pk) :=
  ((((writes_raw pk).comp (writes_put 0)).wrap _).comp ((writes_oid _).wrap _)).wrap _

theorem writes_spkiP256 (pub : Bytes) : Writes (derSpkiP256 pub) (spkiP256 pub) := by
  have hpub := (((writes_raw (pub.drop 32)).comp (writes_raw (pub.take 32))).comp
    (writes_put 4)).comp (writes_put 0)
  rw [List.take_append_drop] at hpub
  exact ((hpub.wrap _).comp (((writes_oid _).comp (writes_oid _)).wrap _)).wrap _

theorem writes_nameCn (cn : Bytes) : Writes (derNameCn cn) (nameCn cn) :=
  (((((writes_raw cn).wrap _).comp (writes_oid _)).wrap _).wrap _).wrap _

theorem writes_validity : Writes derValidity20262036 validity20262036 :=
  (((writes_raw _).wrap _).comp ((writes_raw _).wrap _)).wrap _

theorem writes_buildTbs {spki : Dw → Dw} {key : Bytes} (hs : Writes spki key) (alg cn : Bytes) :
    Writes (buildTbs spki alg cn) (tbsCert key alg cn) :=
  ((((((hs.comp (writes_nameCn cn)).comp writes_validity).comp (writes_nameCn cn)).comp
    (writes_alg alg)).comp (writes_int 1)).comp ((writes_int 2).wrap _)).wrap _

theorem writes_assemble (alg tbs sig : Bytes) :
    Writes (assemble alg tbs sig) (certOf alg tbs sig) :=
  (((((writes_raw sig).comp (writes_put 0)).wrap _).comp (writes_alg alg)).comp
    (writes_raw tbs)).wrap _

theorem Writes.done {out : Bytes} (hf : Writes f out) (cap : Nat) :
    (f (dwInit cap)).done = if out.length ≤ cap then some out else none := by
  unfold Dw.done
  by_cases h : out.length ≤ cap
  · rw [if_pos h, hf.fits (dwInit cap) (by simp only [Dw.pos, dwInit, List.length_nil]; omega)]
    simp only [dwInit, List.append_nil, Bool.false_eq_true, if_false]
  · have ho : (f (dwInit cap)).overflow = true := by
      refine hf.full (dwInit cap) (Nat.zero_le _) ?_
      simp only [Dw.pos, dwInit, List.length_nil]
      omega
    rw [if_neg h, if_pos ho]

/-! ## Reading them back -/

theorem toNat_ofNat_mod (n : Nat) : (UInt8.ofNat (n % 256)).toNat = n % 256 := by
  rw [UInt8.toNat_ofNat']
  omega

theorem toNat_ofNat_of_lt {n : Nat} (h : n < 256) : (UInt8.ofNat n).toNat = n := by
  rw [UInt8.toNat_ofNat']
  omega

theorem readTlv_derTlv (tag : UInt8) (hc : c.length < 65536) (rest : Bytes) :
    readTlv (derTlv tag c ++ rest) = some (tag, c, rest) := by
  have htake : (c ++ rest).take c.length = c := List.take_left
  have hdrop : (c ++ rest).drop c.length = rest := List.drop_left
  unfold derTlv derLen
  split
  · rename_i h
    have hb := toNat_ofNat_of_lt (n := c.length) (by omega)
    have hlt : UInt8.ofNat c.length < 0x80 := by
      rw [UInt8.lt_iff_toNat_lt, hb]
      exact h
    simp only [List.cons_append, List.nil_append, readTlv, hb]
    rw [if_pos hlt, if_neg (by simp only [List.length_append]; omega), htake, hdrop]
  · split
    · have hb := toNat_ofNat_of_lt (n := c.length) (by omega)
      simp only [List.cons_append, List.nil_append, readTlv]
      rw [if_neg (by decide), if_neg (by simp)]
      have hn : (0x81 : UInt8).toNat % 128 = 1 := by decide
      simp only [hn, List.take_succ_cons, List.take_zero, List.foldl_cons, List.foldl_nil,
        List.drop_succ_cons, List.drop_zero, hb, Nat.zero_mul, Nat.zero_add]
      rw [if_neg (by simp only [List.length_append]; omega), htake, hdrop]
    · have h1 := toNat_ofNat_mod c.length
      have h2 := toNat_ofNat_mod (c.length / 256)
      have hv : c.length / 256 % 256 * 256 + c.length % 256 = c.length := by omega
      simp only [List.cons_append, List.nil_append, readTlv]
      rw [if_neg (by decide), if_neg (by simp)]
      have hn : (0x82 : UInt8).toNat % 128 = 2 := by decide
      simp only [hn, List.take_succ_cons, List.take_zero, List.foldl_cons, List.foldl_nil,
        List.drop_succ_cons, List.drop_zero, h1, h2, Nat.zero_mul, Nat.zero_add, hv]
      rw [if_neg (by simp only [List.length_append]; omega), htake, hdrop]

theorem expectTlv_derTlv (tag : UInt8) (hc : c.length < 65536) (rest : Bytes) :
    expectTlv tag (derTlv tag c ++ rest) = some (c, rest) := by
  unfold expectTlv
  rw [readTlv_derTlv tag hc]
  exact if_pos rfl

theorem expectTlv_derTlv_end (tag : UInt8) (hc : c.length < 65536) :
    expectTlv tag (derTlv tag c) = some (c, []) := by
  have h := expectTlv_derTlv tag hc []
  rwa [List.append_nil] at h

theorem length_derTlv (tag : UInt8) (c : Bytes) :
    (derTlv tag c).length = 1 + (derLen c.length).length + c.length := by
  simp only [derTlv, List.length_append, List.length_cons]
  omega

theorem length_derLen (n : Nat) : 1 ≤ (derLen n).length ∧ (derLen n).length ≤ 3 := by
  unfold derLen
  split
  · exact ⟨Nat.le_refl 1, by simp⟩
  · split
    · exact ⟨by simp, by simp⟩
    · exact ⟨by simp, by simp⟩

theorem length_derTlv_bounds (tag : UInt8) (c : Bytes) :
    c.length + 2 ≤ (derTlv tag c).length ∧ (derTlv tag c).length ≤ c.length + 4 := by
  have h := length_derLen c.length
  rw [length_derTlv]
  omega

theorem sliceTo_append (a rest : Bytes) : sliceTo (a ++ rest) rest = a := by
  unfold sliceTo
  rw [List.length_append, Nat.add_sub_cancel]
  exact List.take_left

theorem parseAlgId_derTlv {oid params : Bytes} {alg : Alg} (rest : Bytes)
    (hlen : (derTlv asn1Oid oid ++ params).length < 65536)
    (halg : parseAlgId (derTlv asn1Sequence (derTlv asn1Oid oid)) = some (alg, [])) :
    parseAlgId (derTlv asn1Sequence (derTlv asn1Oid oid ++ params) ++ rest) =
      some (alg, rest) := by
  have hoid : oid.length < 65536 := by
    rw [List.length_append, length_derTlv] at hlen
    omega
  have hin : (derTlv asn1Oid oid).length < 65536 := by
    rw [List.length_append] at hlen
    omega
  unfold parseAlgId at halg ⊢
  rw [expectTlv_derTlv_end asn1Sequence hin] at halg
  rw [expectTlv_derTlv asn1Sequence hlen]
  simp only [bind_eq_bind, bind_some, expectTlv_derTlv_end asn1Oid hoid,
    expectTlv_derTlv asn1Oid hoid] at halg ⊢
  split at halg
  · cases halg
    rw [if_pos ‹_›]
  · split at halg
    · cases halg
      rw [if_neg ‹_›, if_pos ‹_›]
    · split at halg
      · cases halg
        rw [if_neg ‹_›, if_neg ‹_›, if_pos ‹_›]
      · cases halg

/-- The algorithm `oid` names, without parameters. -/
def NamesAlg (oid : Bytes) (alg : Alg) : Prop :=
  parseAlgId (algId oid) = some (alg, []) ∧ oid.length < 128

theorem namesAlg_ed25519 : NamesAlg oidEd25519 .ed25519 := ⟨by decide, by decide⟩

theorem namesAlg_ecPubkey : NamesAlg oidEcPubkey .p256 := ⟨by decide, by decide⟩

theorem namesAlg_ecdsaSha256 : NamesAlg oidEcdsaSha256 .p256 := ⟨by decide, by decide⟩

theorem NamesAlg.parse {oid : Bytes} {alg : Alg} (h : NamesAlg oid alg) (rest : Bytes) :
    parseAlgId (algId oid ++ rest) = some (alg, rest) := by
  have hlen : (derTlv asn1Oid oid ++ []).length < 65536 := by
    have := h.2
    rw [List.append_nil, length_derTlv]
    unfold derLen
    split
    · simp only [List.length_singleton]
      omega
    · omega
  have hp := parseAlgId_derTlv rest hlen h.1
  rwa [List.append_nil] at hp

theorem bitString_bits (hv : v.length < 65535) (rest : Bytes) :
    bitString (bits v ++ rest) = some (v, rest) := by
  unfold bitString bits
  rw [expectTlv_derTlv asn1Bitstring (by rw [List.length_cons]; omega)]
  exact if_pos rfl

theorem bitString_bits_end (hv : v.length < 65535) :
    bitString (bits v) = some (v, []) := by
  have h := bitString_bits hv []
  rwa [List.append_nil] at h

theorem parseX509Time_notBefore2026 :
    parseX509Time notBefore2026 = some (civilToEpoch 2026 1 1 0 0 0) := by decide +kernel

theorem parseX509Time_notAfter2036 :
    parseX509Time notAfter2036 = some (civilToEpoch 2036 1 1 0 0 0) := by decide +kernel

theorem timeField_derTlv {t : Nat} (ht : parseX509Time v = some t)
    (hv : v.length < 65536) (rest : Bytes) :
    timeField (derTlv asn1UtcTime v ++ rest) = some (t, rest) := by
  unfold timeField
  rw [readTlv_derTlv asn1UtcTime hv]
  simp only [bind_eq_bind, bind_some, ht]
  rw [if_neg (by decide)]

theorem skipToIssuer_tbsContent {a : Alg} (ha : NamesAlg alg a) (rest : Bytes) :
    skipToIssuer (derTlv asn1Ctx0 (intTlv 2) ++ (intTlv 1 ++ (algId alg ++ rest))) =
      some rest := by
  have h2 : (intTlv 2).length < 65536 := by decide
  have h1 : (intDigits 1).reverse.length < 65536 := by decide
  have hhead : (derTlv asn1Ctx0 (intTlv 2) ++ (intTlv 1 ++ (algId alg ++ rest))).head? =
      some asn1Ctx0 := rfl
  unfold skipToIssuer
  simp only [hhead, if_true, expectTlv_derTlv asn1Ctx0 h2, map_some, bind_eq_bind,
    bind_some]
  rw [intTlv, expectTlv_derTlv asn1Integer h1]
  simp only [bind_some, ha.parse rest]

/-! ## A built certificate -/

/-- The key a `subjectPublicKeyInfo` carries. -/
structure CarriesKey (spki : Bytes) (key : PubKey) : Prop where
  parses : ∃ content kalg p bs, spki = derTlv asn1Sequence content ∧
    parseAlgId content = some (kalg, p) ∧ bitString p = some (bs, []) ∧
      parseKey kalg bs = some key

theorem carriesKey_ed25519 {pk : Bytes} (h : pk.length = 32) :
    CarriesKey (spkiEd25519 pk) (.ed25519 pk h) := by
  refine ⟨_, _, _, pk, rfl, namesAlg_ed25519.parse _, bitString_bits_end (by omega), ?_⟩
  exact dif_pos h

theorem carriesKey_p256 {pub : Bytes} (h : (4 :: pub).length = 65) :
    CarriesKey (spkiP256 pub) (.p256 (4 :: pub) h) := by
  refine ⟨_, _, _, 4 :: pub, rfl,
    parseAlgId_derTlv _ (by decide) namesAlg_ecPubkey.1, bitString_bits_end (by omega), ?_⟩
  unfold parseKey
  simp only [h, dite_true, List.head?_cons, if_true]

/-- What `certOf` was made from, as the parser gives it back. -/
def builtCert (spki alg cn sig : Bytes) (key : PubKey) (sigAlg : Alg) : X509Cert where
  tbs := tbsCert spki alg cn
  issuer := nameCn cn
  subject := nameCn cn
  notBefore := civilToEpoch 2026 1 1 0 0 0
  notAfter := civilToEpoch 2036 1 1 0 0 0
  key := key
  sigAlg := sigAlg
  sig := sig

theorem bind_step {α β : Type} {x : Option α} {f : α → Option β} {a : α} {b : β}
    (hx : x = some a) (hf : f a = some b) : (x >>= f) = some b := by
  rw [hx]
  exact hf

theorem parseCert_of_steps {cert tbs afterTbs pIssuer pValidity validity pSubject pAfter pSpki p bs pSig r₁ r₂ r₃ r₄ r₅ r₆ r₇ : Bytes} {notBefore notAfter : Nat}
    {kalg : Alg} (h8 : 8 ≤ der.length)
    (hcert : expectTlv asn1Sequence der = some (cert, r₁))
    (htbs : expectTlv asn1Sequence cert = some (tbs, afterTbs))
    (hissuer : skipToIssuer tbs = some pIssuer)
    (hname : expectTlv asn1Sequence pIssuer = some (r₂, pValidity))
    (hvalid : expectTlv asn1Sequence pValidity = some (validity, pSubject))
    (hbefore : timeField validity = some (notBefore, pAfter))
    (hafter : timeField pAfter = some (notAfter, r₃))
    (hsubject : expectTlv asn1Sequence pSubject = some (r₄, pSpki))
    (hspki : expectTlv asn1Sequence pSpki = some (spki, r₅))
    (hkalg : parseAlgId spki = some (kalg, p)) (hbits : bitString p = some (bs, r₆))
    (hkey : parseKey kalg bs = some key) (hsalg : parseAlgId afterTbs = some (sigAlg, pSig))
    (hsig : bitString pSig = some (sig, r₇)) :
    parseCert der = some {
      tbs := sliceTo cert afterTbs
      issuer := sliceTo pIssuer pValidity
      subject := sliceTo pSubject pSpki
      notBefore, notAfter, key, sigAlg, sig } := by
  unfold parseCert
  rw [if_neg (by omega)]
  refine bind_step hcert (bind_step htbs (bind_step hissuer (bind_step hname ?_)))
  refine bind_step hvalid (bind_step hbefore (bind_step hafter (bind_step hsubject ?_)))
  refine bind_step hspki (bind_step hkalg (bind_step hbits (bind_step hkey ?_)))
  exact bind_step hsalg (bind_step hsig rfl)

theorem expectTlv_nameCn (h : (nameCn cn).length < 65536) (rest : Bytes) :
    ∃ c, expectTlv asn1Sequence (nameCn cn ++ rest) = some (c, rest) := by
  unfold nameCn at h ⊢
  refine ⟨_, expectTlv_derTlv asn1Sequence ?_ rest⟩
  rw [length_derTlv] at h
  omega

theorem parseCert_certOf (hkey : CarriesKey spki key) (halg : NamesAlg alg sigAlg)
    (htbs : (tbsCert spki alg cn).length ≤ x509MaxCert) (hsig : sig.length ≤ 72) :
    parseCert (certOf alg (tbsCert spki alg cn) sig) =
      some (builtCert spki alg cn sig key sigAlg) := by
  obtain ⟨content, kalg, p, bs, rfl, hkalg, hbs, hpk⟩ := hkey.parses
  -- every content is shorter than the TBS, or than the certificate
  have htlv := length_derTlv asn1Sequence content
  have hlen : (tbsContent (derTlv asn1Sequence content) alg cn).length < 65000 := by
    unfold tbsCert x509MaxCert at htbs
    rw [length_derTlv] at htbs
    omega
  have hlens := hlen
  unfold tbsContent at hlens
  simp only [List.length_append] at hlens
  have hname : (nameCn cn).length < 65536 := by omega
  have hspki : content.length < 65536 := by omega
  obtain ⟨_, hissuer⟩ := expectTlv_nameCn hname
    (validity20262036 ++ (nameCn cn ++ derTlv asn1Sequence content))
  obtain ⟨_, hsubject⟩ := expectTlv_nameCn hname (derTlv asn1Sequence content)
  have hcert : (tbsCert (derTlv asn1Sequence content) alg cn ++
      (algId alg ++ bits sig)).length < 65536 := by
    have ha := halg.2
    have h1 := length_derTlv_bounds asn1Oid alg
    have h2 := length_derTlv_bounds asn1Sequence (derTlv asn1Oid alg)
    have h3 := length_derTlv_bounds asn1Bitstring (0 :: sig)
    unfold x509MaxCert at htbs
    simp only [List.length_cons] at h3
    simp only [List.length_append, algId, bits]
    omega
  unfold certOf
  rw [parseCert_of_steps ?_ (expectTlv_derTlv_end asn1Sequence hcert)
    (expectTlv_derTlv asn1Sequence (by omega) _) (skipToIssuer_tbsContent halg _) hissuer
    (expectTlv_derTlv asn1Sequence (by decide) _)
    (timeField_derTlv parseX509Time_notBefore2026 (by decide) _)
    (timeField_derTlv parseX509Time_notAfter2036 (by decide) []) hsubject
    (expectTlv_derTlv_end asn1Sequence hspki) hkalg hbs hpk (halg.parse _)
    (bitString_bits_end (by omega))]
  · simp only [sliceTo_append]
    rfl
  · have h1 := length_derTlv_bounds asn1Sequence (tbsCert (derTlv asn1Sequence content) alg cn ++
      (algId alg ++ bits sig))
    have h2 := length_derTlv_bounds asn1Bitstring (0 :: sig)
    have h3 := length_derTlv_bounds asn1Sequence (derTlv asn1Oid alg)
    have h4 := length_derTlv_bounds asn1Oid alg
    simp only [List.length_append, List.length_cons] at h1 h2
    unfold algId bits at h1 ⊢
    omega

/-! ## ECDSA signatures in DER -/

/-- p256.c:750-762 -/
def encodeInteger (n : Bytes) : Bytes :=
  let body := n.drop (min 31 (n.takeWhile (· == 0)).length)
  let body := if 0x80 ≤ body.headD 0 then 0 :: body else body
  0x02 :: UInt8.ofNat body.length :: body

/-- p256.c:764-775 -/
def p256SigToDer (outCap : Nat) (rs : Bytes) : Option Bytes :=
  let body := encodeInteger (rs.take 32) ++ encodeInteger (rs.drop 32)
  if outCap < 2 + body.length then none
  else some (0x30 :: UInt8.ofNat body.length :: body)

/-- p256.c:777-789: the 32 bytes and what follows the integer. -/
def decodeInteger : Bytes → Option (Bytes × Bytes)
  | tag :: l :: p =>
    let len := l.toNat
    if tag ≠ 0x02 ∨ len < 1 ∨ p.length < len then none
    else
      let content := p.take len
      let digits := if 2 ≤ len ∧ content.headD 1 = 0 then content.drop 1 else content
      if 32 < digits.length then none
      else some (List.replicate (32 - digits.length) 0 ++ digits, p.drop len)
  | _ => none

/-- p256.c:791-800 -/
def p256SigFromDer (der : Bytes) : Option Bytes :=
  match der with
  | tag :: bodyLen :: body =>
    if der.length < 8 ∨ tag ≠ 0x30 ∨ bodyLen.toNat ≠ body.length then none
    else do
      let (r, p) ← decodeInteger body
      let (s, _) ← decodeInteger p
      some (r ++ s)
  | _ => none

/-- The leading zeros `encode_integer` strips, at most 31. -/
def strippedZeros (n : Bytes) : Nat := min 31 (n.takeWhile (· == 0)).length

theorem take_takeWhile_zero (n : Bytes) {z : Nat} (hz : z ≤ (n.takeWhile (· == 0)).length) :
    n.take z = List.replicate z 0 := by
  induction n generalizing z with
  | nil =>
    simp only [List.takeWhile_nil, List.length_nil, Nat.le_zero] at hz
    rw [hz]
    rfl
  | cons b n ih =>
    cases z with
    | zero => rfl
    | succ z =>
      by_cases hb : b = 0
      · rw [List.takeWhile_cons_of_pos (by rw [hb]; rfl), List.length_cons] at hz
        rw [List.take_succ_cons, ih (by omega), hb, List.replicate_succ]
      · rw [List.takeWhile_cons_of_neg (by simpa using hb)] at hz
        cases hz

theorem headD_drop_takeWhile (n : Bytes) (h : (n.takeWhile (· == 0)).length < n.length) :
    (n.drop (n.takeWhile (· == 0)).length).headD 1 ≠ 0 := by
  induction n with
  | nil => cases h
  | cons b n ih =>
    by_cases hb : b = 0
    · have ht : (b :: n).takeWhile (· == 0) = b :: n.takeWhile (· == 0) :=
        List.takeWhile_cons_of_pos (by rw [hb]; rfl)
      rw [ht, List.length_cons, List.length_cons] at h
      rw [ht, List.length_cons, List.drop_succ_cons]
      exact ih (by omega)
    · rw [List.takeWhile_cons_of_neg (by simpa using hb), List.length_nil, List.drop_zero]
      exact hb

theorem decodeInteger_cons {content rest : Bytes} (digits : Bytes) (h0 : 1 ≤ content.length)
    (h1 : content.length < 256)
    (hd : digits = if 2 ≤ content.length ∧ content.headD 1 = 0 then content.drop 1 else content)
    (h32 : digits.length ≤ 32) :
    decodeInteger (0x02 :: UInt8.ofNat content.length :: content ++ rest) =
      some (List.replicate (32 - digits.length) 0 ++ digits, rest) := by
  have hl : (UInt8.ofNat content.length).toNat = content.length := toNat_ofNat_of_lt h1
  have htake : (content ++ rest).take content.length = content := List.take_left
  have hdrop : (content ++ rest).drop content.length = rest := List.drop_left
  simp only [List.cons_append, decodeInteger, hl, htake, hdrop]
  rw [if_neg ?_, ← hd, if_neg (by omega)]
  · simp only [ne_eq, not_true_eq_false, List.length_append, false_or]
    omega

theorem decodeInteger_encode (hn : n.length = 32) (rest : Bytes) :
    decodeInteger (encodeInteger n ++ rest) = some (n, rest) := by
  have hz : strippedZeros n ≤ 31 := Nat.min_le_left _ _
  have hlen : (n.drop (strippedZeros n)).length = 32 - strippedZeros n := by
    rw [List.length_drop, hn]
  have hn' : List.replicate (32 - (n.drop (strippedZeros n)).length) 0 ++
      n.drop (strippedZeros n) = n := by
    rw [hlen, show 32 - (32 - strippedZeros n) = strippedZeros n by omega,
      ← take_takeWhile_zero n (z := strippedZeros n) (Nat.min_le_right 31 _)]
    exact List.take_append_drop _ _
  unfold encodeInteger
  rw [← strippedZeros]
  generalize hb : n.drop (strippedZeros n) = body at hlen hn'
  by_cases hsign : 0x80 ≤ body.headD 0
  · simp only [hsign, if_true]
    rw [decodeInteger_cons body (by simp) (by rw [List.length_cons]; omega) ?_
      (by omega), hn']
    rw [if_pos ⟨by rw [List.length_cons]; omega, rfl⟩]
    rfl
  · simp only [hsign, if_false]
    rw [decodeInteger_cons body (by omega) (by omega) ?_ (by omega), hn']
    rw [if_neg ?_]
    rintro ⟨h2, h0⟩
    -- two digits or more: the zeros stopped before the 31st byte
    have hlt : (n.takeWhile (· == 0)).length < 31 := by
      unfold strippedZeros at hlen
      omega
    have hs : strippedZeros n = (n.takeWhile (· == 0)).length := by
      unfold strippedZeros
      omega
    rw [← hb, hs] at h0
    exact headD_drop_takeWhile n (by omega) h0

theorem length_encodeInteger (hn : n.length = 32) :
    3 ≤ (encodeInteger n).length ∧ (encodeInteger n).length ≤ 35 := by
  have hz : strippedZeros n ≤ 31 := Nat.min_le_left _ _
  have hlen : (n.drop (strippedZeros n)).length = 32 - strippedZeros n := by
    rw [List.length_drop, hn]
  unfold encodeInteger
  rw [← strippedZeros]
  simp only [List.length_cons]
  split
  · rw [List.length_cons]
    omega
  · omega

theorem p256SigFromDer_toDer (h : rs.length = 64) :
    ∃ der, p256SigToDer 72 rs = some der ∧ der.length ≤ 72 ∧ p256SigFromDer der = some rs := by
  have h1 : (rs.take 32).length = 32 := by
    rw [List.length_take]
    omega
  have h2 : (rs.drop 32).length = 32 := by
    rw [List.length_drop]
    omega
  have l1 := length_encodeInteger h1
  have l2 := length_encodeInteger h2
  have hbody : (encodeInteger (rs.take 32) ++ encodeInteger (rs.drop 32)).length =
      (encodeInteger (rs.take 32)).length + (encodeInteger (rs.drop 32)).length :=
    List.length_append
  refine ⟨_, if_neg (by omega), by simp only [List.length_cons]; omega, ?_⟩
  unfold p256SigFromDer
  have hl := toNat_ofNat_of_lt
    (n := (encodeInteger (rs.take 32) ++ encodeInteger (rs.drop 32)).length) (by omega)
  have hs := decodeInteger_encode h2 []
  rw [List.append_nil] at hs
  simp only [hl, List.length_cons]
  rw [if_neg (by simp; omega)]
  refine bind_step (decodeInteger_encode h1 _) (bind_step hs ?_)
  rw [List.take_append_drop]

theorem length_p256SigToDer (h : p256SigToDer 72 rs = some der) :
    der.length ≤ 72 := by
  obtain ⟨hl, he⟩ := ite_none_left_eq_some.1 h
  rw [← Option.some.inj he]
  simp only [List.length_cons]
  omega

theorem length_decodeInteger {p rest : Bytes} (h : decodeInteger p = some (n, rest)) :
    n.length = 32 := by
  unfold decodeInteger at h
  split at h
  · simp only at h
    split at h
    · cases h
    · split at h
      · split at h
        · cases h
        · cases h
          rw [List.length_append, List.length_replicate]
          omega
      · split at h
        · cases h
        · cases h
          rw [List.length_append, List.length_replicate]
          omega
  · cases h

theorem length_p256SigFromDer (h : p256SigFromDer der = some rs) :
    rs.length = 64 := by
  unfold p256SigFromDer at h
  split at h
  · obtain ⟨-, h⟩ := ite_none_left_eq_some.1 h
    obtain ⟨⟨r, p⟩, hr, h⟩ := bind_eq_some_iff.1 h
    obtain ⟨⟨s, q⟩, hs, h⟩ := bind_eq_some_iff.1 h
    cases h
    rw [List.length_append, length_decodeInteger hr, length_decodeInteger hs]
  · cases h

/-! ## The round trip -/

/-- The signature codec of the primitives is the one of `p256.c`. -/
structure DerSignatures (cr : Primitives) : Prop where
  toDer : ∀ rs, (cr.p256SigToDer rs).map Subtype.val = p256SigToDer 72 rs
  fromDer : ∀ der, (cr.p256SigFromDer der).map Subtype.val = p256SigFromDer der

/-- What is signed with `sk` verifies under `pk`. -/
def Ed25519Pair (cr : Primitives) (pk sk : Bytes) : Prop :=
  ∀ msg, cr.ed25519Verify (cr.ed25519Sign msg sk) msg pk = true

/-- What is signed with `priv`, where the signer finds a nonce, verifies under `pub`. -/
def P256Pair (cr : Primitives) (pub priv : Bytes) : Prop :=
  ∀ hash rs, cr.p256Sign hash priv = some rs → cr.p256Verify rs hash pub = true

/-- The text of the one attribute of a `Name`. -/
def commonName (dn : Bytes) : Option Bytes := do
  let (set, _) ← expectTlv asn1Sequence dn
  let (seq, _) ← expectTlv asn1Set set
  let (atv, _) ← expectTlv asn1Sequence seq
  let (oid, p) ← expectTlv asn1Oid atv
  if oid = oidCn then (expectTlv asn1PrintStr p).map Prod.fst else none

theorem commonName_nameCn (h : (nameCn cn).length < 65536) :
    commonName (nameCn cn) = some cn := by
  have h4 := length_derTlv_bounds asn1PrintStr cn
  have h3 := length_derTlv_bounds asn1Sequence (derTlv asn1Oid oidCn ++ derTlv asn1PrintStr cn)
  have h2 := length_derTlv_bounds asn1Set
    (derTlv asn1Sequence (derTlv asn1Oid oidCn ++ derTlv asn1PrintStr cn))
  have h1 := length_derTlv_bounds asn1Sequence (derTlv asn1Set
    (derTlv asn1Sequence (derTlv asn1Oid oidCn ++ derTlv asn1PrintStr cn)))
  unfold nameCn at h ⊢
  rw [List.length_append] at h3
  refine bind_step (expectTlv_derTlv_end _ (by omega)) ?_
  refine bind_step (expectTlv_derTlv_end _ (by omega)) ?_
  refine bind_step (expectTlv_derTlv_end _ (by rw [List.length_append]; omega)) ?_
  refine bind_step (expectTlv_derTlv _ (by decide) _) ?_
  simp only [if_true, expectTlv_derTlv_end asn1PrintStr (c := cn) (by omega), map_some]

/-- The certificate parses to the name, the dates, the key and the signed bytes `tbs`, and
verifies under the key it carries. -/
def ReadsBack (cr : Primitives) (tbs cn : Bytes) (key : PubKey) (cert : Bytes) : Prop :=
  ∃ c, parseCert cert = some c ∧ c.tbs = tbs ∧
    commonName c.subject = some cn ∧ c.issuer = c.subject ∧
    c.notBefore = civilToEpoch 2026 1 1 0 0 0 ∧ c.notAfter = civilToEpoch 2036 1 1 0 0 0 ∧
    c.key = key ∧ verifyCertSignature cr c c = true

variable {cr}

theorem readsBack_certOf (hkey : CarriesKey spki key) (halg : NamesAlg alg sigAlg)
    (htbs : (tbsCert spki alg cn).length ≤ x509MaxCert) (hsig : sig.length ≤ 72)
    (hverify : verifyCertSignature cr (builtCert spki alg cn sig key sigAlg)
      (builtCert spki alg cn sig key sigAlg) = true) :
    ReadsBack cr (tbsCert spki alg cn) cn key (certOf alg (tbsCert spki alg cn) sig) := by
  refine ⟨_, parseCert_certOf hkey halg htbs hsig, rfl, commonName_nameCn ?_, rfl, rfl, rfl, rfl,
    hverify⟩
  unfold tbsCert x509MaxCert at htbs
  have h := length_derTlv_bounds asn1Sequence (tbsContent spki alg cn)
  have hc : (nameCn cn).length ≤ (tbsContent spki alg cn).length := by
    unfold tbsContent
    simp only [List.length_append]
    omega
  omega

/-- When the Ed25519 builder succeeds: the TBS fits its scratch buffer and the
certificate the caller's. -/
theorem x509BuildSelfSignedEd25519_eq (pk sk cn : Bytes) (outCap : Nat) :
    x509BuildSelfSignedEd25519 cr pk sk cn outCap =
      let tbs := tbsCert (spkiEd25519 pk) oidEd25519 cn
      let cert := certOf oidEd25519 tbs (cr.ed25519Sign tbs sk)
      if tbs.length ≤ x509MaxCert ∧ cert.length ≤ outCap then some cert else none := by
  unfold x509BuildSelfSignedEd25519
  rw [(writes_buildTbs (writes_spkiEd25519 pk) oidEd25519 cn).done]
  by_cases h : (tbsCert (spkiEd25519 pk) oidEd25519 cn).length ≤ x509MaxCert
  · rw [if_pos h]
    simp only [bind_eq_bind, bind_some, (writes_assemble _ _ _).done, h, true_and]
  · rw [if_neg h]
    simp only [bind_eq_bind, bind_none, h, false_and, if_false]

theorem x509BuildSelfSignedP256_eq_some {pub priv : Bytes} {outCap : Nat} {cert : Bytes} :
    x509BuildSelfSignedP256 cr pub priv cn outCap = some cert ↔
      let tbs := tbsCert (spkiP256 pub) oidEcdsaSha256 cn
      tbs.length ≤ x509MaxCert ∧ ∃ rs der, cr.p256Sign (cr.sha256 tbs) priv = some rs ∧
        cr.p256SigToDer rs = some der ∧ cert = certOf oidEcdsaSha256 tbs der ∧
          cert.length ≤ outCap := by
  unfold x509BuildSelfSignedP256
  rw [(writes_buildTbs (writes_spkiP256 pub) oidEcdsaSha256 cn).done]
  by_cases h : (tbsCert (spkiP256 pub) oidEcdsaSha256 cn).length ≤ x509MaxCert
  · rw [if_pos h]
    simp only [bind_eq_bind, bind_some, bind_eq_some_iff,
      (writes_assemble _ _ _).done, h, true_and, ite_none_right_eq_some]
    constructor
    · rintro ⟨rs, hrs, der, hder, hc, he⟩
      exact ⟨rs, der, hrs, hder, (Option.some.inj he).symm, (Option.some.inj he) ▸ hc⟩
    · rintro ⟨rs, der, hrs, hder, he, hc⟩
      exact ⟨rs, hrs, der, hder, he ▸ hc, he ▸ rfl⟩
  · rw [if_neg h]
    simp only [bind_eq_bind, bind_none, reduceCtorEq, h, false_and]

/-- Whatever common name and buffer size: a certificate that
`x509_build_self_signed_ed25519` or `x509_build_self_signed_p256` returns is accepted by
`x509_parse_cert`; name, issuer, validity, key and TBS are what was put in, and the
certificate verifies under the key it was signed with. -/
theorem selfSigned_roundTrip (hder : DerSignatures cr) (cn : Bytes) (outCap : Nat) (cert : Bytes) :
    (∀ pk sk (hpk : pk.length = 32), Ed25519Pair cr pk sk →
      x509BuildSelfSignedEd25519 cr pk sk cn outCap = some cert →
      ∃ tbs, (buildTbs (derSpkiEd25519 pk) oidEd25519 cn (dwInit x509MaxCert)).done = some tbs ∧
        ReadsBack cr tbs cn (.ed25519 pk hpk) cert) ∧
    (∀ pub priv (hpub : (4 :: pub).length = 65), P256Pair cr pub priv →
      x509BuildSelfSignedP256 cr pub priv cn outCap = some cert →
      ∃ tbs, (buildTbs (derSpkiP256 pub) oidEcdsaSha256 cn (dwInit x509MaxCert)).done = some tbs ∧
        ReadsBack cr tbs cn (.p256 (4 :: pub) hpub) cert) := by
  constructor
  · intro pk sk hpk hpair hbuild
    rw [x509BuildSelfSignedEd25519_eq] at hbuild
    obtain ⟨⟨htbs, -⟩, he⟩ := ite_none_right_eq_some.1 hbuild
    cases he
    refine ⟨_, ?_, readsBack_certOf (carriesKey_ed25519 hpk) namesAlg_ed25519 htbs ?_ ?_⟩
    · rw [(writes_buildTbs (writes_spkiEd25519 pk) oidEd25519 cn).done, if_pos htbs]
    · rw [(cr.ed25519Sign _ sk).2]
      omega
    · unfold verifyCertSignature builtCert
      simp only [(cr.ed25519Sign _ sk).2, BEq.rfl, hpair _, Bool.and_self]
  · intro pub priv hpub hpair hbuild
    obtain ⟨htbs, rs, der, hrs, hd, rfl, -⟩ := x509BuildSelfSignedP256_eq_some.1 hbuild
    refine ⟨_, ?_, readsBack_certOf (carriesKey_p256 hpub) namesAlg_ecdsaSha256 htbs der.2 ?_⟩
    · rw [(writes_buildTbs (writes_spkiP256 pub) oidEcdsaSha256 cn).done, if_pos htbs]
    · obtain ⟨der', hto, -, hback⟩ := p256SigFromDer_toDer rs.2
      have hde : der.val = der' := by
        have := hder.toDer rs
        rw [hd, hto] at this
        exact Option.some.inj this
      have hfrom := hder.fromDer der
      rw [hde, hback] at hfrom
      obtain ⟨rs', hrs', hval⟩ := map_eq_some_iff.1 hfrom
      unfold verifyCertSignature builtCert
      simp only [hde, hrs', hval, List.drop_succ_cons, List.drop_zero]
      exact hpair _ _ hrs

/-- Primitives for concrete certificates: every signature is the same and right, and its
DER form is the source's. -/
def signingPrimitives : Primitives :=
  { Primitives.null with
    p256Sign := fun _ _ => some ⟨List.replicate 64 0x81, List.length_replicate⟩
    p256SigToDer := fun rs =>
      (p256SigToDer 72 rs).attach.map fun x => ⟨x.1, length_p256SigToDer x.2⟩
    p256SigFromDer := fun der =>
      (p256SigFromDer der).attach.map fun x => ⟨x.1, length_p256SigFromDer x.2⟩ }

theorem derSignatures_signing : DerSignatures signingPrimitives := by
  refine ⟨fun rs => ?_, fun der => ?_⟩
  · unfold signingPrimitives
    rw [map_map]
    exact attach_map_subtype_val _
  · unfold signingPrimitives
    rw [map_map]
    exact attach_map_subtype_val _

def cnAdventos : Bytes := [97, 100, 118, 101, 110, 116, 111, 115]

/-- Two certificates for `adventos`, one with each kind of key. -/
theorem selfSigned_roundTrip_adventos :
    (∃ cert, x509BuildSelfSignedEd25519 signingPrimitives (zeros 32) (zeros 64) cnAdventos 1600 =
        some cert ∧
      ∃ tbs, (buildTbs (derSpkiEd25519 (zeros 32)) oidEd25519 cnAdventos
          (dwInit x509MaxCert)).done = some tbs ∧
        ReadsBack signingPrimitives tbs cnAdventos (.ed25519 (zeros 32) rfl) cert) ∧
    (∃ cert, x509BuildSelfSignedP256 signingPrimitives (zeros 64) (zeros 32) cnAdventos 1600 =
        some cert ∧
      ∃ tbs, (buildTbs (derSpkiP256 (zeros 64)) oidEcdsaSha256 cnAdventos
          (dwInit x509MaxCert)).done = some tbs ∧
        ReadsBack signingPrimitives tbs cnAdventos (.p256 (4 :: zeros 64) rfl) cert) := by
  have h1 : (x509BuildSelfSignedEd25519 signingPrimitives (zeros 32) (zeros 64) cnAdventos
      1600).isSome = true := by decide +kernel
  have h2 : (x509BuildSelfSignedP256 signingPrimitives (zeros 64) (zeros 32) cnAdventos
      1600).isSome = true := by decide +kernel
  obtain ⟨c1, h1⟩ := isSome_iff_exists.1 h1
  obtain ⟨c2, h2⟩ := isSome_iff_exists.1 h2
  exact ⟨⟨c1, h1, (selfSigned_roundTrip derSignatures_signing cnAdventos 1600 c1).1 _ _ rfl
      (fun _ => rfl) h1⟩,
    ⟨c2, h2, (selfSigned_roundTrip derSignatures_signing cnAdventos 1600 c2).2 _ _ rfl
      (fun _ _ _ => rfl) h2⟩⟩

end AdventOS.Tls
