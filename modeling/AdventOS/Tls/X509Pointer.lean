import AdventOS.Crypto.BignumValue
import AdventOS.Tls.X509

/-!
# The certificate parser over its buffer

`AdventOS.Tls.X509` reads a certificate as a list of bytes, which cannot say that
the code leaves the buffer. Here the same functions of `libcrypto/x509.c` run over
the buffer itself: a pointer is an offset, an end pointer another, every byte is
read through `Buf.read`, and what is written into the result goes through its
array bounds (`pk_bytes`, the limbs of the two bignums, the twelve `MONTH_DAYS`).
A function that returns -1 gives up (`Parse`); its caller then does not use the
pointer it advanced, and where `x509_parse_cert` goes on from a saved pointer, it
does so here (`skipAlgId`).

* `drReadTlv_ok`: the value lies before the end the caller gave, and from the tag
  on the bytes are one complete element.
* `x509ParseCert_safe`.
-/
namespace AdventOS.Tls.X509

open AdventOS.Acc Parse

/-- A byte through a pointer. -/
def byteAt (b : Buf) (p : Nat) : Parse UInt8 := OptionT.lift (b.read p)

/-! ## The reader -/

/-- Tag and length read; `p` is where the value starts. -/
structure Tlv where
  tag : UInt8
  vl : Nat
  p : Nat

/-- `len = (len << 8) | *(*p)++`, `nlen` times. -/
def readLength (b : Buf) (p nlen : Nat) : Acc Nat :=
  up nlen 0 fun i len => do
    let x ← b.read (p + i)
    pure ((len <<< 8) ||| x.toNat)

/-- x509.c:474-476 -/
def tlvEnd (tag : UInt8) (len p stop : Nat) : Parse Tlv := do
  Parse.refuse (stop < p + len)
  pure ⟨tag, len, p⟩

/-- x509.c:460-477 -/
def drReadTlv (b : Buf) (p stop : Nat) : Parse Tlv := do
  Parse.refuse (stop ≤ p)
  let tag ← byteAt b p
  Parse.refuse (stop ≤ p + 1)
  let c ← byteAt b (p + 1)
  if c &&& 0x80 = 0 then tlvEnd tag c.toNat (p + 2) stop
  else do
    let nlen := (c &&& 0x7F).toNat
    Parse.refuse (nlen = 0 ∨ 3 < nlen ∨ stop < p + 2 + nlen)
    let len ← OptionT.lift (readLength b (p + 2) nlen)
    tlvEnd tag len (p + 2 + nlen) stop

/-- `if (dr_read_tlv(...) != tag) return -1;` -/
def expect (tag : UInt8) (b : Buf) (p stop : Nat) : Parse Tlv := do
  let t ← drReadTlv b p stop
  Parse.refuse (t.tag ≠ tag)
  pure t

/-! ## Times -/

/-- x509.c:503-513 -/
def readDigits (b : Buf) (p : Nat) : Nat → Parse Nat
  | 0 => pure 0
  | n + 1 => do
    let v ← readDigits b p n
    let c ← byteAt b (p + n)
    Parse.refuse (c < 48 ∨ 57 < c)
    pure (v * 10 + (c.toNat - 48))

/-- The index of `MONTH_DAYS[M - 1]` is checked, then the seconds are counted.
x509.c:481-500 -/
def civilToEpoch (y mo d h mn s : Nat) : Acc Nat := do
  span monthDays.length (mo - 1) 1
  pure (Tls.civilToEpoch y mo d h mn s)

/-- The year of a time, and where the month starts.
x509.c:522-532 -/
def readYear (b : Buf) (p len : Nat) : Parse (Nat × Nat) :=
  if len = 13 then do
    let yy ← readDigits b p 2
    pure (if yy < 50 then 2000 + yy else 1900 + yy, p + 2)
  else if len = 15 then do
    let y ← readDigits b p 4
    pure (y, p + 4)
  else Parse.fail

/-- x509.c:518-542 -/
def parseX509Time (b : Buf) (bytes len : Nat) : Parse Nat := do
  let y ← readYear b bytes len
  let p := y.2
  let mo ← readDigits b p 2
  let d ← readDigits b (p + 2) 2
  let h ← readDigits b (p + 4) 2
  let mn ← readDigits b (p + 6) 2
  let s ← readDigits b (p + 8) 2
  Parse.refuse (p + 10 ≠ bytes + len - 1)
  let z ← byteAt b (p + 10)
  Parse.refuse (z ≠ 90)
  Parse.refuse (mo < 1 ∨ 12 < mo ∨ d < 1 ∨ 31 < d)
  OptionT.lift (civilToEpoch y.1 mo d h mn s)

/-! ## Algorithms and keys -/

/-- x509.c:552-556 -/
def oidEq (b : Buf) (p n : Nat) (oid : List UInt8) : Acc Bool :=
  if n ≠ oid.length then pure false else b.matchBytes p oid

/-- The first of the object identifiers listed that equals the bytes at `p`. -/
def firstOid (b : Buf) (p n : Nat) : List (List UInt8 × Alg) → Parse Alg
  | [] => Parse.fail
  | e :: es => do
    let eq ← OptionT.lift (oidEq b p n e.1)
    if eq then pure e.2 else firstOid b p n es

/-- x509.c:572-595 -/
def knownOids : List (List UInt8 × Alg) :=
  [(oidEd25519, .ed25519), (oidEcPubkey, .p256), (oidEcdsaSha256, .p256),
    (oidRsaSha256, .rsa), (oidRsaEncryption, .rsa)]

/-- The algorithm and where its SEQUENCE ends.
x509.c:561-597 -/
def parseAlgId (b : Buf) (p stop : Nat) : Parse (Alg × Nat) := do
  let seq ← expect asn1Sequence b p stop
  let oid ← expect asn1Oid b seq.p (seq.p + seq.vl)
  let alg ← firstOid b oid.p oid.vl knownOids
  pure (alg, seq.p + seq.vl)

/-- `if (n_len > 1 && n_bytes[0] == 0x00) { n_bytes++; n_len--; }` and the number.
x509.c:612-615,618-621 -/
def magnitude (b : Buf) (p len : Nat) : Acc Crypto.Bignum :=
  if 1 < len then do
    let c ← b.read p
    if c = 0 then Crypto.bnFromBytesBe b (p + 1) (len - 1) else Crypto.bnFromBytesBe b p len
  else Crypto.bnFromBytesBe b p len

/-- x509.c:602-623 -/
def parseRsaPubkey (b : Buf) (p len : Nat) : Parse (Crypto.Bignum × Crypto.Bignum) := do
  let seq ← expect asn1Sequence b p (p + len)
  let n ← expect asn1Integer b seq.p (seq.p + seq.vl)
  let nOut ← OptionT.lift (magnitude b n.p n.vl)
  let e ← expect asn1Integer b (n.p + n.vl) (seq.p + seq.vl)
  let eOut ← OptionT.lift (magnitude b e.p e.vl)
  pure (nOut, eOut)

/-! ## Certificates -/

/-- A slice of the buffer. -/
structure Slice where
  off : Nat
  len : Nat

/-- `sizeof(out->pk_bytes)`. -/
def pkBytesSize : Nat := 1024

/-- The key fields of the result. `bits` is not one of them: it says for the proofs
which bytes the key was read from.
x509.h:121-130 -/
structure Key where
  bits : Slice
  pkType : Alg
  pkBytes : Nat → UInt8
  pkLen : Nat
  rsaN : Crypto.Bignum
  rsaE : Crypto.Bignum

/-- x509.h:100-136 -/
structure Cert where
  tbs : Slice
  issuer : Slice
  subject : Slice
  notBefore : Nat
  notAfter : Nat
  key : Key
  sigAlg : Alg
  sig : Slice

/-- `for (int i = 0; i < n; i++) out->pk_bytes[i] = p[i];` -/
def copyKey (b : Buf) (p n : Nat) : Acc (Nat → UInt8) :=
  up n (fun _ => 0) fun i v => do
    let x ← b.read (p + i)
    Acc.store pkBytesSize v i x

/-- The raw keys: `kb` bytes from `p + 1` on.
x509.c:715-734 -/
def parseKey (b : Buf) (alg : Alg) (p kb : Nat) : Parse Key :=
  match alg with
  | .ed25519 => do
    Parse.refuse (kb ≠ 32 ∨ pkBytesSize < kb)
    let v ← OptionT.lift (copyKey b (p + 1) 32)
    pure ⟨⟨p + 1, kb⟩, alg, v, 32, Crypto.bnZero, Crypto.bnZero⟩
  | .p256 => do
    Parse.refuse (kb ≠ 65)
    let c ← byteAt b (p + 1)
    Parse.refuse (c ≠ 0x04 ∨ pkBytesSize < kb)
    let v ← OptionT.lift (copyKey b (p + 1) 65)
    pure ⟨⟨p + 1, kb⟩, alg, v, 65, Crypto.bnZero, Crypto.bnZero⟩
  | .rsa => do
    let ne ← parseRsaPubkey b (p + 1) kb
    let pkLen ← OptionT.lift (Crypto.bnByteLength ne.1)
    let v ← OptionT.lift (Crypto.bnToBytesBe ne.1 pkBytesSize (fun _ => 0)
      (if pkBytesSize < pkLen then pkBytesSize else pkLen))
    pure ⟨⟨p + 1, kb⟩, alg, v, pkLen, ne.1, ne.2⟩

/-- A BIT STRING without unused bits.
x509.c:711-712,747-748 -/
def bitString (b : Buf) (p stop : Nat) : Parse Tlv := do
  let t ← expect asn1Bitstring b p stop
  Parse.refuse (t.vl < 1)
  let c ← byteAt b t.p
  Parse.refuse (c ≠ 0)
  pure t

/-- x509.c:651-655 -/
def skipVersion (b : Buf) (p stop : Nat) : Parse Nat :=
  if p < stop then do
    let c ← byteAt b p
    if c = asn1Ctx0 then do
      let t ← expect asn1Ctx0 b p stop
      pure (t.p + t.vl)
    else pure p
  else pure p

/-- An algorithm, or any SEQUENCE where it is not one the parser knows.
x509.c:661-670 -/
def skipAlgId (b : Buf) (p stop : Nat) : Parse Nat :=
  (do
    let a ← parseAlgId b p stop
    pure a.2) <|>
  (do
    let t ← expect asn1Sequence b p stop
    pure (t.p + t.vl))

/-- A SEQUENCE with its header: the slice and where it ends.
x509.c:673-678,696-701 -/
def nameField (b : Buf) (p stop : Nat) : Parse Slice := do
  let t ← expect asn1Sequence b p stop
  pure ⟨p, t.p + t.vl - p⟩

/-- A Time: the seconds and where the value ends.
x509.c:684-691 -/
def timeField (b : Buf) (p stop : Nat) : Parse (Nat × Nat) := do
  let t ← drReadTlv b p stop
  Parse.refuse (t.tag ≠ 0x17 ∧ t.tag ≠ 0x18)
  let s ← parseX509Time b t.p t.vl
  pure (s, t.p + t.vl)

/-- The two ends of the validity, and where the SEQUENCE ends.
x509.c:680-694 -/
def validityField (b : Buf) (p stop : Nat) : Parse ((Nat × Nat) × Nat) := do
  let t ← expect asn1Sequence b p stop
  let t0 ← timeField b t.p (t.p + t.vl)
  let t1 ← timeField b t0.2 (t.p + t.vl)
  pure ((t0.1, t1.1), t.p + t.vl)

/-- x509.c:703-736 -/
def keyField (b : Buf) (p stop : Nat) : Parse Key := do
  let spki ← expect asn1Sequence b p stop
  let alg ← parseAlgId b spki.p (spki.p + spki.vl)
  let bits ← bitString b alg.2 (spki.p + spki.vl)
  parseKey b alg.1 bits.p (bits.vl - 1)

/-- The fields of the TBS the parser keeps, from `p` up to `stop`.
x509.c:651-736 -/
def tbsFields (b : Buf) (p stop : Nat) : Parse (Slice × Slice × (Nat × Nat) × Key) := do
  let p ← skipVersion b p stop
  let serial ← expect asn1Integer b p stop
  let p ← skipAlgId b (serial.p + serial.vl) stop
  let issuer ← nameField b p stop
  let validity ← validityField b (issuer.off + issuer.len) stop
  let subject ← nameField b validity.2 stop
  let key ← keyField b (subject.off + subject.len) stop
  pure (issuer, subject, validity.1, key)

/-- The buffer is `der`, of `der_len` bytes.
x509.c:625-753 -/
def x509ParseCert (b : Buf) : Parse Cert := do
  Parse.refuse (b.n < 8)
  let cert ← expect asn1Sequence b 0 b.n
  let certEnd := cert.p + cert.vl
  Parse.refuse (b.n < certEnd)
  let tbs ← expect asn1Sequence b cert.p certEnd
  let tbsEnd := tbs.p + tbs.vl
  let f ← tbsFields b tbs.p tbsEnd
  let alg ← parseAlgId b tbsEnd certEnd
  let sig ← bitString b alg.2 certEnd
  pure {
    tbs := ⟨cert.p, tbsEnd - cert.p⟩
    issuer := f.1
    subject := f.2.1
    notBefore := f.2.2.1.1
    notAfter := f.2.2.1.2
    key := f.2.2.2
    sigAlg := alg.1
    sig := ⟨sig.p + 1, sig.vl - 1⟩ }

/-! ## Elements -/

/-- The octets that stand for a length: one below 128, or a count and that many
digits in base 256. -/
inductive LengthOctets : List UInt8 → Nat → Prop
  | short (c : UInt8) (h : c.toNat < 128) : LengthOctets [c] c.toNat
  | long (c : UInt8) (ds : List UInt8) (h : c.toNat = 128 + ds.length) (hpos : 0 < ds.length) :
      LengthOctets (c :: ds) (ds.foldl (fun acc d => acc * 256 + d.toNat) 0)

/-- A complete element: tag, length octets and exactly that many bytes. -/
def IsElement (tag : UInt8) (l : List UInt8) : Prop :=
  ∃ head content, l = tag :: (head ++ content) ∧ LengthOctets head content.length

variable {b : Buf} {p stop : Nat}

theorem byteAt_ok (h : p < b.n) : Parse.Ok (byteAt b p) (· = b.mem p) :=
  Ok.lift ⟨(b.read_safe p).mpr h, rfl⟩

theorem bytes_succ_back (b : Buf) (p n : Nat) : b.bytes p (n + 1) = b.bytes p n ++ [b.mem (p + n)] := by
  rw [b.bytes_add, b.bytes_succ, b.bytes_zero]

theorem readLength_ok {nlen : Nat} (h : p + nlen ≤ b.n) :
    (readLength b p nlen).Ok
      (· = (b.bytes p nlen).foldl (fun acc d => acc * 256 + d.toNat) 0) := by
  refine up_ok (fun i len => len = (b.bytes p i).foldl (fun acc d => acc * 256 + d.toNat) 0) rfl ?_
  intro i len hi hlen
  refine Acc.Ok.bind (P := (· = b.mem (p + i))) ⟨(b.read_safe _).mpr (by omega), rfl⟩ ?_
  intro x hx
  refine Acc.Ok.pure ?_
  rw [bytes_succ_back, List.foldl_append, ← hlen, hx, List.foldl_cons, List.foldl_nil,
    ← Nat.shiftLeft_add_eq_or_of_lt (b.mem (p + i)).toNat_lt, Nat.shiftLeft_eq]

/-- What a reader leaves: a value that ends by `stop`, behind the length octets. -/
structure TlvAt (b : Buf) (p stop : Nat) (t : Tlv) : Prop where
  stop_le : t.p + t.vl ≤ stop
  start_lt : p + 1 < t.p
  tag_eq : t.tag = b.mem p
  octets : LengthOctets (b.bytes (p + 1) (t.p - (p + 1))) t.vl

variable {len n : Nat}

theorem tlvEnd_ok {q : Nat} (hq : p + 1 < q)
    (hlen : LengthOctets (b.bytes (p + 1) (q - (p + 1))) len) :
    Parse.Ok (tlvEnd (b.mem p) len q stop) (TlvAt b p stop) := by
  refine Ok.bind Ok.refuse ?_
  intro _ hle
  exact Ok.pure ⟨by show q + len ≤ stop; omega, hq, rfl, hlen⟩

theorem high_bit_clear (c : UInt8) : c &&& 0x80 = 0 ↔ c.toNat < 128 := by
  have hc := c.toNat_lt
  rw [← UInt8.toNat_inj, UInt8.toNat_and, UInt8.toNat_ofNat, UInt8.toNat_ofNat,
    show 0x80 % 2 ^ 8 = 2 ^ 7 from rfl, Nat.and_two_pow, Nat.testBit_eq_decide_div_mod_eq]
  by_cases h : c.toNat / 2 ^ 7 % 2 = 1
  · simp only [h, decide_true, Bool.toNat_true]
    omega
  · simp only [h, decide_false, Bool.toNat_false]
    omega

theorem high_bit_set {c : UInt8} (h : ¬ c &&& 0x80 = 0) : c.toNat = 128 + (c &&& 0x7F).toNat := by
  have hc := c.toNat_lt
  have hge := mt (high_bit_clear c).mpr h
  have hlow : (c &&& 0x7F).toNat = c.toNat % 2 ^ 7 := by
    rw [UInt8.toNat_and]
    exact Nat.and_two_pow_sub_one_eq_mod c.toNat 7
  omega

theorem drReadTlv_ok (h : stop ≤ b.n) : Parse.Ok (drReadTlv b p stop) (TlvAt b p stop) := by
  refine Ok.bind Ok.refuse ?_
  intro _ hp
  refine Ok.bind (byteAt_ok (by omega)) ?_
  intro tag htag
  refine Ok.bind Ok.refuse ?_
  intro _ hp1
  refine Ok.bind (byteAt_ok (by omega)) ?_
  intro c hc
  subst htag
  refine Parse.Ok.ite ?_ ?_
  · intro hshort
    refine tlvEnd_ok (by omega) ?_
    rw [show p + 2 - (p + 1) = 0 + 1 by omega, b.bytes_succ, b.bytes_zero, ← hc]
    exact .short c ((high_bit_clear c).mp hshort)
  · intro hlong
    refine Ok.bind Ok.refuse ?_
    intro _ hn
    refine Ok.bind (Ok.lift (readLength_ok (by omega))) ?_
    intro len hlen
    refine tlvEnd_ok (by omega) ?_
    have hset := high_bit_set hlong
    rw [show p + 2 + (c &&& 0x7F).toNat - (p + 1) = (c &&& 0x7F).toNat + 1 by omega, b.bytes_succ,
      ← hc, hlen]
    exact .long c _ (by rw [b.length_bytes]; exact hset) (by rw [b.length_bytes]; omega)

theorem expect_ok {tag : UInt8} (h : stop ≤ b.n) :
    Parse.Ok (expect tag b p stop) fun t => TlvAt b p stop t ∧ t.tag = tag := by
  refine Ok.bind (drReadTlv_ok h) ?_
  intro t ht
  refine Ok.bind Ok.refuse ?_
  intro _ htag
  exact Ok.pure ⟨ht, not_not.mp htag⟩

theorem TlvAt.isElement {t : Tlv} (h : TlvAt b p stop t) :
    IsElement t.tag (b.bytes p (t.p + t.vl - p)) := by
  have hlt := h.start_lt
  refine ⟨b.bytes (p + 1) (t.p - (p + 1)), b.bytes t.p t.vl, ?_, ?_⟩
  · rw [show t.p + t.vl - p = (t.p - (p + 1) + t.vl) + 1 by omega, b.bytes_succ, b.bytes_add,
      show p + 1 + (t.p - (p + 1)) = t.p by omega, h.tag_eq]
  · rw [b.length_bytes]
    exact h.octets

/-! ## Times -/

theorem readDigits_ok : ∀ {n : Nat}, p + n ≤ b.n → Parse.Ok (readDigits b p n) fun _ => True
  | 0, _ => Ok.pure trivial
  | n + 1, h => by
    refine Ok.bind (readDigits_ok (by omega)) ?_
    intro v _
    refine Ok.bind (byteAt_ok (by omega)) ?_
    intro c _
    exact Ok.bind Ok.refuse fun _ _ => Ok.pure trivial

theorem readYear_ok (h : p + len ≤ b.n) :
    Parse.Ok (readYear b p len) fun y => y.2 + 11 = p + len := by
  refine Parse.Ok.ite ?_ fun _ => Parse.Ok.ite ?_ fun _ => Ok.fail
  · intro hlen
    refine Ok.bind (readDigits_ok (by omega)) ?_
    intro yy _
    exact Ok.pure (by show p + 2 + 11 = p + len; omega)
  · intro hlen
    refine Ok.bind (readDigits_ok (by omega)) ?_
    intro y _
    exact Ok.pure (by show p + 4 + 11 = p + len; omega)

theorem civilToEpoch_ok {y mo d h mn s : Nat} (hmo : ¬ (mo < 1 ∨ 12 < mo ∨ d < 1 ∨ 31 < d)) :
    (civilToEpoch y mo d h mn s).Ok fun _ => True := by
  have hlen : monthDays.length = 12 := rfl
  exact Acc.Ok.bind (ok_span (by omega)) fun _ _ => Acc.Ok.pure trivial

theorem parseX509Time_ok (hlen : p + len ≤ b.n) :
    Parse.Ok (parseX509Time b p len) fun _ => True := by
  refine Ok.bind (readYear_ok hlen) ?_
  intro y hy
  refine Ok.bind (readDigits_ok (by omega)) ?_
  intro mo _
  refine Ok.bind (readDigits_ok (by omega)) ?_
  intro d _
  refine Ok.bind (readDigits_ok (by omega)) ?_
  intro h _
  refine Ok.bind (readDigits_ok (by omega)) ?_
  intro mn _
  refine Ok.bind (readDigits_ok (by omega)) ?_
  intro s _
  refine Ok.bind Ok.refuse ?_
  intro _ _
  refine Ok.bind (byteAt_ok (by omega)) ?_
  intro z _
  refine Ok.bind Ok.refuse ?_
  intro _ _
  refine Ok.bind Ok.refuse ?_
  intro _ hmo
  exact Ok.lift (civilToEpoch_ok hmo)

/-! ## Algorithms and keys -/

theorem oidEq_ok {oid : List UInt8} (h : p + n ≤ b.n) :
    (oidEq b p n oid).Ok fun _ => True := by
  refine Acc.Ok.ite (fun _ => Acc.Ok.pure trivial) ?_
  intro hn
  exact ⟨b.matchBytes_safe oid p (by omega), trivial⟩

theorem firstOid_ok (h : p + n ≤ b.n) : ∀ oids : List (List UInt8 × Alg),
    Parse.Ok (firstOid b p n oids) fun _ => True
  | [] => Ok.fail
  | e :: es => by
    refine Ok.bind (Ok.lift (oidEq_ok h)) ?_
    intro eq _
    exact Parse.Ok.ite (fun _ => Ok.pure trivial) fun _ => firstOid_ok h es

theorem parseAlgId_ok (h : stop ≤ b.n) :
    Parse.Ok (parseAlgId b p stop) fun a => p < a.2 ∧ a.2 ≤ stop := by
  refine Ok.bind (expect_ok h) ?_
  intro seq ⟨hseq, _⟩
  have hstop := hseq.stop_le
  have hstart := hseq.start_lt
  refine Ok.bind (expect_ok (by omega)) ?_
  intro oid ⟨hoid, _⟩
  have hoidStop := hoid.stop_le
  refine Ok.bind (firstOid_ok (by omega) _) ?_
  intro alg _
  exact Ok.pure ⟨by show p < seq.p + seq.vl; omega, hstop⟩

/-- The number the `len` bytes at `p` stand for. -/
def integerAt (b : Buf) (p len : Nat) : Nat := Crypto.bytesNat (fun i => b.mem (p + i)) len

theorem magnitude_ok (h : p + len ≤ b.n) :
    (magnitude b p len).Ok fun n => n.WF ∧ n.val = integerAt b p len % Crypto.bnLimit := by
  refine Acc.Ok.ite ?_ fun _ => Crypto.bnFromBytesBe_ok h
  intro hlen
  refine Acc.Ok.bind (P := (· = b.mem p)) ⟨(b.read_safe p).mpr (by omega), rfl⟩ ?_
  intro c hc
  refine Acc.Ok.ite ?_ fun _ => Crypto.bnFromBytesBe_ok h
  intro h0
  refine Acc.Ok.mono (Crypto.bnFromBytesBe_ok (by omega)) ?_
  intro n ⟨hwf, hval⟩
  refine ⟨hwf, ?_⟩
  obtain ⟨k, rfl⟩ := Nat.exists_eq_succ_of_ne_zero (show len ≠ 0 by omega)
  rw [hval, integerAt, Crypto.bytesNat_drop_zero (by rw [Nat.add_zero, ← hc, h0]), Nat.succ_sub_one]
  simp only [Nat.add_assoc, Nat.add_comm 1]

/-- The key in the `len` bytes at `p`, its two numbers as the encoding gives them. -/
structure RsaKeyAt (b : Buf) (p len N E : Nat) : Prop where
  elements : ∃ seq n e : Tlv, TlvAt b p (p + len) seq ∧ TlvAt b seq.p (seq.p + seq.vl) n ∧
    TlvAt b (n.p + n.vl) (seq.p + seq.vl) e ∧
    (seq.tag = asn1Sequence ∧ n.tag = asn1Integer ∧ e.tag = asn1Integer) ∧
    N = integerAt b n.p n.vl ∧ E = integerAt b e.p e.vl

/-- The bignums of a key, which hold its numbers modulo `2 ^ 4608`. -/
structure KeyOf (b : Buf) (p len : Nat) (n e : Crypto.Bignum) : Prop where
  n_wf : n.WF
  e_wf : e.WF
  numbers : ∃ N E, RsaKeyAt b p len N E ∧ n.val = N % Crypto.bnLimit ∧ e.val = E % Crypto.bnLimit

theorem parseRsaPubkey_ok (h : p + len ≤ b.n) :
    Parse.Ok (parseRsaPubkey b p len) fun ne => KeyOf b p len ne.1 ne.2 := by
  refine Ok.bind (expect_ok h) ?_
  intro seq ⟨hseq, hseqTag⟩
  have hseqStop := hseq.stop_le
  refine Ok.bind (expect_ok (by omega)) ?_
  intro n ⟨hn, hnTag⟩
  have hnStop := hn.stop_le
  refine Ok.bind (Ok.lift (magnitude_ok (by omega))) ?_
  intro nOut ⟨hnwf, hnval⟩
  refine Ok.bind (expect_ok (by omega)) ?_
  intro e ⟨he, heTag⟩
  have heStop := he.stop_le
  refine Ok.bind (Ok.lift (magnitude_ok (by omega))) ?_
  intro eOut ⟨hewf, heval⟩
  exact Ok.pure ⟨hnwf, hewf, _, _,
    ⟨seq, n, e, hseq, hn, he, ⟨hseqTag, hnTag, heTag⟩, rfl, rfl⟩, hnval, heval⟩

theorem copyKey_ok (h : p + n ≤ b.n) (hn : n ≤ pkBytesSize) :
    (copyKey b p n).Ok fun _ => True := by
  refine up_ok (fun _ _ => True) trivial ?_
  intro i v hi _
  refine Acc.Ok.bind (P := fun _ => True) ⟨(b.read_safe _).mpr (by omega), trivial⟩ ?_
  intro x _
  exact (Acc.store_ok (by omega)).mono fun _ _ => trivial

/-- What is known of a parsed key: the bytes it comes from lie before `stop`, and an
RSA key has the numbers they encode. -/
structure Key.At (b : Buf) (stop : Nat) (k : Key) : Prop where
  stop_le : k.bits.off + k.bits.len ≤ stop
  numbers : k.pkType = .rsa → KeyOf b k.bits.off k.bits.len k.rsaN k.rsaE

theorem Key.At.mono {k : Key} {stop' : Nat} (h : k.At b stop) (hle : stop ≤ stop') :
    k.At b stop' :=
  ⟨Nat.le_trans h.stop_le hle, h.numbers⟩

theorem parseKey_ok {alg : Alg} {kb : Nat} (hstop : p + 1 + kb ≤ stop) (h : p + 1 + kb ≤ b.n) :
    Parse.Ok (parseKey b alg p kb) fun k => k.At b stop := by
  cases alg with
  | ed25519 =>
    refine Ok.bind Ok.refuse ?_
    intro _ hkb
    refine Ok.bind (Ok.lift (copyKey_ok (by omega) (by decide))) ?_
    intro v _
    exact Ok.pure ⟨hstop, fun hrsa => nomatch hrsa⟩
  | p256 =>
    refine Ok.bind Ok.refuse ?_
    intro _ hkb
    refine Ok.bind (byteAt_ok (by omega)) ?_
    intro c _
    refine Ok.bind Ok.refuse ?_
    intro _ _
    refine Ok.bind (Ok.lift (copyKey_ok (by omega) (by decide))) ?_
    intro v _
    exact Ok.pure ⟨hstop, fun hrsa => nomatch hrsa⟩
  | rsa =>
    refine Ok.bind (parseRsaPubkey_ok h) ?_
    intro ne hne
    refine Ok.bind (Ok.lift (Crypto.bnByteLength_ok hne.n_wf)) ?_
    intro len _
    refine Ok.bind (Ok.lift (Crypto.bnToBytesBe_ok ne.1 (by split <;> omega))) ?_
    intro v _
    exact Ok.pure ⟨hstop, fun _ => hne⟩

/-! ## Certificates -/

theorem skipVersion_ok (hp : p ≤ stop) (h : stop ≤ b.n) :
    Parse.Ok (skipVersion b p stop) (· ≤ stop) := by
  refine Parse.Ok.ite ?_ fun _ => Ok.pure hp
  intro hlt
  refine Ok.bind (byteAt_ok (by omega)) ?_
  intro c _
  refine Parse.Ok.ite ?_ fun _ => Ok.pure hp
  intro _
  refine Ok.bind (expect_ok h) ?_
  intro t ⟨ht, _⟩
  exact Ok.pure ht.stop_le

theorem skipAlgId_ok (h : stop ≤ b.n) : Parse.Ok (skipAlgId b p stop) (· ≤ stop) := by
  refine Ok.orElse ?_ ?_
  · refine Ok.bind (parseAlgId_ok h) ?_
    intro a ha
    exact Ok.pure ha.2
  · refine Ok.bind (expect_ok h) ?_
    intro t ⟨ht, _⟩
    exact Ok.pure ht.stop_le

theorem nameField_ok (h : stop ≤ b.n) :
    Parse.Ok (nameField b p stop) fun s => s.off + s.len ≤ stop := by
  refine Ok.bind (expect_ok h) ?_
  intro t ⟨ht, _⟩
  have hstop := ht.stop_le
  have hstart := ht.start_lt
  exact Ok.pure (by show p + (t.p + t.vl - p) ≤ stop; omega)

theorem timeField_ok (h : stop ≤ b.n) : Parse.Ok (timeField b p stop) fun _ => True := by
  refine Ok.bind (drReadTlv_ok h) ?_
  intro t ht
  have hstop := ht.stop_le
  refine Ok.bind Ok.refuse ?_
  intro _ _
  refine Ok.bind (parseX509Time_ok (by omega)) ?_
  intro s _
  exact Ok.pure trivial

theorem validityField_ok (h : stop ≤ b.n) :
    Parse.Ok (validityField b p stop) fun _ => True := by
  refine Ok.bind (expect_ok h) ?_
  intro t ⟨ht, _⟩
  have hstop := ht.stop_le
  refine Ok.bind (timeField_ok (by omega)) ?_
  intro t0 _
  refine Ok.bind (timeField_ok (by omega)) ?_
  intro t1 _
  exact Ok.pure trivial

theorem bitString_ok (h : stop ≤ b.n) :
    Parse.Ok (bitString b p stop) fun t => 0 < t.vl ∧ t.p + t.vl ≤ stop := by
  refine Ok.bind (expect_ok h) ?_
  intro t ⟨ht, _⟩
  have hstop := ht.stop_le
  refine Ok.bind Ok.refuse ?_
  intro _ hvl
  refine Ok.bind (byteAt_ok (by omega)) ?_
  intro c _
  refine Ok.bind Ok.refuse ?_
  intro _ _
  exact Ok.pure ⟨by omega, hstop⟩

theorem keyField_ok (h : stop ≤ b.n) :
    Parse.Ok (keyField b p stop) fun k => k.At b stop := by
  refine Ok.bind (expect_ok h) ?_
  intro spki ⟨hspki, _⟩
  have hstop := hspki.stop_le
  refine Ok.bind (parseAlgId_ok (by omega)) ?_
  intro alg _
  refine Ok.bind (bitString_ok (by omega)) ?_
  intro bits ⟨hpos, hbits⟩
  exact parseKey_ok (by omega) (by omega)

theorem tbsFields_ok (hp : p ≤ stop) (h : stop ≤ b.n) :
    Parse.Ok (tbsFields b p stop) fun f => f.1.off + f.1.len ≤ stop ∧
      f.2.1.off + f.2.1.len ≤ stop ∧ f.2.2.2.At b stop := by
  refine Ok.bind (skipVersion_ok hp h) ?_
  intro q _
  refine Ok.bind (expect_ok h) ?_
  intro serial _
  refine Ok.bind (skipAlgId_ok h) ?_
  intro q _
  refine Ok.bind (nameField_ok h) ?_
  intro issuer hissuer
  refine Ok.bind (validityField_ok h) ?_
  intro validity _
  refine Ok.bind (nameField_ok h) ?_
  intro subject hsubject
  refine Ok.bind (keyField_ok h) ?_
  intro key hkey
  exact Ok.pure ⟨hissuer, hsubject, hkey⟩

def Slice.Inside (b : Buf) (s : Slice) : Prop := s.off + s.len ≤ b.n

def Slice.bytes (b : Buf) (s : Slice) : List UInt8 := b.bytes s.off s.len

/-- What a parsed certificate records of its buffer. `stop` is where the content of
the certificate ends: from the first byte to there the buffer is one element, the
TBS slice starts right behind its header and is an element itself, and where it ends
the outer signature algorithm is read. -/
structure Cert.Recorded (b : Buf) (c : Cert) : Prop where
  tbs_inside : c.tbs.Inside b
  issuer_inside : c.issuer.Inside b
  subject_inside : c.subject.Inside b
  sig_inside : c.sig.Inside b
  tbs_element : IsElement asn1Sequence (c.tbs.bytes b)
  tbs_place : ∃ stop q, stop ≤ b.n ∧ b.mem 0 = asn1Sequence ∧
    LengthOctets (b.bytes 1 (c.tbs.off - 1)) (stop - c.tbs.off) ∧
    (parseAlgId b (c.tbs.off + c.tbs.len) stop).run.val = some (c.sigAlg, q)
  key_at : c.key.At b b.n

/-- For every buffer of every length the certificate parser makes no
access outside it nor outside the arrays of its result, and a certificate it accepts
records slices inside the buffer, the TBS slice being the complete element directly
before the outer signature algorithm. -/
theorem x509ParseCert_safe (b : Buf) : Parse.Ok (x509ParseCert b) fun c => c.Recorded b := by
  refine Ok.bind Ok.refuse ?_
  intro _ _
  refine Ok.bind (expect_ok (Nat.le_refl _)) ?_
  intro cert ⟨hcert, hcertTag⟩
  refine Ok.bind Ok.refuse ?_
  intro _ hcertEnd
  refine Ok.bind (expect_ok (by omega)) ?_
  intro tbs ⟨htbs, htbsTag⟩
  have htbsStart := htbs.start_lt
  have htbsStop := htbs.stop_le
  refine Ok.bind (tbsFields_ok (by omega) (by omega)) ?_
  intro f ⟨hissuer, hsubject, hkey⟩
  refine Ok.bind (parseAlgId_ok (by omega)).self ?_
  intro alg ⟨_, halg⟩
  refine Ok.bind (bitString_ok (by omega)) ?_
  intro sig ⟨hsigPos, hsig⟩
  have htbsLen : cert.p + (tbs.p + tbs.vl - cert.p) = tbs.p + tbs.vl := by omega
  refine Ok.pure ⟨?_, ?_, ?_, ?_, ?_, ?_, hkey.mono (by omega)⟩
  · show cert.p + (tbs.p + tbs.vl - cert.p) ≤ b.n
    omega
  · show f.1.off + f.1.len ≤ b.n
    omega
  · show f.2.1.off + f.2.1.len ≤ b.n
    omega
  · show sig.p + 1 + (sig.vl - 1) ≤ b.n
    omega
  · exact htbsTag ▸ htbs.isElement
  · refine ⟨cert.p + cert.vl, alg.2, by omega, hcert.tag_eq ▸ hcertTag, ?_, ?_⟩
    · rw [Nat.add_sub_cancel_left]
      exact hcert.octets
    · rw [htbsLen]
      exact halg

end AdventOS.Tls.X509
