import Mathlib

/-!
# TLS primitives and key schedule

The primitives of `libcrypto` that `tls.c` and `x509.c` call are one structure of
functions on byte strings. On top of it AES-GCM (`gcm.c`) and the key schedule of
`tls.c`: handshake keys, application keys, Finished, and the AEAD nonce.

A transcript is the bytes fed to the running hash so far; the hash of it is taken
where the source finalises a copy.

* `gcmDecrypt_gcmEncrypt`: what AES-GCM encrypts it decrypts, under any block
  cipher and any hash.
-/
namespace AdventOS.Tls

abbrev Bytes := List UInt8

/-- The labels `tls13_hkdf_expand_label` and `tls13_derive_secret` are called with. -/
inductive Label
  | derived
  | cHsTraffic
  | sHsTraffic
  | cApTraffic
  | sApTraffic
  | key
  | iv
  | finished
  deriving DecidableEq

/-- An RSA modulus or exponent, and the other numbers of `bignum.c`. -/
abbrev Bignum := Nat

/-- The content of an array of `n` bytes. -/
abbrev BytesN (n : Nat) := { l : Bytes // l.length = n }

/-- `p256_sig_to_der` gets an array of 72 bytes, and -1 is `none`; so is the failure of
the other two. -/
structure Primitives where
  sha256 : Bytes → BytesN 32
  hmac : (key msg : Bytes) → BytesN 32
  expandLabel : (secret : Bytes) → Label → (context : Bytes) → (len : Nat) → BytesN len
  x25519 : (scalar point : Bytes) → BytesN 32
  aes128Encrypt : (key block : Bytes) → BytesN 16
  ghash : (h aad ct : Bytes) → BytesN 16
  ed25519Sign : (msg sk : Bytes) → BytesN 64
  ed25519Verify : (sig msg pk : Bytes) → Bool
  p256Sign : (hash sk : Bytes) → Option (BytesN 64)
  p256SigToDer : (rs : Bytes) → Option { l : Bytes // l.length ≤ 72 }
  p256SigFromDer : (der : Bytes) → Option (BytesN 64)
  p256Verify : (rs hash pk : Bytes) → Bool
  rsaVerify : (msg sig : Bytes) → (n e : Bignum) → Bool

theorem length_zeros (n : Nat) : (List.replicate n (0 : UInt8)).length = n := List.length_replicate

def zeros (n : Nat) : BytesN n := ⟨List.replicate n 0, length_zeros n⟩

/-- Primitives for concrete runs: digests and keys are zero, the cipher adds nothing,
and every signature is right. -/
def Primitives.null : Primitives where
  sha256 _ := zeros 32
  hmac _ _ := zeros 32
  expandLabel _ _ _ n := zeros n
  x25519 _ _ := zeros 32
  aes128Encrypt _ _ := zeros 16
  ghash _ _ _ := zeros 16
  ed25519Sign _ _ := zeros 64
  ed25519Verify _ _ _ := true
  p256Sign _ _ := none
  p256SigToDer _ := none
  p256SigFromDer _ := none
  p256Verify _ _ _ := true
  rsaVerify _ _ _ _ := true

/-- mirrors tls.h: the key, the write IV and the record counter. -/
structure Keys where
  key : Bytes
  iv : Bytes
  seq : Nat
  deriving DecidableEq

def Keys.next (k : Keys) : Keys := { k with seq := k.seq + 1 }

def Keys.zero : Keys := ⟨zeros 16, zeros 12, 0⟩

/-- tls.c:53-58: the low 64 bits of the counter onto the last
eight bytes of the IV. -/
def buildNonce (k : Keys) : Bytes :=
  (List.range 12).map fun i =>
    let x := k.iv.getD i 0
    if i < 4 then x else x ^^^ UInt8.ofNat (k.seq / 2 ^ (8 * (11 - i)))

variable (cr : Primitives)

/-! ## AES-GCM -/

def be32 (n : Nat) : Bytes :=
  [UInt8.ofNat (n / 2 ^ 24), UInt8.ofNat (n / 2 ^ 16), UInt8.ofNat (n / 2 ^ 8), UInt8.ofNat n]

/-- The key stream byte for position `j`: the counter blocks start at 2, and only
the low 32 bits count. gcm.c:86-91, 117-129 -/
def keyStream (key nonce : Bytes) (j : Nat) : UInt8 :=
  (cr.aes128Encrypt key (nonce ++ be32 (2 + j / 16))).val.getD (j % 16) 0

def gcmXor (key nonce data : Bytes) : Bytes := data.mapIdx fun j x => x ^^^ keyStream cr key nonce j

/-- gcm.c:132-136, 157-164 -/
def gcmTag (key nonce aad ct : Bytes) : Bytes :=
  let h := cr.aes128Encrypt key (zeros 16)
  let s := cr.ghash h aad ct
  let e := cr.aes128Encrypt key (nonce ++ be32 1)
  (List.range 16).map fun i => s.val.getD i 0 ^^^ e.val.getD i 0

/-- gcm.c:96-137: ciphertext and tag. -/
def gcmEncrypt (key nonce aad pt : Bytes) : Bytes × Bytes :=
  let ct := gcmXor cr key nonce pt
  (ct, gcmTag cr key nonce aad ct)

/-- gcm.c:139-186; `none` is -1. -/
def gcmDecrypt (key nonce aad ct tag : Bytes) : Option Bytes :=
  if gcmTag cr key nonce aad ct = tag then some (gcmXor cr key nonce ct) else none

@[simp] theorem gcmXor_length (key nonce data : Bytes) :
    (gcmXor cr key nonce data).length = data.length := by
  unfold gcmXor
  rw [List.length_mapIdx]

theorem gcmXor_gcmXor (key nonce data : Bytes) :
    gcmXor cr key nonce (gcmXor cr key nonce data) = data := by
  unfold gcmXor
  refine List.ext_getElem (by simp) fun i h1 h2 => ?_
  rw [List.getElem_mapIdx, List.getElem_mapIdx, UInt8.xor_assoc, UInt8.xor_self, UInt8.xor_zero]

@[simp] theorem gcmTag_length (key nonce aad ct : Bytes) :
    (gcmTag cr key nonce aad ct).length = 16 := by
  simp [gcmTag]

@[simp] theorem gcmEncrypt_length (key nonce aad pt : Bytes) :
    (gcmEncrypt cr key nonce aad pt).1.length = pt.length := gcmXor_length cr ..

@[simp] theorem gcmEncrypt_tag_length (key nonce aad pt : Bytes) :
    (gcmEncrypt cr key nonce aad pt).2.length = 16 := gcmTag_length cr ..

theorem gcmDecrypt_gcmEncrypt (key nonce aad pt : Bytes) :
    gcmDecrypt cr key nonce aad (gcmEncrypt cr key nonce aad pt).1
      (gcmEncrypt cr key nonce aad pt).2 = some pt := by
  unfold gcmDecrypt gcmEncrypt
  rw [if_pos rfl, gcmXor_gcmXor]

/-! ## The key schedule -/

/-- hkdf.c:55-63, for a salt that is not empty. -/
def hkdfExtract (salt ikm : Bytes) : BytesN 32 := cr.hmac salt ikm

/-- hkdf.c:138-147 -/
def deriveSecret (secret : Bytes) (label : Label) (hash : Bytes) : BytesN 32 :=
  cr.expandLabel secret label hash 32

/-- tls.c:188-192 -/
def deriveTrafficKeys (secret : Bytes) : Keys :=
  ⟨cr.expandLabel secret .key [] 16, cr.expandLabel secret .iv [] 12, 0⟩

/-- The secrets and keys of the handshake. -/
structure HandshakeKeys where
  handshakeSecret : BytesN 32
  cHsTraffic : BytesN 32
  sHsTraffic : BytesN 32
  cHs : Keys
  sHs : Keys

/-- tls.c:194-217 (`ikm` is the PSK) and 219-242 (`ikm` is 32
zero bytes). -/
def computeHandshakeKeys (ikm shared transcript : Bytes) : HandshakeKeys :=
  let early := hkdfExtract cr (zeros 32) ikm
  let derived := deriveSecret cr early .derived (cr.sha256 [])
  let hs := hkdfExtract cr derived shared
  let th := cr.sha256 transcript
  let c := deriveSecret cr hs .cHsTraffic th
  let s := deriveSecret cr hs .sHsTraffic th
  ⟨hs, c, s, deriveTrafficKeys cr c, deriveTrafficKeys cr s⟩

/-- tls.c:244-263: the client's and the server's keys. -/
def computeApplicationKeys (handshakeSecret transcript : Bytes) : Keys × Keys :=
  let derived := deriveSecret cr handshakeSecret .derived (cr.sha256 [])
  let master := hkdfExtract cr derived (zeros 32)
  let th := cr.sha256 transcript
  (deriveTrafficKeys cr (deriveSecret cr master .cApTraffic th),
    deriveTrafficKeys cr (deriveSecret cr master .sApTraffic th))

/-- tls.c:265-274 -/
def computeFinished (traffic transcript : Bytes) : BytesN 32 :=
  cr.hmac (cr.expandLabel traffic .finished [] 32) (cr.sha256 transcript)

/-! ## Established connections -/

/-- The part of `struct tls_conn` that an established connection uses. -/
structure Endpoint where
  isServer : Bool
  cAp : Keys
  sAp : Keys

def Endpoint.sendKeys (c : Endpoint) : Keys := if c.isServer then c.sAp else c.cAp

def Endpoint.recvKeys (c : Endpoint) : Keys := if c.isServer then c.cAp else c.sAp

def Endpoint.setSend (c : Endpoint) (k : Keys) : Endpoint :=
  if c.isServer then { c with sAp := k } else { c with cAp := k }

def Endpoint.setRecv (c : Endpoint) (k : Keys) : Endpoint :=
  if c.isServer then { c with cAp := k } else { c with sAp := k }

@[simp] theorem Endpoint.sendKeys_setSend (c : Endpoint) (k : Keys) :
    (c.setSend k).sendKeys = k := by
  unfold sendKeys setSend
  cases c.isServer <;> rfl

@[simp] theorem Endpoint.recvKeys_setRecv (c : Endpoint) (k : Keys) :
    (c.setRecv k).recvKeys = k := by
  unfold recvKeys setRecv
  cases c.isServer <;> rfl

@[simp] theorem Endpoint.setSend_sendKeys (c : Endpoint) : c.setSend c.sendKeys = c := by
  obtain ⟨b, k, l⟩ := c
  cases b <;> rfl

@[simp] theorem Endpoint.setRecv_recvKeys (c : Endpoint) : c.setRecv c.recvKeys = c := by
  obtain ⟨b, k, l⟩ := c
  cases b <;> rfl

end AdventOS.Tls
