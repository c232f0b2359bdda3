import AdventOS.Ssh.Packet
import AdventOS.Ssh.Wire

/-!
# The SSH packet codec

`aes_gcm_encrypt` and `aes_gcm_decrypt` of `libcrypto/gcm.c`, over any block cipher, and
`ssh_packet_seal` and `ssh_packet_open` of `libcrypto/ssh.c` over them.

`ssh_packet_open` refuses a packet before it is decrypted when the payload might not fit the
receiver's buffer. It supposes the least padding, four bytes, for that, so that it refuses a
payload that does fit whenever the padding is longer by more than the room left.

* `open_seal`: what is sealed is opened, with room for the longest payload that the
  packet could hold;
* `open_rejects`: a rejected packet changes nothing that the caller keeps;
* `packet_codec_iff`: the exact buffer sizes for which the round trip succeeds.
-/
namespace AdventOS.Ssh
open List

abbrev Bytes := List UInt8

abbrev Block := { l : Bytes // l.length = 16 }

/-! ## Galois counter mode -/

/-- The loop `for i < 16: out[i] = a[i] ^ b[i]`. -/
def xor16 (a b : Bytes) : Bytes := (List.range 16).map fun i => a.getD i 0 ^^^ b.getD i 0

/-- `v >> 1` over the whole block, with the reduction by `0xE1`.
gcm.c:37-41 -/
def gfShift (v : Bytes) : Bytes :=
  let w := List.zipWith (fun prev b : UInt8 => (b >>> 1) ||| (prev <<< 7)) (0 :: v.dropLast) v
  if v.getLastD 0 &&& 1 = 1 then (w.headD 0 ^^^ 0xE1) :: w.tail else w

/-- The bits of a byte, the highest first. -/
def bitsOf (b : UInt8) : List Bool := [7, 6, 5, 4, 3, 2, 1, 0].map fun i => (b >>> i) &&& 1 = 1

/-- gcm.c:23-45 `gf_mul`. -/
def gfMul (x y : Bytes) : Bytes :=
  ((x.flatMap bitsOf).foldl (fun zv bit => (if bit then xor16 zv.1 zv.2 else zv.1, gfShift zv.2))
    (List.replicate 16 0, y)).1

/-- The loop of `ghash` over the blocks of `data`, the last one padded with zeros. -/
def ghashBlocks (h : Bytes) : Nat → Bytes → Bytes → Bytes
  | 0, y, _ => y
  | n + 1, y, data =>
    if data = [] then y else ghashBlocks h n (gfMul (xor16 y (data.take 16)) h) (data.drop 16)

def be64 (n : Nat) : Bytes := (List.range 8).map fun i => UInt8.ofNat (n / 256 ^ (7 - i))

/-- gcm.c:47-86 `ghash`. -/
def ghash (h aad ct : Bytes) : Bytes :=
  let y := ghashBlocks h aad.length (List.replicate 16 0) aad
  let y := ghashBlocks h ct.length y ct
  gfMul (xor16 y (be64 (aad.length * 8) ++ be64 (ct.length * 8))) h

/-- gcm.c:89-94 `inc32`. -/
def inc32 (ctr : Block) : Block :=
  ⟨ctr.1.take 12 ++ (incBytes (ctr.1.drop 12)).1, by
    have := ctr.2
    simp only [length_append, length_take, length_incBytes, length_drop]
    omega⟩

/-- The nonce and the number one. -/
def j0 (iv : IV) : Block := ⟨iv.1 ++ [0, 0, 0, 1], by simp [iv.2]⟩

section Gcm

variable (aes : Key → Block → Block)

/-- The loop of both directions: block after block, XORed with the cipher of the counter. -/
def ctrLoop (key : Key) : Nat → Block → Bytes → Bytes
  | 0, _, _ => []
  | n + 1, ctr, data =>
    List.zipWith (· ^^^ ·) (data.take 16) (aes key ctr).1 ++
      ctrLoop key n (inc32 ctr) (data.drop 16)

def ctrCrypt (key : Key) (iv : IV) (data : Bytes) : Bytes :=
  ctrLoop aes key data.length (inc32 (j0 iv)) data

def zeroBlock : Block := ⟨List.replicate 16 0, length_replicate⟩

/-- `GHASH(H, aad, ct) ^ AES_K(J0)`. -/
def gcmTag (key : Key) (iv : IV) (aad ct : Bytes) : Bytes :=
  xor16 (ghash (aes key zeroBlock).1 aad ct) (aes key (j0 iv)).1

/-- gcm.c:96-137: the ciphertext and the tag. -/
def aesGcmEncrypt (key : Key) (iv : IV) (aad pt : Bytes) : Bytes × Bytes :=
  let ct := ctrCrypt aes key iv pt
  (ct, gcmTag aes key iv aad ct)

/-- gcm.c:139-179: whether the tag is right, and the plaintext, which is
written in any case. -/
def aesGcmDecrypt (key : Key) (iv : IV) (aad ct tag : Bytes) : Bool × Bytes :=
  (gcmTag aes key iv aad ct = tag, ctrCrypt aes key iv ct)

end Gcm

/-! ## The codec -/

/-- The length of the padding. libcrypto/ssh.c:114-115 -/
def padLen (n : Nat) : Nat :=
  let padN := 16 - (1 + n) % 16
  if padN < 4 then padN + 16 else padN

section Codec

variable (aes : Key → Block → Block)

/-- What is encrypted: the length of the padding, the payload, the padding. -/
def sealedPlain (payload : Bytes) (rand : Nat → UInt8) : Bytes :=
  UInt8.ofNat (padLen payload.length) :: (payload ++ (List.range (padLen payload.length)).map rand)

/-- libcrypto/ssh.c:109-142: the packet and the next IV. `rand` gives the bytes of
the padding. -/
def sshPacketSeal (key : Key) (iv : IV) (payload : Bytes) (rand : Nat → UInt8) :
    Option (Bytes × IV) :=
  if sealFits payload.length then
    let aad := be32 (1 + payload.length + padLen payload.length)
    let sealed := aesGcmEncrypt aes key iv aad (sealedPlain payload rand)
    some (aad ++ sealed.1 ++ sealed.2, sshIvIncrement iv)
  else none

/-- What `ssh_packet_open` works on: the IV, the packet, which is decrypted in place, the
plaintext buffer and `*plaintext_len`. -/
structure Opening where
  iv : IV
  packet : Bytes
  plaintext : Bytes
  plaintextLen : Nat

/-- libcrypto/ssh.c:149-184; `true` is the return value 0. -/
def sshPacketOpen (key : Key) (s : Opening) (maxPlaintext : Nat) : Bool × Opening :=
  if s.packet.length < 4 + 16 + 16 then (false, s)
  else
    let encN := counterValue (s.packet.take 4)
    if encN < 16 ∨ sshMaxPacket - 4 - 16 < encN then (false, s)
    else if s.packet.length ≠ 4 + encN + 16 then (false, s)
    else if 5 < encN ∧ maxPlaintext < encN - 5 then (false, s)
    else
      let aad := s.packet.take 4
      let tag := s.packet.drop (4 + encN)
      let opened := aesGcmDecrypt aes key s.iv aad ((s.packet.drop 4).take encN) tag
      let s := { s with packet := aad ++ opened.2 ++ tag }
      if opened.1 = false then (false, s)
      else
        let padN := (opened.2.headD 0).toNat
        if padN < 4 ∨ encN < padN + 1 then (false, s)
        else
          let payloadN := encN - 1 - padN
          if maxPlaintext < payloadN then (false, s)
          else
            (true, { s with
              plaintext := opened.2.tail.take payloadN ++ s.plaintext.drop payloadN
              plaintextLen := payloadN
              iv := sshIvIncrement s.iv })

end Codec

/-! ## Lengths -/

theorem padLen_bounds (n : Nat) : 4 ≤ padLen n ∧ padLen n ≤ 19 := by
  unfold padLen
  dsimp only
  split <;> omega

theorem sealed_multiple (n : Nat) : 16 ≤ 1 + n + padLen n := by
  unfold padLen
  dsimp only
  split <;> omega

theorem length_xor16 (a b : Bytes) : (xor16 a b).length = 16 := by
  rw [xor16, length_map, length_range]

theorem length_ctrLoop (aes : Key → Block → Block) (key : Key) (n : Nat) :
    ∀ (ctr : Block) (l : Bytes), l.length ≤ 16 * n → (ctrLoop aes key n ctr l).length = l.length := by
  induction n with
  | zero =>
    intro ctr l h
    have : l.length = 0 := by omega
    rw [this]
    rfl
  | succ n ih =>
    intro ctr l h
    have hks := (aes key ctr).2
    rw [ctrLoop, length_append, length_zipWith, hks, length_take,
      ih _ _ (by rw [length_drop]; omega), length_drop]
    omega

theorem length_ctrCrypt (aes : Key → Block → Block) (key : Key) (iv : IV) (l : Bytes) :
    (ctrCrypt aes key iv l).length = l.length :=
  length_ctrLoop aes key _ _ _ (by omega)

theorem length_sealedPlain (payload : Bytes) (rand : Nat → UInt8) :
    (sealedPlain payload rand).length = 1 + payload.length + padLen payload.length := by
  rw [sealedPlain, length_cons, length_append, length_map, length_range]
  omega

/-! ## The round trip -/

theorem zipWith_xor_cancel : ∀ (a k : Bytes), a.length ≤ k.length →
    zipWith (· ^^^ ·) (zipWith (· ^^^ ·) a k) k = a
  | [], _, _ => rfl
  | x :: a, [], h => by cases h
  | x :: a, y :: k, h => by
    rw [zipWith_cons_cons, zipWith_cons_cons,
      zipWith_xor_cancel a k (Nat.le_of_succ_le_succ h), UInt8.xor_assoc, UInt8.xor_self,
      UInt8.xor_zero]

theorem ctrLoop_ctrLoop (aes : Key → Block → Block) (key : Key) (n : Nat) :
    ∀ (ctr : Block) (l : Bytes), l.length ≤ 16 * n →
      ctrLoop aes key n ctr (ctrLoop aes key n ctr l) = l := by
  induction n with
  | zero =>
    intro ctr l h
    have : l = [] := length_eq_zero_iff.1 (by omega)
    rw [this]
    rfl
  | succ n ih =>
    intro ctr l h
    have hks := (aes key ctr).2
    have hdrop : (l.drop 16).length ≤ 16 * n := by
      rw [length_drop]
      omega
    have hrest := ih (inc32 ctr) (l.drop 16) hdrop
    have hblock : zipWith (· ^^^ ·) (zipWith (· ^^^ ·) (l.take 16) (aes key ctr).1)
        (aes key ctr).1 = l.take 16 :=
      zipWith_xor_cancel _ _ (by rw [length_take, hks]; omega)
    have hlen : (zipWith (· ^^^ ·) (l.take 16) (aes key ctr).1).length = min 16 l.length := by
      rw [length_zipWith, hks, length_take]
      omega
    by_cases hl : 16 ≤ l.length
    · rw [ctrLoop, ctrLoop, take_left' (by omega), drop_left' (by omega), hblock,
        hrest, take_append_drop]
    · have hnil : l.drop 16 = [] := drop_eq_nil_of_le (by omega)
      have hempty : ctrLoop aes key n (inc32 ctr) [] = [] := by
        have := length_ctrLoop aes key n (inc32 ctr) [] (Nat.zero_le _)
        exact length_eq_zero_iff.1 this
      rw [ctrLoop, ctrLoop, hnil, hempty, append_nil, take_of_length_le (by omega),
        drop_eq_nil_of_le (by omega), hempty, append_nil, hblock,
        take_of_length_le (by omega)]

theorem ctrCrypt_ctrCrypt (aes : Key → Block → Block) (key : Key) (iv : IV) (l : Bytes) :
    ctrCrypt aes key iv (ctrCrypt aes key iv l) = l := by
  unfold ctrCrypt
  rw [length_ctrLoop aes key _ _ _ (by omega)]
  exact ctrLoop_ctrLoop aes key _ _ _ (by omega)

theorem counterValue_be32 {n : Nat} (h : n < 2 ^ 32) : counterValue (be32 n) = n := by
  simp only [be32, counterValue, length_cons, length_nil, UInt8.toNat_ofNat']
  omega

/-- The packet that `ssh_packet_seal` builds. -/
def sealedPacket (aes : Key → Block → Block) (key : Key) (iv : IV) (payload : Bytes)
    (rand : Nat → UInt8) : Bytes :=
  let aad := be32 (1 + payload.length + padLen payload.length)
  let ct := ctrCrypt aes key iv (sealedPlain payload rand)
  aad ++ (ct ++ gcmTag aes key iv aad ct)

theorem sshPacketSeal_eq (aes : Key → Block → Block) (key : Key) (iv : IV) {payload : Bytes}
    (hfit : sealFits payload.length = true) (rand : Nat → UInt8) :
    sshPacketSeal aes key iv payload rand =
      some (sealedPacket aes key iv payload rand, sshIvIncrement iv) := by
  unfold sshPacketSeal sealedPacket aesGcmEncrypt
  rw [if_pos hfit]
  dsimp only
  rw [append_assoc]

section RoundTrip

variable {aes : Key → Block → Block} {key : Key} {iv : IV} {payload : Bytes} {rand : Nat → UInt8}

theorem length_sealedPacket : (sealedPacket aes key iv payload rand).length =
    4 + (1 + payload.length + padLen payload.length) + 16 := by
  simp only [sealedPacket, length_append, length_be32, length_ctrCrypt, length_sealedPlain,
    gcmTag, length_xor16]
  omega

theorem take_sealedPacket : (sealedPacket aes key iv payload rand).take 4 =
    be32 (1 + payload.length + padLen payload.length) :=
  take_left' (length_be32 _)

theorem drop_sealedPacket : (sealedPacket aes key iv payload rand).drop 4 =
    ctrCrypt aes key iv (sealedPlain payload rand) ++
      gcmTag aes key iv (be32 (1 + payload.length + padLen payload.length))
        (ctrCrypt aes key iv (sealedPlain payload rand)) :=
  drop_left' (length_be32 _)

theorem ciphertext_sealedPacket : ((sealedPacket aes key iv payload rand).drop 4).take
        (1 + payload.length + padLen payload.length) =
      ctrCrypt aes key iv (sealedPlain payload rand) := by
  rw [drop_sealedPacket]
  exact take_left' (by rw [length_ctrCrypt, length_sealedPlain])

theorem tag_sealedPacket :
    (sealedPacket aes key iv payload rand).drop (4 + (1 + payload.length + padLen payload.length)) =
      gcmTag aes key iv (be32 (1 + payload.length + padLen payload.length))
        (ctrCrypt aes key iv (sealedPlain payload rand)) := by
  rw [← drop_drop, drop_sealedPacket]
  exact drop_left' (by rw [length_ctrCrypt, length_sealedPlain])

/-- What `ssh_packet_open` makes of a sealed packet: all its checks pass but the one of the
room, which is for the longest payload of a packet of that size. -/
theorem open_seal (hfit : sealFits payload.length = true) (buf : Bytes) (len max : Nat)
    (hmax : payload.length ≤ max) :
    sshPacketOpen aes key ⟨iv, sealedPacket aes key iv payload rand, buf, len⟩ max =
      if max + 4 < payload.length + padLen payload.length then
        (false, ⟨iv, sealedPacket aes key iv payload rand, buf, len⟩)
      else
        (true, ⟨sshIvIncrement iv,
          be32 (1 + payload.length + padLen payload.length) ++ sealedPlain payload rand ++
            gcmTag aes key iv (be32 (1 + payload.length + padLen payload.length))
              (ctrCrypt aes key iv (sealedPlain payload rand)),
          payload ++ buf.drop payload.length, payload.length⟩) := by
  have hfit : sealedSize payload.length ≤ sshMaxPacket := of_decide_eq_true hfit
  have hsize : sealedSize payload.length = 4 + (1 + payload.length + padLen payload.length) + 16 :=
    rfl
  have hpad := padLen_bounds payload.length
  have hmin := sealed_multiple payload.length
  have hmp : sshMaxPacket = 32768 := rfl
  have hlen : (sealedPacket aes key iv payload rand).length =
      4 + (1 + payload.length + padLen payload.length) + 16 := length_sealedPacket
  have hval : counterValue (be32 (1 + payload.length + padLen payload.length)) =
      1 + payload.length + padLen payload.length := counterValue_be32 (by omega)
  have hpadN : (UInt8.ofNat (padLen payload.length)).toNat = padLen payload.length := by
    rw [UInt8.toNat_ofNat']
    omega
  unfold sshPacketOpen
  dsimp only
  rw [take_sealedPacket, hval, ciphertext_sealedPacket, tag_sealedPacket, if_neg (by omega),
    if_neg (by omega), if_neg (by omega)]
  by_cases hroom : max + 4 < payload.length + padLen payload.length
  · rw [if_pos (by omega), if_pos hroom]
  · have hd : aesGcmDecrypt aes key iv (be32 (1 + payload.length + padLen payload.length))
        (ctrCrypt aes key iv (sealedPlain payload rand))
        (gcmTag aes key iv (be32 (1 + payload.length + padLen payload.length))
          (ctrCrypt aes key iv (sealedPlain payload rand))) =
        (true, sealedPlain payload rand) := by
      unfold aesGcmDecrypt
      rw [ctrCrypt_ctrCrypt, decide_eq_true rfl]
    rw [if_neg (by omega), if_neg hroom, hd]
    have hhead : ((sealedPlain payload rand).headD 0).toNat = padLen payload.length := hpadN
    have htail : (sealedPlain payload rand).tail =
        payload ++ (range (padLen payload.length)).map rand := rfl
    have hn : 1 + payload.length + padLen payload.length - 1 - padLen payload.length =
        payload.length := by omega
    rw [hhead, hn, htail, take_left' rfl, if_neg (by simp), if_neg (by omega), if_neg (by omega)]

end RoundTrip

/-- Unless the packet is accepted, neither the IV nor what the caller gets changes. -/
def Rejects (s : Opening) (r : Bool × Opening) : Prop :=
  r.1 = false → r.2.iv = s.iv ∧ r.2.plaintext = s.plaintext ∧ r.2.plaintextLen = s.plaintextLen

theorem open_rejects (aes : Key → Block → Block) (key : Key) (s : Opening) (max : Nat) :
    Rejects s (sshPacketOpen aes key s max) := by
  have hsame : ∀ packet, Rejects s (false, { s with packet := packet }) :=
    fun _ _ => ⟨rfl, rfl, rfl⟩
  unfold sshPacketOpen
  dsimp only
  -- every refusal, in the order of the checks, and the acceptance last
  split
  · exact hsame s.packet
  · split
    · exact hsame s.packet
    · split
      · exact hsame s.packet
      · split
        · exact hsame s.packet
        · split
          · exact hsame _
          · split
            · exact hsame _
            · split
              · exact hsame _
              · exact fun h => absurd h Bool.true_eq_false.mp

/-- With the same key and IV the receiver gets the payload, and the IV that the sender has. -/
def RoundTrip (aes : Key → Block → Block) (key : Key) (iv : IV) (payload : Bytes)
    (rand : Nat → UInt8) (buf : Bytes) (len max : Nat) : Prop :=
  ∃ packet iv', sshPacketSeal aes key iv payload rand = some (packet, iv') ∧
    ∃ s, sshPacketOpen aes key ⟨iv, packet, buf, len⟩ max = (true, s) ∧ s.iv = iv' ∧
      s.plaintextLen = payload.length ∧ s.plaintext = payload ++ buf.drop payload.length

/-- For every key, IV, payload that fits a packet, padding and receiver buffer
that holds the payload: the round trip succeeds, and rejected packets change nothing, exactly
if the buffer has room for the payload and the padding beyond its least length. -/
theorem packet_codec_iff (aes : Key → Block → Block) (key : Key) (iv : IV) (payload : Bytes)
    (rand : Nat → UInt8) (buf : Bytes) (len max : Nat) (hfit : sealFits payload.length = true)
    (hmax : payload.length ≤ max) :
    RoundTrip aes key iv payload rand buf len max ∧
        (∀ (key : Key) (s : Opening) (max : Nat), Rejects s (sshPacketOpen aes key s max)) ↔
      payload.length + padLen payload.length ≤ max + 4 := by
  have hopen : sshPacketOpen aes key ⟨iv, sealedPacket aes key iv payload rand, buf, len⟩ max = _ :=
    open_seal hfit buf len max hmax
  constructor
  · intro h
    obtain ⟨packet, iv', hseal, s, hs, _⟩ := h.1
    rw [sshPacketSeal_eq aes key iv hfit rand] at hseal
    obtain ⟨rfl, rfl⟩ := Prod.mk.inj (Option.some.inj hseal)
    by_contra hn
    rw [hopen, if_pos (by omega)] at hs
    exact Bool.false_ne_true (Prod.mk.inj hs).1
  · intro h
    rw [if_neg (by omega)] at hopen
    exact ⟨⟨_, _, sshPacketSeal_eq aes key iv hfit rand, _, hopen, rfl, rfl, rfl⟩, open_rejects aes⟩

/-! ## One byte -/

def zeroKey : Key := ⟨List.replicate 16 0, length_replicate⟩

theorem length_zeroBytes : (List.replicate 12 (0 : UInt8)).length = 12 := length_replicate

def zeroIv : IV := ⟨List.replicate 12 0, length_zeroBytes⟩

theorem packet_codec_one : RoundTrip (fun _ b => b) zeroKey zeroIv [1] (fun _ => 0) [] 0 16 ∧
        (∀ (key : Key) (s : Opening) (max : Nat),
          Rejects s (sshPacketOpen (fun _ b => b) key s max)) ↔
      [(1 : UInt8)].length + padLen [(1 : UInt8)].length ≤ 16 + 4 :=
  packet_codec_iff (fun _ b => b) zeroKey zeroIv [1] (fun _ => 0) [] 0 16 (by decide) (by decide)

/-- A buffer of one byte for a payload of one byte. -/
theorem packet_codec_exact_buffer :
    ¬ ∀ (aes : Key → Block → Block) (key : Key) (iv : IV) (payload : Bytes)
      (rand : Nat → UInt8) (buf : Bytes) (len max : Nat), sealFits payload.length = true →
      payload.length ≤ max → RoundTrip aes key iv payload rand buf len max := by
  intro h
  obtain ⟨packet, iv', hseal, s, hs, _⟩ := h (fun _ b => b) zeroKey zeroIv [1] (fun _ => 0) [] 0 1
    (by decide) (by decide)
  rw [sshPacketSeal_eq _ _ _ (by decide)] at hseal
  obtain ⟨rfl, rfl⟩ := Prod.mk.inj (Option.some.inj hseal)
  rw [open_seal (by decide) [] 0 1 (by decide), if_pos (by decide)] at hs
  exact Bool.false_ne_true (Prod.mk.inj hs).1

end AdventOS.Ssh
