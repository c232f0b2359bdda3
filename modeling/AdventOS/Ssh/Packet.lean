import AdventOS.Core.Sealing

/-!
# SSH packets

`libcrypto/ssh.c`: the size of a sealed packet and the 12-byte IV, whose last
eight bytes are a big-endian counter.

* `sshIvIncrement_period`: 2^64 packets under one key use 2^64 different IVs.
-/
namespace AdventOS.Ssh
open List

/-- An AES-128 key. -/
abbrev Key := { l : List UInt8 // l.length = 16 }

/-- A GCM nonce: four fixed bytes and an eight-byte counter. -/
abbrev IV := { l : List UInt8 // l.length = 12 }

def sshMaxPacket : Nat := 32768

/-- The whole packet on the wire for a payload of `n` bytes.
libcrypto/ssh.c:113-117 -/
def sealedSize (n : Nat) : Nat :=
  let padN := 16 - (1 + n) % 16
  let padN := if padN < 4 then padN + 16 else padN
  4 + (1 + n + padN) + 16

/-- The size check of `ssh_packet_seal`. libcrypto/ssh.c:118 -/
def sealFits (n : Nat) : Bool := sealedSize n ≤ sshMaxPacket

/-! ## The IV counter -/

/-- Adds one to a big-endian counter, from its last byte; the flag says that
every byte wrapped. -/
def incBytes : List UInt8 → List UInt8 × Bool
  | [] => ([], true)
  | b :: bs =>
    let (bs', carry) := incBytes bs
    if carry then ((b + 1) :: bs', b + 1 == 0) else (b :: bs', false)

/-- The number a big-endian counter holds. -/
def counterValue : List UInt8 → Nat
  | [] => 0
  | b :: bs => b.toNat * 256 ^ bs.length + counterValue bs

@[simp] theorem length_incBytes (l : List UInt8) : (incBytes l).1.length = l.length := by
  induction l with
  | nil => rfl
  | cons b bs ih =>
    simp only [incBytes]
    split <;> simp [ih]

theorem counterValue_lt (l : List UInt8) : counterValue l < 256 ^ l.length := by
  induction l with
  | nil => simp [counterValue]
  | cons b bs ih =>
    have hb : b.toNat ≤ 255 := by have := b.toNat_lt; omega
    have hmul : b.toNat * 256 ^ bs.length ≤ 255 * 256 ^ bs.length := Nat.mul_le_mul_right _ hb
    simp only [counterValue, length_cons, pow_succ]
    omega

theorem counterValue_incBytes (l : List UInt8) :
    counterValue (incBytes l).1 + (if (incBytes l).2 then 256 ^ l.length else 0) =
      counterValue l + 1 := by
  induction l with
  | nil => simp [incBytes, counterValue]
  | cons b bs ih =>
    cases hc : (incBytes bs).2 with
    | false =>
      simp only [hc, Bool.false_eq_true, if_false, add_zero] at ih
      simp only [incBytes, hc, Bool.false_eq_true, if_false, counterValue, length_incBytes, ih]
      omega
    | true =>
      simp only [hc, if_true] at ih
      simp only [incBytes, hc, if_true, counterValue, length_incBytes, length_cons]
      by_cases hb : b + 1 = 0
      · have hn : b.toNat = 255 := by
          have h0 : (b + 1).toNat = 0 := by rw [hb]; rfl
          have := b.toNat_lt
          rw [UInt8.toNat_add] at h0
          simp only [UInt8.toNat_one] at h0
          omega
        simp only [hb, beq_self_eq_true, if_true, UInt8.toNat_zero, hn, pow_succ]
        omega
      · have hn : (b + 1).toNat = b.toNat + 1 := by
          have hlt := b.toNat_lt
          have hne : b.toNat ≠ 255 := by
            intro h
            exact hb (UInt8.toNat_inj.1 (by rw [UInt8.toNat_add, h]; rfl))
          rw [UInt8.toNat_add, UInt8.toNat_one]
          omega
        have hf : (b + 1 == 0) = false := by simpa using hb
        simp only [hf, hn, Bool.false_eq_true, if_false, add_mul]
        omega

/-- libcrypto/ssh.c:186-190 -/
def sshIvIncrement (iv : IV) : IV :=
  ⟨iv.1.take 4 ++ (incBytes (iv.1.drop 4)).1, by
    have := iv.2
    simp only [length_append, length_take, length_incBytes, length_drop]
    omega⟩

/-- The counter field of an IV. -/
def ivCounter (iv : IV) : Nat := counterValue (iv.1.drop 4)

theorem ivCounter_lt (iv : IV) : ivCounter iv < 2 ^ 64 := by
  have h := counterValue_lt (iv.1.drop 4)
  rw [length_drop, iv.2] at h
  exact h

theorem ivCounter_increment (iv : IV) :
    ivCounter (sshIvIncrement iv) = (ivCounter iv + 1) % 2 ^ 64 := by
  have hdrop : (sshIvIncrement iv).1.drop 4 = (incBytes (iv.1.drop 4)).1 :=
    drop_left' (by simp [iv.2])
  have hval := counterValue_incBytes (iv.1.drop 4)
  have hlt := counterValue_lt (incBytes (iv.1.drop 4)).1
  have h8 : (iv.1.drop 4).length = 8 := by simp [iv.2]
  rw [length_incBytes] at hlt
  rw [h8] at hval hlt
  unfold ivCounter
  rw [hdrop]
  split at hval <;> omega

theorem ivCounter_iterate (iv : IV) (n : Nat) :
    ivCounter (sshIvIncrement^[n] iv) = (ivCounter iv + n) % 2 ^ 64 := by
  induction n with
  | zero => simpa using (Nat.mod_eq_of_lt (ivCounter_lt iv)).symm
  | succ n ih =>
    rw [Function.iterate_succ_apply', ivCounter_increment, ih]
    omega

theorem sshIvIncrement_period : Sealing.Period sshIvIncrement (2 ^ 64) := by
  intro b m n hmn hn he
  have hm := ivCounter_iterate b m
  rw [he, ivCounter_iterate b n] at hm
  have := ivCounter_lt b
  omega

end AdventOS.Ssh
