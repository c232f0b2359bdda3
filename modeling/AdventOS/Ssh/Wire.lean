import AdventOS.Core.Access

/-!
# SSH wire format

The byte-pullers of `libcrypto/ssh.c` on a payload buffer. Pointers are offsets
into the buffer; a pointer may run past the end of the payload, because
`ssh_get_u8` and `ssh_get_u32` do not check.

* `getString_safe`: `ssh_get_string` reads nothing outside the payload;
* `getString_bytes`: what it returns is a string in the encoding of the protocol,
  at the place it was read from.
-/
namespace AdventOS.Ssh

/-- Big-endian encoding of a 32-bit length. -/
def be32 (n : Nat) : List UInt8 :=
  [UInt8.ofNat (n / 2 ^ 24), UInt8.ofNat (n / 2 ^ 16), UInt8.ofNat (n / 2 ^ 8), UInt8.ofNat n]

/-- libcrypto/ssh.c:29-32: `uint32 length || bytes`. -/
def sshString (s : List UInt8) : List UInt8 := be32 s.length ++ s

@[simp] theorem length_be32 (n : Nat) : (be32 n).length = 4 := rfl

@[simp] theorem length_sshString (s : List UInt8) : (sshString s).length = 4 + s.length := by
  simp [sshString]

def ascii (s : List Char) : List UInt8 := s.map fun c => UInt8.ofNat c.toNat

/-- The value of four big-endian bytes. -/
def u32Of (a b c d : UInt8) : Nat := 2 ^ 24 * a.toNat + 2 ^ 16 * b.toNat + 2 ^ 8 * c.toNat + d.toNat

theorem be32_u32Of (a b c d : UInt8) : be32 (u32Of a b c d) = [a, b, c, d] := by
  have ha := a.toNat_lt
  have hb := b.toNat_lt
  have hc := c.toNat_lt
  have hd := d.toNat_lt
  have hval : ∀ (x : UInt8) (m : Nat), m % 256 = x.toNat → .ofNat m = x := by
    intro x m h
    apply UInt8.toNat_inj.1
    rw [UInt8.toNat_ofNat']
    exact h
  unfold be32 u32Of
  rw [hval a _ (by omega), hval b _ (by omega), hval c _ (by omega), hval d _ (by omega)]

/-- libcrypto/ssh.c:73-75 -/
def getU8 (b : Buf) (p : Nat) : Acc (UInt8 × Nat) := do
  let v ← b.read p
  return (v, p + 1)

/-- libcrypto/ssh.c:77-84 -/
def getU32 (b : Buf) (p : Nat) : Acc (Nat × Nat) := do
  let x0 ← b.read p
  let x1 ← b.read (p + 1)
  let x2 ← b.read (p + 2)
  let x3 ← b.read (p + 3)
  return (u32Of x0 x1 x2 x3, p + 4)

/-- libcrypto/ssh.c:86-95: the string's place and length, if it lies
before `stop`, and the new pointer. -/
def getString (b : Buf) (p stop : Nat) : Acc (Option (Nat × Nat) × Nat) :=
  if stop < p + 4 then pure (none, p)
  else do
    let r ← getU32 b p
    let len := r.1
    let p := r.2
    if stop - p < len then pure (none, p) else pure (some (p, len), p + len)

@[simp] theorem getU8_val (b : Buf) (p : Nat) : (getU8 b p).val = (b.mem p, p + 1) := rfl

@[simp] theorem getU8_safe (b : Buf) (p : Nat) : (getU8 b p).safe = true ↔ p < b.n := by
  simp [getU8]

theorem getU32_val (b : Buf) (p : Nat) : (getU32 b p).val =
      (u32Of (b.mem p) (b.mem (p + 1)) (b.mem (p + 2)) (b.mem (p + 3)), p + 4) := by
  simp [getU32]

theorem getU32_safe (b : Buf) (p : Nat) : (getU32 b p).safe = true ↔ p + 4 ≤ b.n := by
  simp only [getU32, Acc.bind_safe, Acc.pure_safe, Bool.and_true, Bool.and_eq_true, Buf.read_safe]
  omega

def lenAt (b : Buf) (p : Nat) : Nat := (getU32 b p).val.1

@[simp] theorem getU32_ptr (b : Buf) (p : Nat) : (getU32 b p).val.2 = p + 4 := by
  rw [getU32_val]

theorem lenAt_bytes (b : Buf) (p : Nat) : be32 (lenAt b p) = b.bytes p 4 := by
  unfold lenAt
  rw [getU32_val, be32_u32Of]
  simp [Buf.bytes_succ]

theorem getString_val (b : Buf) (p stop : Nat) : (getString b p stop).val =
      if stop < p + 4 then (none, p)
      else if stop - (p + 4) < lenAt b p then (none, p + 4)
      else (some (p + 4, lenAt b p), p + 4 + lenAt b p) := by
  unfold getString lenAt
  by_cases h : stop < p + 4
  · simp [h]
  · by_cases h2 : stop - (p + 4) < (getU32 b p).val.1
    · simp [h, h2]
    · simp [h, h2]

variable {b : Buf} {d len p p' stop : Nat}

theorem getString_safe (h : stop ≤ b.n) : (getString b p stop).safe = true := by
  unfold getString
  by_cases h' : stop < p + 4
  · simp [h']
  · simp only [h', if_false, Acc.bind_safe, Bool.and_eq_true, getU32_safe, Acc.ite_safe]
    exact ⟨by omega, fun _ => Acc.pure_safe _, fun _ => Acc.pure_safe _⟩

theorem getString_some (h : (getString b p stop).val = (some (d, len), p')) :
    d = p + 4 ∧ p' = d + len ∧ p' ≤ stop ∧ len = lenAt b p := by
  rw [getString_val] at h
  split at h
  · cases h
  split at h
  · cases h
  · cases h
    exact ⟨rfl, rfl, by omega, rfl⟩

theorem getString_bytes (h : (getString b p stop).val = (some (d, len), p')) :
    b.bytes p (p' - p) = sshString (b.bytes d len) := by
  obtain ⟨hd, hp', -, hlen⟩ := getString_some h
  have hsplit := b.bytes_add p 4 len
  rw [show p' - p = 4 + len by omega, hsplit, sshString, Buf.length_bytes, hlen, lenAt_bytes, ← hd]

theorem getString_split (h : (getString b p stop).val = (some (d, len), p')) :
    b.bytes p (stop - p) = sshString (b.bytes d len) ++ b.bytes p' (stop - p') := by
  obtain ⟨hd, hp', hle, -⟩ := getString_some h
  rw [b.bytes_split (show p ≤ p' by omega) hle, getString_bytes h]

end AdventOS.Ssh
