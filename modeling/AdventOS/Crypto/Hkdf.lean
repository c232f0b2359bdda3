import AdventOS.Core.Checked
import AdventOS.Crypto.Sha256

/-!
# HKDF-Expand-Label

`hmac_sha256`, `hkdf_expand` and `tls13_hkdf_expand_label` over any hash with 32 bytes of output.
The scratch arrays are filled from the front: each is the list of what was put into it, and
putting in more than it holds is an access outside.

`hkdfLabel`, `okmBlock` and `hkdfExpandLabel` are HkdfLabel of RFC 8446 and HKDF-Expand of RFC 5869.

* `hkdfExpand_ok`: the code expands the first 320 bytes of what it is given.
* `expandLabel_ok_iff`.
* `long_label_differs`: with SHA-256, a label of 64 characters and a context of 255 bytes.
-/
namespace AdventOS.Crypto.Hkdf
open List

open AdventOS.Acc

/-- `for (i = 0; i < n; i++) a[pos++] = l[i];` on an array of `size` bytes. -/
def put (size : Nat) (a l : List UInt8) : Acc (List UInt8) :=
  ⟨a ++ l, decide (a.length + l.length ≤ size)⟩

/-- Updates in a row hash what they are given as one message.
hkdf.c:23-51 -/
def hmac (hash : List UInt8 → List UInt8) (key msg : List UInt8) : List UInt8 :=
  let k := if 64 < key.length then hash key else key
  let k := k ++ List.replicate (64 - k.length) 0
  hash (k.map (· ^^^ 0x5C) ++ hash (k.map (· ^^^ 0x36) ++ msg))

variable (hash : List UInt8 → List UInt8) (prk info : List UInt8)

/-- The loop of `hkdf_expand`; `none` when the fuel runs out.
hkdf.c:83-99 -/
def expandLoop (okmLen : Nat) : Nat → List UInt8 → UInt8 → Nat → List UInt8 →
    Acc (Option (List UInt8))
  | 0, _, _, _, _ => pure none
  | fuel + 1, t, ctr, done, okm =>
    if done < okmLen then do
      let msg ← put (32 + 320 + 1) [] t
      let msg ← put (32 + 320 + 1) msg (info.take 320)
      let msg ← put (32 + 320 + 1) msg [ctr]
      let t := hmac hash prk msg
      let take := if okmLen - done < 32 then okmLen - done else 32
      expandLoop okmLen fuel t (ctr + 1) (done + take) (okm ++ t.take take)
    else pure (some okm)

/-- hkdf.c:65-100 -/
def hkdfExpand (okmLen : Nat) : Acc (Option (List UInt8)) :=
  expandLoop hash prk info okmLen (okmLen + 1) [] 1 0 []

variable (label context : List UInt8) (outLen : Nat)

/-- `label` is what stands before the zero byte.
hkdf.c:102-137 -/
def tls13HkdfExpandLabel : Acc (Option (List UInt8)) := do
  let infoSize := 2 + 1 + 6 + 64 + 1 + 256
  let info ← put infoSize [] [UInt8.ofNat (outLen / 2 ^ 8), UInt8.ofNat outLen]
  let labelN := if 64 < label.length then 64 else label.length
  let prefixed ← put (6 + 64) [0x74, 0x6c, 0x73, 0x31, 0x33, 0x20] (label.take labelN)
  let plen := 6 + labelN
  let info ← put infoSize info [UInt8.ofNat plen]
  let info ← put infoSize info (prefixed.take plen)
  let contextLen := if 255 < context.length then 255 else context.length
  let info ← put infoSize info [UInt8.ofNat contextLen]
  let info ← put infoSize info (context.take contextLen)
  hkdfExpand hash prk info outLen

/-! ## RFC 5869 and RFC 8446 -/

/-- `T(i)`. -/
def okmBlock : Nat → List UInt8
  | 0 => []
  | i + 1 => hmac hash prk (okmBlock i ++ info ++ [UInt8.ofNat (i + 1)])

/-- `T(1) | T(2) | … | T(n)`. -/
def okmBlocks (n : Nat) : List UInt8 :=
  (List.range n).flatMap fun i => okmBlock hash prk info (i + 1)

def expand (okmLen : Nat) : List UInt8 :=
  (okmBlocks hash prk info ((okmLen + 31) / 32)).take okmLen

/-- HkdfLabel, with `"tls13 "` before the label. -/
def hkdfLabel : List UInt8 :=
  [UInt8.ofNat (outLen / 2 ^ 8), UInt8.ofNat outLen] ++
    [UInt8.ofNat (6 + label.length)] ++ ([0x74, 0x6c, 0x73, 0x31, 0x33, 0x20] ++ label) ++
    [UInt8.ofNat context.length] ++ context

/-- HKDF-Expand-Label. -/
def hkdfExpandLabel : List UInt8 := expand hash prk (hkdfLabel label context outLen) outLen

/-! ## The expansion -/

variable {hash prk info label context outLen} {n okmLen : Nat}

theorem put_ok {size : Nat} {a l : List UInt8} (h : a.length + l.length ≤ size) :
    (put size a l).Ok (· = a ++ l) :=
  ⟨decide_eq_true h, rfl⟩

theorem length_hmac (hhash : ∀ m, (hash m).length = 32) (key msg : List UInt8) :
    (hmac hash key msg).length = 32 := hhash _

theorem length_okmBlock (hhash : ∀ m, (hash m).length = 32) (n : Nat) :
    (okmBlock hash prk info (n + 1)).length = 32 := length_hmac hhash _ _

theorem okmBlocks_succ (n : Nat) :
    okmBlocks hash prk info (n + 1) = okmBlocks hash prk info n ++ okmBlock hash prk info (n + 1) := by
  simp [okmBlocks, range_succ]

theorem length_okmBlocks (hhash : ∀ m, (hash m).length = 32) :
    ∀ n, (okmBlocks hash prk info n).length = 32 * n
  | 0 => rfl
  | n + 1 => by
    rw [okmBlocks_succ, length_append, length_okmBlocks hhash n, length_okmBlock hhash]
    omega

theorem take_okmBlocks (hhash : ∀ m, (hash m).length = 32) {k : Nat} (hk : okmLen ≤ 32 * k)
    (hkn : k ≤ n) : (okmBlocks hash prk info n).take okmLen =
      (okmBlocks hash prk info k).take okmLen := by
  induction n, hkn using Nat.le_induction with
  | base => rfl
  | succ n hkn ih =>
    rw [okmBlocks_succ, take_append_of_le_length, ih]
    rw [length_okmBlocks hhash]
    omega

theorem take_okmBlocks_succ (hhash : ∀ m, (hash m).length = 32) :
    (okmBlocks hash prk info n).take okmLen ++ (okmBlock hash prk info (n + 1)).take
        (if okmLen - 32 * n < 32 then okmLen - 32 * n else 32) =
      (okmBlocks hash prk info (n + 1)).take okmLen := by
  rw [okmBlocks_succ, take_append, length_okmBlocks hhash]
  congr 1
  split
  · rfl
  · have hlen : (okmBlock hash prk info (n + 1)).length = 32 := length_okmBlock hhash n
    rw [take_of_length_le (by omega), take_of_length_le (by omega)]

theorem expandLoop_ok (hhash : ∀ m, (hash m).length = 32) : ∀ (fuel n : Nat) (t : List UInt8),
    t = okmBlock hash prk (info.take 320) n → t.length ≤ 32 → 0 < fuel →
    okmLen < 32 * n + fuel →
    (expandLoop hash prk info okmLen fuel t (UInt8.ofNat (n + 1)) (min (32 * n) okmLen)
      ((okmBlocks hash prk (info.take 320) n).take okmLen)).Ok
      (· = some (expand hash prk (info.take 320) okmLen))
  | 0, _, _, _, _, h0, _ => absurd h0 (Nat.lt_irrefl 0)
  | fuel + 1, n, t, ht, hlen, _, hfuel => by
    have h320 : (info.take 320).length ≤ 320 := length_take_le _ _
    rw [expandLoop]
    refine Ok.ite ?_ ?_
    · intro hlt
      have hdone : min (32 * n) okmLen = 32 * n := by omega
      refine Ok.bind (put_ok (by rw [length_nil]; omega)) ?_
      intro m1 h1
      rw [nil_append] at h1
      refine Ok.bind (put_ok (by rw [h1]; omega)) ?_
      intro m2 h2
      refine Ok.bind (put_ok (by
        rw [h2, h1, length_append, length_singleton]
        omega)) ?_
      intro m3 h3
      have hblock : hmac hash prk m3 = okmBlock hash prk (info.take 320) (n + 1) := by
        rw [okmBlock, h3, h2, h1, ht]
      have hctr : .ofNat (n + 1) + 1 = UInt8.ofNat (n + 1 + 1) :=
        (UInt8.ofNat_add (n + 1) 1).symm
      simp only [hblock, hctr, hdone]
      rw [take_okmBlocks_succ hhash]
      have hnext : 32 * n + (if okmLen - 32 * n < 32 then okmLen - 32 * n else 32) =
          min (32 * (n + 1)) okmLen := by split <;> omega
      rw [hnext]
      exact expandLoop_ok hhash fuel (n + 1) _ rfl (le_of_eq (length_okmBlock hhash n))
        (by omega) (by omega)
    · intro hge
      refine Ok.pure (congrArg some ?_)
      exact take_okmBlocks hhash (by omega) (by omega)

theorem hkdfExpand_ok (hhash : ∀ m, (hash m).length = 32) :
    (hkdfExpand hash prk info okmLen).Ok (· = some (expand hash prk (info.take 320) okmLen)) := by
  have h : (expandLoop hash prk info okmLen (okmLen + 1) [] (.ofNat (0 + 1))
      (min (32 * 0) okmLen) ((okmBlocks hash prk (info.take 320) 0).take okmLen)).Ok
      (· = some (expand hash prk (info.take 320) okmLen)) :=
    expandLoop_ok hhash (okmLen + 1) 0 [] rfl (Nat.zero_le 32) (Nat.succ_pos _) (by omega)
  rw [mul_zero, Nat.zero_min] at h
  unfold hkdfExpand
  simpa [okmBlocks] using h

/-! ## The label -/

theorem length_hkdfLabel :
    (hkdfLabel label context outLen).length = 10 + label.length + context.length := by
  simp only [hkdfLabel, length_append, length_cons, length_nil]
  omega

theorem expandLabel_ok (hhash : ∀ m, (hash m).length = 32) (hlabel : label.length ≤ 64)
    (hcontext : context.length ≤ 255) :
    (tls13HkdfExpandLabel hash prk label context outLen).Ok
      (· = some (expand hash prk ((hkdfLabel label context outLen).take 320) outLen)) := by
  unfold tls13HkdfExpandLabel
  simp only [if_neg (show ¬ 64 < label.length by omega), take_length,
    if_neg (show ¬ 255 < context.length by omega)]
  refine Ok.bind (put_ok (by simp)) ?_
  rintro _ rfl
  refine Ok.bind (put_ok (by simp; omega)) ?_
  rintro _ rfl
  refine Ok.bind (put_ok (by simp)) ?_
  rintro _ rfl
  rw [take_of_length_le (show _ ≤ 6 + label.length by simp; omega)]
  refine Ok.bind (put_ok (by simp; omega)) ?_
  rintro _ rfl
  refine Ok.bind (put_ok (by simp; omega)) ?_
  rintro _ rfl
  refine Ok.bind (put_ok (by simp; omega)) ?_
  rintro _ rfl
  rw [nil_append]
  exact hkdfExpand_ok hhash

/-- A hash that shows in the output of HMAC whether the message had 321 bytes. -/
def tellLength (m : List UInt8) : List UInt8 :=
  if m.length = 96 then (m.drop 64).take 32 else
    if m.length = 385 then List.replicate 32 0 else List.replicate 32 1

theorem length_tellLength (m : List UInt8) : (tellLength m).length = 32 := by
  unfold tellLength
  split
  · simp
    omega
  · split <;> rfl

theorem hmac_tellLength {msg : List UInt8} (hprk : prk.length = 32) (h : msg.length ≠ 32) :
    hmac tellLength prk msg =
      if msg.length = 321 then List.replicate 32 0 else List.replicate 32 1 := by
  have hkey : (prk ++ replicate (64 - prk.length) (0 : UInt8)).length = 64 := by
    simp [hprk]
  have hin : ∀ m : List UInt8, m.length = 64 + msg.length →
      tellLength m = if msg.length = 321 then replicate 32 0 else replicate 32 1 := by
    intro m hm
    unfold tellLength
    rw [if_neg (by omega)]
    by_cases h321 : msg.length = 321
    · rw [if_pos (by omega), if_pos h321]
    · rw [if_neg (by omega), if_neg h321]
  unfold hmac
  simp only [if_neg (show ¬ 64 < prk.length by omega)]
  generalize prk ++ replicate (64 - prk.length) (0 : UInt8) = k at hkey
  rw [hin (k.map (· ^^^ 0x36) ++ msg) (by rw [length_append, length_map, hkey])]
  generalize hinner : (if msg.length = 321 then replicate 32 (0 : UInt8)
    else replicate 32 1) = inner
  have hlen : inner.length = 32 := by
    rw [← hinner]
    split <;> rfl
  have hopad : (k.map (· ^^^ 0x5C)).length = 64 := by rw [length_map, hkey]
  unfold tellLength
  rw [if_pos (by rw [length_append, hopad, hlen]), drop_left' hopad,
    take_of_length_le (le_of_eq hlen)]

theorem head_expand (hhash : ∀ m, (hash m).length = 32) (hpos : 0 < okmLen) :
    (expand hash prk info okmLen).head? = (hmac hash prk (info ++ [1])).head? := by
  have hone : okmBlock hash prk info 1 = hmac hash prk (info ++ [1]) := rfl
  have hlen : (okmBlock hash prk info 1).length = 32 := length_okmBlock hhash 0
  obtain ⟨k, hk⟩ := Nat.exists_eq_succ_of_ne_zero (show (okmLen + 31) / 32 ≠ 0 by omega)
  rw [expand, hk, okmBlocks, range_succ_eq_map, flatMap_cons, ← hone,
    head?_take, if_neg (by omega)]
  cases hblock : okmBlock hash prk info 1 with
  | nil =>
    rw [hblock] at hlen
    cases hlen
  | cons b l => rfl

/-- For every secret, every label of at most 64 characters, every context of at most
255 bytes and every length: no scratch array is exceeded, and the output is HKDF-Expand-Label
under every hash exactly when label and context have at most 310 bytes together or no output is
asked for. Beyond that the last bytes of the context are dropped. -/
theorem expandLabel_ok_iff (prk label context : List UInt8) (outLen : Nat) (hprk : prk.length = 32)
    (hlabel : label.length ≤ 64) (hcontext : context.length ≤ 255) :
    (∀ hash : List UInt8 → List UInt8, (∀ m, (hash m).length = 32) →
      (tls13HkdfExpandLabel hash prk label context outLen).Ok
        (· = some (hkdfExpandLabel hash prk label context outLen))) ↔
      label.length + context.length ≤ 310 ∨ outLen = 0 := by
  have hinfo : (hkdfLabel label context outLen).length = 10 + label.length + context.length :=
    length_hkdfLabel
  constructor
  · intro h
    by_contra hlong
    obtain ⟨hlong, hpos⟩ := not_or.mp hlong
    have hspec := (expandLabel_ok length_tellLength hlabel hcontext).val.symm.trans
      (h tellLength length_tellLength).val
    have hhead := congrArg head? (Option.some.inj hspec)
    rw [hkdfExpandLabel, head_expand length_tellLength (by omega),
      head_expand length_tellLength (by omega), hmac_tellLength hprk, hmac_tellLength hprk,
      if_pos, if_neg] at hhead
    · cases hhead
    all_goals
      simp only [length_append, length_take, length_singleton]
      omega
  · intro h hash hhash
    refine (expandLabel_ok hhash hlabel hcontext).mono ?_
    intro r hr
    rw [hr, hkdfExpandLabel]
    rcases h with h | h
    · rw [take_of_length_le (by omega)]
    · rw [h]
      rfl

theorem expandLabel_ok_iff_short : (∀ hash : List UInt8 → List UInt8, (∀ m, (hash m).length = 32) →
      (tls13HkdfExpandLabel hash (List.replicate 32 0) [0x6b, 0x65, 0x79] [] 16).Ok
        (· = some (hkdfExpandLabel hash (List.replicate 32 0) [0x6b, 0x65, 0x79] [] 16))) ↔
      [(0x6b : UInt8), 0x65, 0x79].length + ([] : List UInt8).length ≤ 310 ∨ 16 = 0 :=
  expandLabel_ok_iff (replicate 32 0) [0x6b, 0x65, 0x79] [] 16 rfl (by decide) (by decide)

/-- With SHA-256: a label of 64 characters and a context of 255 bytes. -/
theorem long_label_differs : ¬ ∀ (prk label context : List UInt8) (outLen : Nat),
    prk.length = 32 → label.length ≤ 64 → context.length ≤ 255 → outLen ≤ 255 * 32 →
    (tls13HkdfExpandLabel sha256 prk label context outLen).val =
      some (hkdfExpandLabel sha256 prk label context outLen) := by
  intro h
  have hne : (tls13HkdfExpandLabel sha256 (replicate 32 0) (replicate 64 0x61)
      (replicate 255 0) 32).val ≠ some (hkdfExpandLabel sha256 (replicate 32 0)
        (replicate 64 0x61) (replicate 255 0) 32) := by
    decide +kernel
  exact hne (h _ _ _ 32 length_replicate (le_of_eq length_replicate)
    (le_of_eq length_replicate) (by decide))

end AdventOS.Crypto.Hkdf
