import AdventOS.Core.BitPoly
import AdventOS.Core.Checked
import AdventOS.Ssh.Codec

/-!
# AES-GCM as the standard defines it

A block is an element of `F₂[x] / (x¹²⁸ + x⁷ + x² + x + 1)`, its first bit the constant term
(`elem`). `IsGhash h aad ct s` is the definition of GHASH over that field: the padded blocks of
both texts and the block of the lengths are the coefficients of a polynomial that is evaluated
at `h`.

`aesGcmEncryptInto` and `aesGcmDecryptInto` are the two functions on arrays, where what is read
may stand in the array that is written.

* `elem_gfMul`: `gf_mul` is the multiplication of the field.
* `isGhash_iff`: `ghash` computes GHASH, and nothing else is.
* `aesGcm_ok`.
-/
namespace AdventOS.Ssh
open List

open Polynomial AdventOS.Acc

/-! ## Bits and bytes -/

theorem byte_bit (b : UInt8) {i : Nat} (hi : i < 8) :
    decide ((b >>> UInt8.ofNat i) &&& 1 = 1) = b.toNat.testBit i := by
  rw [Nat.testBit_eq_decide_div_mod_eq]
  apply decide_eq_decide.mpr
  rw [← UInt8.toNat_inj, UInt8.toNat_and, UInt8.toNat_shiftRight]
  simp only [UInt8.toNat_ofNat', UInt8.toNat_ofNat]
  rw [Nat.mod_eq_of_lt (show i < 2 ^ 8 by omega), Nat.mod_eq_of_lt hi, Nat.shiftRight_eq_div_pow,
    show 1 % 2 ^ 8 = 1 from rfl, Nat.and_one_is_mod]

theorem bitsOf_eq (b : UInt8) : bitsOf b = [7, 6, 5, 4, 3, 2, 1, 0].map b.toNat.testBit := by
  have h := fun i hi => byte_bit b (i := i) hi
  simp only [bitsOf, map_cons, map_nil]
  rw [← h 7, ← h 6, ← h 5, ← h 4, ← h 3, ← h 2, ← h 1, ← h 0] <;> first | rfl | decide

theorem length_bitsOf (b : UInt8) : (bitsOf b).length = 8 := rfl

theorem bitsOf_xor (a b : UInt8) : bitsOf (a ^^^ b) = List.zipWith xor (bitsOf a) (bitsOf b) := by
  simp only [bitsOf_eq, UInt8.toNat_xor, Nat.testBit_xor, map_cons, map_nil,
    zipWith_cons_cons, zipWith_nil_left]

theorem testBit_shift (p b : UInt8) {i : Nat} (hi : i < 8) :
    ((b >>> 1) ||| (p <<< 7)).toNat.testBit i =
      (b.toNat.testBit (i + 1) || decide (7 ≤ i) && p.toNat.testBit (i - 7)) := by
  rw [UInt8.toNat_or, UInt8.toNat_shiftRight, UInt8.toNat_shiftLeft, Nat.testBit_or,
    Nat.testBit_mod_two_pow, decide_eq_true hi, Bool.true_and]
  show ((b.toNat >>> 1).testBit i || (p.toNat <<< 7).testBit i) = _
  rw [Nat.testBit_shiftRight, Nat.testBit_shiftLeft, add_comm 1 i]

theorem bitsOf_shift (p b : UInt8) : bitsOf ((b >>> 1) ||| (p <<< 7)) =
    p.toNat.testBit 0 :: [7, 6, 5, 4, 3, 2, 1].map b.toNat.testBit := by
  have hhigh : b.toNat.testBit 8 = false := Nat.testBit_lt_two_pow b.toNat_lt
  have h := fun i hi => testBit_shift p b (i := i) hi
  simp only [bitsOf_eq, map_cons, map_nil]
  rw [h 7 (by decide), h 6 (by decide), h 5 (by decide), h 4 (by decide), h 3 (by decide),
    h 2 (by decide), h 1 (by decide), h 0 (by decide), hhigh]
  simp

theorem bitsOf_injective {a b : UInt8} (h : bitsOf a = bitsOf b) : a = b := by
  simp only [bitsOf_eq, map_cons, map_nil, cons.injEq] at h
  apply UInt8.toNat_inj.mp
  apply Nat.eq_of_testBit_eq
  intro i
  by_cases hi : i < 8
  · interval_cases i <;> simp only [h]
  · have hpow : 2 ^ 8 ≤ 2 ^ i := Nat.pow_le_pow_right (by omega) (by omega)
    rw [Nat.testBit_lt_two_pow (a.toNat_lt.trans_le hpow),
      Nat.testBit_lt_two_pow (b.toNat_lt.trans_le hpow)]

theorem flatMap_bitsOf_injective : ∀ {a b : Bytes}, a.length = b.length →
    a.flatMap bitsOf = b.flatMap bitsOf → a = b
  | [], [], _, _ => rfl
  | x :: a, y :: b, hlen, h => by
    obtain ⟨hx, ha⟩ := append_inj h (length_bitsOf x)
    rw [bitsOf_injective hx, flatMap_bitsOf_injective (Nat.succ.inj hlen) ha]

/-! ## Multiplication -/

section Ring

variable {R : Type*} [CommRing R] (α : R)

/-- The value of a block at `α`. -/
def valueAt (l : Bytes) : R := bitsAt α (l.flatMap bitsOf)

theorem valueAt_cons (b : UInt8) (l : Bytes) :
    valueAt α (b :: l) = bitsAt α (bitsOf b) + α ^ 8 * valueAt α l :=
  bitsAt_append α (bitsOf b) (l.flatMap bitsOf)

def lowBit (b : UInt8) : R := if b.toNat.testBit 0 then 1 else 0

theorem bitsAt_shift (p b : UInt8) :
    bitsAt α (bitsOf ((b >>> 1) ||| (p <<< 7))) + lowBit b * α ^ 8 =
      lowBit p + α * bitsAt α (bitsOf b) := by
  rw [bitsOf_shift, bitsOf_eq]
  simp only [bitsAt, map_cons, map_nil, lowBit]
  ring

theorem valueAt_shift : ∀ (p : UInt8) (v : Bytes),
    valueAt α (List.zipWith (fun prev b : UInt8 => (b >>> 1) ||| (prev <<< 7))
        (p :: v.dropLast) v) + lowBit (v.getLastD p) * α ^ (8 * v.length) =
      lowBit p + α * valueAt α v
  | p, [] => by simp [valueAt, bitsAt]
  | p, [b] => by
    have h := bitsAt_shift α p b
    simpa [valueAt_cons, valueAt, bitsAt] using h
  | p, b :: c :: l => by
    have hb := bitsAt_shift α p b
    have ih := valueAt_shift b (c :: l)
    rw [dropLast_cons_cons, zipWith_cons_cons, valueAt_cons, valueAt_cons α b,
      getLastD_cons, length_cons, mul_add, pow_add]
    linear_combination hb + α ^ 8 * ih

variable {α}

theorem valueAt_gfShift (h2 : (2 : R) = 0) (hα : α ^ 128 = α ^ 7 + α ^ 2 + α + 1) {v : Bytes}
    (hv : v.length = 16) : valueAt α (gfShift v) = α * valueAt α v := by
  have h := valueAt_shift α 0 v
  have h0 : lowBit (R := R) 0 = 0 := if_neg (by decide)
  have hlow := byte_bit (v.getLastD 0) (i := 0) (by decide)
  rw [hv, h0, zero_add, hα] at h
  unfold gfShift
  obtain ⟨b, l, rfl⟩ := exists_cons_of_length_eq_add_one hv
  rw [zipWith_cons_cons] at h ⊢
  generalize zipWith _ _ l = w at h ⊢
  generalize ((b >>> 1) ||| ((0 : UInt8) <<< 7)) = c at h ⊢
  by_cases hbit : ((b :: l).getLastD 0).toNat.testBit 0 = true
  · have hone : lowBit (R := R) ((b :: l).getLastD 0) = 1 := if_pos hbit
    have he1 : bitsAt α (bitsOf 0xE1) = α ^ 7 + α ^ 2 + α + 1 := by
      rw [show bitsOf 0xE1 = [true, true, true, false, false, false, false, true] from rfl]
      simp [bitsAt]
      ring
    rw [if_pos (by rw [← hlow] at hbit; exact of_decide_eq_true hbit), headD_cons,
      tail_cons, valueAt_cons, bitsOf_xor,
      bitsAt_xor h2 α ((length_bitsOf c).trans (length_bitsOf 0xE1).symm), he1]
    rw [hone, valueAt_cons] at h
    linear_combination h
  · have hzero : lowBit (R := R) ((b :: l).getLastD 0) = 0 := if_neg hbit
    rw [if_neg (by rw [← hlow] at hbit; exact fun h => hbit (decide_eq_true h))]
    rw [hzero] at h
    linear_combination h

theorem valueAt_map_xor (h2 : (2 : R) = 0) (f g : Nat → UInt8) : ∀ l : List Nat,
    valueAt α (l.map fun i => f i ^^^ g i) = valueAt α (l.map f) + valueAt α (l.map g)
  | [] => (add_zero 0).symm
  | i :: l => by
    rw [map_cons, map_cons, map_cons, valueAt_cons, valueAt_cons, valueAt_cons,
      valueAt_map_xor h2 f g l, bitsOf_xor,
      bitsAt_xor h2 α ((length_bitsOf (f i)).trans (length_bitsOf (g i)).symm)]
    ring

theorem valueAt_zeros : ∀ n : Nat, valueAt α (List.replicate n 0) = 0
  | 0 => rfl
  | n + 1 => by
    have hbyte : bitsOf 0 = [false, false, false, false, false, false, false, false] := rfl
    rw [replicate_succ, valueAt_cons, valueAt_zeros n, hbyte]
    simp [bitsAt]

/-- Sixteen bytes, zeros where `d` has fewer. -/
def padBlock (d : Bytes) : Bytes := (List.range 16).map fun i => d.getD i 0

theorem padBlock_self {d : Bytes} (h : d.length = 16) : padBlock d = d := by
  refine ext_getElem (by simp [padBlock, h]) ?_
  intro i hi hi'
  simp [padBlock, hi']

theorem valueAt_xor16 (h2 : (2 : R) = 0) {a : Bytes} (ha : a.length = 16) (b : Bytes) :
    valueAt α (xor16 a b) = valueAt α a + valueAt α (padBlock b) := by
  conv_rhs => rw [← padBlock_self ha]
  exact valueAt_map_xor h2 (fun i => a.getD i 0) (fun i => b.getD i 0) (range 16)

theorem length_gfShift {v : Bytes} (hv : v.length = 16) : (gfShift v).length = 16 := by
  unfold gfShift
  split <;> simp [hv]

theorem gfMul_step (h2 : (2 : R) = 0) (hα : α ^ 128 = α ^ 7 + α ^ 2 + α + 1) :
    ∀ (bits : List Bool) (z v : Bytes), z.length = 16 → v.length = 16 →
      let r := (bits.foldl (fun zv bit => (if bit then xor16 zv.1 zv.2 else zv.1, gfShift zv.2))
        (z, v)).1
      r.length = 16 ∧ valueAt α r = valueAt α z + bitsAt α bits * valueAt α v
  | [], z, v, hz, _ => ⟨hz, by simp [bitsAt]⟩
  | b :: bits, z, v, hz, hv => by
    have hz' : (if b then xor16 z v else z).length = 16 := by
      split
      · exact length_xor16 z v
      · exact hz
    have ih := gfMul_step h2 hα bits (if b then xor16 z v else z) (gfShift v) hz'
      (length_gfShift hv)
    refine ⟨ih.1, ih.2.trans ?_⟩
    rw [valueAt_gfShift h2 hα hv, bitsAt]
    cases b with
    | true =>
      rw [if_pos rfl, if_pos rfl, valueAt_xor16 h2 hz, padBlock_self hv]
      ring
    | false =>
      rw [if_neg Bool.false_ne_true, if_neg Bool.false_ne_true]
      ring

end Ring

/-! ## The field -/

/-- The polynomial of the standard. -/
noncomputable def gcmPoly : (ZMod 2)[X] := X ^ 128 + X ^ 7 + X ^ 2 + X + 1

abbrev GF128 : Type := AdjoinRoot gcmPoly

theorem gcmPoly_monic : gcmPoly.Monic := by
  unfold gcmPoly
  monicity!

theorem natDegree_gcmPoly : gcmPoly.natDegree = 128 := by
  unfold gcmPoly
  compute_degree!

theorem two_eq_zero : (2 : GF128) = 0 := by
  have h : (algebraMap (ZMod 2) GF128) 2 = (algebraMap (ZMod 2) GF128) 0 := congrArg _ (by decide)
  rwa [map_ofNat, map_zero] at h

theorem gcmPoly_eq : gcmPoly = X ^ 128 + X ^ 7 + X ^ 2 + X + 1 := by
  unfold gcmPoly
  rfl

theorem root_pow : AdjoinRoot.root gcmPoly ^ 128 = AdjoinRoot.root gcmPoly ^ 7 +
    AdjoinRoot.root gcmPoly ^ 2 + AdjoinRoot.root gcmPoly + 1 := by
  have h2 := two_eq_zero
  have h := congrArg (AdjoinRoot.mk gcmPoly) gcmPoly_eq
  rw [AdjoinRoot.mk_self] at h
  simp only [map_add, map_pow, map_one, AdjoinRoot.mk_X] at h
  generalize AdjoinRoot.root gcmPoly = r at h ⊢
  linear_combination -h - (r ^ 7 + r ^ 2 + r + 1) * h2

/-- The element that a block of sixteen bytes stands for. -/
noncomputable def elem (b : Bytes) : GF128 := valueAt (AdjoinRoot.root gcmPoly) b

theorem elem_injective {a b : Bytes} (ha : a.length = 16) (hb : b.length = 16)
    (h : elem a = elem b) : a = b := by
  have hlen : ∀ l : Bytes, (l.flatMap bitsOf).length = 8 * l.length := by
    intro l
    induction l with
    | nil => rfl
    | cons c l ih =>
      rw [flatMap_cons, length_append, length_bitsOf, ih, length_cons]
      omega
  refine flatMap_bitsOf_injective (ha.trans hb.symm) (bitsAt_injective gcmPoly_monic ?_ ?_ h)
  · rw [hlen, ha, natDegree_gcmPoly]
  · rw [hlen, hb, natDegree_gcmPoly]

theorem elem_xor16 {a : Bytes} (ha : a.length = 16) (b : Bytes) :
    elem (xor16 a b) = elem a + elem (padBlock b) := valueAt_xor16 two_eq_zero ha b

theorem elem_gfMul (x : Bytes) {y : Bytes} (hy : y.length = 16) :
    (gfMul x y).length = 16 ∧ elem (gfMul x y) = elem x * elem y := by
  have h := gfMul_step two_eq_zero root_pow (x.flatMap bitsOf) (replicate 16 0) y
    length_replicate hy
  rw [valueAt_zeros, zero_add] at h
  exact h

/-! ## GHASH -/

/-- The blocks of a text, the last one padded with zeros. -/
def blocksOf (data : Bytes) : List Bytes :=
  (List.range ((data.length + 15) / 16)).map fun i => padBlock ((data.drop (16 * i)).take 16)

theorem blocksOf_ne_nil {data : Bytes} (h : data ≠ []) :
    blocksOf data = padBlock (data.take 16) :: blocksOf (data.drop 16) := by
  have hpos := length_pos_iff.mpr h
  have hlen : (data.length + 15) / 16 = ((data.drop 16).length + 15) / 16 + 1 := by
    rw [length_drop]
    omega
  unfold blocksOf
  rw [hlen, range_succ_eq_map, map_cons, map_map]
  congr 1
  apply map_congr_left
  intro i _
  simp only [Function.comp, drop_drop]
  rw [Nat.mul_succ, add_comm]

/-- GHASH of the two texts under the block `h`, as the standard defines it. -/
def IsGhash (h aad ct s : Bytes) : Prop :=
  s.length = 16 ∧ elem s = powerSum (elem h) ((blocksOf aad ++ blocksOf ct ++
    [be64 (aad.length * 8) ++ be64 (ct.length * 8)]).map elem)

variable {h : Bytes}

theorem ghashBlocks_ok (hh : h.length = 16) : ∀ (n : Nat) (y data : Bytes), y.length = 16 →
    data.length ≤ n → (ghashBlocks h n y data).length = 16 ∧ elem (ghashBlocks h n y data) =
      ((blocksOf data).map elem).foldl (fun s b => (s + b) * elem h) (elem y)
  | 0, y, data, hy, hle => by
    obtain rfl : data = [] := length_eq_zero_iff.mp (Nat.le_zero.mp hle)
    exact ⟨hy, rfl⟩
  | n + 1, y, data, hy, hle => by
    rw [ghashBlocks]
    by_cases hdata : data = []
    · rw [if_pos hdata, hdata]
      exact ⟨hy, rfl⟩
    · obtain ⟨hlen, hmul⟩ := elem_gfMul (xor16 y (data.take 16)) hh
      have hpos := length_pos_iff.mpr hdata
      rw [if_neg hdata, blocksOf_ne_nil hdata, map_cons, foldl_cons, ← elem_xor16 hy, ← hmul]
      exact ghashBlocks_ok hh n _ _ hlen (by rw [length_drop]; omega)

theorem length_be64 (n : Nat) : (be64 n).length = 8 := rfl

theorem isGhash_ghash (hh : h.length = 16) (aad ct : Bytes) : IsGhash h aad ct (ghash h aad ct) := by
  have h0 : elem (replicate 16 0) = 0 := valueAt_zeros 16
  obtain ⟨ha, haval⟩ := ghashBlocks_ok hh aad.length (replicate 16 0) aad
    length_replicate le_rfl
  obtain ⟨hc, hcval⟩ := ghashBlocks_ok hh ct.length _ ct ha le_rfl
  have hlen : (be64 (aad.length * 8) ++ be64 (ct.length * 8)).length = 16 := by
    rw [length_append, length_be64, length_be64]
  obtain ⟨hg, hgval⟩ := elem_gfMul
    (xor16 (ghashBlocks h ct.length (ghashBlocks h aad.length (replicate 16 0) aad) ct)
      (be64 (aad.length * 8) ++ be64 (ct.length * 8))) hh
  refine ⟨hg, hgval.trans ?_⟩
  have hsum := foldl_powerSum (elem h) ((blocksOf aad ++ blocksOf ct ++
    [be64 (aad.length * 8) ++ be64 (ct.length * 8)]).map elem) 0
  rw [zero_mul, zero_add, map_append, map_append, foldl_append, foldl_append] at hsum
  rw [map_append, map_append, ← hsum, elem_xor16 hc, padBlock_self hlen, hcval, haval, h0]
  rfl

/-- `ghash` is the only GHASH there is. -/
theorem isGhash_iff (hh : h.length = 16) {aad ct s : Bytes} :
    IsGhash h aad ct s ↔ s = ghash h aad ct := by
  constructor
  · intro hs
    have hg := isGhash_ghash hh aad ct
    exact elem_injective hs.1 hg.1 (hs.2.trans hg.2.symm)
  · rintro rfl
    exact isGhash_ghash hh aad ct

/-! ## On arrays -/

/-- Where the text stands: in an array of its own, or in the one that is written. -/
inductive Source where
  | apart (text : Nat → UInt8)
  | shared

/-- What is read when `out` is what has been written. -/
def Source.now (out : Nat → UInt8) : Source → Nat → UInt8
  | apart text => text
  | shared => out

/-- The state of the loop over the blocks. -/
structure CtrState where
  off : Nat
  ctr : Block
  out : Nat → UInt8

/-- What a call leaves: the array written, and the tag or whether the tag was right. -/
structure GcmResult (α : Type) where
  out : Nat → UInt8
  tag : α

section Arrays

variable (aes : Key → Block → Block) (key : Key) (iv : IV) (src : Source) (len : Nat)

/-- gcm.c:120-129 and 176-185 -/
def ctrStep (s : CtrState) : Acc CtrState := do
  let ks := aes key s.ctr
  let take := if 16 < len - s.off then 16 else len - s.off
  let out ← up take s.out fun i out => do
    let x ← load len (src.now out) (s.off + i)
    store len out (s.off + i) (x ^^^ ks.1.getD i 0)
  pure ⟨s.off + take, inc32 s.ctr, out⟩

def ctrInto (out : Nat → UInt8) : Acc (Nat → UInt8) := do
  let s ← repeatWhile (fun s => pure (s.off < len)) (ctrStep aes key src len) (len + 1)
    ⟨0, inc32 (j0 iv), out⟩
  pure s.out

def textOf (f : Nat → UInt8) : Bytes := (List.range len).map f

/-- gcm.c:96-137 -/
def aesGcmEncryptInto (aad : Bytes) (out : Nat → UInt8) : Acc (GcmResult Bytes) := do
  let out ← ctrInto aes key iv src len out
  pure ⟨out, gcmTag aes key iv aad (textOf len out)⟩

/-- The tag is looked at before anything is written.
gcm.c:139-186 -/
def aesGcmDecryptInto (aad tag : Bytes) (out : Nat → UInt8) : Acc (GcmResult Bool) := do
  let ok : Bool := gcmTag aes key iv aad (textOf len (src.now out)) = tag
  let out ← ctrInto aes key iv src len out
  pure ⟨out, ok⟩

end Arrays

section Stream

variable {aes : Key → Block → Block} {key : Key} {iv : IV} {src : Source} {len : Nat}

/-- The byte of the key stream at `j`. -/
def padAt (aes : Key → Block → Block) (key : Key) (iv : IV) (j : Nat) : UInt8 :=
  (aes key (inc32^[j / 16 + 1] (j0 iv))).1.getD (j % 16) 0

/-- The loop before the byte `s.off`. -/
def CtrInv (aes : Key → Block → Block) (key : Key) (iv : IV) (src : Source) (len : Nat)
    (out : Nat → UInt8) (s : CtrState) : Prop :=
  (s.off < len → s.off % 16 = 0 ∧ s.ctr = inc32^[s.off / 16 + 1] (j0 iv)) ∧ s.off ≤ len ∧
    (∀ j, j < s.off → s.out j = src.now out j ^^^ padAt aes key iv j) ∧
    ∀ j, s.off ≤ j → src.now s.out j = src.now out j

theorem Source.now_update {out : Nat → UInt8} {i j : Nat} (h : j ≠ i) (x : UInt8) :
    src.now (Function.update out i x) j = src.now out j := by
  cases src with
  | apart text => rfl
  | shared => exact Function.update_of_ne h x out

theorem ctrStep_ok {out : Nat → UInt8} {s : CtrState} (h : CtrInv aes key iv src len out s)
    (hlt : s.off < len) : (ctrStep aes key src len s).Ok fun t =>
      CtrInv aes key iv src len out t ∧ len - t.off < len - s.off := by
  obtain ⟨hnext, _, hdone, hrest⟩ := h
  obtain ⟨hmod, hctr⟩ := hnext hlt
  unfold ctrStep
  generalize htake : (if 16 < len - s.off then 16 else len - s.off) = take
  have htake : take = min 16 (len - s.off) := by
    rw [← htake]
    split <;> omega
  refine Ok.bind (up_ok (fun i (o : Nat → UInt8) =>
    (∀ j, j < s.off + i → o j = src.now out j ^^^ padAt aes key iv j) ∧
      ∀ j, s.off + i ≤ j → src.now o j = src.now out j) ⟨hdone, hrest⟩ ?_) ?_
  · intro i o hi ⟨ho, hkeep⟩
    refine Ok.bind (load_ok (by omega)) ?_
    intro x hx
    refine (store_ok (by omega)).mono ?_
    intro o' ho'
    rw [hkeep _ le_rfl] at hx
    have hpad : padAt aes key iv (s.off + i) = (aes key s.ctr).1.getD i 0 := by
      rw [padAt, hctr, show (s.off + i) / 16 = s.off / 16 by omega,
        show (s.off + i) % 16 = i by omega]
    refine ⟨?_, ?_⟩
    · intro j hj
      by_cases hji : j = s.off + i
      · rw [ho', hji, Function.update_self, hx, hpad]
      · rw [ho', Function.update_of_ne hji]
        exact ho j (by omega)
    · intro j hj
      rw [ho', Source.now_update (by omega)]
      exact hkeep j (by omega)
  · intro o ⟨ho, hkeep⟩
    refine Ok.pure ⟨⟨?_, ?_, ho, hkeep⟩, ?_⟩
    · intro hmore
      have hmore : s.off + take < len := hmore
      refine ⟨show (s.off + take) % 16 = 0 by omega, ?_⟩
      rw [hctr, show (s.off + take) / 16 = s.off / 16 + 1 by omega,
        Function.iterate_succ_apply' inc32 (s.off / 16 + 1)]
    · show s.off + take ≤ len
      omega
    · show len - (s.off + take) < len - s.off
      omega

theorem ctrInto_ok (out : Nat → UInt8) : (ctrInto aes key iv src len out).Ok fun o =>
    ∀ j, j < len → o j = src.now out j ^^^ padAt aes key iv j := by
  have hstart : CtrInv aes key iv src len out ⟨0, inc32 (j0 iv), out⟩ := by
    refine ⟨fun _ => ⟨rfl, ?_⟩, Nat.zero_le len, ?_, fun _ _ => rfl⟩
    · rw [Nat.zero_div, zero_add, Function.iterate_one]
    · intro j hj
      exact absurd hj (Nat.not_lt_zero j)
  refine Ok.bind (repeatWhile_ok (P := CtrInv aes key iv src len out) (C := fun s => s.off < len)
    (fun s => len - s.off) (fun s _ => Ok.pure decide_eq_true_iff)
    (fun s hs hlt => ctrStep_ok hs hlt) hstart (Nat.lt_succ_of_le (Nat.sub_le _ _))) ?_
  intro s ⟨⟨_, _, hdone, _⟩, hend⟩
  exact Ok.pure fun j hj => hdone j (by omega)

theorem getElem?_ctrLoop : ∀ (n : Nat) (ctr : Block) (l : Bytes) (j : Nat), l.length ≤ 16 * n →
    (ctrLoop aes key n ctr l)[j]? =
      l[j]?.map (· ^^^ (aes key (inc32^[j / 16] ctr)).1.getD (j % 16) 0)
  | 0, ctr, l, j, hl => by
    obtain rfl : l = [] := length_eq_zero_iff.mp (by omega)
    rfl
  | n + 1, ctr, l, j, hl => by
    have hks := (aes key ctr).2
    have ih := getElem?_ctrLoop n (inc32 ctr) (l.drop 16) (j - 16) (by rw [length_drop]; omega)
    have hlen : (zipWith (· ^^^ ·) (l.take 16) (aes key ctr).1).length = min 16 l.length := by
      rw [length_zipWith, hks, length_take]
      omega
    rw [ctrLoop, getElem?_append, hlen]
    split
    · rw [Nat.div_eq_of_lt (by omega), Nat.mod_eq_of_lt (by omega)]
      simp [show j < 16 by omega, show j < l.length by omega,
        show j < (aes key ctr).1.length by omega]
    · rename_i hj
      by_cases hfull : 16 ≤ l.length
      · rw [min_eq_left hfull] at hj ⊢
        rw [ih, getElem?_drop, show 16 + (j - 16) = j by omega, show j % 16 = (j - 16) % 16 by omega,
          show j / 16 = (j - 16) / 16 + 1 by omega, Function.iterate_succ_apply]
      · have hnil : ctrLoop aes key n (inc32 ctr) (l.drop 16) = [] :=
          length_eq_zero_iff.mp (by rw [length_ctrLoop _ _ _ _ _ (by simp; omega)]; simp; omega)
        rw [hnil, getElem?_nil, getElem?_eq_none (by omega)]
        rfl

theorem ctrInto_eq (out : Nat → UInt8) : (ctrInto aes key iv src len out).Ok fun o =>
    textOf len o = ctrCrypt aes key iv (textOf len (src.now out)) := by
  refine (ctrInto_ok out).mono ?_
  intro o ho
  apply ext_getElem?
  intro j
  rw [ctrCrypt, getElem?_ctrLoop _ _ _ _ (by omega)]
  by_cases hj : j < len
  · simp [textOf, hj, ho j hj, padAt, Function.iterate_succ_apply]
  · simp [textOf, hj]

theorem textOf_congr {f g : Nat → UInt8} (h : ∀ j, j < len → f j = g j) :
    textOf len f = textOf len g :=
  map_congr_left fun j hj => h j (mem_range.mp hj)

end Stream

/-- What the two functions promise for a text of `len` bytes read from `src`. -/
structure GcmCorrect (aes : Key → Block → Block) (key : Key) (iv : IV) (aad : Bytes) (src : Source)
    (len : Nat) (out : Nat → UInt8) : Prop where
  /-- What is encrypted is decrypted again, wherever it is read and written. -/
  roundTrip : (aesGcmEncryptInto aes key iv src len aad out).Ok fun e =>
    ∀ (src' : Source) (out' : Nat → UInt8), (∀ j, j < len → src'.now out' j = e.out j) →
      (aesGcmDecryptInto aes key iv src' len aad e.tag out').Ok fun d =>
        d.tag = true ∧ ∀ j, j < len → d.out j = src.now out j
  /-- The one tag that is accepted is that of the standard. -/
  accepts : ∀ tag : Block, (aesGcmDecryptInto aes key iv src len aad tag.1 out).Ok fun d =>
    d.tag = true ↔ ∃ s, IsGhash (aes key zeroBlock).1 aad (textOf len (src.now out)) s ∧
      tag.1 = xor16 s (aes key (j0 iv)).1

/-- For every block cipher: `gf_mul` is the multiplication of the field, decryption
undoes encryption whatever the lengths and wherever the texts stand, and it returns 0 exactly for
the tag that the standard defines. -/
theorem aesGcm_ok (aes : Key → Block → Block) (key : Key) (iv : IV) (aad : Bytes) (src : Source)
    (len : Nat) (out : Nat → UInt8) :
    (∀ x y : Block, elem (gfMul x.1 y.1) = elem x.1 * elem y.1) ∧
      GcmCorrect aes key iv aad src len out := by
  refine ⟨fun x y => (elem_gfMul x.1 y.2).2, ?_, ?_⟩
  · refine Ok.bind (ctrInto_ok out) ?_
    intro ct hct
    refine Ok.pure ?_
    intro src' out' hsame
    refine Ok.bind (ctrInto_ok out') ?_
    intro pt hpt
    refine Ok.pure ⟨decide_eq_true ?_, ?_⟩
    · rw [textOf_congr hsame]
    · intro j hj
      show pt j = _
      have hsame : src'.now out' j = ct j := hsame j hj
      rw [hpt j hj, hsame, hct j hj, UInt8.xor_assoc, UInt8.xor_self, UInt8.xor_zero]
  · intro tag
    refine Ok.bind (ctrInto_ok out) ?_
    intro pt _
    refine Ok.pure ?_
    rw [decide_eq_true_iff]
    constructor
    · intro htag
      exact ⟨_, isGhash_ghash (aes key zeroBlock).2 _ _, htag.symm⟩
    · rintro ⟨s, hs, htag⟩
      rw [htag, (isGhash_iff (aes key zeroBlock).2).mp hs]
      rfl

end AdventOS.Ssh
