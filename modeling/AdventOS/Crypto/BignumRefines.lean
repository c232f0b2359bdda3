import AdventOS.Crypto.Rsa

/-!
# Bignum arithmetic refines the naturals

A caller of `bn_add` and `bn_sub` may let the result go where an operand is. The loops are
written here with that choice (`Target`): the array written starts with what it held, and an
operand that is overwritten is read from it.

* `bnAddTo_eq`, `bnSubTo_eq`: the choice makes no difference, to the result or to the accesses.
* `bignum_refines`: every operation on well-formed numbers stays inside its arrays and yields a
  well-formed number, the one of the naturals whenever that and the products on the way fit.
-/
namespace AdventOS.Crypto
open Function

open AdventOS.Acc

/-- Where a result goes: an array of its own, whatever it holds, or one of the operands'. -/
inductive Target where
  | fresh (v : Nat → UInt32)
  | left
  | right

namespace Target

/-- What the array holds before the loop. -/
def start (a b : Bignum) : Target → Nat → UInt32
  | fresh v => v
  | left => a.v
  | right => b.v

/-- Where the loop reads the left operand, when the result stands at `v`. -/
def leftNow (a : Bignum) (v : Nat → UInt32) : Target → Nat → UInt32
  | left => v
  | _ => a.v

def rightNow (b : Bignum) (v : Nat → UInt32) : Target → Nat → UInt32
  | right => v
  | _ => b.v

end Target

/-- bignum.c:120-134 -/
def bnAddTo (o : Target) (a b : Bignum) : Acc Bignum := do
  let n := if b.n < a.n then a.n else b.n
  let s ← up n (⟨o.start a b, 0⟩ : Sweep UInt64) fun i s => do
    let x ← load bnMaxLimbs (o.leftNow a s.v) i
    let y ← load bnMaxLimbs (o.rightNow b s.v) i
    let sum := x.toUInt64 + y.toUInt64 + s.carry
    let v ← store bnMaxLimbs s.v i sum.toUInt32
    pure ⟨v, sum >>> 32⟩
  let r ← (if s.carry ≠ 0 then do
      let v ← store bnMaxLimbs s.v n s.carry.toUInt32
      pure ⟨v, n + 1⟩
    else pure ⟨s.v, n⟩)
  bnTrim (bnClearHigh r)

/-- bignum.c:136-156 -/
def bnSubTo (o : Target) (a b : Bignum) : Acc (Option Bignum) := do
  let c ← bnCmp a b
  if c = .lt then pure none else do
    let s ← up a.n (⟨o.start a b, 0⟩ : Sweep Int) fun i s => do
      let x ← load bnMaxLimbs (o.leftNow a s.v) i
      let y ← load bnMaxLimbs (o.rightNow b s.v) i
      let diff := (x.toNat : Int) - (y.toNat : Int) - s.carry
      let v ← store bnMaxLimbs s.v i (UInt32.ofNat (if diff < 0 then diff + 2 ^ 32 else diff).toNat)
      pure ⟨v, if diff < 0 then 1 else 0⟩
    let r ← bnTrim (bnClearHigh ⟨s.v, a.n⟩)
    pure (some r)

/-! ## The result does not depend on where it goes -/

variable {a b : Bignum} {o : Target} {C : Type}

theorem Target.leftNow_eq {v : Nat → UInt32} {i : Nat} (h : v i = o.start a b i) :
    o.leftNow a v i = a.v i := by
  cases o with
  | left => exact h
  | fresh w => rfl
  | right => rfl

theorem Target.rightNow_eq {v : Nat → UInt32} {i : Nat} (h : v i = o.start a b i) :
    o.rightNow b v i = b.v i := by
  cases o with
  | right => exact h
  | fresh w => rfl
  | left => rfl

/-- Two runs of a loop over limbs after `i` steps: the same carry and the same limbs written,
the others still as they were. -/
def Alike (v w : Nat → UInt32) (i : Nat) (s t : Sweep C) : Prop :=
  s.carry = t.carry ∧ (∀ k, k < i → s.v k = t.v k) ∧
    (∀ k, i ≤ k → s.v k = v k) ∧ ∀ k, i ≤ k → t.v k = w k

theorem update_agree {v w : Nat → UInt32} {n : Nat} (h : ∀ k, k < n → v k = w k) (x : UInt32)
    (k : Nat) (hk : k < n + 1) : update v n x k = update w n x k := by
  rw [update_apply, update_apply]
  by_cases hkn : k = n
  · rw [if_pos hkn, if_pos hkn]
  · rw [if_neg hkn, if_neg hkn]
    exact h k (by omega)

theorem Alike.store {v w : Nat → UInt32} {i : Nat} {s t : Sweep C} (h : Alike v w i s t)
    (x : UInt32) (c : C) : Both (Alike v w (i + 1))
      (store bnMaxLimbs s.v i x >>= fun u => pure (⟨u, c⟩ : Sweep C))
      (store bnMaxLimbs t.v i x >>= fun u => pure (⟨u, c⟩ : Sweep C)) := by
  obtain ⟨_, hdone, hs, ht⟩ := h
  refine ⟨rfl, rfl, update_agree hdone x, ?_, ?_⟩
  · intro k hk
    show update s.v i x k = v k
    rw [update_apply, if_neg (by omega)]
    exact hs k (by omega)
  · intro k hk
    show update t.v i x k = w k
    rw [update_apply, if_neg (by omega)]
    exact ht k (by omega)

theorem bnClearHigh_congr {v w : Nat → UInt32} {n : Nat} (h : ∀ k, k < n → v k = w k) :
    bnClearHigh ⟨v, n⟩ = bnClearHigh ⟨w, n⟩ := by
  refine congrArg (fun u => (⟨u, n⟩ : Bignum)) (funext fun k => ?_)
  show (if n ≤ k then 0 else v k) = if n ≤ k then 0 else w k
  split
  · rfl
  · exact h k (by omega)

theorem bnAddTo_eq (o : Target) (a b : Bignum) : bnAddTo o a b = bnAdd a b := by
  apply Both.eq
  generalize (if b.n < a.n then a.n else b.n) = n
  refine Both.bind (up_both (Alike (o.start a b) bnZero.v) ⟨rfl, fun k hk => by omega,
    fun _ _ => rfl, fun _ _ => rfl⟩ ?_) ?_
  · intro i s t hi h
    have hstart := h.2.2.1 i (le_refl i)
    have hx := Target.leftNow_eq (a := a) hstart
    have hy := Target.rightNow_eq (b := b) hstart
    refine Both.bind (R := fun x y => x = y) ⟨rfl, hx⟩ ?_
    rintro x _ rfl
    refine Both.bind (R := fun x y => x = y) ⟨rfl, hy⟩ ?_
    rintro y _ rfl
    rw [← h.1]
    exact h.store _ _
  · intro s t ⟨hc, hdone, _, _⟩
    rw [← hc]
    refine Both.bind (R := fun r r' => bnClearHigh r = bnClearHigh r') ?_ ?_
    · by_cases h0 : s.carry ≠ 0
      · rw [if_pos h0, if_pos h0]
        exact ⟨rfl, bnClearHigh_congr (update_agree hdone _)⟩
      · rw [if_neg h0, if_neg h0]
        exact ⟨rfl, bnClearHigh_congr hdone⟩
    · intro r r' hr
      rw [hr]
      exact ⟨rfl, rfl⟩

theorem bnSubTo_eq (o : Target) (a b : Bignum) : bnSubTo o a b = bnSub a b := by
  apply Both.eq
  refine Both.bind (R := fun c c' => c = c') ⟨rfl, rfl⟩ ?_
  rintro c _ rfl
  by_cases hlt : c = .lt
  · simp only [if_pos hlt]
    exact ⟨rfl, rfl⟩
  · simp only [if_neg hlt]
    refine Both.bind (up_both (Alike (o.start a b) a.v) ⟨rfl, fun k hk => by omega,
      fun _ _ => rfl, fun _ _ => rfl⟩ ?_) ?_
    · intro i s t hi h
      have hstart := h.2.2.1 i (le_refl i)
      have hx := (Target.leftNow_eq (a := a) hstart).trans (h.2.2.2 i (le_refl i)).symm
      have hy := Target.rightNow_eq (b := b) hstart
      refine Both.bind (R := fun x y => x = y) ⟨rfl, hx⟩ ?_
      rintro x _ rfl
      refine Both.bind (R := fun x y => x = y) ⟨rfl, hy⟩ ?_
      rintro y _ rfl
      rw [← h.1]
      exact h.store _ _
    · intro s t ⟨_, hdone, _, _⟩
      rw [bnClearHigh_congr hdone]
      exact ⟨rfl, rfl⟩

/-! ## All operations -/

/-- What every operation on four numbers promises, `o` being where a sum or a difference goes:
no access outside the arrays, a well-formed result, and the one of the naturals where that, and
every product on the way to a power, fits 144 limbs. -/
structure Refines (a b m e : Bignum) (o : Target) : Prop where
  fromBytes : ∀ (buf : Buf) (off n : Nat), off + n ≤ buf.n →
    (bnFromBytesBe buf off n).Ok fun r => r.WF ∧
      (bytesNat (fun i => buf.mem (off + i)) n < bnLimit →
        r.val = bytesNat (fun i => buf.mem (off + i)) n)
  toBytes : ∀ (size n : Nat) (buf : Nat → UInt8), n ≤ size →
    (bnToBytesBe a size buf n).Ok fun out =>
      (a.val < 2 ^ (8 * n) → bytesNat out n = a.val) ∧ ∀ i, n ≤ i → out i = buf i
  add : a.val + b.val < bnLimit → (bnAddTo o a b).Ok fun r => r.WF ∧ r.val = a.val + b.val
  sub : (bnSubTo o a b).Ok fun r => (a.val < b.val → r = none) ∧
    (b.val ≤ a.val → ∃ c : Bignum, r = some c ∧ c.WF ∧ c.val = a.val - b.val)
  lshift1 : (bnLshift1 a).Ok fun r => r.WF ∧ (a.val * 2 < bnLimit → r.val = a.val * 2)
  rshift1 : (bnRshift1 a).Ok fun r => r.WF ∧ r.val = a.val / 2
  mul : (bnMul a b).Ok fun r => r.WF ∧ (a.val * b.val < bnLimit → r.val = a.val * b.val)
  mod : (bnMod a m).Ok fun r => r.WF ∧ r.val = a.val % m.val
  modpow : (bnModpow a e m).Ok fun r => r.WF ∧ (1 < m.val → Fits a.val e.val m.val →
    r.val = a.val ^ e.val % m.val)

/-- Arithmetic on any well-formed numbers refines that of the naturals. -/
theorem bignum_refines (a b m e : Bignum) (ha : a.WF) (hb : b.WF) (hm : m.WF) (he : e.WF)
    (o : Target) : Refines a b m e o where
  fromBytes buf off n h := by
    refine (bnFromBytesBe_ok h).mono ?_
    intro r ⟨hr, hval⟩
    exact ⟨hr, fun hfit => by rw [hval, Nat.mod_eq_of_lt hfit]⟩
  toBytes size n buf h := by
    refine (bnToBytesBe_ok a h).mono ?_
    intro out ⟨hout, hrest⟩
    exact ⟨fun hfit => ((forall_byteBe_iff hfit).mp hout).symm, hrest⟩
  add hfit := by
    rw [bnAddTo_eq]
    exact bnAdd_ok ha hb hfit
  sub := by
    rw [bnSubTo_eq]
    exact bnSub_ok ha hb
  lshift1 := by
    refine (bnLshift1_ok ha).mono ?_
    intro r ⟨hr, hval⟩
    exact ⟨hr, fun hfit => by rw [hval, Nat.mod_eq_of_lt hfit]⟩
  rshift1 := bnRshift1_ok ha
  mul := by
    refine (bnMul_ok ha hb).mono ?_
    intro r ⟨hr, hval⟩
    exact ⟨hr, fun hfit => by rw [hval, Nat.mod_eq_of_lt hfit]⟩
  mod := bnMod_ok ha hm
  modpow := by
    refine (bnModpow_ok ha he hm).mono ?_
    intro r ⟨hr, hval⟩
    exact ⟨hr, fun h1 hfit => by rw [hval, powMod_eq h1 hfit]⟩

theorem bignum_refines_small : Refines (bnSetU32 7) (bnSetU32 5) (bnSetU32 11) (bnSetU32 3) .left :=
  bignum_refines _ _ _ _ (bnSetU32_wf 7) (bnSetU32_wf 5) (bnSetU32_wf 11) (bnSetU32_wf 3) .left

end AdventOS.Crypto
