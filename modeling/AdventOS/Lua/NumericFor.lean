import AdventOS.Core.Rounds
import AdventOS.Lua.Capture
import AdventOS.Lua.Enough

/-!
# The numeric `for` of the Lua interpreter

The language promises that the body of `for i = start, stop, step` runs once for each of
`start`, `start + step`, ... up to `stop`, whatever it does to `i`. The interpreter counts in
the slot of `i` itself, in 32 bits.

* `within_iff`: which control values there are.
* `Rounds`: the rounds that the loop makes, with the control value of each.
* `runsExactly_iff`: exactly when these are the values promised. The body must leave the
  variable as it was, as long as there is a value to come; and behind the last value the
  addition must pass `stop`.
* `steady_of_kept_iff`: for a body that leaves the variable alone, the last value plus `step`
  must not overflow.
-/
namespace AdventOS.Lua
open List

variable {B W : Type}

def Fits32 (n : Int) : Prop := -2 ^ 31 ≤ n ∧ n < 2 ^ 31

instance (n : Int) : Decidable (Fits32 n) := inferInstanceAs (Decidable (_ ∧ _))

theorem wrap32_of_fits {n : Int} (h : Fits32 n) : wrap32 n = n := by
  unfold wrap32
  obtain ⟨h1, h2⟩ := h
  rw [Int.bmod_def]
  omega

theorem wrap32_add_wrap32 (m n : Int) : wrap32 (wrap32 m + n) = wrap32 (m + n) := by
  exact Int.bmod_add_bmod

/-! ## Control values -/

/-- The test of the loop. -/
def Within (stop step i : Int) : Prop := (0 < step ∧ i ≤ stop) ∨ (step < 0 ∧ stop ≤ i)

instance (stop step i : Int) : Decidable (Within stop step i) := inferInstanceAs (Decidable (_ ∨ _))

/-- How many of `start`, `start + step`, ... do not pass `stop`. -/
def tripCount (start stop step : Int) : Nat :=
  if 0 < step then ((stop - start) / step + 1).toNat else ((start - stop) / -step + 1).toNat

def controlValues (start stop step : Int) : List Int :=
  (List.range (tripCount start stop step)).map fun k : Nat => start + (k : Int) * step

variable {start stop step : Int}

theorem within_iff (h : step ≠ 0) (k : Nat) :
    Within stop step (start + k * step) ↔ k < tripCount start stop step := by
  unfold Within tripCount
  rcases Int.lt_or_gt_of_ne h with hneg | hpos
  · rw [if_neg (by omega)]
    have h1 : (k : Int) ≤ (start - stop) / -step ↔ (k : Int) * -step ≤ start - stop :=
      Int.le_ediv_iff_mul_le (by omega)
    rw [Int.mul_neg] at h1
    omega
  · rw [if_pos hpos]
    have h1 : (k : Int) ≤ (stop - start) / step ↔ (k : Int) * step ≤ stop - start :=
      Int.le_ediv_iff_mul_le hpos
    omega

theorem fits_of_within (hstart : Fits32 start) (hstop : Fits32 stop) {k : Nat}
    (h : Within stop step (start + k * step)) : Fits32 (start + k * step) := by
  unfold Fits32 at *
  rcases h with ⟨hs, h⟩ | ⟨hs, h⟩
  · have : 0 ≤ (k : Int) * step := Int.mul_nonneg (Int.natCast_nonneg k) (Int.le_of_lt hs)
    omega
  · have : (k : Int) * step ≤ 0 :=
      Int.mul_nonpos_of_nonneg_of_nonpos (Int.natCast_nonneg k) (Int.le_of_lt hs)
    omega

theorem add_step (start step : Int) (k : Nat) :
    start + k * step + step = start + ((k + 1 : Nat) : Int) * step := by
  rw [Nat.cast_add, Int.add_mul]
  omega

theorem controlValues_length :
    (controlValues start stop step).length = tripCount start stop step := by
  unfold controlValues
  rw [length_map, length_range]

theorem controlValues_take {k : Nat} (h : k < tripCount start stop step) :
    (controlValues start stop step).take (k + 1) =
      (controlValues start stop step).take k ++ [start + k * step] := by
  rw [take_add_one, controlValues, List.getElem?_map, List.getElem?_range h]
  rfl

/-! ## The loop -/

section Loop

variable [DecidableEq B] (lib : Lib B W) (slot : Nat)

/-- `e->locals[slot].value.as.n`. -/
def control (e : Env B) (s : State B W) : Int := lib.asNum s.log (slotValue e.locals slot)

/-- lua.c:1641 -/
def advance (step : Int) (e : Env B) (s : State B W) : Env B :=
  { e with
    locals := e.locals.modify slot fun p => (p.1, .num (wrap32 (control lib slot e s + step))) }

/-- The loop as a system: a state is what it has before its test, and a round is labelled with
its control value. -/
def forLTS (body : List (Node Bytes)) (stop step : Int) (e : Env B) (s : State B W) :
    LTS (Env B × State B W) Int where
  init := fun p => p = (e, s)
  step := fun p i q => control lib slot p.1 p.2 = i ∧ Within stop step i ∧
    ∃ e₂, Ends lib body p.1 p.2 e₂ .normal q.2 ∧ q.1 = advance lib slot step e₂ q.2

/-- The loop has run its body from `e` and `s` on, once with each of the control values `vs`. -/
def Rounds (body : List (Node Bytes)) (stop step : Int) (e : Env B) (s : State B W)
    (vs : List Int) (e₁ : Env B) (s₁ : State B W) : Prop :=
  (forLTS lib slot body stop step e s).Run (e, s) vs (e₁, s₁)

variable {lib slot} {body : List (Node Bytes)} {e e₁ e₂ : Env B} {s s₁ s₂ : State B W}
  {vs : List Int}

theorem forLTS_deterministic : (forLTS lib slot body stop step e s).Deterministic := by
  rintro p i q j r ⟨rfl, -, e₂, h₂, hq⟩ ⟨rfl, -, e₃, h₃, hr⟩
  obtain ⟨he, hs⟩ := h₂.unique h₃
  rw [(Prod.mk.inj he).1, hs, ← hr] at hq
  exact ⟨rfl, Prod.ext hq hs⟩

theorem Rounds.round (h : Rounds lib slot body stop step e s vs e₁ s₁)
    (test : Within stop step (control lib slot e₁ s₁)) (runs : Ends lib body e₁ s₁ e₂ .normal s₂) :
    Rounds lib slot body stop step e s (vs ++ [control lib slot e₁ s₁])
      (advance lib slot step e₂ s₂) s₂ :=
  LTS.Run.snoc h ⟨rfl, test, e₂, runs, rfl⟩

theorem Rounds.of_snoc {i : Int} (h : Rounds lib slot body stop step e s (vs ++ [i]) e₁ s₁) :
    ∃ e₂ s₂ e₃, Rounds lib slot body stop step e s vs e₂ s₂ ∧ control lib slot e₂ s₂ = i ∧
      Within stop step i ∧ Ends lib body e₂ s₂ e₃ .normal s₁ ∧ e₁ = advance lib slot step e₃ s₁ := by
  obtain ⟨⟨e₂, s₂⟩, before, hi, test, e₃, runs, he⟩ := LTS.Run.of_snoc h
  exact ⟨e₂, s₂, e₃, before, hi, test, runs, he⟩

theorem Rounds.unique {us : List Int} (h : Rounds lib slot body stop step e s vs e₁ s₁)
    (h' : Rounds lib slot body stop step e s us e₂ s₂) (hl : vs.length = us.length) :
    e₁ = e₂ ∧ s₁ = s₂ :=
  Prod.mk.inj (LTS.Run.unique forLTS_deterministic h h' hl).2

theorem Rounds.length_eq (h : Rounds lib slot body stop step e s vs e₁ s₁) :
    e₁.locals.length = e.locals.length := by
  refine LTS.Run.induct (P := fun p : Env B × State B W => p.1.locals.length = e.locals.length)
    ?_ h rfl
  rintro p i q hp ⟨-, -, e₂, hends, hq⟩
  rw [hq, advance, length_modify, hends.length_eq, hp]

theorem Rounds.take (h : Rounds lib slot body stop step e s vs e₁ s₁) {k : Nat}
    (hk : k < vs.length) :
    ∃ e₂ s₂ e₃ s₃, Rounds lib slot body stop step e s (vs.take k) e₂ s₂ ∧
      Within stop step (control lib slot e₂ s₂) ∧ Ends lib body e₂ s₂ e₃ .normal s₃ ∧
      vs.take (k + 1) = vs.take k ++ [control lib slot e₂ s₂] ∧
      Rounds lib slot body stop step e s (vs.take (k + 1)) (advance lib slot step e₃ s₃) s₃ := by
  obtain ⟨p, i, q, hr, ⟨rfl, hin, e₃, hends, hq⟩, htake, hr'⟩ := LTS.Run.at h hk
  obtain ⟨e₂, s₂⟩ := p
  obtain ⟨e₃', s₃⟩ := q
  obtain rfl : e₃' = advance lib slot step e₃ s₃ := hq
  exact ⟨e₂, s₂, e₃, s₃, hr, hin, hends, htake, hr'⟩

omit [DecidableEq B] in
theorem control_advance (h : slot < e.locals.length) :
    control lib slot (advance lib slot step e s) s = wrap32 (control lib slot e s + step) := by
  show lib.asNum s.log (slotValue (advance lib slot step e s).locals slot) = _
  unfold advance slotValue
  rw [List.getElem?_modify_eq, List.getElem?_eq_getElem h]
  rfl

omit [DecidableEq B] in
theorem control_start (h : slot = e.locals.length) (x : Bytes) (i : Int) :
    control lib slot { e with locals := e.locals ++ [(x, .num i)] } s = i := by
  unfold control slotValue
  rw [h, List.getElem?_concat_length]
  rfl

variable (lib slot) in
/-- What the body must do to the variable, in every round that the loop makes: leave its value,
if another control value follows; behind the last one the addition must pass `stop`. -/
def Steady (body : List (Node Bytes)) (stop step : Int) (e : Env B) (s : State B W) : Prop :=
  ∀ vs e₁ s₁ e₂ s₂, Rounds lib slot body stop step e s vs e₁ s₁ →
    Within stop step (control lib slot e₁ s₁) → Ends lib body e₁ s₁ e₂ .normal s₂ →
      if Within stop step (control lib slot e₁ s₁ + step) then
        wrap32 (control lib slot e₂ s₂) = control lib slot e₁ s₁
      else ¬Within stop step (wrap32 (control lib slot e₂ s₂ + step))

variable (lib slot) in
/-- Every run of the body that the loop starts comes to its end. -/
def Terminating (body : List (Node Bytes)) (stop step : Int) (e : Env B) (s : State B W) : Prop :=
  ∀ vs e₁ s₁, Rounds lib slot body stop step e s vs e₁ s₁ →
    Within stop step (control lib slot e₁ s₁) → ∃ e₂ s₂, Ends lib body e₁ s₁ e₂ .normal s₂

variable (lib slot) in
/-- The loop runs its body with the control values promised, and stops. -/
def Exact (body : List (Node Bytes)) (start stop step : Int) (e : Env B) (s : State B W)
    (e' : Env B) (s' : State B W) : Prop :=
  Rounds lib slot body stop step e s (controlValues start stop step) e' s' ∧
    ¬Within stop step (control lib slot e' s')

theorem Steady.rounds (hsteady : Steady lib slot body stop step e s)
    (hterm : Terminating lib slot body stop step e s) (hstart : Fits32 start)
    (hstop : Fits32 stop) (hstep : step ≠ 0) (hslot : slot < e.locals.length)
    (hfirst : control lib slot e s = start) (k : Nat) (hk : k ≤ tripCount start stop step) :
    ∃ e₁ s₁, Rounds lib slot body stop step e s ((controlValues start stop step).take k) e₁ s₁ ∧
      (k < tripCount start stop step → control lib slot e₁ s₁ = start + k * step) ∧
      (k = tripCount start stop step → ¬Within stop step (control lib slot e₁ s₁)) := by
  induction k with
  | zero =>
    have h0 : Within stop step (start + (0 : Nat) * step) ↔ 0 < tripCount start stop step :=
      within_iff hstep 0
    refine ⟨e, s, .nil _, fun _ => ?_, fun he hw => ?_⟩
    · rw [hfirst]
      omega
    · rw [hfirst] at hw
      have : (start : Int) + (0 : Nat) * step = start := by omega
      rw [this] at h0
      exact absurd (h0.mp hw) (by omega)
  | succ k ih =>
    obtain ⟨e₁, s₁, hr, hc, -⟩ := ih (by omega)
    have hcontrol := hc hk
    have hin : Within stop step (start + k * step) := (within_iff hstep k).mpr hk
    have hnext := add_step start step k
    rw [← hcontrol] at hin
    obtain ⟨e₂, s₂, hends⟩ := hterm _ e₁ s₁ hr hin
    have hlen : slot < e₂.locals.length := by
      rw [hends.length_eq, hr.length_eq]
      exact hslot
    have hs := hsteady _ e₁ s₁ e₂ s₂ hr hin hends
    have hround := Rounds.round hr hin hends
    rw [hcontrol, ← controlValues_take hk] at hround
    rw [hcontrol, hnext] at hs
    refine ⟨_, s₂, hround, fun hlt => ?_, fun heq => ?_⟩
    · rw [control_advance hlen]
      have hw := (within_iff hstep (k + 1)).mpr hlt
      rw [if_pos hw] at hs
      rw [← wrap32_add_wrap32, hs, hnext]
      exact wrap32_of_fits (fits_of_within hstart hstop hw)
    · rw [control_advance hlen]
      have hw : ¬Within stop step (start + ((k + 1 : Nat) : Int) * step) := fun h =>
        absurd ((within_iff hstep (k + 1)).mp h) (by omega)
      rwa [if_neg hw] at hs

theorem Exact.round {e' : Env B} {s' : State B W}
    (h : Exact lib slot body start stop step e s e' s') {k : Nat}
    (hk : k < tripCount start stop step) :
    ∃ e₁ s₁ e₂ s₂,
      Rounds lib slot body stop step e s ((controlValues start stop step).take k) e₁ s₁ ∧
      control lib slot e₁ s₁ = start + k * step ∧ Ends lib body e₁ s₁ e₂ .normal s₂ ∧
      Rounds lib slot body stop step e s ((controlValues start stop step).take (k + 1))
        (advance lib slot step e₂ s₂) s₂ := by
  obtain ⟨e₁, s₁, e₂, s₂, hr, -, hends, htake, hnext⟩ := h.1.take (by rwa [controlValues_length])
  rw [controlValues_take hk] at htake
  have hc := (append_inj' htake rfl).2
  exact ⟨e₁, s₁, e₂, s₂, hr, (List.cons.inj hc).1.symm, hends, hnext⟩

theorem Exact.length_lt {e' : Env B} {s' : State B W}
    (h : Exact lib slot body start stop step e s e' s')
    (hr : Rounds lib slot body stop step e s vs e₁ s₁)
    (hin : Within stop step (control lib slot e₁ s₁)) : vs.length < tripCount start stop step := by
  by_contra hge
  rcases Nat.lt_or_ge (tripCount start stop step) vs.length with hlt | hle
  · obtain ⟨e₂, s₂, e₃, s₃, hr₂, hin₂, -⟩ := hr.take hlt
    have hl : (vs.take (tripCount start stop step)).length =
        (controlValues start stop step).length := by
      rw [controlValues_length, length_take]
      omega
    obtain ⟨rfl, rfl⟩ := hr₂.unique h.1 hl
    exact h.2 hin₂
  · obtain ⟨rfl, rfl⟩ := hr.unique h.1 (by rw [controlValues_length]; omega)
    exact h.2 hin

/-- The loop has the control values promised if and only if the body is steady. -/
theorem exact_iff (hterm : Terminating lib slot body stop step e s) (hstart : Fits32 start)
    (hstop : Fits32 stop) (hstep : step ≠ 0) (hslot : slot < e.locals.length)
    (hfirst : control lib slot e s = start) :
    (∃ e' s', Exact lib slot body start stop step e s e' s') ↔
      Steady lib slot body stop step e s := by
  constructor
  · rintro ⟨e', s', h⟩ vs e₁ s₁ e₂ s₂ hvs hin hends
    obtain ⟨k, hkv⟩ : ∃ k, vs.length = k := ⟨_, rfl⟩
    have hk : k < tripCount start stop step := hkv ▸ h.length_lt hvs hin
    have htake {j : Nat} (hj : j ≤ tripCount start stop step) :
        ((controlValues start stop step).take j).length = j := by
      rw [length_take, controlValues_length]
      omega
    obtain ⟨e₁', s₁', e₂', s₂', hr, hcontrol, hends', hnext⟩ := h.round hk
    obtain ⟨rfl, rfl⟩ := hvs.unique hr (by rw [hkv, htake (by omega)])
    obtain ⟨he, rfl⟩ := hends.unique hends'
    obtain ⟨rfl, -⟩ := Prod.mk.inj he
    have hlen : slot < e₂.locals.length := by
      rw [hends.length_eq, hr.length_eq]
      exact hslot
    rw [hcontrol, add_step]
    split
    · rename_i hw
      obtain ⟨e₃, s₃, -, -, hr₃, hc₃, -⟩ := h.round ((within_iff hstep (k + 1)).mp hw)
      obtain ⟨rfl, rfl⟩ := hnext.unique hr₃ rfl
      rw [control_advance hlen, ← add_step] at hc₃
      have hback : wrap32 (control lib slot e₂ s₂) =
          wrap32 (wrap32 (control lib slot e₂ s₂ + step) + -step) := by
        rw [wrap32_add_wrap32, Int.add_neg_cancel_right]
      rw [hback, hc₃, Int.add_neg_cancel_right]
      exact wrap32_of_fits (fits_of_within hstart hstop ((within_iff hstep k).mpr hk))
    · rename_i hw
      have hlast : k + 1 = tripCount start stop step := by
        have := mt (within_iff hstep (k + 1)).mpr hw
        omega
      obtain ⟨he, rfl⟩ :=
        hnext.unique h.1 (by rw [htake (by omega), controlValues_length, hlast])
      rw [← control_advance hlen, he]
      exact h.2
  · intro hsteady
    obtain ⟨e₁, s₁, hr, -, hend⟩ :=
      hsteady.rounds hterm hstart hstop hstep hslot hfirst _ (Nat.le_refl _)
    rw [← controlValues_length, take_length] at hr
    exact ⟨e₁, s₁, hr, hend rfl⟩

/-- A body that leaves the variable alone, in every round that the loop makes. -/
def Kept (lib : Lib B W) (slot : Nat) (body : List (Node Bytes)) (stop step : Int) (e : Env B)
    (s : State B W) : Prop :=
  ∀ vs e₁ s₁ e₂ s₂, Rounds lib slot body stop step e s vs e₁ s₁ →
    Within stop step (control lib slot e₁ s₁) → Ends lib body e₁ s₁ e₂ .normal s₂ →
      control lib slot e₂ s₂ = control lib slot e₁ s₁

/-- The addition behind the last control value does not overflow. -/
def LastFits (start stop step : Int) : Prop :=
  ∀ k, k + 1 = tripCount start stop step → Fits32 (start + k * step + step)

theorem not_within_wrap32_iff {v : Int} (hv : Fits32 v) (hstep : Fits32 step)
    (hin : Within stop step v) (hout : ¬Within stop step (v + step)) :
    ¬Within stop step (wrap32 (v + step)) ↔ Fits32 (v + step) := by
  constructor
  · intro h
    by_contra hf
    apply h
    unfold wrap32 Within Fits32 at *
    rw [Int.bmod_def]
    omega
  · intro hf
    rwa [wrap32_of_fits hf]

theorem Kept.control_eq (hkept : Kept lib slot body stop step e s)
    (hlast : LastFits start stop step) (hstart : Fits32 start) (hstop : Fits32 stop)
    (hstep : step ≠ 0) (hslot : slot < e.locals.length) (hfirst : control lib slot e s = start)
    (hr : Rounds lib slot body stop step e s vs e₁ s₁) :
    control lib slot e₁ s₁ = start + vs.length * step := by
  induction vs using List.reverseRecOn generalizing e₁ s₁ with
  | nil =>
    obtain ⟨rfl, rfl⟩ := Prod.mk.inj (LTS.Run.nil_iff.mp hr)
    rw [hfirst, length_nil]
    omega
  | append_singleton us i ih =>
    obtain ⟨e₂, s₂, e₃, before, rfl, test, runs, rfl⟩ := Rounds.of_snoc hr
    have hprev := ih before
    have hk : us.length < tripCount start stop step := by
      rw [hprev] at test
      exact (within_iff hstep _).mp test
    have hlen : slot < e₃.locals.length := by
      rw [runs.length_eq, before.length_eq]
      exact hslot
    rw [control_advance hlen, hkept _ _ _ _ _ before test runs, hprev, length_append,
      length_singleton, ← add_step]
    refine wrap32_of_fits ?_
    rcases Nat.lt_or_ge (us.length + 1) (tripCount start stop step) with hlt | hge
    · rw [add_step]
      exact fits_of_within hstart hstop ((within_iff hstep _).mpr hlt)
    · exact hlast _ (by omega)

theorem steady_of_kept_iff (hkept : Kept lib slot body stop step e s)
    (hterm : Terminating lib slot body stop step e s) (hstart : Fits32 start)
    (hstop : Fits32 stop) (hfits : Fits32 step) (hstep : step ≠ 0) (hslot : slot < e.locals.length)
    (hfirst : control lib slot e s = start) :
    Steady lib slot body stop step e s ↔ LastFits start stop step := by
  constructor
  · intro hsteady k hk
    obtain ⟨e₁, s₁, hr, hc, -⟩ :=
      hsteady.rounds hterm hstart hstop hstep hslot hfirst k (by omega)
    have hcontrol := hc (by omega)
    have hin := (within_iff hstep k).mpr (by omega : k < tripCount start stop step)
    rw [← hcontrol] at hin
    obtain ⟨e₂, s₂, hends⟩ := hterm _ e₁ s₁ hr hin
    have hs := hsteady _ e₁ s₁ e₂ s₂ hr hin hends
    have hout : ¬Within stop step (start + k * step + step) := by
      rw [add_step, within_iff hstep]
      omega
    rw [hkept _ e₁ s₁ e₂ s₂ hr hin hends, hcontrol, if_neg hout] at hs
    rw [hcontrol] at hin
    exact (not_within_wrap32_iff (fits_of_within hstart hstop hin) hfits hin hout).mp hs
  · intro hlast vs e₁ s₁ e₂ s₂ hr hin hends
    rw [hkept _ e₁ s₁ e₂ s₂ hr hin hends]
    have hc := hkept.control_eq hlast hstart hstop hstep hslot hfirst hr
    rw [hc] at hin ⊢
    have hk := (within_iff hstep _).mp hin
    split
    · exact wrap32_of_fits (fits_of_within hstart hstop hin)
    · rename_i hout
      rw [add_step, within_iff hstep] at hout
      rw [wrap32_of_fits (hlast _ (by omega)), add_step, within_iff hstep]
      exact hout

end Loop

/-! ## The statement -/

section Statement

variable [DecidableEq B] {lib : Lib B W} {slot : Nat} {body : List (Node Bytes)}
  {e e₁ : Env B} {s s₁ : State B W} {vs : List Int}

/-- lua.c:1630-1632 -/
def forHeader (lib : Lib B W) (n : Nat) (e : Env B) (a b : Node Bytes) (c : Option (Node Bytes)) :
    M B W (Int × Int × Int) := do
  let start ← evalExpr lib n e a >>= toNum
  let stop ← evalExpr lib n e b >>= toNum
  let step ← forStep (evalExpr lib n e) c
  return (start, stop, step)

/-- lua.c:1635-1642: one round of the loop. -/
def forRound (lib : Lib B W) (n slot : Nat) (stop step : Int) (body : List (Node Bytes))
    (e : Env B) : M B W (Env B × Option (Flow B)) := do
  let s ← get
  if Within stop step (control lib slot e s) then do
    let r ← evalBlock lib n e body
    match loopExit r.2 with
    | some fl => return (r.1, some fl)
    | none => do
      let s ← get
      return (advance lib slot step r.1 s, none)
  else return (e, some .normal)

def declared (e : Env B) (x : Bytes) (start : Int) : Env B :=
  { e with locals := e.locals ++ [(x, .num start)] }

theorem evalStmt_forNum (lib : Lib B W) (n : Nat) (e : Env B) (x : Bytes) (a b : Node Bytes)
    (c : Option (Node Bytes)) (body : Node Bytes) :
    evalStmt lib (n + 1) e (.forNum x a b c body) = do
      let h ← forHeader lib n e a b c
      let e' ← localDeclare e x (.num h.1)
      let r ← loop (forRound lib n e.locals.length h.2.1 h.2.2 (blockList body)) n e'
      return ({ r.1 with locals := r.1.locals.take e.locals.length }, r.2) := by
  rw [evalStmt.eq_def]
  unfold forHeader
  simp only [bind_assoc, pure_bind]
  rfl

theorem forHeader_longer (lib : Lib B W) (n : Nat) (e : Env B) (a b : Node Bytes)
    (c : Option (Node Bytes)) :
    Longer (forHeader lib n e a b c) (forHeader lib (n + 1) e a b c) := by
  have hnum (a : Node Bytes) :
      Longer (evalExpr lib n e a >>= toNum) (evalExpr lib (n + 1) e a >>= toNum) :=
    ((walkerBelow lib n).expr e a).bind fun v => Below.refl _
  refine (hnum a).bind fun start => (hnum b).bind fun stop => Below.bind ?_ fun _ => Below.refl _
  unfold forStep
  split
  · exact hnum _
  · exact Below.refl _

theorem forRound_ok {n : Nat} {e₂ : Env B} {s₂ : State B W}
    (htest : Within stop step (control lib slot e s))
    (hbody : evalBlock lib n e body s = .ok (e₂, .normal) s₂) :
    forRound lib n slot stop step body e s = .ok (advance lib slot step e₂ s₂, none) s₂ := by
  show (if _ then _ else _ : M B W (Env B × Option (Flow B))) s = _
  rw [if_pos htest]
  simp only [Bind.bind, EStateM.bind, hbody]
  rfl

theorem Rounds.loop_eq (h : Rounds lib slot body stop step e s vs e₁ s₁) :
    ∃ N, ∀ n ≥ N, ∀ m, loop (forRound lib n slot stop step body) (vs.length + m) e s =
      loop (forRound lib n slot stop step body) m e₁ s₁ := by
  induction vs using List.reverseRecOn generalizing e₁ s₁ with
  | nil =>
    obtain ⟨rfl, rfl⟩ := Prod.mk.inj (LTS.Run.nil_iff.mp h)
    refine ⟨0, fun n _ m => ?_⟩
    rw [length_nil, Nat.zero_add]
  | append_singleton us i ih =>
    obtain ⟨e₂, s₂, e₃, before, rfl, test, ⟨k, hk⟩, rfl⟩ := Rounds.of_snoc h
    obtain ⟨N, hN⟩ := ih before
    refine ⟨max N k, fun n hn m => ?_⟩
    have hbody := (Below.le (fun n => (walkerBelow lib n).block _ _)
      (Nat.le_trans (Nat.le_max_right N k) hn)).ok hk
    rw [length_append, length_singleton, Nat.add_assoc, Nat.add_comm 1 m,
      hN n (Nat.le_trans (Nat.le_max_left N k) hn)]
    show (forRound lib n slot stop step body _ >>= _ : M B W (Env B × Flow B)) _ = _
    simp only [Bind.bind, EStateM.bind, forRound_ok test hbody]

/-- The loop runs its body exactly with the control values promised, and the statement ends. -/
def RunsExactly (lib : Lib B W) (e : Env B) (x : Bytes) (a b : Node Bytes)
    (c : Option (Node Bytes)) (body : Node Bytes) (start stop step : Int) (s s₀ : State B W) :
    Prop :=
  ∃ e' s', Exact lib e.locals.length (blockList body) start stop step (declared e x start) s₀
      e' s' ∧
    ∃ n, evalStmt lib n e (.forNum x a b c body) s =
      .ok ({ e' with locals := e'.locals.take e.locals.length }, .normal) s'

variable {x : Bytes} {a b : Node Bytes} {c : Option (Node Bytes)} {blk : Node Bytes}
  {s₀ : State B W}

theorem runsExactly_iff (hh : ∃ n, forHeader lib n e a b c s = .ok (start, stop, step) s₀) :
    RunsExactly lib e x a b c blk start stop step s s₀ ↔ e.locals.length < localsMax ∧
      ∃ e' s', Exact lib e.locals.length (blockList blk) start stop step (declared e x start) s₀
        e' s' := by
  obtain ⟨k, hk⟩ := hh
  constructor
  · rintro ⟨e', s', hexact, n, hn⟩
    refine ⟨?_, e', s', hexact⟩
    by_contra hfull
    cases n with
    | zero => cases hn
    | succ n =>
      rw [evalStmt_forNum] at hn
      have hhead := (Below.le (fun n => forHeader_longer lib n e a b c) (Nat.le_max_left n k)) s
      have hok := (Below.le (fun n => forHeader_longer lib n e a b c) (Nat.le_max_right n k)).ok hk
      simp only [Bind.bind, EStateM.bind] at hn
      rcases hhead with ⟨t, ht⟩ | ht
      · rw [ht] at hn
        cases hn
      · rw [ht, hok] at hn
        dsimp only at hn
        unfold localDeclare at hn
        rw [if_pos (Nat.le_of_not_lt hfull)] at hn
        cases hn
  · rintro ⟨hroom, e', s', hexact⟩
    refine ⟨e', s', hexact, ?_⟩
    obtain ⟨N, hN⟩ := hexact.1.loop_eq
    have hn1 : k ≤ max k N + tripCount start stop step + 1 := by omega
    have hn2 : N ≤ max k N + tripCount start stop step + 1 := by omega
    refine ⟨max k N + tripCount start stop step + 1 + 1, ?_⟩
    have hok := (Below.le (fun n => forHeader_longer lib n e a b c) hn1).ok hk
    have hloop := hN _ hn2 (max k N + 1)
    rw [controlValues_length, show tripCount start stop step + (max k N + 1) =
      max k N + tripCount start stop step + 1 by omega] at hloop
    rw [evalStmt_forNum]
    simp only [Bind.bind, EStateM.bind, hok]
    unfold localDeclare
    rw [if_neg (Nat.not_le_of_lt hroom)]
    have hlast : loop (forRound lib (max k N + tripCount start stop step + 1) e.locals.length stop
        step (blockList blk)) (max k N + 1) e' s' = .ok (e', .normal) s' := by
      have hround : forRound lib (max k N + tripCount start stop step + 1) e.locals.length stop
          step (blockList blk) e' s' = .ok (e', some .normal) s' := by
        show (if _ then _ else _ : M B W (Env B × Option (Flow B))) s' = _
        rw [if_neg hexact.2]
        rfl
      show (forRound lib _ _ _ _ _ _ >>= _ : M B W (Env B × Flow B)) _ = _
      simp only [Bind.bind, EStateM.bind, hround]
      rfl
    rw [hlast] at hloop
    have hdecl : (pure { e with locals := e.locals ++ [(x, .num start)] } : M B W (Env B)) s₀ =
        .ok (declared e x start) s₀ := rfl
    rw [hdecl]
    dsimp only
    rw [hloop]
    rfl

/-- The loop runs its body exactly with the control values promised, and ends, if
and only if there is a slot for the variable and the body is steady; which means, for a body
that leaves the variable alone, that the addition behind the last value does not overflow. -/
theorem forNum_exact_iff (hstart : Fits32 start) (hstop : Fits32 stop) (hfits : Fits32 step)
    (hstep : step ≠ 0) (hh : ∃ n, forHeader lib n e a b c s = .ok (start, stop, step) s₀)
    (hterm : Terminating lib e.locals.length (blockList blk) stop step (declared e x start) s₀) :
    (RunsExactly lib e x a b c blk start stop step s s₀ ↔ e.locals.length < localsMax ∧
      Steady lib e.locals.length (blockList blk) stop step (declared e x start) s₀) ∧
    (Kept lib e.locals.length (blockList blk) stop step (declared e x start) s₀ →
      (RunsExactly lib e x a b c blk start stop step s s₀ ↔ e.locals.length < localsMax ∧
        LastFits start stop step)) := by
  have hslot : e.locals.length < (declared e x start).locals.length := by
    unfold declared
    rw [length_append, length_singleton]
    exact Nat.lt_succ_self _
  have hfirst : control lib e.locals.length (declared e x start) s₀ = start :=
    control_start rfl x start
  have hiff : RunsExactly lib e x a b c blk start stop step s s₀ ↔ e.locals.length < localsMax ∧
      Steady lib e.locals.length (blockList blk) stop step (declared e x start) s₀ := by
    rw [runsExactly_iff hh, exact_iff hterm hstart hstop hstep hslot hfirst]
  refine ⟨hiff, fun hkept => ?_⟩
  rw [hiff, steady_of_kept_iff hkept hterm hstart hstop hfits hstep hslot hfirst]

/-! ## Concrete loops -/

theorem ends_nil (lib : Lib B W) (e : Env B) (s : State B W) : Ends lib [] e s e .normal s := by
  refine ⟨2, ?_⟩
  show EStateM.Result.ok (({ e with locals := e.locals.take e.locals.length } : Env B),
    (Flow.normal : Flow B)) s = _
  rw [take_length]

theorem terminating_nil (lib : Lib B W) (slot : Nat) (stop step : Int) (e : Env B)
    (s : State B W) : Terminating lib slot [] stop step e s :=
  fun _ e₁ s₁ _ _ => ⟨e₁, s₁, ends_nil lib e₁ s₁⟩

theorem kept_nil (lib : Lib B W) (slot : Nat) (stop step : Int) (e : Env B) (s : State B W) :
    Kept lib slot [] stop step e s := by
  intro vs e₁ s₁ e₂ s₂ _ _ hends
  obtain ⟨he, rfl⟩ := hends.unique (ends_nil lib e₁ s₁)
  rw [(Prod.mk.inj he).1]

end Statement

/-- Where the session of a script starts. -/
def bareState : State Empty Unit := Lua.start ⟨[[]], none, ()⟩

/-- `for x = 1, 3 do end`. -/
theorem forNum_exact_three :
    RunsExactly bareLib ⟨[], none⟩ nameX (.num 1) (.num 3) none (.block []) 1 3 1 bareState
      bareState :=
  ((forNum_exact_iff (by decide) (by decide) (by decide)
    (by decide) ⟨2, rfl⟩ (terminating_nil _ _ _ _ _ _)).2 (kept_nil _ _ _ _ _ _)).mpr
      ⟨by decide, fun k hk => by
        obtain rfl : k = 2 := Nat.succ.inj hk
        decide⟩

/-- **The last value of the range.** `for x = 2147483647, 2147483647 do end` goes on behind its
only control value: the addition wraps to the least integer. -/
theorem forNum_not_exact :
    ¬∀ (start stop step : Int) (body : Node Bytes), Fits32 start → Fits32 stop → Fits32 step →
      step ≠ 0 → Terminating bareLib 0 (blockList body) stop step (declared ⟨[], none⟩ nameX start)
        bareState →
      RunsExactly bareLib ⟨[], none⟩ nameX (.num start) (.num stop) (some (.num step)) body start
        stop step bareState bareState := by
  intro h
  have hrun := h (2 ^ 31 - 1) (2 ^ 31 - 1) 1 (.block []) (by decide)
    (by decide) (by decide) (by decide) (terminating_nil _ _ _ _ _ _)
  obtain ⟨e', s', hexact, -⟩ := hrun
  have hsteady := (exact_iff (terminating_nil _ _ _ _ _ _) (by decide)
    (by decide) (by decide) (by decide) rfl).mp ⟨e', s', hexact⟩
  have hs := hsteady _ _ _ _ _ (.nil _) (by decide) (ends_nil _ _ _)
  rw [if_neg (by decide)] at hs
  exact hs (by decide)

end AdventOS.Lua
