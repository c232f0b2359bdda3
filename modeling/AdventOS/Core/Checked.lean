import AdventOS.Core.Access

/-!
# Rules for computations with checked accesses

`Acc.Ok x Q` says that `x` makes no access outside its arrays and that its value
satisfies `Q`. One rule for each way of building a computation: sequencing
(`Ok.bind`), a branch (`Ok.ite`), weakening (`Ok.mono`), and for the two counting
loops an invariant rule (`up_ok`, `down_ok`).

`Parse α` is such a computation that may also give up, as a C function that
returns -1 does; `Parse.Ok` is the same statement for it, about the value when
there is one.
-/
namespace AdventOS
open Function

namespace Acc

variable {α β σ : Type}

def Ok (x : Acc α) (Q : α → Prop) : Prop := x.safe = true ∧ Q x.val

variable {x : Acc α} {P Q : α → Prop} {f : α → Acc β} {size : Nat}

theorem Ok.safe (h : x.Ok Q) : x.safe = true := h.1

theorem Ok.val (h : x.Ok Q) : Q x.val := h.2

theorem Ok.mono (h : x.Ok P) (hPQ : ∀ a, P a → Q a) : x.Ok Q := ⟨h.1, hPQ _ h.2⟩

theorem Ok.pure {a : α} (h : Q a) : (Pure.pure a : Acc α).Ok Q := ⟨rfl, h⟩

theorem Ok.bind {Q : β → Prop} (hx : x.Ok P) (hf : ∀ a, P a → (f a).Ok Q) : (x >>= f).Ok Q := by
  have h := hf x.val hx.2
  refine ⟨?_, h.2⟩
  rw [bind_safe, hx.1, h.1]
  rfl

theorem Ok.bind_faults (hx : x.Ok P)
    (hf : ∀ a, P a → (f a).safe = false) : (x >>= f).safe = false := by
  rw [bind_safe, hf x.val hx.2, Bool.and_false]

theorem bind_faults (hx : x.safe = false) : (x >>= f).safe = false := by
  rw [bind_safe, hx, Bool.false_and]

theorem Ok.ite {c : Prop} [Decidable c] {y : Acc α} (hx : c → x.Ok Q)
    (hy : ¬ c → y.Ok Q) : (if c then x else y).Ok Q := by
  by_cases h : c
  · rw [if_pos h]
    exact hx h
  · rw [if_neg h]
    exact hy h

theorem Ok.and (hP : x.Ok P) (hQ : x.Ok Q) : x.Ok fun a => P a ∧ Q a := ⟨hP.1, hP.2, hQ.2⟩

theorem ok_span {off len : Nat} (h : off + len ≤ size) :
    (span size off len).Ok fun _ => True := ⟨span_safe_of_le h, trivial⟩

/-! ## Arrays -/

/-- Element `i` of an array of `size` elements. -/
def load (size : Nat) (v : Nat → α) (i : Nat) : Acc α := ⟨v i, i < size⟩

/-- Writing element `i` of an array of `size` elements. -/
def store (size : Nat) (v : Nat → α) (i : Nat) (x : α) : Acc (Nat → α) := ⟨update v i x, i < size⟩

theorem load_ok {i : Nat} {v : Nat → α} (h : i < size) : (load size v i).Ok (· = v i) :=
  ⟨decide_eq_true h, rfl⟩

theorem store_ok {i : Nat} {v : Nat → α} {x : α} (h : i < size) :
    (store size v i x).Ok (· = update v i x) :=
  ⟨decide_eq_true h, rfl⟩

@[simp] theorem load_val (size : Nat) (v : Nat → α) (i : Nat) : (load size v i).val = v i := rfl

@[simp] theorem store_val (size : Nat) (v : Nat → α) (i : Nat) (x : α) :
    (store size v i x).val = update v i x := rfl

/-! ## Counting loops -/

/-- `for (i = 0; i < n; i++) body`. -/
def up : Nat → σ → (Nat → σ → Acc σ) → Acc σ
  | 0, s, _ => pure s
  | n + 1, s, body => up n s body >>= body n

/-- `for (i = n - 1; i >= 0; i--) body`. -/
def down : Nat → σ → (Nat → σ → Acc σ) → Acc σ
  | 0, s, _ => pure s
  | n + 1, s, body => body n s >>= fun s => down n s body

theorem up_ok {n : Nat} {s : σ} {body : Nat → σ → Acc σ} (P : Nat → σ → Prop) (h0 : P 0 s)
    (hs : ∀ i s, i < n → P i s → (body i s).Ok (P (i + 1))) : (up n s body).Ok (P n) := by
  induction n with
  | zero => exact Ok.pure h0
  | succ n ih =>
    refine Ok.bind (ih fun i s hi => hs i s (by omega)) ?_
    intro s hP
    exact hs n s (Nat.lt_succ_self n) hP

theorem down_ok {n : Nat} {body : Nat → σ → Acc σ} (P : Nat → σ → Prop) :
    ∀ {s : σ}, P n s → (∀ i s, i < n → P (i + 1) s → (body i s).Ok (P i)) →
      (down n s body).Ok (P 0) := by
  induction n with
  | zero =>
    intro s h0 _
    exact Ok.pure h0
  | succ n ih =>
    intro s h0 hs
    refine Ok.bind (hs n s (Nat.lt_succ_self n) h0) ?_
    intro s hP
    exact ih hP fun i s hi => hs i s (by omega)

/-! ## Loops with a condition -/

/-- `while (cond) body`. A run that has not ended when the fuel is used up counts as a fault. -/
def repeatWhile (cond : σ → Acc Bool) (body : σ → Acc σ) : Nat → σ → Acc σ
  | 0, s => ⟨s, false⟩
  | fuel + 1, s => do
    let c ← cond s
    if c then body s >>= repeatWhile cond body fuel else pure s

/-- A loop whose measure `μ` goes down ends, with its invariant and without its condition. -/
theorem repeatWhile_ok {cond : σ → Acc Bool} {body : σ → Acc σ} {P C : σ → Prop} (μ : σ → Nat)
    (hcond : ∀ s, P s → (cond s).Ok fun c => c = true ↔ C s)
    (hbody : ∀ s, P s → C s → (body s).Ok fun t => P t ∧ μ t < μ s) :
    ∀ {fuel : Nat} {s : σ}, P s → μ s < fuel →
      (repeatWhile cond body fuel s).Ok fun t => P t ∧ ¬ C t
  | 0, _, _, hfuel => absurd hfuel (Nat.not_lt_zero _)
  | fuel + 1, s, hs, hfuel => by
    refine Ok.bind (hcond s hs) ?_
    intro c hc
    refine Ok.ite ?_ ?_
    · intro h
      refine Ok.bind (hbody s hs (hc.mp h)) ?_
      intro t ⟨ht, hlt⟩
      exact repeatWhile_ok μ hcond hbody ht (by omega)
    · intro h
      exact Ok.pure ⟨hs, mt hc.mpr h⟩

/-! ## Two computations side by side -/

/-- The same accesses are inside their arrays, and the values are related. -/
def Both {τ : Type} (R : σ → τ → Prop) (x : Acc σ) (y : Acc τ) : Prop :=
  x.safe = y.safe ∧ R x.val y.val

section Both

variable {τ : Type} {R : σ → τ → Prop} {x : Acc σ} {y : Acc τ}

theorem Both.pure {s : σ} {t : τ} (h : R s t) : Both R (Pure.pure s) (Pure.pure t) := ⟨rfl, h⟩

theorem Both.bind {g : τ → Acc β} {f : σ → Acc α} {Q : α → β → Prop} (h : Both R x y)
    (hfg : ∀ s t, R s t → Both Q (f s) (g t)) : Both Q (x >>= f) (y >>= g) := by
  have hval := hfg x.val y.val h.2
  refine ⟨?_, hval.2⟩
  rw [bind_safe, bind_safe, h.1, hval.1]

theorem Both.eq {x y : Acc σ} (h : Both (· = ·) x y) : x = y := by
  cases x
  cases y
  obtain ⟨rfl, rfl⟩ := h
  rfl

theorem up_both {n : Nat} {s : σ} {t : τ} {f : Nat → σ → Acc σ} {g : Nat → τ → Acc τ}
    (R : Nat → σ → τ → Prop) (h0 : R 0 s t)
    (hs : ∀ i s t, i < n → R i s t → Both (R (i + 1)) (f i s) (g i t)) :
    Both (R n) (up n s f) (up n t g) := by
  induction n with
  | zero => exact Both.pure h0
  | succ n ih =>
    refine Both.bind (ih fun i s t hi => hs i s t (by omega)) ?_
    intro s t hR
    exact hs n s t (Nat.lt_succ_self n) hR

end Both

end Acc

/-! ## Computations that may give up -/

abbrev Parse (α : Type) := OptionT Acc α

namespace Parse

variable {α β : Type}

/-- No access outside its arrays, and what is returned satisfies `Q`. -/
def Ok (m : Parse α) (Q : α → Prop) : Prop := Acc.Ok m.run fun r => ∀ a, r = some a → Q a

/-- `return -1`. -/
def fail : Parse α := OptionT.fail

variable {m : Parse α} {Q : α → Prop}

theorem Ok.mono {P : α → Prop} (h : Ok m P) (hPQ : ∀ a, P a → Q a) : Ok m Q :=
  Acc.Ok.mono h fun _ hr a ha => hPQ a (hr a ha)

theorem Ok.self (h : Ok m Q) : Ok m fun a => Q a ∧ m.run.val = some a :=
  ⟨h.1, fun a ha => ⟨h.2 a ha, ha⟩⟩

theorem Ok.pure {a : α} (h : Q a) : Ok (Pure.pure a) Q := by
  refine ⟨rfl, ?_⟩
  intro b hb
  cases hb
  exact h

theorem Ok.fail : Ok (Parse.fail : Parse α) Q := ⟨rfl, fun _ h => nomatch h⟩

theorem Ok.lift {x : Acc α} (h : x.Ok Q) : Ok (OptionT.lift x) Q := by
  refine ⟨?_, ?_⟩
  · show (x.safe && true) = true
    rw [h.1]
    rfl
  · intro a ha
    cases ha
    exact h.2

def bindStep (f : α → Parse β) (r : Option α) : Acc (Option β) :=
  match r with
  | some a => (f a).run
  | none => Pure.pure none

theorem run_bind (m : Parse α) (f : α → Parse β) : (m >>= f).run = m.run >>= bindStep f := rfl

theorem Ok.bind {f : α → Parse β} {P : α → Prop} {Q : β → Prop} (hm : Ok m P)
    (hf : ∀ a, P a → Ok (f a) Q) : Ok (m >>= f) Q := by
  unfold Ok
  rw [run_bind]
  refine Acc.Ok.bind hm ?_
  intro r hr
  cases r with
  | none => exact Ok.fail
  | some a => exact hf a (hr a rfl)

theorem Ok.ite {c : Prop} [Decidable c] {n : Parse α} (hm : c → Ok m Q)
    (hn : ¬ c → Ok n Q) : Ok (if c then m else n) Q := by
  by_cases h : c
  · rw [if_pos h]
    exact hm h
  · rw [if_neg h]
    exact hn h

/-- `if (c) return -1;` -/
def refuse (c : Prop) [Decidable c] : Parse Unit := if c then Parse.fail else Pure.pure ()

theorem Ok.refuse {c : Prop} [Decidable c] : Ok (Parse.refuse c) fun _ => ¬ c :=
  Ok.ite (fun _ => Ok.fail) fun h => Ok.pure h

def orElseStep (n : Parse α) (r : Option α) : Acc (Option α) :=
  match r with
  | some a => Pure.pure (some a)
  | none => n.run

theorem run_orElse (m n : Parse α) : (m <|> n).run = m.run >>= orElseStep n := by
  show (OptionT.orElse m fun _ => n).run = _
  refine congrArg (m.run >>= ·) (funext fun r => ?_)
  cases r <;> rfl

theorem Ok.orElse {n : Parse α} (hm : Ok m Q) (hn : Ok n Q) : Ok (m <|> n) Q := by
  unfold Ok
  rw [run_orElse]
  refine Acc.Ok.bind hm ?_
  intro r hr
  cases r with
  | none => exact hn
  | some a => exact Ok.pure (hr a rfl)

end Parse

end AdventOS
