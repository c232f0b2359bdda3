import Mathlib

/-!
# State-passing programs that keep a predicate

`Keeps P m`: a run of `m` that starts in a state with `P` ends in one, whether it returns
or raises. `Returns Q m`: what `m` returns has `Q`, from whatever state. The rules follow the
program text, so that a proof about an interpreter or any other recursive program in `EStateM`
is one rule for each construct, and one argument for each primitive that writes the state.
-/
namespace AdventOS

variable {ε σ α β : Type} {P : σ → Prop}

def after (m : EStateM ε σ α) (s : σ) : σ :=
  match m s with
  | .ok _ s' => s'
  | .error _ s' => s'

def Keeps (P : σ → Prop) (m : EStateM ε σ α) : Prop := ∀ s, P s → P (after m s)

theorem Keeps.pure (a : α) : Keeps P (pure a : EStateM ε σ α) := fun _ h => h

theorem Keeps.throw (e : ε) : Keeps P (throw e : EStateM ε σ α) := fun _ h => h

theorem Keeps.get : Keeps P (get : EStateM ε σ σ) := fun _ h => h

theorem Keeps.modify {f : σ → σ} (h : ∀ s, P s → P (f s)) :
    Keeps P (modify f : EStateM ε σ PUnit) := h

variable {m : EStateM ε σ α} {k : α → EStateM ε σ β}

theorem Keeps.bind (hm : Keeps P m) (hk : ∀ a, Keeps P (k a)) : Keeps P (m >>= k) := by
  intro s h
  have h' := hm s h
  unfold after at h' ⊢
  simp only [Bind.bind, EStateM.bind]
  cases hr : m s with
  | error e t =>
    rw [hr] at h'
    exact h'
  | ok a t =>
    rw [hr] at h'
    exact hk a t h'

theorem Keeps.read {k : σ → EStateM ε σ β} (h : ∀ s, P s → P (after (k s) s)) :
    Keeps P (MonadState.get >>= k : EStateM ε σ β) := h

theorem Keeps.tryCatch {handler : ε → EStateM ε σ α} (hm : Keeps P m)
    (hh : ∀ e, Keeps P (handler e)) : Keeps P (tryCatch m handler) := by
  intro s h
  have h' := hm s h
  unfold after at h' ⊢
  simp only [MonadExcept.tryCatch, tryCatchThe, MonadExceptOf.tryCatch, EStateM.tryCatch]
  cases hr : m s with
  | error e t =>
    rw [hr] at h'
    exact hh e t h'
  | ok a t =>
    rw [hr] at h'
    exact h'

theorem Keeps.ite {c : Prop} [Decidable c] {n : EStateM ε σ α} (hm : Keeps P m)
    (hn : Keeps P n) : Keeps P (if c then m else n) := by
  split
  · exact hm
  · exact hn

theorem Keeps.mapM {γ : Type} {f : γ → EStateM ε σ α} (h : ∀ x, Keeps P (f x)) :
    ∀ xs : List γ, Keeps P (xs.mapM f)
  | [] => Keeps.pure []
  | x :: xs => by
    rw [List.mapM_cons]
    exact (h x).bind fun a => (Keeps.mapM h xs).bind fun as => Keeps.pure (a :: as)

theorem Keeps.foldlM {γ : Type} {f : β → γ → EStateM ε σ β} (h : ∀ b x, Keeps P (f b x)) :
    ∀ (xs : List γ) (b : β), Keeps P (xs.foldlM f b)
  | [], b => Keeps.pure b
  | x :: xs, b => by
    rw [List.foldlM_cons]
    exact (h b x).bind fun b' => Keeps.foldlM h xs b'

/-! ## Returned values -/

def Returns (Q : α → Prop) (m : EStateM ε σ α) : Prop := ∀ s a t, m s = .ok a t → Q a

variable {Q : α → Prop} {R : β → Prop}

theorem Returns.pure {a : α} (h : Q a) : Returns Q (pure a : EStateM ε σ α) := by
  intro s b t hb
  cases hb
  exact h

theorem Returns.throw (e : ε) : Returns Q (throw e : EStateM ε σ α) := fun _ _ _ h => nomatch h

theorem Returns.any (m : EStateM ε σ α) : Returns (fun _ => True) m := fun _ _ _ _ => trivial

theorem Returns.bind (hm : Returns Q m)
    (hk : ∀ a, Q a → Returns R (k a)) : Returns R (m >>= k) := by
  intro s b t hb
  simp only [Bind.bind, EStateM.bind] at hb
  cases hr : m s with
  | error e u =>
    rw [hr] at hb
    cases hb
  | ok a u =>
    rw [hr] at hb
    exact hk a (hm s a u hr) u b t hb

theorem Returns.after (hk : ∀ a, Returns R (k a)) : Returns R (m >>= k) :=
  (Returns.any m).bind fun a _ => hk a

theorem Returns.ite {c : Prop} [Decidable c] {n : EStateM ε σ α} (hm : Returns Q m)
    (hn : Returns Q n) : Returns Q (if c then m else n) := by
  split
  · exact hm
  · exact hn

theorem Returns.mono {Q' : α → Prop} (hm : Returns Q m)
    (h : ∀ a, Q a → Q' a) : Returns Q' m := fun s a t hr => h a (hm s a t hr)

theorem Returns.foldlM {γ : Type} {f : β → γ → EStateM ε σ β} {P : β → Prop}
    (h : ∀ b x, P b → Returns P (f b x)) :
    ∀ (xs : List γ) (b : β), P b → Returns P (xs.foldlM f b)
  | [], _, hb => Returns.pure hb
  | x :: xs, b, hb => by
    rw [List.foldlM_cons]
    exact (h b x hb).bind fun b' hb' => Returns.foldlM h xs b' hb'

end AdventOS
