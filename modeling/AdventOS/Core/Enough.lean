import Mathlib

/-!
# Programs with a bound, and with a larger one

A fuelled program in `EStateM` raises `stop` where its fuel ends. `Below stop m m'` says that
`m'` goes on where `m` stops and does the same otherwise. The rules follow the program text, so
that a fuelled interpreter is shown to be below itself with more fuel by one rule for each
construct.
-/
namespace AdventOS

variable {ε σ α β : Type} {stop : ε}

def Below (stop : ε) (m m' : EStateM ε σ α) : Prop := ∀ s, (∃ t, m s = .error stop t) ∨ m s = m' s

theorem Below.refl (m : EStateM ε σ α) : Below stop m m := fun _ => Or.inr rfl

theorem Below.throw (m : EStateM ε σ α) : Below stop (throw stop) m := fun s => Or.inl ⟨s, rfl⟩

variable {m m' : EStateM ε σ α}

theorem Below.trans {m'' : EStateM ε σ α} (h : Below stop m m') (h' : Below stop m' m'') :
    Below stop m m'' := by
  intro s
  rcases h s with hs | hs
  · exact Or.inl hs
  · rw [hs]
    exact h' s

theorem Below.ok (h : Below stop m m') {a : α} {s t : σ} (hm : m s = .ok a t) : m' s = .ok a t := by
  rcases h s with ⟨u, hs⟩ | hs
  · rw [hm] at hs
    cases hs
  · exact hs.symm.trans hm

theorem Below.bind {k k' : α → EStateM ε σ β} (hm : Below stop m m')
    (hk : ∀ a, Below stop (k a) (k' a)) : Below stop (m >>= k) (m' >>= k') := by
  intro s
  simp only [Bind.bind, EStateM.bind]
  rcases hm s with ⟨t, hs⟩ | hs
  · rw [hs]
    exact Or.inl ⟨t, rfl⟩
  · rw [← hs]
    cases m s with
    | ok a t => exact hk a t
    | error e t => exact Or.inr rfl

theorem Below.ite {c : Prop} [Decidable c] {n n' : EStateM ε σ α} (hm : Below stop m m')
    (hn : Below stop n n') : Below stop (if c then m else n) (if c then m' else n') := by
  split
  · exact hm
  · exact hn

theorem Below.tryCatch {handler : ε → EStateM ε σ α}
    (hm : Below stop m m') (hh : ∀ s, handler stop s = .error stop s) :
    Below stop (tryCatch m handler) (tryCatch m' handler) := by
  intro s
  simp only [MonadExcept.tryCatch, tryCatchThe, MonadExceptOf.tryCatch, EStateM.tryCatch]
  rcases hm s with ⟨t, hs⟩ | hs
  · rw [hs]
    exact Or.inl ⟨_, hh _⟩
  · rw [hs]
    exact Or.inr rfl

theorem Below.mapM {γ : Type} {f f' : γ → EStateM ε σ α} (h : ∀ x, Below stop (f x) (f' x)) :
    ∀ xs : List γ, Below stop (xs.mapM f) (xs.mapM f')
  | [] => Below.refl _
  | x :: xs => by
    rw [List.mapM_cons, List.mapM_cons]
    exact (h x).bind fun a => (Below.mapM h xs).bind fun as => Below.refl _

theorem Below.foldlM {γ : Type} {f f' : β → γ → EStateM ε σ β}
    (h : ∀ b x, Below stop (f b x) (f' b x)) :
    ∀ (xs : List γ) (b : β), Below stop (xs.foldlM f b) (xs.foldlM f' b)
  | [], _ => Below.refl _
  | x :: xs, b => by
    rw [List.foldlM_cons, List.foldlM_cons]
    exact (h b x).bind fun b' => Below.foldlM h xs b'

theorem Below.le {f : Nat → EStateM ε σ α} (h : ∀ n, Below stop (f n) (f (n + 1))) {m n : Nat}
    (hmn : m ≤ n) : Below stop (f m) (f n) := by
  induction hmn with
  | refl => exact Below.refl _
  | step _ ih => exact ih.trans (h _)

theorem Below.unique {f : Nat → EStateM ε σ α} (h : ∀ n, Below stop (f n) (f (n + 1)))
    {a b : α} {s t u : σ} {m n : Nat} (ha : f m s = .ok a t) (hb : f n s = .ok b u) :
    a = b ∧ t = u := by
  have h1 := (Below.le h (le_max_left m n)).ok ha
  have h2 := (Below.le h (le_max_right m n)).ok hb
  rw [h1] at h2
  cases h2
  exact ⟨rfl, rfl⟩

end AdventOS
