import AdventOS.Core.LTS

/-!
# Two processes over a pair of channels

Two deterministic sequential processes that talk over reliable ordered byte channels,
each given as a function from what was delivered to it so far to what it has written by
then. The system delivers one element at a time, in either direction, in any order.

* `Duplex.Converges`: every schedule ends, and it ends in one state;
* `Duplex.converges`: enough for it, in terms of the final state;
* `Duplex.exchange`: the case of an opening, an answer and a closing message.
-/
namespace AdventOS
open List

namespace Duplex

variable {α : Type u}

/-- What was delivered to the left process and to the right one. -/
abbrev Delivered (α : Type u) := List α × List α

inductive Side
  | left
  | right
  deriving DecidableEq

variable (left right : List α → List α)

/-- The next element that the other side has written is delivered. -/
def step (s : Delivered α) : Side → Option (Delivered α)
  | .left =>
    if s.1.length < (right s.2).length then some ((right s.2).take (s.1.length + 1), s.2) else none
  | .right =>
    if s.2.length < (left s.1).length then some (s.1, (left s.1).take (s.2.length + 1)) else none

def sys : LTS (Delivered α) Side := LTS.ofFn (fun s => s = ([], [])) (step left right)

/-- Every schedule leads to `w`, in at most as many steps as there are elements, and
nothing happens after it. -/
structure Converges (w : Delivered α) : Prop where
  reachable : (sys left right).Reachable w
  progress : ∀ s, (sys left right).Reachable s → s ≠ w → ∃ d s', (sys left right).step s d s'
  final : ∀ d s', ¬ (sys left right).step w d s'
  bounded : ∀ ds s, (sys left right).Run ([], []) ds s → ds.length ≤ w.1.length + w.2.length

/-- Both sides have a part of the whole exchange. -/
def Within (A B : List α) (s : Delivered α) : Prop := s.1 <+: A ∧ s.2 <+: B

variable {left right} {A B : List α}

variable {s s' : Delivered α}

theorem step_left (h : (sys left right).step s .left s') :
    s.1.length < (right s.2).length ∧ s' = ((right s.2).take (s.1.length + 1), s.2) := by
  simp only [sys, LTS.ofFn_step, step] at h
  split at h
  · rename_i hlt
    cases h
    exact ⟨hlt, rfl⟩
  · cases h

theorem step_right (h : (sys left right).step s .right s') :
    s.2.length < (left s.1).length ∧ s' = (s.1, (left s.1).take (s.2.length + 1)) := by
  simp only [sys, LTS.ofFn_step, step] at h
  split at h
  · rename_i hlt
    cases h
    exact ⟨hlt, rfl⟩
  · cases h

theorem exists_step_left (h : s.1.length < (right s.2).length) :
    ∃ d s', (sys left right).step s d s' :=
  ⟨.left, _, if_pos h⟩

theorem exists_step_right (h : s.2.length < (left s.1).length) :
    ∃ d s', (sys left right).step s d s' :=
  ⟨.right, _, if_pos h⟩

variable (hleft : ∀ a, a <+: A → left a <+: B) (hright : ∀ b, b <+: B → right b <+: A)

include hleft hright in
theorem Within.step {d : Side} (h : Within A B s) (hs : (sys left right).step s d s') :
    Within A B s' ∧ s'.1.length + s'.2.length = s.1.length + s.2.length + 1 := by
  cases d with
  | left =>
    obtain ⟨hlt, rfl⟩ := step_left hs
    refine ⟨⟨( take_prefix _ _).trans (hright _ h.2), h.2⟩, ?_⟩
    simp only [length_take]
    omega
  | right =>
    obtain ⟨hlt, rfl⟩ := step_right hs
    refine ⟨⟨h.1, ( take_prefix _ _).trans (hleft _ h.1)⟩, ?_⟩
    simp only [length_take]
    omega

include hleft hright in
theorem Within.run {ds : List Side} (h : Within A B s) (hr : (sys left right).Run s ds s') :
    Within A B s' ∧ s'.1.length + s'.2.length = s.1.length + s.2.length + ds.length := by
  induction hr with
  | nil => exact ⟨h, rfl⟩
  | cons hs _ ih =>
    obtain ⟨h1, hlen⟩ := Within.step hleft hright h hs
    obtain ⟨h2, hlen'⟩ := ih h1
    exact ⟨h2, by rw [length_cons]; omega⟩

theorem within_start : Within A B (([], []) : Delivered α) := ⟨ nil_prefix, nil_prefix⟩

theorem Within.eq_of_length (h : Within A B s)
    (hlen : A.length + B.length ≤ s.1.length + s.2.length) : s = (A, B) := by
  have h1 := h.1.length_le
  have h2 := h.2.length_le
  exact Prod.ext (h.1.eq_of_length (by omega)) (h.2.eq_of_length (by omega))

include hleft hright in
/-- The exchange converges if each process keeps to it and none of its partial states is
stuck. -/
theorem converges (hprog : ∀ a b, a <+: A → b <+: B → (a, b) ≠ (A, B) →
      a.length < (right b).length ∨ b.length < (left a).length) :
    Converges left right (A, B) := by
  have hwithin : ∀ s, (sys left right).Reachable s → Within A B s := by
    intro s ⟨s₀, ds, h0, hr⟩
    rw [show s₀ = ([], []) from h0] at hr
    exact (Within.run hleft hright within_start hr).1
  have hprogress : ∀ s, Within A B s → s ≠ (A, B) → ∃ d s', (sys left right).step s d s' := by
    intro s hs hne
    rcases hprog s.1 s.2 hs.1 hs.2 hne with h | h
    · exact exists_step_left h
    · exact exists_step_right h
  -- from any state within the exchange the rest of it can be delivered
  have hreach : ∀ n (s : Delivered α), Within A B s →
      A.length + B.length - (s.1.length + s.2.length) = n →
      ∃ ds, (sys left right).Run s ds (A, B) := by
    intro n
    induction n with
    | zero =>
      intro s hs hn
      rw [hs.eq_of_length (by omega)]
      exact ⟨[], .nil _⟩
    | succ n ih =>
      intro s hs hn
      have hne : s ≠ (A, B) := by
        intro he
        rw [he] at hn
        dsimp only at hn
        omega
      obtain ⟨d, s', hstep⟩ := hprogress s hs hne
      obtain ⟨hs', hlen⟩ := Within.step hleft hright hs hstep
      obtain ⟨ds, hr⟩ := ih s' hs' (by omega)
      exact ⟨d :: ds, .cons hstep hr⟩
  refine ⟨?_, fun s hs => hprogress s (hwithin s hs), fun d s' hs => ?_, fun ds s hr => ?_⟩
  · obtain ⟨ds, hr⟩ := hreach _ ([], []) within_start rfl
    exact ⟨([], []), ds, rfl, hr⟩
  · obtain ⟨h, hlen⟩ := Within.step hleft hright ⟨prefix_rfl, prefix_rfl⟩ hs
    have h1 := h.1.length_le
    have h2 := h.2.length_le
    dsimp only at hlen
    omega
  · obtain ⟨h, hlen⟩ := Within.run hleft hright within_start hr
    have h1 := h.1.length_le
    have h2 := h.2.length_le
    dsimp only
    omega

/-- The left process opens with `M`, and closes with `N` once it has all of the answer
`A`; the right one answers with `A` once it has the part `K` of the opening. -/
theorem exchange {K M N : List α} (hK : K <+: M)
    (hopen : ∀ a, a <+: A → a ≠ A → left a = M) (hclose : left A = M ++ N)
    (hwait : ∀ b, b <+: K → b ≠ K → right b = [])
    (hanswer : ∀ b, K <+: b → b <+: M ++ N → right b = A) :
    Converges left right (A, M ++ N) := by
  have hMN : M <+: M ++ N := prefix_append M N
  have hl : ∀ a, a <+: A → left a = M ∨ a = A ∧ left a = M ++ N := by
    intro a ha
    by_cases he : a = A
    · exact .inr ⟨he, by rw [he, hclose]⟩
    · exact .inl (hopen a ha he)
  have hr : ∀ b, b <+: M ++ N → right b = [] ∧ b.length < K.length ∨ right b = A := by
    intro b hb
    rcases prefix_or_prefix_of_prefix hb (hK.trans hMN) with h | h
    · by_cases he : b = K
      · exact .inr (hanswer b (by rw [he]) hb)
      · refine .inl ⟨hwait b h he, ?_⟩
        exact lt_of_le_of_ne h.length_le fun hlen => he (h.eq_of_length hlen)
    · exact .inr (hanswer b h hb)
  refine converges (fun a ha => ?_) (fun b hb => ?_) fun a b ha hb hne => ?_
  · rcases hl a ha with h | ⟨-, h⟩
    · rw [h]
      exact hMN
    · rw [h]
  · rcases hr b hb with ⟨h, -⟩ | h
    · rw [h]
      exact nil_prefix
    · rw [h]
  · rcases hr b hb with ⟨-, hlt⟩ | h
    · right
      have hKM := hK.length_le
      rcases hl a ha with h | ⟨-, h⟩
      · rw [h]
        omega
      · rw [h, length_append]
        omega
    · by_cases he : a = A
      · right
        rw [he, hclose]
        refine lt_of_le_of_ne hb.length_le fun hlen => hne ?_
        rw [he, hb.eq_of_length hlen]
      · left
        rw [h]
        exact lt_of_le_of_ne ha.length_le fun hlen => he (ha.eq_of_length hlen)

end Duplex

end AdventOS
