import AdventOS.Shell.Grammar

/-!
# Scanning the tokens of a line

The executor finds the parts of a compound by counting depth over the tokens. `Walk` is
what a scan sees of a list of tokens: the depth goes from one value to another, and what
stands at depth 0 satisfies a predicate. A command seen from outside leaves the depth as it
is and shows plain words and openers only.
-/
namespace AdventOS.Shell
open List

/-! ## Tokens in place -/

/-- The array holds the list from `i` on. -/
def Holds (toks : Toks) : Nat → List Tok → Prop
  | _, [] => True
  | i, t :: ts => toks i = some t ∧ Holds toks (i + 1) ts

/-- Outside `[lo, hi)` the arrays agree. -/
def Same (toks toks' : Toks) (lo hi : Nat) : Prop := ∀ k, k < lo ∨ hi ≤ k → toks' k = toks k

theorem holds_append (toks : Toks) (i : Nat) (l m : List Tok) :
    Holds toks i (l ++ m) ↔ Holds toks i l ∧ Holds toks (i + l.length) m := by
  induction l generalizing i with
  | nil => simp [Holds]
  | cons t l ih =>
    rw [cons_append, Holds, Holds, ih, and_assoc, length_cons]
    have : i + 1 + l.length = i + (l.length + 1) := by omega
    rw [this]

variable {toks toks' : Toks} {d e hi i lo : Nat} {l : List Tok} {t : Tok} {P : Word → Prop}
  {kws : List Word}

theorem Holds.congr (h : Holds toks i l)
    (he : ∀ k, i ≤ k → k < i + l.length → toks' k = toks k) : Holds toks' i l := by
  induction l generalizing i with
  | nil => trivial
  | cons t l ih =>
    rw [length_cons] at he
    refine ⟨(he i (le_refl i) (by omega)).trans h.1, ih h.2 fun k hi hk => he k ?_ ?_⟩
    · omega
    · omega

theorem Holds.same (h : Holds toks i l)
    (hs : Same toks toks' lo hi) (hd : i + l.length ≤ lo ∨ hi ≤ i) : Holds toks' i l :=
  h.congr fun k hi' hk => hs k (by omega)

theorem Same.refl (toks : Toks) (lo hi : Nat) : Same toks toks lo hi := fun _ _ => rfl

theorem Same.trans {t₁ t₂ t₃ : Toks} (h : Same t₁ t₂ lo hi)
    (h' : Same t₂ t₃ lo hi) : Same t₁ t₃ lo hi := fun k hk => (h' k hk).trans (h k hk)

theorem Same.mono {lo' hi' : Nat} (h : Same toks toks' lo hi)
    (hlo : lo' ≤ lo) (hhi : hi ≤ hi') : Same toks toks' lo' hi' := fun k hk => h k (by omega)

theorem same_put (t : Option Tok) (hlo : lo ≤ i) (hhi : i < hi) :
    Same toks (put toks i t) lo hi := fun k hk => if_neg (by omega)

theorem same_restore {saved : Toks} :
    Same toks (restore toks saved lo hi) lo hi := fun k hk => if_neg (by omega)

theorem holds_restore {saved : Toks} (h : Holds saved i l)
    (hlo : lo ≤ i) (hhi : i + l.length ≤ hi) : Holds (restore toks saved lo hi) i l :=
  h.congr fun k hi' hk => if_pos ⟨by omega, by omega⟩

theorem textAt_of_holds (h : Holds toks i (t :: l)) : textAt toks i = t.text := by
  unfold textAt
  rw [h.1]

theorem argv_of_holds (h : Holds toks i l) : argv toks i l.length = l := by
  induction l generalizing i with
  | nil => rfl
  | cons t l ih =>
    rw [length_cons, argv, h.1]
    exact congrArg (t :: ·) (ih h.2)

def toksOf (l : List Tok) : Toks := fun i => l[i]?

theorem holds_toksOf (l : List Tok) : Holds (toksOf l) 0 l := by
  have h : ∀ (m : List Tok) (i : Nat), l.drop i = m → Holds (toksOf l) i m := by
    intro m
    induction m with
    | nil => exact fun _ _ => trivial
    | cons t m ih =>
      intro i hd
      refine ⟨?_, ih (i + 1) ?_⟩
      · have := congrArg head? hd
        rwa [head?_drop, head?_cons] at this
      · have := congrArg tail hd
        rwa [tail_drop, tail_cons] at this
  exact h l 0 rfl

/-! ## Walks -/

/-- A scan from depth `d` to depth `d'`, with `P` for what stands at depth 0. -/
inductive Walk (P : Word → Prop) : Nat → List Tok → Nat → Prop
  | nil {d : Nat} : Walk P d [] d
  | cons {d e d' : Nat} {t : Tok} {l : List Tok} (hp : d = 0 → P t.text)
      (he : (d : Int) + depthDelta t.text = e) (hl : Walk P e l d') : Walk P d (t :: l) d'

theorem Walk.append {f : Nat} {m : List Tok} (hl : Walk P d l e)
    (hm : Walk P e m f) : Walk P d (l ++ m) f := by
  induction hl with
  | nil => exact hm
  | cons hp he _ ih => exact .cons hp he (ih hm)

theorem Walk.word {d' : Nat}
    (h0 : depthDelta t.text = 0) (hp : d = 0 → P t.text) (hl : Walk P d l d') :
    Walk P d (t :: l) d' :=
  .cons hp (by rw [h0]; omega) hl

/-- An opener, what stands behind it, and the closer. -/
theorem Walk.block {o c : Tok}
    (ho : depthDelta o.text = 1) (hc : depthDelta c.text = -1) (hp : d = 0 → P o.text)
    (hl : Walk P (d + 1) l (d + 1)) : Walk P d (o :: (l ++ [c])) d :=
  .cons hp (by rw [ho]; rfl)
    (hl.append (.cons (fun h => absurd h (Nat.succ_ne_zero d)) (by rw [hc]; omega) .nil))

theorem findAny_walk {d' : Nat}
    (hw : Walk (· ∉ kws) d l d') : ∀ {i : Nat} (n : Nat), Holds toks i l →
    findAny toks kws i (l.length + n) d = findAny toks kws (i + l.length) n d' := by
  induction hw with
  | nil =>
    intro i n _
    rw [length_nil, zero_add, add_zero]
  | cons hp he _ ih =>
    intro i n h
    rw [length_cons, add_right_comm, findAny, h.1]
    dsimp only
    rw [if_neg fun hk => hp (by omega) hk.2, he, ih n h.2]
    congr 1
    omega

theorem findIn_walk {m : List Tok} (hw : Walk (· ∉ kws) 0 l 0) (h : Holds toks lo (l ++ t :: m))
    (ht : t.text ∈ kws) (hhi : lo + l.length < hi) : findIn toks kws lo hi = lo + l.length := by
  obtain ⟨hl, hm⟩ := (holds_append toks lo l (t :: m)).1 h
  unfold findIn
  obtain ⟨n, hn⟩ : ∃ n, hi - lo = l.length + (n + 1) := ⟨hi - lo - l.length - 1, by omega⟩
  rw [hn]
  have := findAny_walk hw (n + 1) hl
  rw [Nat.cast_zero] at this
  rw [this, findAny, hm.1]
  exact if_pos ⟨rfl, ht⟩

/-! ## The tokens of a line -/

/-- What a command shows at depth 0. -/
def Shows (t : Word) : Prop := Plain t ∨ isOpener t = true

/-- What a sequence shows at depth 0. -/
def SeqShows (t : Word) : Prop := Shows t ∨ chainKind t ≠ 0

theorem walk_plain (hP : d = 0 → ∀ t, Plain t → P t) :
    ∀ {l : List Tok}, (∀ t ∈ l, Plain t.text) → Walk P d l d
  | [], _ => .nil
  | t :: l, h => by
    have ht := h t mem_cons_self
    exact .word ht.1 (fun h0 => hP h0 _ ht) (walk_plain hP fun u hu => h u (mem_cons_of_mem _ hu))

theorem walk_semis (hP : d = 0 → P kSemi) (b : Bool) : Walk P d (semis b) d := by
  cases b with
  | false => exact .nil
  | true => exact .word rfl hP .nil

theorem depthDelta_word (op : Chain) : depthDelta op.word = 0 := by cases op <;> rfl

theorem chainKind_word (op : Chain) : chainKind op.word ≠ 0 := by cases op <;> decide

theorem above {Q : Word → Prop} : d + 1 = 0 → ∀ t, Q t → P t :=
  fun h => absurd h (Nat.succ_ne_zero d)

variable {W : Type} {sh : Rest W}

mutual
theorem walk_seq {P : Word → Prop} : ∀ {d e : Nat} (q : Seq), q.Ok sh e →
    (d = 0 → ∀ t, SeqShows t → P t) → Walk P d q.print d
  | d, e, .last c semi, h, hP => by
    rw [Seq.print]
    exact (walk_cmd c h fun h0 t ht => hP h0 t (.inl ht)).append
      (walk_semis (fun h0 => hP h0 _ (.inr (by decide))) semi)
  | d, e, .cons c op rest, h, hP => by
    rw [Seq.print]
    exact (walk_cmd c h.1 fun h0 t ht => hP h0 t (.inl ht)).append
      (.word (depthDelta_word op) (fun h0 => hP h0 _ (.inr (chainKind_word op)))
        (walk_seq rest h.2 hP))

theorem walk_cmd {P : Word → Prop} : ∀ {d e : Nat} (c : Cmd), c.Ok sh e →
    (d = 0 → ∀ t, Shows t → P t) → Walk P d c.print d
  | d, e, .simple head args, h, hP => by
    rw [Cmd.print]
    exact walk_plain (fun h0 t ht => hP h0 t (.inl ht)) h.plain
  | d, e, .cond c b rest, h, hP => by
    rw [Cmd.print]
    refine .cons (fun h0 => hP h0 _ (.inr rfl)) rfl ?_
    exact (walk_seq c h.1 above).append (.word rfl (fun h0 => absurd h0 (Nat.succ_ne_zero d))
      ((walk_seq b h.2.1 above).append (walk_arms rest h.2.2)))
  | d, e, .for var words semi body, h, hP => by
    rw [Cmd.print]
    have hdo (b : Prop) : d + 1 = 0 → b := fun h0 => absurd h0 (Nat.succ_ne_zero d)
    refine .cons (fun h0 => hP h0 _ (.inr rfl)) rfl (.word h.1.1 (hdo _) (.word rfl (hdo _) ?_))
    refine (walk_plain above h.2.1).append ((walk_semis (hdo _) semi).append ?_)
    exact .word rfl (hdo _) ((walk_seq body h.2.2 above).append
      (.cons (hdo _) (by change ((d + 1 : Nat) : Int) + -1 = d; omega) .nil))
  | d, e, .while c b, h, hP => by
    rw [Cmd.print]
    have hdo (b : Prop) : d + 1 = 0 → b := fun h0 => absurd h0 (Nat.succ_ne_zero d)
    refine .cons (fun h0 => hP h0 _ (.inr rfl)) rfl ((walk_seq c h.1 above).append ?_)
    exact .word rfl (hdo _) ((walk_seq b h.2 above).append
      (.cons (hdo _) (by change ((d + 1 : Nat) : Int) + -1 = d; omega) .nil))
  | d, e, .group b, h, hP => by
    rw [Cmd.print]
    exact Walk.block rfl rfl (fun h0 => hP h0 _ (.inr rfl)) (walk_seq b h above)

theorem walk_arms {P : Word → Prop} : ∀ {d e : Nat} (a : Arms), a.Ok sh e → Walk P (d + 1) a.print d
  | d, e, .fi, _ =>
    .cons (fun h0 => absurd h0 (Nat.succ_ne_zero d))
      (by change ((d + 1 : Nat) : Int) + -1 = d; omega) .nil
  | d, e, .els b, h => by
    rw [Arms.print]
    refine .word rfl (fun h0 => absurd h0 (Nat.succ_ne_zero d)) ((walk_seq b h above).append ?_)
    exact .cons (fun h0 => absurd h0 (Nat.succ_ne_zero d))
      (by change ((d + 1 : Nat) : Int) + -1 = d; omega) .nil
  | d, e, .elif c b rest, h => by
    rw [Arms.print]
    refine .word rfl (fun h0 => absurd h0 (Nat.succ_ne_zero d)) ((walk_seq c h.1 above).append ?_)
    exact .word rfl (fun h0 => absurd h0 (Nat.succ_ne_zero d))
      ((walk_seq b h.2.1 above).append (walk_arms rest h.2.2))
end

/-! ## What the scans of the compounds find -/

theorem not_mem_of_shows {t : Word}
    (hk : ∀ k ∈ kws, k ∈ [kThen, kElif, kElse, kDo] ∨ depthDelta k = -1)
    (h : SeqShows t) : t ∉ kws := by
  intro hmem
  rcases h with (hp | ho) | hc
  · rcases hk t hmem with hm | hm
    · exact hp.2.2 hm
    · rw [hp.1] at hm
      cases hm
  · have hd : t = kIf ∨ t = kFor ∨ t = kWhile ∨ t = kOpen := by
      simpa [isOpener, or_assoc] using ho
    rcases hk t hmem with hm | hm
    · revert hm
      rcases hd with rfl | rfl | rfl | rfl <;> decide
    · revert hm
      rcases hd with rfl | rfl | rfl | rfl <;> decide
  · have hd : t = kAnd ∨ t = kOr ∨ t = kSemi := by
      unfold chainKind at hc
      by_contra hne
      push Not at hne
      rw [if_neg hne.1, if_neg hne.2.1, if_neg hne.2.2] at hc
      exact hc rfl
    rcases hk t hmem with hm | hm
    · revert hm
      rcases hd with rfl | rfl | rfl <;> decide
    · revert hm
      rcases hd with rfl | rfl | rfl <;> decide

theorem walk_no_keyword {q : Seq} (h : q.Ok sh e)
    (hk : ∀ k ∈ kws, k ∈ [kThen, kElif, kElse, kDo] ∨ depthDelta k = -1) :
    Walk (· ∉ kws) 0 q.print 0 :=
  walk_seq q h fun _ _ ht => not_mem_of_shows hk ht

mutual
theorem seq_head : ∀ {e : Nat} (q : Seq), q.Ok sh e → ∃ t l, q.print = t :: l ∧ Shows t.text
  | _, .last c semi, h => by
    obtain ⟨t, l, hl, ht⟩ := cmd_head c h
    exact ⟨t, l ++ semis semi, by rw [Seq.print, hl, cons_append], ht⟩
  | _, .cons c op rest, h => by
    obtain ⟨t, l, hl, ht⟩ := cmd_head c h.1
    exact ⟨t, l ++ kw op.word :: rest.print, by rw [Seq.print, hl, cons_append], ht⟩

theorem cmd_head : ∀ {e : Nat} (c : Cmd), c.Ok sh e → ∃ t l, c.print = t :: l ∧ Shows t.text
  | _, .simple head args, h =>
    ⟨head, args, by rw [Cmd.print], .inl (h.plain head mem_cons_self)⟩
  | _, .cond c b rest, _ => ⟨kw kIf, _, by rw [Cmd.print], .inr rfl⟩
  | _, .for var words semi body, _ => ⟨kw kFor, _, by rw [Cmd.print], .inr rfl⟩
  | _, .while c b, _ => ⟨kw kWhile, _, by rw [Cmd.print], .inr rfl⟩
  | _, .group b, _ => ⟨kw kOpen, _, by rw [Cmd.print], .inr rfl⟩
end

theorem shows_ne_semi {t : Word} (h : Shows t) : t ≠ kSemi := by
  intro he
  subst he
  rcases h with hp | ho
  · exact absurd hp.2.1 (by decide)
  · cases ho

theorem skipSemi_seq {q : Seq} (h : q.Ok sh e)
    (hq : Holds toks i q.print) (n : Nat) : skipSemi toks i n = i := by
  obtain ⟨t, l, hl, ht⟩ := seq_head q h
  rw [hl] at hq
  cases n with
  | zero => rfl
  | succ n =>
    rw [skipSemi, hq.1]
    exact if_neg (shows_ne_semi ht)

theorem cmd_length_pos {c : Cmd} (h : c.Ok sh e) : 0 < c.print.length := by
  obtain ⟨t, l, hl, _⟩ := cmd_head c h
  rw [hl, length_cons]
  omega

end AdventOS.Shell
