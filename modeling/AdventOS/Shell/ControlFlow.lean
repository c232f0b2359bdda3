import AdventOS.Core.Fuel
import AdventOS.Shell.Scan

/-!
# The executor runs lines as their structure says

* `seq_runs`, `cmd_runs`, `arms_runs`: on the tokens of a sequence, a command or the arms
  of an `if`, the executor settles on the result of the structural meaning and leaves the
  tokens outside its range alone.
* `execTokenSeq_runs`: a whole line, with no control state left.
-/
namespace AdventOS.Shell
open List

variable {W : Type} {sh : Rest W}

/-! ## States -/

/-- The three variables of the executor for a control state. -/
def embed (s : Sem W) : St W :=
  match s.ctl with
  | .none => ⟨s.world, s.last, 0, 0, false⟩
  | .brk k => ⟨s.world, s.last, k + 1, 0, false⟩
  | .cont k => ⟨s.world, s.last, 0, k + 1, false⟩

variable {s : Sem W} {d e hi j lo n segStart : Nat} {t : Word}
   {exec : Nat → Nat → Toks → St W → Option (Out W)} {l : List Tok} {b c q : Seq} {last : Int}
   {toks : Toks} {f : Nat → Option (Out W)} {rest : Arms}

theorem embed_none (h : s.ctl = .none) : embed s = ⟨s.world, s.last, 0, 0, false⟩ := by
  unfold embed
  rw [h]

@[simp] theorem embed_last (s : Sem W) : (embed s).last = s.last := by
  unfold embed
  split <;> rfl

@[simp] theorem embed_world (s : Sem W) : (embed s).world = s.world := by
  unfold embed
  split <;> rfl

theorem embed_pending (s : Sem W) : (embed s).pending = decide (s.ctl ≠ .none) := by
  unfold embed
  split <;> rename_i h <;> simp [h, St.pending]

theorem embed_setLast (s : Sem W) (v : Int) :
    { embed s with last := v } = embed { s with last := v } := by
  unfold embed
  cases s.ctl <;> rfl

theorem embed_setWorld (s : Sem W) (w : W) :
    { embed s with world := w } = embed { s with world := w } := by
  unfold embed
  cases s.ctl <;> rfl

theorem consume_embed (s : Sem W) :
    consume (embed s) = (s.ctl.leave.1, embed { s with ctl := s.ctl.leave.2 }) := by
  unfold embed consume
  cases hc : s.ctl with
  | none => rfl
  | brk k => cases k <;> rfl
  | cont k => cases k <;> simp [Ctl.leave]

/-! ## Leaves -/

theorem expandVars_holds (sh : Rest W) (last : Int) :
    ∀ {l : List Tok} {toks : Toks} {i : Nat} {w : W},
    Holds toks i l →
      Holds (expandVars sh last i l.length toks w).1 i (expandAll sh last l w).1 ∧
      (expandVars sh last i l.length toks w).2 = (expandAll sh last l w).2 ∧
      Same toks (expandVars sh last i l.length toks w).1 i (i + l.length)
  | [], toks, i, w, _ => ⟨trivial, rfl, Same.refl _ _ _⟩
  | t :: l, toks, i, w, h => by
    have hl : Holds (put toks i (some (sh.expand w last t).1)) (i + 1) l :=
      h.2.congr fun k hk _ => if_neg (by omega)
    obtain ⟨hh, hw, hs⟩ := expandVars_holds sh last (w := (sh.expand w last t).2) hl
    rw [length_cons, expandVars, h.1]
    refine ⟨⟨?_, hh⟩, hw, ?_⟩
    · rw [hs i (.inl (Nat.lt_succ_self i))]
      exact if_pos rfl
    · refine (same_put _ (Nat.le_refl i) (by omega)).trans (hs.mono (Nat.le_succ i) (by omega))

theorem length_expandAll (sh : Rest W) (last : Int) (l : List Tok) (w : W) :
    (expandAll sh last l w).1.length = l.length := by
  induction l generalizing w with
  | nil => rfl
  | cons t l ih => exact congrArg Nat.succ (ih _)

theorem expandAll_plain {words : List Tok} (h : SimpleOk sh d words) (last : Int)
    (w : W) : ∀ t ∈ (expandAll sh last words w).1, Plain t.text := by
  have hall := h.expanded
  clear h
  induction words generalizing w with
  | nil => exact fun t ht => absurd ht not_mem_nil
  | cons u us ih =>
    intro t ht
    rcases mem_cons.1 ht with rfl | ht
    · exact hall u mem_cons_self w last
    · exact ih _ (fun v hv => hall v (mem_cons_of_mem _ hv)) t ht

theorem plain_not_opener (h : Plain t) :
    t ≠ kIf ∧ t ≠ kFor ∧ t ≠ kWhile ∧ t ≠ kOpen := by
  refine ⟨?_, ?_, ?_, ?_⟩
  all_goals
    rintro rfl
    exact absurd h.1 (by decide)

theorem execLeaf_embed (words : List Tok) (hs : s.ctl = .none) (hne : words ≠ [])
    (hret : ∀ t args, words = t :: args → sh.isFunc s.world t.text = false → t.text ≠ kReturn) :
    { (execLeaf sh words (embed s)).2 with last := (execLeaf sh words (embed s)).1 } =
      embed (evalWords sh words s) := by
  cases words with
  | nil => exact absurd rfl hne
  | cons t args =>
    have hpos := count_pos args
    rw [embed_none hs, execLeaf, evalWords]
    cases hf : sh.isFunc s.world t.text with
    | true => simp [embed, hs]
    | false =>
      have hr := hret t args rfl hf
      by_cases hb : t.text = kBreak
      · simp [hb, embed]
        omega
      · by_cases hc : t.text = kContinue
        · have hcb : kContinue ≠ kBreak := by decide
          simp [hc, hcb, embed]
          omega
        · simp [hb, hc, hr, embed, hs]

/-! ## The walk over a sequence -/

theorem seqLoop_walk {P : Word → Prop}
    (hP : ∀ t, P t → depthDelta t = 0 → chainKind t = 0) {d' : Nat}
    (hw : Walk P d l d') : ∀ {j n segStart : Nat} {chain last : Int} {toks : Toks} {s : St W},
    Holds toks j l →
    seqLoop sh exec j (l.length + n) segStart chain d last toks s =
      seqLoop sh exec (j + l.length) n segStart chain d' last toks s := by
  induction hw with
  | nil =>
    intro j n segStart chain last toks s _
    rw [length_nil, Nat.zero_add, Nat.add_zero]
  | @cons d e d' t l hp he _ ih =>
    intro j n segStart chain last toks s h
    have hidx : j + 1 + l.length = j + (l.length + 1) := by omega
    rw [length_cons, Nat.add_right_comm, seqLoop, h.1]
    dsimp only
    by_cases hd : depthDelta t.text = 0
    · have hde : (d : Int) = e := by omega
      have hskip : 0 < (d : Int) ∨ chainKind t.text = 0 := by
        by_cases h0 : d = 0
        · exact .inr (hP _ (hp h0) hd)
        · exact .inl (by omega)
      rw [if_neg (not_not.2 hd), if_pos hskip, hde, ih h.2, hidx]
    · rw [if_pos hd, he, ih h.2, hidx]

theorem shows_chainKind (h : Shows t) (hd : depthDelta t = 0) : chainKind t = 0 := by
  rcases h with hp | ho
  · exact hp.2.1
  · have hd' : t = kIf ∨ t = kFor ∨ t = kWhile ∨ t = kOpen := by
      simpa [isOpener, or_assoc] using ho
    rcases hd' with rfl | rfl | rfl | rfl <;> exact absurd hd (by decide)

theorem seqLoop_cmd {c : Cmd}
    (h : c.Ok sh e) {chain : Int} {s : St W}
    (hc : Holds toks j c.print) :
    seqLoop sh exec j (c.print.length + n) segStart chain 0 last toks s =
      seqLoop sh exec (j + c.print.length) n segStart chain 0 last toks s := by
  have hw : Walk Shows 0 c.print 0 := walk_cmd c h fun _ _ ht => ht
  have : seqLoop sh exec j (c.print.length + n) segStart chain (0 : Nat) last toks s =
      seqLoop sh exec (j + c.print.length) n segStart chain (0 : Nat) last toks s :=
    seqLoop_walk (fun _ ht hd => shows_chainKind ht hd) hw hc
  simpa using this

theorem seqLoop_op (op : Chain)
    {chain : Int} {s : St W}
    (hj : toks j = some (kw op.word)) :
    seqLoop sh exec j (n + 1) segStart chain 0 last toks s =
      (runChain sh exec chain segStart j last (put toks j none) s).bind fun r =>
        if r.1 then some r.2
        else seqLoop sh exec (j + 1) n (j + 1) (chainKind op.word) 0 r.2.1 r.2.2.1 r.2.2.2 := by
  rw [seqLoop, hj]
  dsimp only
  have hd : ¬ depthDelta (kw op.word).text ≠ 0 := not_not.2 (depthDelta_word op)
  have hck : ¬ ((0 : Int) < 0 ∨ chainKind (kw op.word).text = 0) := by
    rintro (h | h)
    · exact absurd h (lt_irrefl 0)
    · exact chainKind_word op h
  rw [if_neg hd, if_neg hck]
  rfl

theorem runChain_empty {chain : Int}
    {s : St W} :
    runChain sh exec chain j j last toks s = some (false, last, toks, s) :=
  if_pos (Nat.le_refl j)

theorem runChain_pending {chain : Int}
    {s : St W} (hj : segStart < j)
    (hs : s.pending = true) :
    runChain sh exec chain segStart j last toks s = some (true, last, toks, s) := by
  unfold runChain
  rw [if_neg (by omega), if_pos hs]

theorem seqLoop_pending (h : q.Ok sh e) (chain last : Int)
    {s : St W} (hs : s.pending = true) (hq : Holds toks j q.print) :
    ∃ toks', Same toks toks' j (j + q.print.length) ∧
      ∀ exec, seqLoop sh exec j q.print.length j chain 0 last toks s = some (last, toks', s) := by
  cases q with
  | last c semi =>
    have hpos := cmd_length_pos (show c.Ok sh e from h)
    rw [Seq.print] at hq ⊢
    obtain ⟨hc, hsemi⟩ := (holds_append _ _ _ _).1 hq
    rw [length_append]
    cases semi with
    | false =>
      refine ⟨toks, Same.refl _ _ _, fun exec => ?_⟩
      rw [seqLoop_cmd h hc]
      change seqLoop sh exec (j + c.print.length) 0 j chain 0 last toks s = _
      rw [seqLoop, runChain_pending (by omega) hs]
      rfl
    | true =>
      have hlen : (semis true).length = 1 := rfl
      refine ⟨put toks (j + c.print.length) none, same_put _ (by omega) (by omega), fun exec => ?_⟩
      rw [seqLoop_cmd h hc]
      change seqLoop sh exec (j + c.print.length) (0 + 1) j chain 0 last toks s = _
      rw [seqLoop_op .seq hsemi.1, runChain_pending (by omega) hs]
      rfl
  | cons c op rest =>
    have hpos := cmd_length_pos (show c.Ok sh e from h.1)
    rw [Seq.print] at hq ⊢
    obtain ⟨hc, hrest⟩ := (holds_append _ _ _ _).1 hq
    rw [length_append, length_cons]
    refine ⟨put toks (j + c.print.length) none, same_put _ (by omega) (by omega), fun exec => ?_⟩
    rw [seqLoop_cmd h.1 hc, seqLoop_op op hrest.1, runChain_pending (by omega) hs]
    rfl

theorem execTokenSeq_pending (h : q.Ok sh e)
    {s : St W} (hs : s.pending = true) (hq : Holds toks lo q.print) :
    ∃ toks', Same toks toks' lo (lo + q.print.length) ∧
      Settles (fun n => execTokenSeq sh n lo (lo + q.print.length) toks s) (s.last, toks', s) := by
  obtain ⟨toks', hsame, hrun⟩ := seqLoop_pending h 2 s.last hs hq
  refine ⟨toks', hsame, Settles.succ (fun n => ?_) (Settles.ret _)⟩
  rw [execTokenSeq, Nat.add_sub_cancel_left]
  exact hrun (execSegment sh n)

/-! ## What the pieces settle on -/

/-- A sequence without a control state before it. -/
def SeqRuns (sh : Rest W) (q : Seq) : Prop :=
  ∀ (toks : Toks) (lo hi : Nat) (s : Sem W), Holds toks lo q.print → hi = lo + q.print.length →
    s.ctl = .none →
    ∃ toks', Same toks toks' lo hi ∧ Settles (fun n => execTokenSeq sh n lo hi toks (embed s))
      ((evalSeq sh safety q true s).last, toks', embed (evalSeq sh safety q true s))

/-- Whether the chain operator in front of a segment lets it run. -/
def goes (chain status : Int) : Bool :=
  !decide ((chain = 1 ∧ status ≠ 0) ∨ (chain = -1 ∧ status = 0))

theorem goes_word (op : Chain) (status : Int) :
    goes (chainKind op.word) status = op.allows status := by
  have h0 : chainKind kSemi = 2 := rfl
  have h1 : chainKind kAnd = 1 := rfl
  have h2 : chainKind kOr = -1 := rfl
  cases op <;> simp [goes, Chain.allows, Chain.word, h0, h1, h2]

/-- A command as the segment of a walk that lets it run. -/
def CmdRuns (sh : Rest W) (c : Cmd) : Prop :=
  ∀ (toks : Toks) (lo hi : Nat) (chain last : Int) (s : Sem W), Holds toks lo c.print →
    hi = lo + c.print.length → s.ctl = .none → goes chain s.last = true →
    ∃ toks', Same toks toks' lo hi ∧
      Settles (fun n => runChain sh (execSegment sh n) chain lo hi last toks (embed s))
        (false, (evalCmd sh safety c s).last, toks', embed (evalCmd sh safety c s))

/-- A piece that gives its status as a result and may leave another in `g_last_status`. -/
def Gives (f : Nat → Option (Out W)) (toks : Toks) (lo hi : Nat) (s : Sem W) : Prop :=
  ∃ rc toks' t, Same toks toks' lo hi ∧ { t with last := rc } = embed s ∧
    Settles f (rc, toks', t)

theorem Gives.succ {g : Nat → Option (Out W)}
    (h : ∀ n, f (n + 1) = g n) (hg : Gives g toks lo hi s) : Gives f toks lo hi s := by
  obtain ⟨rc, toks', t, hsame, heq, hset⟩ := hg
  exact ⟨rc, toks', t, hsame, heq, Settles.succ h hset⟩

theorem Gives.ret {r : Int} {t : St W}
    (h : { t with last := r } = embed s) : Gives (fun _ => some (r, toks, t)) toks lo hi s :=
  ⟨r, toks, t, Same.refl _ _ _, h, Settles.ret _⟩

theorem Gives.bind {k : Nat → Out W → Option (Out W)}
    {a : Out W} (hf : Settles f a)
    (hsame : Same toks a.2.1 lo hi) (hk : Gives (fun n => k n a) a.2.1 lo hi s) :
    Gives (fun n => f n >>= k n) toks lo hi s := by
  obtain ⟨rc, toks', t, hsame', heq, hset⟩ := hk
  exact ⟨rc, toks', t, hsame.trans hsame', heq, hf.bind hset⟩

theorem Gives.congr {g : Nat → Option (Out W)}
    (h : ∀ n, f n = g n) (hg : Gives g toks lo hi s) : Gives f toks lo hi s := by
  obtain ⟨rc, toks', t, hsame, heq, hset⟩ := hg
  exact ⟨rc, toks', t, hsame, heq, Settles.congr h hset⟩

theorem embed_setLast_self (s : Sem W) : { embed s with last := s.last } = embed s := by
  rw [embed_setLast]

theorem SeqRuns.gives (h : SeqRuns sh q) {lo' hi' : Nat}
    (hq : Holds toks lo q.print) (hhi : hi = lo + q.print.length)
    (hs : s.ctl = .none) (hlo : lo' ≤ lo) (hle : hi ≤ hi') :
    Gives (fun n => execTokenSeq sh n lo hi toks (embed s)) toks lo' hi'
      (evalSeq sh safety q true s) := by
  obtain ⟨toks', hsame, hset⟩ := h toks lo hi s hq hhi hs
  exact ⟨_, toks', _, hsame.mono hlo hle, embed_setLast_self _, hset⟩

theorem runChain_gives {chain : Int} {s' : Sem W}
    (hop : isOpener (textAt toks lo) = true) (hlt : lo < hi) (hs : s.ctl = .none)
    (hgo : goes chain s.last = true)
    (h : Gives (fun n => execSegment sh n lo hi toks (embed s)) toks lo hi s') :
    ∃ toks', Same toks toks' lo hi ∧
      Settles (fun n => runChain sh (execSegment sh n) chain lo hi last toks (embed s))
        (false, s'.last, toks', embed s') := by
  obtain ⟨rc, toks', t, hsame, heq, hset⟩ := h
  refine ⟨toks', hsame, Settles.congr (g := fun n => (execSegment sh n lo hi toks (embed s)).map
    fun r => (false, r.1, r.2.1, { r.2.2 with last := r.1 })) (fun n => ?_) ?_⟩
  · have hpend : (embed s).pending = false := by
      rw [embed_pending, hs]
      rfl
    have hskip : ¬((chain = 1 ∧ (embed s).last ≠ 0) ∨ (chain = -1 ∧ (embed s).last = 0)) := by
      rw [embed_last]
      simpa [goes, imp_iff_not_or] using hgo
    unfold runChain
    rw [if_neg (by omega), hpend, if_neg Bool.false_ne_true, if_neg hskip, hop]
    rfl
  · have hrc : rc = s'.last := by
      rw [← embed_last s', ← heq]
    have := Settles.map (g := fun r : Out W => (false, r.1, r.2.1, { r.2.2 with last := r.1 })) hset
    rwa [heq, hrc] at this

theorem CmdRuns.chain {c : Cmd} (h : CmdRuns sh c) (hc : c.Ok sh e) (chain : Int)
    (hh : Holds toks lo c.print)
    (hhi : hi = lo + c.print.length) (hs : s.ctl = .none) :
    ∃ toks', Same toks toks' lo hi ∧
      Settles (fun n => runChain sh (execSegment sh n) chain lo hi s.last toks (embed s))
        (false, (if goes chain s.last then evalCmd sh safety c s else s).last, toks',
          embed (if goes chain s.last then evalCmd sh safety c s else s)) := by
  cases hgo : goes chain s.last with
  | true => exact h toks lo hi chain s.last s hh hhi hs hgo
  | false =>
    have hpos := cmd_length_pos hc
    refine ⟨toks, Same.refl _ _ _, Settles.congr (g := fun _ => some (false, s.last, toks, embed s))
      (fun n => ?_) (Settles.ret _)⟩
    have hpend : (embed s).pending = false := by
      rw [embed_pending, hs]
      rfl
    have hskip : (chain = 1 ∧ (embed s).last ≠ 0) ∨ (chain = -1 ∧ (embed s).last = 0) := by
      rw [embed_last]
      simpa [goes, or_iff_not_imp_left] using hgo
    unfold runChain
    rw [if_neg (by omega), hpend, if_neg Bool.false_ne_true, if_pos hskip]

/-! ## Sequences -/

/-- The walk over a sequence, behind a chain operator. -/
def SeqLoops (sh : Rest W) (q : Seq) : Prop :=
  ∀ (toks : Toks) (j hi : Nat) (chain : Int) (s : Sem W), Holds toks j q.print →
    hi = j + q.print.length → s.ctl = .none →
    ∃ toks', Same toks toks' j hi ∧
      Settles (fun n => seqLoop sh (execSegment sh n) j q.print.length j chain 0 s.last toks
          (embed s))
        ((evalSeq sh safety q (goes chain s.last) s).last, toks',
          embed (evalSeq sh safety q (goes chain s.last) s))

theorem seqLoops_last {c : Cmd} {semi : Bool} (hc : c.Ok sh e) (h : CmdRuns sh c) :
    SeqLoops sh (.last c semi) := by
  intro toks j hi chain s hq hhi hs
  rw [Seq.print] at hq hhi ⊢
  rw [length_append] at hhi ⊢
  obtain ⟨hcmd, hsemi⟩ := (holds_append _ _ _ _).1 hq
  rw [evalSeq]
  cases semi with
  | false =>
    obtain ⟨toks', hsame, hset⟩ := h.chain hc chain hcmd rfl hs
    refine ⟨toks', hsame.mono (Nat.le_refl j) (by omega), Settles.congr (fun n => ?_)
      (Settles.map (g := fun r => r.2) hset)⟩
    rw [seqLoop_cmd hc hcmd]
    rfl
  | true =>
    have hput : Same toks (put toks (j + c.print.length) none) (j + c.print.length)
        (j + c.print.length + 1) := same_put _ (Nat.le_refl _) (Nat.lt_succ_self _)
    obtain ⟨toks', hsame, hset⟩ := h.chain hc chain
      (hcmd.same hput (.inl (Nat.le_refl _))) rfl hs
    have hlen : (semis true).length = 1 := rfl
    refine ⟨toks', (hput.mono (by omega) (by omega)).trans (hsame.mono (Nat.le_refl j) (by omega)),
      Settles.congr (fun n => ?_) (hset.bind (k := fun n (r : Bool × Out W) => if r.1 then some r.2
        else seqLoop sh (execSegment sh n) (j + c.print.length + 1) 0 (j + c.print.length + 1)
          (chainKind (Chain.word .seq)) 0 r.2.1 r.2.2.1 r.2.2.2) ?_)⟩
    · rw [seqLoop_cmd hc hcmd]
      exact seqLoop_op .seq hsemi.1
    · refine Settles.congr (fun n => ?_) (Settles.ret _)
      rw [if_neg Bool.false_ne_true, seqLoop, runChain_empty]
      rfl

theorem seqLoops_cons {c : Cmd} {op : Chain} {rest : Seq} (hc : c.Ok sh e)
    (hrest : rest.Ok sh e) (h : CmdRuns sh c) (hr : SeqLoops sh rest) :
    SeqLoops sh (.cons c op rest) := by
  intro toks j hi chain s hq hhi hs
  rw [Seq.print] at hq hhi ⊢
  rw [length_append, length_cons] at hhi ⊢
  obtain ⟨hcmd, hop, htail⟩ := (holds_append _ _ _ _).1 hq
  have hput : Same toks (put toks (j + c.print.length) none) (j + c.print.length)
      (j + c.print.length + 1) := same_put _ (Nat.le_refl _) (Nat.lt_succ_self _)
  obtain ⟨toks₁, hsame₁, hset⟩ := h.chain hc chain
    (hcmd.same hput (.inl (Nat.le_refl _))) rfl hs
  have htail₁ : Holds toks₁ (j + c.print.length + 1) rest.print :=
    (htail.same hput (.inr (Nat.le_refl _))).same hsame₁ (.inr (Nat.le_succ _))
  rw [evalSeq]
  generalize (if goes chain s.last then evalCmd sh safety c s else s) = s₁ at hset ⊢
  -- the rest of the walk, run or passed over
  have hwalk : ∃ toks', Same toks₁ toks' (j + c.print.length + 1) hi ∧
      Settles (fun n => seqLoop sh (execSegment sh n) (j + c.print.length + 1) rest.print.length
          (j + c.print.length + 1) (chainKind op.word) 0 s₁.last toks₁ (embed s₁))
        ((if s₁.ctl = .none then evalSeq sh safety rest (op.allows s₁.last) s₁ else s₁).last,
          toks', embed (if s₁.ctl = .none then evalSeq sh safety rest (op.allows s₁.last) s₁
            else s₁)) := by
    by_cases hn : s₁.ctl = .none
    · rw [if_pos hn, ← goes_word]
      exact hr toks₁ _ hi _ s₁ htail₁ (by omega) hn
    · rw [if_neg hn]
      have hp : (embed s₁).pending = true := by
        rw [embed_pending]
        exact decide_eq_true hn
      obtain ⟨toks', hsame, hrun⟩ := seqLoop_pending hrest (chainKind op.word) s₁.last hp
        htail₁
      exact ⟨toks', hsame.mono (Nat.le_refl _) (by omega),
        Settles.congr (fun n => hrun _) (Settles.ret _)⟩
  obtain ⟨toks', hsame', hset'⟩ := hwalk
  refine ⟨toks', ((hput.mono (by omega) (by omega)).trans (hsame₁.mono (Nat.le_refl j)
    (by omega))).trans (hsame'.mono (by omega) (Nat.le_refl hi)), Settles.congr (fun n => ?_)
    (hset.bind (k := fun n (r : Bool × Out W) => if r.1 then some r.2
      else seqLoop sh (execSegment sh n) (j + c.print.length + 1) rest.print.length
        (j + c.print.length + 1) (chainKind op.word) 0 r.2.1 r.2.2.1 r.2.2.2) ?_)⟩
  · rw [seqLoop_cmd hc hcmd]
    exact seqLoop_op op hop
  · exact hset'

theorem SeqLoops.runs (h : SeqLoops sh q) : SeqRuns sh q := by
  intro toks lo hi s hq hhi hs
  obtain ⟨toks', hsame, hset⟩ := h toks lo hi 2 s hq hhi hs
  refine ⟨toks', hsame, Settles.succ (fun n => ?_) hset⟩
  rw [execTokenSeq, hhi, Nat.add_sub_cancel_left, embed_last]

/-! ## Simple commands -/

theorem isFuncDef_plain (h : Holds toks lo l)
    (hp : ∀ t ∈ l, Plain t.text) : isFuncDef toks lo (lo + l.length) = false := by
  unfold isFuncDef
  simp only [Bool.and_eq_false_iff, decide_eq_false_iff_not]
  match l, h, hp with
  | [], _, _ => exact .inl (.inr (by simp))
  | [t], _, _ => exact .inl (.inr (by simp))
  | t :: u :: l, h, hp =>
    refine .inr ?_
    rw [textAt_of_holds h.2]
    exact (plain_not_opener (hp u (by simp))).2.2.2

theorem isOpener_plain (h : Plain t) : isOpener t = false := by
  obtain ⟨h1, h2, h3, h4⟩ := plain_not_opener h
  simp [isOpener, h1, h2, h3, h4]

theorem execSegment_leaf {t : Tok} {s : St W}
    (h : Holds toks lo (t :: l)) (hp : Plain t.text) :
    execSegment sh (n + 1) lo (lo + (t :: l).length) toks s =
      some ((execLeaf sh (t :: l) s).1, toks, (execLeaf sh (t :: l) s).2) := by
  obtain ⟨h1, h2, h3, h4⟩ := plain_not_opener hp
  rw [execSegment, textAt_of_holds h, if_neg h1, if_neg h2, if_neg h3, if_neg h4,
    Nat.add_sub_cancel_left,
    argv_of_holds h]

theorem cmdRuns_simple {head : Tok} {args : List Tok}
    (hok : SimpleOk sh e (head :: args)) : CmdRuns sh (.simple head args) := by
  intro toks lo hi chain last s hq hhi hs hgo
  rw [Cmd.print] at hq hhi
  subst hhi
  obtain ⟨hex, hwd, hsame⟩ := expandVars_holds sh s.last (w := s.world) hq
  have hlen := length_expandAll sh s.last (head :: args) s.world
  have hplain := expandAll_plain hok s.last s.world
  have hctl := hok.control s.world s.last
  have hpend : (embed s).pending = false := by
    rw [embed_pending, hs]
    rfl
  have hskip : ¬((chain = 1 ∧ (embed s).last ≠ 0) ∨ (chain = -1 ∧ (embed s).last = 0)) := by
    rw [embed_last]
    simpa [goes, imp_iff_not_or] using hgo
  have hnot : (isOpener (textAt toks lo) ||
      isFuncDef toks lo (lo + (head :: args).length)) = false := by
    rw [textAt_of_holds hq, isOpener_plain (hok.plain head mem_cons_self),
      isFuncDef_plain hq hok.plain]
    rfl
  have hrun (n : Nat) : runChain sh (execSegment sh n) chain lo (lo + (head :: args).length) last
      toks (embed s) =
        (execSegment sh n lo (lo + (head :: args).length)
          (expandVars sh s.last lo (head :: args).length toks s.world).1
          { embed s with world := (expandVars sh s.last lo (head :: args).length toks s.world).2
            }).map fun r => (false, r.1, r.2.1, { r.2.2 with last := r.1 }) := by
    unfold runChain
    rw [if_neg (by rw [length_cons]; omega), hpend, if_neg Bool.false_ne_true, if_neg hskip,
      hnot, if_neg Bool.false_ne_true, Nat.add_sub_cancel_left]
    simp only [embed_last, embed_world]
  rw [evalCmd, evalSimple]
  generalize expandVars sh s.last lo (head :: args).length toks s.world = ev at *
  generalize expandAll sh s.last (head :: args) s.world = ex at *
  obtain ⟨words, w⟩ := ex
  cases words with
  | nil => simp at hlen
  | cons t ws =>
    have hleaf := execLeaf_embed (t :: ws) (s := { s with world := w }) hs
      (cons_ne_nil t ws) fun u us hu hf => (hctl u us hu hf).1
    have hlast : (execLeaf sh (t :: ws) (embed { s with world := w })).1 =
        (evalWords sh (t :: ws) { s with world := w }).last := by
      rw [← embed_last (evalWords sh (t :: ws) { s with world := w }), ← hleaf]
    refine ⟨ev.1, hsame, Settles.succ (fun n => ?_) (Settles.ret _)⟩
    rw [hrun, hwd, ← hlen, execSegment_leaf hex (hplain t mem_cons_self), embed_setWorld,
      Option.map_some]
    rw [hleaf, hlast]

/-! ## Conditionals -/

theorem arms_head (a : Arms) :
    ∃ t m, a.print = t :: m ∧ t.text ∈ [kElif, kElse, kFi] := by
  cases a with
  | fi => exact ⟨kw kFi, [], by rw [Arms.print], by decide⟩
  | els b => exact ⟨kw kElse, _, by rw [Arms.print], by decide⟩
  | elif c b rest => exact ⟨kw kElif, _, by rw [Arms.print], by decide⟩

/-- The arms of an `if`, from the keyword on. -/
def ArmsRun (sh : Rest W) (a : Arms) : Prop :=
  ∀ (toks : Toks) (pos hi : Nat) (s : Sem W), Holds toks pos a.print →
    hi = pos + a.print.length → s.ctl = .none →
    Gives (fun n =>
        if textAt toks pos = kFi then some (0, toks, embed s)
        else if textAt toks pos = kElse then
          execTokenSeq sh n (skipSemi toks (pos + 1) (hi - (pos + 1)))
            (findIn toks [kFi] (skipSemi toks (pos + 1) (hi - (pos + 1))) hi) toks (embed s)
        else if textAt toks pos = kElif then execIf sh n (pos + 1) hi toks (embed s)
        else some (0, toks, embed s))
      toks pos hi (evalArms sh safety a s)

/-- A condition, its branch and the arms behind it. -/
def evalBranch (sh : Rest W) (c b : Seq) (rest : Arms) (s : Sem W) : Sem W :=
  if (evalSeq sh safety c true s).ctl = .none then
    if (evalSeq sh safety c true s).last = 0 then
      evalSeq sh safety b true (evalSeq sh safety c true s)
    else evalArms sh safety rest (evalSeq sh safety c true s)
  else evalSeq sh safety c true s

theorem execIf_gives (hc : c.Ok sh e) (hb : b.Ok sh e)
    (hrc : SeqRuns sh c) (hrb : SeqRuns sh b) (hrest : ArmsRun sh rest)
    {pos : Nat}
    (hh : Holds toks pos (c.print ++ kw kThen :: (b.print ++ rest.print)))
    (hhi : hi = pos + (c.print ++ kw kThen :: (b.print ++ rest.print)).length)
    (hs : s.ctl = .none) :
    Gives (fun n => execIf sh n pos hi toks (embed s)) toks pos hi (evalBranch sh c b rest s) := by
  rw [length_append, length_cons, length_append] at hhi
  obtain ⟨hcp, hthen, hbr⟩ := (holds_append _ _ _ _).1 hh
  have hthenAt : findIn toks [kThen] pos hi = pos + c.print.length :=
    findIn_walk (walk_no_keyword hc (by decide)) hh (by decide) (by omega)
  obtain ⟨t, m, hrp, htk⟩ := arms_head rest
  have hrlen : 0 < rest.print.length := by
    rw [hrp]
    exact Nat.succ_pos _
  obtain ⟨toks₁, hsame₁, hset⟩ := hrc toks pos (pos + c.print.length) s hcp rfl hs
  have hbr₁ : Holds toks₁ (pos + c.print.length + 1) (b.print ++ rest.print) :=
    hbr.same hsame₁ (.inr (Nat.le_succ _))
  obtain ⟨hb₁, hrest₁⟩ := (holds_append _ _ _ _).1 hbr₁
  have hbodyEnd : findIn toks₁ [kElif, kElse, kFi] (pos + c.print.length + 1) hi =
      pos + c.print.length + 1 + b.print.length :=
    findIn_walk (t := t) (m := m) (walk_no_keyword hb (by decide)) (by rw [← hrp]; exact hbr₁) htk
      (by omega)
  refine Gives.succ (g := fun n => execTokenSeq sh n pos (pos + c.print.length) toks (embed s) >>=
    fun r =>
      let p := skipSemi r.2.1 (pos + c.print.length + 1) (hi - (pos + c.print.length + 1))
      let bodyEnd := findIn r.2.1 [kElif, kElse, kFi] p hi
      if r.1 = 0 then execTokenSeq sh n p bodyEnd r.2.1 r.2.2
      else if hi ≤ bodyEnd then some (0, r.2.1, r.2.2)
      else if textAt r.2.1 bodyEnd = kFi then some (0, r.2.1, r.2.2)
      else if textAt r.2.1 bodyEnd = kElse then
        let pos := skipSemi r.2.1 (bodyEnd + 1) (hi - (bodyEnd + 1))
        execTokenSeq sh n pos (findIn r.2.1 [kFi] pos hi) r.2.1 r.2.2
      else if textAt r.2.1 bodyEnd = kElif then execIf sh n (bodyEnd + 1) hi r.2.1 r.2.2
      else some (0, r.2.1, r.2.2)) (fun n => ?_) ?_
  · rw [execIf]
    rw [hthenAt, if_neg (by omega)]
  refine Gives.bind hset (hsame₁.mono (Nat.le_refl pos) (by omega)) ?_
  dsimp only
  rw [skipSemi_seq hb hb₁, hbodyEnd]
  have hwithin : Within e (evalSeq sh safety c true s) := within_seq c hc true s hs
  unfold evalBranch
  generalize evalSeq sh safety c true s = s₁ at hset hwithin ⊢
  by_cases hn : s₁.ctl = .none
  · rw [if_pos hn]
    by_cases h0 : s₁.last = 0
    · rw [if_pos h0]
      refine (hrb.gives hb₁ rfl hn (by omega) (by omega)).congr fun n => ?_
      rw [if_pos h0]
    · rw [if_neg h0]
      obtain ⟨rc, toks', u, hsame, heq, hset'⟩ := hrest toks₁ _ hi s₁ hrest₁ (by omega) hn
      refine ⟨rc, toks', u, hsame.mono (by omega) (Nat.le_refl hi), heq,
        Settles.congr (fun n => ?_) hset'⟩
      rw [if_neg h0, if_neg (by omega)]
  · rw [if_neg hn]
    have hp : (embed s₁).pending = true := by
      rw [embed_pending]
      exact decide_eq_true hn
    have h0 := hwithin.last hn
    obtain ⟨toks', hsame, hset'⟩ := execTokenSeq_pending hb hp hb₁
    refine ⟨_, toks', _, hsame.mono (by omega) (by omega), ?_, Settles.congr (fun n => ?_) hset'⟩
    · rw [embed_last]
      exact embed_setLast_self s₁
    · rw [if_pos h0]

theorem armsRun_fi : ArmsRun sh .fi := by
  intro toks pos hi s hh hhi hs
  have hk : textAt toks pos = kFi := textAt_of_holds hh
  refine (Gives.ret (r := 0) (t := embed s) ?_).congr fun n => ?_
  · rw [evalArms, embed_setLast]
  · rw [if_pos hk]

theorem armsRun_els (hb : b.Ok sh e) (hrb : SeqRuns sh b) :
    ArmsRun sh (.els b) := by
  intro toks pos hi s hh hhi hs
  rw [Arms.print] at hh hhi
  rw [length_cons, length_append, length_singleton] at hhi
  have hfi : findIn toks [kFi] (pos + 1) hi = pos + 1 + b.print.length :=
    findIn_walk (walk_no_keyword hb (by decide)) hh.2 (by decide) (by omega)
  have hbp := ((holds_append _ _ _ _).1 hh.2).1
  rw [evalArms]
  refine (hrb.gives hbp rfl hs (Nat.le_succ pos) (by omega)).congr fun n => ?_
  have hk : textAt toks pos = kElse := textAt_of_holds hh
  rw [hk, if_neg (by decide), if_pos rfl, skipSemi_seq hb hbp, hfi]

theorem armsRun_elif (hc : c.Ok sh e) (hb : b.Ok sh e)
    (hrc : SeqRuns sh c) (hrb : SeqRuns sh b) (hrest : ArmsRun sh rest) :
    ArmsRun sh (.elif c b rest) := by
  intro toks pos hi s hh hhi hs
  rw [Arms.print] at hh hhi
  rw [length_cons] at hhi
  have hk : textAt toks pos = kElif := textAt_of_holds hh
  obtain ⟨rc, toks', t, hsame, heq, hset⟩ :=
    execIf_gives hc hb hrc hrb hrest hh.2 (by omega : hi = pos + 1 + _) hs
  rw [evalArms]
  refine ⟨rc, toks', t, hsame.mono (Nat.le_succ pos) (Nat.le_refl hi), heq,
    Settles.congr (fun n => ?_) hset⟩
  rw [hk, if_neg (by decide), if_neg (by decide), if_pos rfl]

theorem cmdRuns_cond (hc : c.Ok sh e) (hb : b.Ok sh e)
    (hrc : SeqRuns sh c) (hrb : SeqRuns sh b) (hrest : ArmsRun sh rest) :
    CmdRuns sh (.cond c b rest) := by
  intro toks lo hi chain last s hh hhi hs hgo
  rw [Cmd.print] at hh hhi
  rw [length_cons] at hhi
  have hk : textAt toks lo = kIf := textAt_of_holds hh
  obtain ⟨rc, toks', t, hsame, heq, hset⟩ :=
    execIf_gives hc hb hrc hrb hrest hh.2 (by omega : hi = lo + 1 + _) hs
  rw [evalCmd]
  refine runChain_gives (by rw [hk]; rfl) (by omega) hs hgo (Gives.succ (fun n => ?_)
    ⟨rc, toks', t, hsame.mono (Nat.le_succ lo) (Nat.le_refl hi), heq, hset⟩)
  rw [execSegment, hk, if_pos rfl]

/-! ## Groups -/

theorem matchClose_walk {P : Word → Prop} {d' : Nat}
    (hw : Walk P d l d') : ∀ {i : Nat} (n : Nat), Holds toks i l →
    matchClose toks kOpen kClose i (l.length + n) (d + 1) =
      matchClose toks kOpen kClose (i + l.length) n (d' + 1) := by
  induction hw with
  | nil =>
    intro i n _
    rw [length_nil, Nat.zero_add, Nat.add_zero]
  | @cons d e d' t l hp he _ ih =>
    intro i n h
    have hidx : i + 1 + l.length = i + (l.length + 1) := by omega
    rw [length_cons, Nat.add_right_comm, matchClose, h.1]
    dsimp only
    by_cases ho : t.text = kOpen
    · have hd : depthDelta t.text = 1 := by
        rw [ho]
        rfl
      have hde : (d : Int) + 1 = e := by omega
      rw [if_pos ho, hde, ih n h.2, hidx]
    · rw [if_neg ho]
      by_cases hc : t.text = kClose
      · have hd : depthDelta t.text = -1 := by
          rw [hc]
          rfl
        have hde : (d : Int) + 1 - 1 = e + 1 := by omega
        rw [if_pos hc, if_neg (by omega), hde, ih n h.2, hidx]
      · have hde : (d : Int) + 1 + depthDelta t.text = e + 1 := by omega
        rw [if_neg hc, hde, ih n h.2, hidx]

theorem cmdRuns_group (hb : b.Ok sh e) (hrb : SeqRuns sh b) :
    CmdRuns sh (.group b) := by
  intro toks lo hi chain last s hh hhi hs hgo
  rw [Cmd.print] at hh hhi
  rw [length_cons, length_append, length_singleton] at hhi
  have hk : textAt toks lo = kOpen := textAt_of_holds hh
  obtain ⟨hbp, hclose⟩ := (holds_append _ _ _ _).1 hh.2
  have hend : matchClose toks kOpen kClose (lo + 1) (hi - (lo + 1)) 1 =
      lo + 1 + b.print.length := by
    have hn : hi - (lo + 1) = b.print.length + 1 := by omega
    have hw : Walk (fun _ => True) 0 b.print 0 := walk_seq b hb fun _ _ _ => trivial
    have := matchClose_walk hw 1 hbp
    rw [Nat.cast_zero, Int.zero_add] at this
    rw [hn, this, matchClose, hclose.1]
    rfl
  rw [evalCmd]
  refine runChain_gives (by rw [hk]; rfl) (by omega) hs hgo (Gives.succ (fun n => ?_)
    (hrb.gives hbp rfl hs (Nat.le_succ lo) (by omega)))
  rw [execSegment, hk, if_neg (by decide), if_neg (by decide), if_neg (by decide), if_pos rfl, hend]

/-! ## Loops -/

theorem plain_not_keyword {kws : List Word} (h : Plain t)
    (hk : ∀ k ∈ kws, k ∈ [kThen, kElif, kElse, kDo] ∨ depthDelta k = -1) : t ∉ kws :=
  not_mem_of_shows hk (.inl (.inl h))

theorem plain_ne_semi (h : Plain t) : t ≠ kSemi := shows_ne_semi (.inl h)

theorem forLoop_gives {body : Seq} (hb : body.Ok sh (e + 1)) (hrb : SeqRuns sh body)
    (var : Tok) (lo hi : Nat) {saved : Toks} {bodyLo bodyHi : Nat}
    (hbody : Holds saved bodyLo body.print)
    (hbhi : bodyHi = bodyLo + body.print.length) (hlo : lo ≤ bodyLo) (hhi : bodyHi ≤ hi)
    (semi : Bool) : ∀ (ws : List Tok) (i : Nat) (last : Int) (toks : Toks) (s : Sem W),
    (∀ t ∈ ws, Plain t.text) → Holds toks i (ws ++ semis semi) →
    i + (ws ++ semis semi).length ≤ bodyLo → s.ctl = .none →
    Gives (fun n => forLoop sh (execTokenSeq sh n) var saved bodyLo bodyHi i
        (ws ++ semis semi).length last toks (embed s)) toks lo hi
      (evalFor sh var (evalSeq sh safety body true) ws last s)
  | [], i, last, toks, s, _, hh, _, hs => by
    rw [evalFor]
    refine (Gives.ret (r := last) (t := embed s) (embed_setLast s last)).congr fun n => ?_
    cases semi with
    | false => rfl
    | true =>
      change forLoop sh (execTokenSeq sh n) var saved bodyLo bodyHi i 1 last toks (embed s) = _
      rw [forLoop, hh.1]
      rfl
  | w :: ws, i, last, toks, s, hp, hh, hle, hs => by
    rw [cons_append] at hh hle ⊢
    rw [length_cons] at hle ⊢
    have hw := plain_ne_semi (hp w mem_cons_self)
    rw [evalFor]
    cases hv : sh.setVar s.world var w with
    | none =>
      refine (Gives.ret (r := 1) (t := embed s) (embed_setLast s 1)).congr fun n => ?_
      rw [forLoop, hh.1]
      dsimp only
      rw [if_neg hw, embed_world, hv]
    | some world =>
      have hbr : Holds (restore toks saved bodyLo bodyHi) bodyLo body.print :=
        holds_restore hbody (Nat.le_refl _) (by omega)
      obtain ⟨toks₁, hsame₁, hset⟩ := hrb _ bodyLo bodyHi { s with world := world } hbr hbhi hs
      have hsame : Same toks toks₁ bodyLo bodyHi := same_restore.trans hsame₁
      have hwithin : Within (e + 1) (evalSeq sh safety body true { s with world := world }) :=
        within_seq body hb true _ hs
      dsimp only
      generalize evalSeq sh safety body true { s with world := world } = s₁ at hset hwithin ⊢
      refine Gives.congr (g := fun n => execTokenSeq sh n bodyLo bodyHi
          (restore toks saved bodyLo bodyHi) (embed { s with world := world }) >>= fun r =>
        if (consume r.2.2).1 then some (r.1, r.2.1, (consume r.2.2).2)
        else forLoop sh (execTokenSeq sh n) var saved bodyLo bodyHi (i + 1)
          (ws ++ semis semi).length r.1 r.2.1 (consume r.2.2).2) (fun n => ?_) ?_
      · rw [forLoop, hh.1]
        dsimp only
        rw [if_neg hw, embed_world, hv]
        dsimp only
        rw [embed_setWorld]
      refine Gives.bind hset (hsame.mono hlo hhi) ?_
      rw [consume_embed]
      cases hl : s₁.ctl.leave.1 with
      | true =>
        refine (Gives.ret (r := s₁.last) (t := embed { s₁ with ctl := s₁.ctl.leave.2 })
          ?_).congr fun n => ?_
        · rw [embed_setLast]
          rfl
        · rfl
      | false =>
        have hnone := hwithin.leave.2 hl
        exact forLoop_gives hb hrb var lo hi hbody hbhi hlo hhi semi ws (i + 1) s₁.last toks₁ _
          (fun t ht => hp t (mem_cons_of_mem _ ht))
          (hh.2.same hsame (.inl (by omega))) (by omega) hnone

theorem cmdRuns_for {var : Tok} {words : List Tok} {semi : Bool} {body : Seq}
    (hw : ∀ t ∈ words, Plain t.text) (hb : body.Ok sh (e + 1)) (hrb : SeqRuns sh body) :
    CmdRuns sh (.for var words semi body) := by
  intro toks lo hi chain last s hh hhi hs hgo
  rw [Cmd.print] at hh hhi
  simp only [length_cons, length_append, length_nil] at hhi
  have hk : textAt toks lo = kFor := textAt_of_holds hh
  obtain ⟨_, hvar, hin, hrest⟩ := hh
  have hin' : textAt toks (lo + 1 + 1) = kIn := by
    unfold textAt
    rw [hin]
    rfl
  have hlist : Holds toks (lo + 1 + 1 + 1) ((words ++ semis semi) ++ kw kDo ::
      (body.print ++ [kw kDone])) := by
    rwa [append_assoc]
  have hlen : (words ++ semis semi).length = _ := length_append
  have hwalk : Walk (· ∉ [kDo]) 0 (words ++ semis semi) 0 :=
    (walk_plain (fun _ t ht => plain_not_keyword ht (by decide)) hw).append
      (walk_semis (fun _ => by decide) semi)
  have hdo : findIn toks [kDo] (lo + 1 + 2) hi = lo + 1 + 2 + (words ++ semis semi).length :=
    findIn_walk hwalk hlist (by decide) (by omega)
  obtain ⟨hws, _, hbd⟩ := (holds_append _ _ _ _).1 hlist
  generalize hdoAt : lo + 1 + 2 + (words ++ semis semi).length = doAt at *
  obtain ⟨hbp, _⟩ := (holds_append _ _ _ _).1 hbd
  have hdone : findIn toks [kDone] (doAt + 1) hi = doAt + 1 + body.print.length :=
    findIn_walk (walk_no_keyword hb (by decide)) hbd (by decide) (by omega)
  have hg := forLoop_gives hb hrb var lo hi hbp rfl
    (by omega) (by omega) semi words (lo + 1 + 2) 0 toks s hw hws (by omega) hs
  rw [evalCmd]
  refine runChain_gives (by rw [hk]; rfl) (by omega) hs hgo
    (Gives.succ (fun n => ?_) (Gives.succ (f := fun n => execFor sh n (lo + 1) hi toks (embed s))
      (fun n => ?_) hg))
  · rw [execSegment, hk, if_neg (by decide), if_pos rfl]
  · rw [execFor, hvar]
    dsimp only
    rw [if_neg (by omega), if_neg (not_or.2 ⟨by omega, not_not.2 hin'⟩), hdo, if_neg (by omega),
      hdone, if_neg (by omega), skipSemi_seq hb hbp]
    congr 1
    omega

theorem whileLoop_gives (hc : c.Ok sh (e + 1)) (hb : b.Ok sh (e + 1))
    (hrc : SeqRuns sh c) (hrb : SeqRuns sh b) (hi : Nat) {saved : Toks}
    {pos doAt bodyLo bodyHi : Nat}
    (hcp : Holds saved pos c.print) (hdo : doAt = pos + c.print.length) (hdb : doAt ≤ bodyLo)
    (hbp : Holds saved bodyLo b.print) (hbhi : bodyHi = bodyLo + b.print.length)
    (hhi : bodyHi ≤ hi) : ∀ (cap : Nat) (last : Int) (toks : Toks) (s : Sem W), s.ctl = .none →
    Gives (fun n => whileLoop (execTokenSeq sh n) saved pos doAt bodyLo bodyHi cap last toks
        (embed s)) toks pos hi
      (evalWhile (evalSeq sh safety c true) (evalSeq sh safety b true) cap last s)
  | 0, last, toks, s, hs => by
    rw [evalWhile]
    exact Gives.ret (embed_setLast s last)
  | cap + 1, last, toks, s, hs => by
    have hcr : Holds (restore (restore toks saved pos doAt) saved bodyLo bodyHi) pos c.print :=
      (holds_restore hcp (Nat.le_refl _) (by omega)).same same_restore (.inl (by omega))
    obtain ⟨toks₁, hsame₁, hset⟩ := hrc _ pos doAt s hcr hdo hs
    have hsame : Same toks toks₁ pos bodyHi :=
      ((same_restore.mono (Nat.le_refl pos) (by omega)).trans
        (same_restore.mono (by omega) (Nat.le_refl bodyHi))).trans
        (hsame₁.mono (Nat.le_refl pos) (by omega))
    have hwc : Within (e + 1) (evalSeq sh safety c true s) := within_seq c hc true s hs
    rw [evalWhile]
    dsimp only
    generalize evalSeq sh safety c true s = s₁ at hset hwc ⊢
    refine Gives.congr (g := fun n => execTokenSeq sh n pos doAt
        (restore (restore toks saved pos doAt) saved bodyLo bodyHi) (embed s) >>= fun r =>
      if r.1 ≠ 0 then some (last, r.2.1, r.2.2)
      else execTokenSeq sh n bodyLo bodyHi (restore r.2.1 saved bodyLo bodyHi) r.2.2 >>= fun r =>
        if (consume r.2.2).1 then some (r.1, r.2.1, (consume r.2.2).2)
        else whileLoop (execTokenSeq sh n) saved pos doAt bodyLo bodyHi cap r.1 r.2.1
          (consume r.2.2).2) (fun n => ?_) ?_
    · rw [whileLoop]
    refine Gives.bind hset (hsame.mono (Nat.le_refl pos) hhi) ?_
    by_cases hstop : s₁.ctl = .none ∧ s₁.last ≠ 0
    · rw [if_pos hstop]
      refine (Gives.ret (embed_setLast s₁ last)).congr fun n => ?_
      rw [if_pos hstop.2]
    · rw [if_neg hstop]
      have h0 : s₁.last = 0 := by
        by_cases hn : s₁.ctl = .none
        · by_contra hne
          exact hstop ⟨hn, hne⟩
        · exact hwc.last hn
      have hbr : Holds (restore toks₁ saved bodyLo bodyHi) bodyLo b.print :=
        holds_restore hbp (Nat.le_refl _) (by omega)
      -- the body, run or passed over
      have hbody : ∃ toks', Same (restore toks₁ saved bodyLo bodyHi) toks' bodyLo bodyHi ∧
          Settles (fun n => execTokenSeq sh n bodyLo bodyHi (restore toks₁ saved bodyLo bodyHi)
              (embed s₁))
            ((if s₁.ctl = .none then evalSeq sh safety b true s₁ else s₁).last, toks',
              embed (if s₁.ctl = .none then evalSeq sh safety b true s₁ else s₁)) := by
        by_cases hn : s₁.ctl = .none
        · rw [if_pos hn]
          exact hrb _ bodyLo bodyHi s₁ hbr hbhi hn
        · rw [if_neg hn]
          have hp : (embed s₁).pending = true := by
            rw [embed_pending]
            exact decide_eq_true hn
          have := execTokenSeq_pending hb hp hbr
          rwa [← hbhi, embed_last] at this
      have hwb : Within (e + 1) (if s₁.ctl = .none then evalSeq sh safety b true s₁ else s₁) := by
        split
        · rename_i hn
          exact within_seq b hb true s₁ hn
        · exact hwc
      generalize (if s₁.ctl = .none then evalSeq sh safety b true s₁ else s₁) = s₂ at hbody hwb ⊢
      obtain ⟨toks₂, hsame₂, hset₂⟩ := hbody
      have hsame₁₂ : Same toks₁ toks₂ bodyLo bodyHi := same_restore.trans hsame₂
      refine Gives.congr (g := fun n => execTokenSeq sh n bodyLo bodyHi
          (restore toks₁ saved bodyLo bodyHi) (embed s₁) >>= fun r =>
        if (consume r.2.2).1 then some (r.1, r.2.1, (consume r.2.2).2)
        else whileLoop (execTokenSeq sh n) saved pos doAt bodyLo bodyHi cap r.1 r.2.1
          (consume r.2.2).2) (fun n => if_neg (not_not.2 h0)) ?_
      refine Gives.bind hset₂ (hsame₁₂.mono (by omega) hhi) ?_
      rw [consume_embed]
      cases hl : s₂.ctl.leave.1 with
      | true =>
        refine (Gives.ret (r := s₂.last) (t := embed { s₂ with ctl := s₂.ctl.leave.2 })
          ?_).congr fun n => ?_
        · rw [embed_setLast]
          rfl
        · rfl
      | false =>
        exact whileLoop_gives hc hb hrc hrb hi hcp hdo hdb hbp hbhi hhi cap s₂.last toks₂ _
          (hwb.leave.2 hl)

theorem cmdRuns_while (hc : c.Ok sh (e + 1)) (hb : b.Ok sh (e + 1))
    (hrc : SeqRuns sh c) (hrb : SeqRuns sh b) : CmdRuns sh (.while c b) := by
  intro toks lo hi chain last s hh hhi hs hgo
  rw [Cmd.print] at hh hhi
  simp only [length_cons, length_append, length_nil] at hhi
  have hk : textAt toks lo = kWhile := textAt_of_holds hh
  obtain ⟨hcp, _, hbd⟩ := (holds_append _ _ _ _).1 hh.2
  obtain ⟨hbp, _⟩ := (holds_append _ _ _ _).1 hbd
  have hdo : findIn toks [kDo] (lo + 1) hi = lo + 1 + c.print.length :=
    findIn_walk (walk_no_keyword hc (by decide)) hh.2 (by decide) (by omega)
  have hdone : findIn toks [kDone] (lo + 1 + c.print.length + 1) hi =
      lo + 1 + c.print.length + 1 + b.print.length :=
    findIn_walk (walk_no_keyword hb (by decide)) hbd (by decide) (by omega)
  have hg := whileLoop_gives hc hb hrc hrb hi hcp rfl (Nat.le_succ _) hbp rfl (by omega)
    safety 0 toks s hs
  obtain ⟨rc, toks', t, hsame, heq, hset⟩ := hg
  rw [evalCmd]
  refine runChain_gives (by rw [hk]; rfl) (by omega) hs hgo (Gives.succ (fun n => ?_)
    (Gives.succ (f := fun n => execWhile sh n (lo + 1) hi toks (embed s)) (fun n => ?_)
      ⟨rc, toks', t, hsame.mono (Nat.le_succ lo) (Nat.le_refl hi), heq, hset⟩))
  · rw [execSegment, hk, if_neg (by decide), if_neg (by decide), if_pos rfl]
  · rw [execWhile, hdo, if_neg (by omega), hdone, if_neg (by omega), skipSemi_seq hb hbp]

/-! ## Lines -/

mutual
theorem seq_loops : ∀ {e : Nat} (q : Seq), q.Ok sh e → SeqLoops sh q
  | _, .last c _, h => seqLoops_last h (cmd_runs c h)
  | _, .cons c _ rest, h => seqLoops_cons h.1 h.2 (cmd_runs c h.1) (seq_loops rest h.2)

theorem cmd_runs : ∀ {e : Nat} (c : Cmd), c.Ok sh e → CmdRuns sh c
  | _, .simple _ _, h => cmdRuns_simple h
  | _, .cond c b rest, h => cmdRuns_cond h.1 h.2.1 (seq_loops c h.1).runs (seq_loops b h.2.1).runs
      (arms_run rest h.2.2)
  | _, .for _ _ _ body, h => cmdRuns_for h.2.1 h.2.2 (seq_loops body h.2.2).runs
  | _, .while c b, h => cmdRuns_while h.1 h.2 (seq_loops c h.1).runs (seq_loops b h.2).runs
  | _, .group b, h => cmdRuns_group h (seq_loops b h).runs

theorem arms_run : ∀ {e : Nat} (a : Arms), a.Ok sh e → ArmsRun sh a
  | _, .fi, _ => armsRun_fi
  | _, .els b, h => armsRun_els h (seq_loops b h).runs
  | _, .elif c b rest, h => armsRun_elif h.1 h.2.1 (seq_loops c h.1).runs (seq_loops b h.2.1).runs
      (arms_run rest h.2.2)
end

/-- On the tokens of a line the walker settles on what the structure of the line
prescribes: the same commands on the same words in the same order, the same status, and no
control state left. -/
theorem execTokenSeq_runs (sh : Rest W) (q : Seq) (hq : q.Ok sh 0) (toks : Toks)
    (h : Holds toks 0 q.print) (s : Sem W) (hs : s.ctl = .none) :
    ∃ toks', Settles (fun n => execTokenSeq sh n 0 q.print.length toks (embed s))
        ((evalSeq sh safety q true s).last, toks', embed (evalSeq sh safety q true s)) ∧
      (embed (evalSeq sh safety q true s)).pending = false := by
  obtain ⟨toks', _, hset⟩ :=
    (seq_loops q hq).runs toks 0 q.print.length s h (Nat.zero_add _).symm hs
  have hnone : (evalSeq sh safety q true s).ctl = .none :=
    Within.zero (within_seq q hq true s hs)
  refine ⟨toks', hset, ?_⟩
  rw [embed_pending, hnone]
  rfl

/-! ## A shell that counts -/

def counting : Rest Nat where
  expand w _ t := (t, w)
  setVar w _ _ := some w
  isFunc _ _ := false
  leaf w _ _ := (0, w + 1)

theorem counting_expandAll (last : Int) (l : List Tok) (w : Nat) :
    expandAll counting last l w = (l, w) := by
  induction l generalizing w with
  | nil => rfl
  | cons t l ih =>
    have h : counting.expand w last t = (t, w) := rfl
    rw [expandAll, h, ih]

theorem counting_ok {t : Tok} {args : List Tok} (hp : ∀ u ∈ t :: args, Plain u.text)
    (hr : t.text ≠ kReturn) (hc : count args ≤ d) : SimpleOk counting d (t :: args) where
  plain := hp
  expanded u hu _ _ := hp u hu
  control w last u us h _ := by
    rw [counting_expandAll] at h
    obtain ⟨rfl, rfl⟩ := List.cons.inj h
    exact ⟨hr, fun _ => hc⟩

def single (t : Word) : Cmd := .simple (kw t) []

/-- `while a; do b; done`, with the two commands. -/
def whileLine (a b : Word) : Seq :=
  .last (.while (.last (single a) true) (.last (single b) true)) false

theorem whileLine_ok {a b : Word} (ha : Plain a ∧ a ≠ kReturn)
    (hb : Plain b ∧ b ≠ kReturn) : (whileLine a b).Ok counting d := by
  refine ⟨counting_ok ?_ ha.2 (Nat.succ_le_succ (Nat.zero_le d)),
    counting_ok ?_ hb.2 (Nat.succ_le_succ (Nat.zero_le d))⟩
  · intro u hu
    rw [mem_singleton.1 hu]
    exact ha.1
  · intro u hu
    rw [mem_singleton.1 hu]
    exact hb.1

/-- `while t; do break; done` -/
theorem execTokenSeq_runs_break :
    ∃ toks', Settles (fun n => execTokenSeq counting n 0
        (whileLine ['t'] kBreak).print.length (toksOf (whileLine ['t'] kBreak).print)
        (embed ⟨0, 0, .none⟩))
      ((evalSeq counting safety (whileLine ['t'] kBreak) true ⟨0, 0, .none⟩).last, toks',
        embed (evalSeq counting safety (whileLine ['t'] kBreak) true ⟨0, 0, .none⟩)) ∧
      (embed (evalSeq counting safety (whileLine ['t'] kBreak) true ⟨0, 0, .none⟩)).pending =
        false :=
  execTokenSeq_runs counting (whileLine ['t'] kBreak)
    (whileLine_ok (by decide) (by decide)) _ (holds_toksOf _) ⟨0, 0, .none⟩ rfl

theorem counting_while {a b : Word} (ha : a ≠ kBreak ∧ a ≠ kContinue)
    (hb : b ≠ kBreak ∧ b ≠ kContinue) (cap' : Nat) : ∀ (cap : Nat) (last : Int) (s : Sem Nat),
    s.ctl = .none →
    (evalWhile (evalSeq counting cap' (.last (single a) true) true)
      (evalSeq counting cap' (.last (single b) true) true) cap last s).world = s.world + 2 * cap
  | 0, _, _, _ => rfl
  | cap + 1, last, s, hs => by
    have hstep {c : Word} (hc : c ≠ kBreak ∧ c ≠ kContinue) (t : Sem Nat) :
        evalSeq counting cap' (.last (single c) true) true t =
          { t with world := t.world + 1, last := 0 } := by
      simp [evalSeq, single, evalCmd, evalSimple, counting_expandAll, evalWords, kw, hc.1, hc.2]
      simp [counting]
    rw [evalWhile, hstep ha, hstep hb]
    simp only [hs, ne_eq, not_true_eq_false, and_false, if_false, if_true, Ctl.leave]
    rw [if_neg Bool.false_ne_true, counting_while ha hb cap' cap _ _ rfl]
    dsimp only
    omega

/-- A `break` outside a loop stays pending; and a loop whose condition never fails stops after
the cap, where its structure prescribes no end. -/
theorem execTokenSeq_runs_uncapped :
    (¬ ∀ (d : Nat) (q : Seq), q.Ok counting d →
      ∃ (toks' : Toks) (s' : Sem Nat), Settles (fun n => execTokenSeq counting n 0 q.print.length
          (toksOf q.print) (embed ⟨0, 0, .none⟩)) (s'.last, toks', embed s') ∧
        (embed s').pending = false) ∧
    ¬ ∀ (d : Nat) (q : Seq), q.Ok counting d →
      ∃ (toks' : Toks) (s' : Sem Nat), Settles (fun n => execTokenSeq counting n 0 q.print.length
          (toksOf q.print) (embed ⟨0, 0, .none⟩)) (s'.last, toks', embed s') ∧
        ∀ᶠ cap in Filter.atTop, evalSeq counting cap q true ⟨0, 0, .none⟩ = s' := by
  constructor
  · intro h
    have hsimple : SimpleOk counting 1 [kw kBreak] :=
      counting_ok (by decide) (by decide) (by decide)
    have hok : (Seq.last (single kBreak) false).Ok counting 1 := hsimple
    obtain ⟨toks', s', hset, hpend⟩ := h 1 _ hok
    obtain ⟨toks'', _, hset'⟩ := (seq_loops _ hok).runs (toksOf _) 0 _
      ⟨0, 0, .none⟩ (holds_toksOf _) (Nat.zero_add _).symm rfl
    have heq := congrArg (fun r : Out Nat => r.2.2) (Settles.unique hset hset')
    dsimp only at heq
    rw [heq] at hpend
    exact absurd hpend (by decide)
  · intro h
    have hok : (whileLine ['t'] ['b']).Ok counting 0 := whileLine_ok (by decide) (by decide)
    obtain ⟨toks', s', hset, hcap⟩ := h 0 _ hok
    obtain ⟨toks'', _, hset'⟩ := (seq_loops _ hok).runs (toksOf _) 0 _
      ⟨0, 0, .none⟩ (holds_toksOf _) (Nat.zero_add _).symm rfl
    have heq := congrArg (fun r : Out Nat => r.2.2.world) (Settles.unique hset hset')
    rw [embed_world, embed_world] at heq
    have hworld (cap : Nat) :
        (evalSeq counting cap (whileLine ['t'] ['b']) true ⟨0, 0, .none⟩).world = 2 * cap := by
      have := counting_while (a := ['t']) (b := ['b']) (by decide) (by decide) cap cap 0
        ⟨0, 0, .none⟩ rfl
      rw [Nat.zero_add] at this
      exact this
    obtain ⟨cap, hgt, hcap⟩ := ((Filter.eventually_gt_atTop safety).and hcap).exists
    have := hworld cap
    rw [hcap, heq, hworld] at this
    omega

end AdventOS.Shell
