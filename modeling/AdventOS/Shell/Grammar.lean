import AdventOS.Shell.Control

/-!
# Lines of the shell and what they mean

The syntax of a line, its tokens, and the structural meaning of its constructs: `&&` and
`||` on the last status, one branch of an `if`, one round of a loop for each word or each
true condition, `break` and `continue` that unwind the loops around them.
-/
namespace AdventOS.Shell

/-! ## Syntax -/

inductive Chain
  | seq
  | and
  | or
  deriving DecidableEq

mutual
/-- Commands with chain operators between them; a semicolon may stand behind the last. -/
inductive Seq
  | last (c : Cmd) (semi : Bool)
  | cons (c : Cmd) (op : Chain) (rest : Seq)

inductive Cmd
  | simple (head : Tok) (args : List Tok)
  | cond (c b : Seq) (rest : Arms)
  | for (var : Tok) (words : List Tok) (semi : Bool) (body : Seq)
  | while (c b : Seq)
  | group (b : Seq)

/-- What stands behind the first branch of an `if`. -/
inductive Arms
  | fi
  | els (b : Seq)
  | elif (c b : Seq) (rest : Arms)
end

def kw (t : Word) : Tok := ⟨t, false⟩

def Chain.word : Chain → Word
  | .seq => kSemi
  | .and => kAnd
  | .or => kOr

def semis (b : Bool) : List Tok := if b then [kw kSemi] else []

mutual
def Seq.print : Seq → List Tok
  | .last c semi => c.print ++ semis semi
  | .cons c op rest => c.print ++ kw op.word :: rest.print

def Cmd.print : Cmd → List Tok
  | .simple head args => head :: args
  | .cond c b rest => kw kIf :: (c.print ++ kw kThen :: (b.print ++ rest.print))
  | .for var words semi body =>
    kw kFor :: var :: kw kIn :: (words ++ (semis semi ++ kw kDo :: (body.print ++ [kw kDone])))
  | .while c b => kw kWhile :: (c.print ++ kw kDo :: (b.print ++ [kw kDone]))
  | .group b => kw kOpen :: (b.print ++ [kw kClose])

def Arms.print : Arms → List Tok
  | .fi => [kw kFi]
  | .els b => kw kElse :: (b.print ++ [kw kFi])
  | .elif c b rest => kw kElif :: (c.print ++ kw kThen :: (b.print ++ rest.print))
end

/-! ## Meaning -/

/-- The control state: on, or out of a loop and `k` further ones, the last of which ends
(`brk`) or goes on with its next round (`cont`). -/
inductive Ctl
  | none
  | brk (k : Nat)
  | cont (k : Nat)
  deriving DecidableEq

/-- Whether the loop ends, and what is left for the loops around it. -/
def Ctl.leave : Ctl → Bool × Ctl
  | .none => (false, .none)
  | .brk 0 => (true, .none)
  | .brk (k + 1) => (true, .brk k)
  | .cont 0 => (false, .none)
  | .cont (k + 1) => (true, .cont k)

structure Sem (W : Type) where
  world : W
  last : Int
  ctl : Ctl

variable {W : Type}

def expandAll (sh : Rest W) (last : Int) : List Tok → W → List Tok × W
  | [], w => ([], w)
  | t :: ts, w =>
    let r := sh.expand w last t
    let rs := expandAll sh last ts r.2
    (r.1 :: rs.1, rs.2)

def evalWords (sh : Rest W) (words : List Tok) (s : Sem W) : Sem W :=
  match words with
  | [] => { s with last := 0 }
  | t :: args =>
    if sh.isFunc s.world t.text = false ∧ t.text = kBreak then
      { s with last := 0, ctl := .brk (count args - 1) }
    else if sh.isFunc s.world t.text = false ∧ t.text = kContinue then
      { s with last := 0, ctl := .cont (count args - 1) }
    else
      let r := sh.leaf s.world s.last words
      { s with world := r.2, last := r.1 }

def evalSimple (sh : Rest W) (words : List Tok) (s : Sem W) : Sem W :=
  let e := expandAll sh s.last words s.world
  evalWords sh e.1 { s with world := e.2 }

/-- A `for` with `last` for the status so far. One whose variable cannot be set fails. -/
def evalFor (sh : Rest W) (var : Tok) (body : Sem W → Sem W) : List Tok → Int → Sem W → Sem W
  | [], last, s => { s with last }
  | w :: ws, _, s =>
    match sh.setVar s.world var w with
    | .none => { s with last := 1 }
    | some world =>
      let s := body { s with world := world }
      let s' := { s with ctl := s.ctl.leave.2 }
      if s.ctl.leave.1 then s' else evalFor sh var body ws s.last s'

/-- A `while` of at most `cap` rounds. -/
def evalWhile (c b : Sem W → Sem W) : Nat → Int → Sem W → Sem W
  | 0, last, s => { s with last }
  | cap + 1, last, s =>
    let s := c s
    if s.ctl = .none ∧ s.last ≠ 0 then { s with last := last }
    else
      let s := if s.ctl = .none then b s else s
      let s' := { s with ctl := s.ctl.leave.2 }
      if s.ctl.leave.1 then s' else evalWhile c b cap s.last s'

def Chain.allows (op : Chain) (status : Int) : Bool :=
  match op with
  | .seq => true
  | .and => status = 0
  | .or => status ≠ 0

mutual
/-- The commands from left to right; `go` says whether the first one is to run. -/
def evalSeq (sh : Rest W) (cap : Nat) : Seq → Bool → Sem W → Sem W
  | .last c _, go, s => if go then evalCmd sh cap c s else s
  | .cons c op rest, go, s =>
    let s := if go then evalCmd sh cap c s else s
    if s.ctl = .none then evalSeq sh cap rest (op.allows s.last) s else s

def evalCmd (sh : Rest W) (cap : Nat) : Cmd → Sem W → Sem W
  | .simple head args, s => evalSimple sh (head :: args) s
  | .cond c b rest, s =>
    let s := evalSeq sh cap c true s
    if s.ctl = .none then
      if s.last = 0 then evalSeq sh cap b true s else evalArms sh cap rest s
    else s
  | .for var words _ body, s => evalFor sh var (evalSeq sh cap body true) words 0 s
  | .while c b, s => evalWhile (evalSeq sh cap c true) (evalSeq sh cap b true) cap 0 s
  | .group b, s => evalSeq sh cap b true s

def evalArms (sh : Rest W) (cap : Nat) : Arms → Sem W → Sem W
  | .fi, s => { s with last := 0 }
  | .els b, s => evalSeq sh cap b true s
  | .elif c b rest, s =>
    let s := evalSeq sh cap c true s
    if s.ctl = .none then
      if s.last = 0 then evalSeq sh cap b true s else evalArms sh cap rest s
    else s
end

/-! ## Lines of the language -/

/-- A word that the executor does not look at. -/
def Plain (t : Word) : Prop := depthDelta t = 0 ∧ chainKind t = 0 ∧ t ∉ [kThen, kElif, kElse, kDo]

instance : DecidablePred Plain := fun _ => inferInstanceAs (Decidable (_ ∧ _ ∧ _))

/-- A simple command below `d` loops: its words are plain and stay so when expanded, and it
is no `return` and no `break` or `continue` of more than `d` loops. -/
structure SimpleOk (sh : Rest W) (d : Nat) (words : List Tok) : Prop where
  plain : ∀ t ∈ words, Plain t.text
  expanded : ∀ t ∈ words, ∀ w last, Plain (sh.expand w last t).1.text
  control : ∀ w last t args, (expandAll sh last words w).1 = t :: args →
    sh.isFunc (expandAll sh last words w).2 t.text = false →
    t.text ≠ kReturn ∧ (t.text = kBreak ∨ t.text = kContinue → count args ≤ d)

mutual
def Seq.Ok (sh : Rest W) : Nat → Seq → Prop
  | d, .last c _ => c.Ok sh d
  | d, .cons c _ rest => c.Ok sh d ∧ rest.Ok sh d

/-- Below `d` loops. -/
def Cmd.Ok (sh : Rest W) : Nat → Cmd → Prop
  | d, .simple head args => SimpleOk sh d (head :: args)
  | d, .cond c b rest => c.Ok sh d ∧ b.Ok sh d ∧ rest.Ok sh d
  | d, .for var words _ body =>
    Plain var.text ∧ (∀ t ∈ words, Plain t.text) ∧ body.Ok sh (d + 1)
  | d, .while c b => c.Ok sh (d + 1) ∧ b.Ok sh (d + 1)
  | d, .group b => b.Ok sh d

def Arms.Ok (sh : Rest W) : Nat → Arms → Prop
  | _, .fi => True
  | d, .els b => b.Ok sh d
  | d, .elif c b rest => c.Ok sh d ∧ b.Ok sh d ∧ rest.Ok sh d
end

/-! ## The control state a line ends in -/

/-- The control state unwinds fewer than `d` loops, and its status is 0. -/
def Within (d : Nat) (s : Sem W) : Prop :=
  match s.ctl with
  | .none => True
  | .brk k => k < d ∧ s.last = 0
  | .cont k => k < d ∧ s.last = 0

variable {d : Nat} {s : Sem W} {sh : Rest W}

theorem Within.of_none (h : s.ctl = .none) : Within d s := by
  unfold Within
  rw [h]
  trivial

theorem Within.zero (h : Within 0 s) : s.ctl = .none := by
  unfold Within at h
  cases hc : s.ctl with
  | none => rfl
  | brk k =>
    rw [hc] at h
    exact absurd h.1 (Nat.not_lt_zero k)
  | cont k =>
    rw [hc] at h
    exact absurd h.1 (Nat.not_lt_zero k)

theorem Within.last (h : Within d s) (hc : s.ctl ≠ .none) : s.last = 0 := by
  unfold Within at h
  cases hs : s.ctl with
  | none => exact absurd hs hc
  | brk k =>
    rw [hs] at h
    exact h.2
  | cont k =>
    rw [hs] at h
    exact h.2

theorem Within.leave (h : Within (d + 1) s) :
    Within d { s with ctl := s.ctl.leave.2 } ∧ (s.ctl.leave.1 = false → s.ctl.leave.2 = .none) := by
  unfold Within at h ⊢
  cases hs : s.ctl with
  | none => exact ⟨trivial, fun _ => rfl⟩
  | brk k =>
    rw [hs] at h
    cases k with
    | zero => exact ⟨trivial, fun _ => rfl⟩
    | succ k => exact ⟨⟨Nat.lt_of_succ_lt_succ h.1, h.2⟩, fun hf => nomatch hf⟩
  | cont k =>
    rw [hs] at h
    cases k with
    | zero => exact ⟨trivial, fun _ => rfl⟩
    | succ k => exact ⟨⟨Nat.lt_of_succ_lt_succ h.1, h.2⟩, fun hf => nomatch hf⟩

theorem count_pos (args : List Tok) : 0 < count args := by
  unfold count
  split
  · exact one_pos
  · split
    · split
      · omega
      · exact one_pos
    · exact one_pos

theorem within_words (hs : s.ctl = .none) :
    ∀ words : List Tok, (∀ t args, words = t :: args → sh.isFunc s.world t.text = false →
      t.text ≠ kReturn ∧ (t.text = kBreak ∨ t.text = kContinue → count args ≤ d)) →
      Within d (evalWords sh words s)
  | [], _ => Within.of_none hs
  | t :: args, h => by
    have hctl := h t args rfl
    have hpos := count_pos args
    rw [evalWords]
    split
    · rename_i hb
      have := (hctl hb.1).2 (.inl hb.2)
      exact ⟨by omega, rfl⟩
    · split
      · rename_i hc
        have := (hctl hc.1).2 (.inr hc.2)
        exact ⟨by omega, rfl⟩
      · exact Within.of_none hs

theorem within_simple {words : List Tok} (h : SimpleOk sh d words)
    (hs : s.ctl = .none) : Within d (evalSimple sh words s) :=
  within_words (s := { s with world := (expandAll sh s.last words s.world).2 }) hs _
    (h.control s.world s.last)

theorem within_for {var : Tok} {body : Sem W → Sem W}
    (hbody : ∀ s, s.ctl = .none → Within (d + 1) (body s)) :
    ∀ (ws : List Tok) (last : Int) (s : Sem W), s.ctl = .none →
      Within d (evalFor sh var body ws last s)
  | [], _, _, hs => Within.of_none hs
  | w :: ws, last, s, hs => by
    rw [evalFor]
    split
    · exact Within.of_none hs
    · rename_i world _
      have hw := (hbody { s with world := world } hs).leave
      dsimp only
      split
      · exact hw.1
      · rename_i hl
        exact within_for hbody ws _ _ (hw.2 (Bool.eq_false_iff.2 hl))

theorem within_while {c b : Sem W → Sem W} (hc : ∀ s, s.ctl = .none → Within (d + 1) (c s))
    (hb : ∀ s, s.ctl = .none → Within (d + 1) (b s)) :
    ∀ (cap : Nat) (last : Int) (s : Sem W), s.ctl = .none → Within d (evalWhile c b cap last s)
  | 0, _, _, hs => Within.of_none hs
  | cap + 1, last, s, hs => by
    rw [evalWhile]
    have hcs := hc s hs
    dsimp only
    split
    · rename_i hstop
      exact Within.of_none hstop.1
    · have hround : Within (d + 1) (if (c s).ctl = .none then b (c s) else c s) := by
        split
        · rename_i hn
          exact hb _ hn
        · exact hcs
      generalize (if (c s).ctl = .none then b (c s) else c s) = r at hround ⊢
      split
      · exact hround.leave.1
      · rename_i hl
        exact within_while hc hb cap _ _ (hround.leave.2 (Bool.eq_false_iff.2 hl))

mutual
theorem within_seq {sh : Rest W} {cap : Nat} : ∀ {d : Nat} (q : Seq), q.Ok sh d →
    ∀ (go : Bool) (s : Sem W), s.ctl = .none → Within d (evalSeq sh cap q go s)
  | d, .last c _, h, go, s, hs => by
    rw [evalSeq]
    split
    · exact within_cmd c h s hs
    · exact Within.of_none hs
  | d, .cons c op rest, h, go, s, hs => by
    rw [evalSeq]
    have hfirst : Within d (if go then evalCmd sh cap c s else s) := by
      split
      · exact within_cmd c h.1 s hs
      · exact Within.of_none hs
    generalize (if go then evalCmd sh cap c s else s) = r at hfirst ⊢
    split
    · rename_i hn
      exact within_seq rest h.2 _ _ hn
    · exact hfirst

theorem within_cmd {sh : Rest W} {cap : Nat} : ∀ {d : Nat} (c : Cmd), c.Ok sh d →
    ∀ s : Sem W, s.ctl = .none → Within d (evalCmd sh cap c s)
  | d, .simple head args, h, s, hs => within_simple h hs
  | d, .cond c b rest, h, s, hs => by
    rw [evalCmd]
    have hc : Within d (evalSeq sh cap c true s) := within_seq c h.1 true s hs
    split
    · rename_i hn
      split
      · exact within_seq b h.2.1 true _ hn
      · exact within_arms rest h.2.2 _ hn
    · exact hc
  | d, .for var words _ body, h, s, hs =>
    within_for (fun s hs => within_seq body h.2.2 true s hs) words 0 s hs
  | d, .while c b, h, s, hs =>
    within_while (fun s hs => within_seq c h.1 true s hs)
      (fun s hs => within_seq b h.2 true s hs) cap 0 s hs
  | d, .group b, h, s, hs => within_seq b h true s hs

theorem within_arms {sh : Rest W} {cap : Nat} : ∀ {d : Nat} (a : Arms), a.Ok sh d →
    ∀ s : Sem W, s.ctl = .none → Within d (evalArms sh cap a s)
  | d, .fi, _, s, hs => Within.of_none hs
  | d, .els b, h, s, hs => within_seq b h true s hs
  | d, .elif c b rest, h, s, hs => by
    rw [evalArms]
    have hc : Within d (evalSeq sh cap c true s) := within_seq c h.1 true s hs
    split
    · rename_i hn
      split
      · exact within_seq b h.2.1 true _ hn
      · exact within_arms rest h.2.2 _ hn
    · exact hc
end

end AdventOS.Shell
