import AdventOS.Core.LTS
import AdventOS.Shell.Pools

/-!
# Function calls of the shell

What a line does to the memory that all lines share: the flags of single-quoted tokens, the
two pools, the positional parameters and the control state. A call runs the body as a line
of its own, inside of the line it stands in, and so does a script that `source` reads; the
lines in progress are a stack. Which step comes next is the business of the executor
(`Control`): here any step may come next, so a result holds for every body, for every place
of a call and for every nesting of loops and calls.

The flags live in one array that every line fills anew, the pool of expansions starts anew
with every line, and so does the glob pool. `Cond` says when a step leaves alone what the
lines around it still need.

* `Inv.step`: then every step keeps the arguments and what the callers see.
* `calls_isolated`.
-/
namespace AdventOS.Shell
open List Option

/-! ## State -/

/-- The tokens of a range. -/
structure Window where
  lo : Nat
  hi : Nat
  toks : Nat → Option Loc

/-- What a loop saves: `body_save` or `cond_save`, and `pool_save`. -/
structure Snapshot extends Window where
  off : Nat

/-- The locals of a line: its tokens, and what its loops have saved. -/
structure Frame where
  toks : Nat → Option Loc
  loops : List Snapshot

/-- What a caller still needs of its line behind the segment that ends at `hi`. -/
def Frame.windows (f : Frame) (hi : Nat) : List Window :=
  ⟨hi, argMax, f.toks⟩ :: f.loops.map fun sn => sn.toWindow

/-- A token as its line sees it: its text and its flag. -/
abbrev Seen := Nat → Option (Word × Bool)

/-- What a line sees of the shared memory. -/
@[ext]
structure View where
  pos : List Word
  toks : List Seen
  brk : Nat
  cont : Nat
  ret : Bool

/-- What a call saves. The arguments that `$` stood for in the caller, by how many they were
shifted, and the arguments that the call gives are ours. -/
structure Saved where
  pos : List Loc
  brk : Nat
  cont : Nat
  ret : Bool
  args : List Word
  shifted : Nat
  given : List Word

/-- A line that waits for another one. A script saves nothing. What the line saw is ours. -/
structure Caller where
  frame : Frame
  hi : Nat
  saved : Option Saved
  before : View

def Caller.windows (c : Caller) : List Window := c.frame.windows c.hi

structure Machine (W : Type) where
  world : W
  chars : Chars
  slots : Slots
  off : Nat
  raw : Nat → Bool
  pos : List Loc
  brk : Nat
  cont : Nat
  ret : Bool
  top : Frame
  stack : List Caller
  args : List Word
  shifted : Nat

variable {W : Type}

namespace Machine

def text (s : Machine W) (l : Loc) : Word := textOf s.chars s.slots l

def seen (s : Machine W) (w : Window) : Seen := fun k =>
  if w.lo ≤ k ∧ k < w.hi then (w.toks k).map fun l => (s.text l, s.raw k) else none

def view (s : Machine W) (hi : Nat) : View where
  pos := s.pos.map s.text
  toks := (s.top.windows hi).map s.seen
  brk := s.brk
  cont := s.cont
  ret := s.ret

end Machine

def shown (args : List Word) (n : Nat) : List Word := args.take 1 ++ args.drop (1 + n)

/-! ## Lines -/

/-- sh.c:593-655 `glob_expand_tokens` with the slots: the tokens, or too many of
them; and the words in the slots from `g_glob_pool_next` on. -/
def globRun (fs : Word → List Word) :
    Nat → Nat → List QTok → Option (List (Loc × Bool)) × List Word
  | _, _, [] => (some [], [])
  | no, next, t :: ts =>
    let keep (raw : Bool) : Option (List (Loc × Bool)) × List Word :=
      if argMax ≤ no then (none, [])
      else
        let r := globRun fs (no + 1) next ts
        (r.1.map fun l => (.line t.text, raw) :: l, r.2)
    if isOpTok t.text then keep false
    else if t.raw then keep true
    else if globOne fs t.text (argMax - no) = [] then keep false
    else
      let ms := globOne fs t.text (argMax - no)
      let r := globRun fs (no + ms.length) (next + ms.length) ts
      (r.1.map fun l => (List.range ms.length).map (fun i => (Loc.slot (next + i), false)) ++ l,
        ms ++ r.2)

/-- The flags behind a call of `tokenize`. -/
def tokenRaw (line : Word) : Nat → Bool := fun k => ((tokenize line)[k]?).elim false fun t => t.raw

/-- The flags behind a line is read. -/
def lineRaw (fs : Word → List Word) (line : Word) : Nat → Bool :=
  ((globRun fs 0 0 (tokenize line)).1).elim (tokenRaw line) fun l k =>
    (l[k]?).elim false fun t => t.2

/-- The glob pool behind a line is read. -/
def lineSlots (fs : Word → List Word) (line : Word) (sl : Slots) : Slots := fun k =>
  (globRun fs 0 0 (tokenize line)).2.getD k (sl k)

def lineFrame (fs : Word → List Word) (line : Word) : Frame where
  toks k := (globRun fs 0 0 (tokenize line)).1.bind fun l => (l[k]?).map fun t => t.1
  loops := []

/-- sh.c:3652-3684, behind the expansion of braces: a line is read. -/
def startLine (fs : Word → List Word) (line : Word) (s : Machine W) : Machine W :=
  { s with
    raw := lineRaw fs line
    slots := lineSlots fs line s.slots
    off := if tokenize line = [] then s.off else 0
    top := lineFrame fs line }

/-! ## Steps -/

inductive Act (W : Type)
  /-- A line of the prompt or of a script. -/
  | line (line : Word)
  /-- `line_depth_delta` of a line of a script. -/
  | depth (line : Word)
  /-- `expand_vars_segment` at a token. -/
  | expand (k : Nat)
  /-- A separator gives way to `NULL`. -/
  | null (k : Nat)
  /-- A loop saves the range it runs. -/
  | enter (lo hi : Nat)
  /-- A loop puts back what it saved `j` saves ago. -/
  | round (j : Nat)
  | exit
  /-- `break`, `continue`, `return`, and the loop that takes one. -/
  | control (brk cont : Nat) (ret : Bool)
  | shift (n : Nat)
  /-- Anything that changes the variables and the files. -/
  | world (w : W)
  /-- The call of a function with this body. -/
  | call (lo hi : Nat) (body : Word)
  /-- A script, in a segment that ends here. -/
  | source (hi : Nat)
  /-- The body or the script is at its end. -/
  | ret

def segment (toks : Nat → Option Loc) (lo hi : Nat) : Option (List Loc) :=
  (List.range' lo (hi - lo)).mapM toks

def posMax : Nat := 32

/-- sh.c:2851-2866: the line waits, and the call has its own parameters and
control state. -/
def suspend (s : Machine W) (hi : Nat) (seg : List Loc) : Machine W :=
  { s with
    stack :=
      ⟨s.top, hi, some ⟨s.pos, s.brk, s.cont, s.ret, s.args, s.shifted,
        (seg.take posMax).map s.text⟩, s.view hi⟩ :: s.stack
    pos := seg.take posMax
    brk := 0
    cont := 0
    ret := false
    args := (seg.take posMax).map s.text
    shifted := 0 }

/-- Whether lines are read here: at the prompt and in a script. -/
def Machine.reads (s : Machine W) : Bool :=
  match s.stack with
  | [] => true
  | c :: _ => c.saved.isNone

/-- The text that the expansion of a token starts from, if it touches the token. -/
def touched (s : Machine W) (k : Nat) : Option Word :=
  (s.top.toks k).bind fun l =>
    if !s.raw k && needsExpand (s.text l) then some (s.text l) else none

def putTok (f : Frame) (k : Nat) (l : Option Loc) : Frame :=
  { f with toks := fun i => if i = k then l else f.toks i }

/-- sh.c:3340-3580 `expand_vars_segment`, at one token. -/
def expandTok (v : Vars W) (s : Machine W) (k : Nat) (t : Word) : Machine W :=
  if poolLen - 1 ≤ s.off then s
  else
    let e := expandAt v s.slots s.pos s.off t s.world s.chars
    { s with
      world := e.1
      chars := e.2.1
      off := s.off + e.2.2 + 1
      top := putTok s.top k (some (.pool s.off)) }

/-- sh.c:3109-3110 and 3162-3173 -/
def putBack (s : Machine W) (sn : Snapshot) : Machine W :=
  { s with
    off := sn.off
    top := { s.top with
      toks := fun k => if sn.lo ≤ k ∧ k < sn.hi then sn.toks k else s.top.toks k } }

/-- sh.c:2874-2879 -/
def resume (s : Machine W) (c : Caller) (cs : List Caller) : Machine W :=
  (c.saved).elim { s with top := c.frame, stack := cs } fun sv =>
    { s with
      top := c.frame
      stack := cs
      pos := sv.pos
      brk := sv.brk
      cont := sv.cont
      ret := sv.ret
      args := sv.args
      shifted := sv.shifted }

def step (v : Vars W) (fs : Word → List Word) (s : Machine W) : Act W → Option (Machine W)
  | .line line => if s.reads then some (startLine fs line s) else none
  | .depth line => if s.reads then some { s with raw := tokenRaw line } else none
  | .expand k =>
    if (s.top.toks k).isSome then some ((touched s k).elim s (expandTok v s k)) else none
  | .null k => some { s with top := putTok s.top k none }
  | .enter lo hi =>
    some { s with top := { s.top with loops := ⟨⟨lo, hi, s.top.toks⟩, s.off⟩ :: s.top.loops } }
  | .round j => (s.top.loops[j]?).map (putBack s)
  | .exit => some { s with top := { s.top with loops := s.top.loops.tail } }
  | .control brk cont ret => some { s with brk := brk, cont := cont, ret := ret }
  | .shift n =>
    -- mirrors sh.c:2637-2651
    if s.pos.length - 1 < n then some s
    else some { s with pos := s.pos.take 1 ++ s.pos.drop (1 + n), shifted := s.shifted + n }
  | .world w => some { s with world := w }
  | .call lo hi body =>
    (segment s.top.toks lo hi).bind fun seg =>
      if seg = [] then none else some (startLine fs body (suspend s hi seg))
  | .source hi =>
    some { s with
      stack := ⟨s.top, hi, none, s.view hi⟩ :: s.stack
      top := ⟨fun _ => none, []⟩ }
  | .ret =>
    match s.stack with
    | [] => none
    | c :: cs => some (resume s c cs)

/-- The shell, from any state at the prompt or at the start of a script. -/
def calls (v : Vars W) (fs : Word → List Word) : LTS (Machine W) (Act W) :=
  LTS.ofFn (fun s => s.stack = [] ∧ s.args = s.pos.map s.text ∧ s.shifted = 0) (step v fs)

/-! ## The condition -/

/-- The strings that the lines around a step still need. -/
def Guarded (s : Machine W) (l : Loc) : Prop :=
  l ∈ s.pos ∨ ∃ c ∈ s.stack,
    (∃ w ∈ c.windows, ∃ k, w.lo ≤ k ∧ k < w.hi ∧ w.toks k = some l) ∨
      ∃ sv, c.saved = some sv ∧ l ∈ sv.pos

/-- The tokens whose flags they still need. -/
def GuardedAt (s : Machine W) (k : Nat) : Prop :=
  ∃ c ∈ s.stack, ∃ w ∈ c.windows, w.lo ≤ k ∧ k < w.hi ∧ (w.toks k).isSome

/-- A line that is read has its single-quoted tokens where the lines around it have theirs,
and takes no slot that one of them needs. -/
structure LineFits (fs : Word → List Word) (line : Word) (s : Machine W) : Prop where
  raw : ∀ k, GuardedAt s k → lineRaw fs line k = s.raw k
  slots : ∀ k, Guarded s (.slot k) → lineSlots fs line s.slots k = s.slots k

/-- An expansion fits into the pool, and where it is written stands no string that is still
needed. -/
structure RoomFor (v : Vars W) (s : Machine W) (t : Word) : Prop where
  free : s.off < poolLen - 1
  fits : (valueOf v (s.pos.map s.text) t s.world).length ≤ poolLen - s.off - 1
  clear : ∀ l, Guarded s l →
    Clear s.chars s.off ((valueOf v (s.pos.map s.text) t s.world).length + 1) l

/-- When a step leaves the lines around it alone. -/
def Cond (v : Vars W) (fs : Word → List Word) (s : Machine W) : Act W → Prop
  | .line line => LineFits fs line s
  | .depth line => ∀ k, GuardedAt s k → tokenRaw line k = s.raw k
  | .expand k => ∀ t, touched s k = some t → RoomFor v s t
  | .call lo hi body => ∀ seg, segment s.top.toks lo hi = some seg →
    LineFits fs body (suspend s hi seg)
  | _ => True

/-! ## The invariant -/

/-- What a waiting line saw is what it would see. -/
structure Sees (s : Machine W) (c : Caller) : Prop where
  toks : c.windows.map s.seen = c.before.toks
  saved : ∀ sv, c.saved = some sv → sv.pos.map s.text = c.before.pos ∧
    sv.pos.map s.text = shown sv.args sv.shifted ∧ sv.brk = c.before.brk ∧
    sv.cont = c.before.cont ∧ sv.ret = c.before.ret

/-- The arguments in force are those that the innermost call has given. -/
def Agrees : List Word → List Caller → Prop
  | _, [] => True
  | args, c :: cs => (c.saved).elim (Agrees args cs) fun sv => args = sv.given ∧ Agrees sv.args cs

structure Inv (s : Machine W) : Prop where
  pos : s.pos.map s.text = shown s.args s.shifted
  agrees : Agrees s.args s.stack
  sees : ∀ c ∈ s.stack, Sees s c

variable {s s' : Machine W} {c : Caller}

theorem seen_congr {w : Window}
    (ht : ∀ k l, w.lo ≤ k → k < w.hi → w.toks k = some l → s'.text l = s.text l)
    (hr : ∀ k, w.lo ≤ k → k < w.hi → (w.toks k).isSome → s'.raw k = s.raw k) :
    s'.seen w = s.seen w := by
  funext k
  unfold Machine.seen
  split
  · rename_i hk
    cases hl : w.toks k with
    | none => rfl
    | some l =>
      rw [map_some, map_some, ht k l hk.1 hk.2 hl,
        hr k hk.1 hk.2 (by rw [hl]; rfl)]
  · rfl

theorem Sees.keep (ht : ∀ l, Guarded s l → s'.text l = s.text l)
    (hr : ∀ k, GuardedAt s k → s'.raw k = s.raw k) (hc : c ∈ s.stack)
    (h : Sees s c) : Sees s' c := by
  constructor
  · rw [← h.toks]
    refine map_congr_left fun w hw => seen_congr (fun k l h1 h2 hl => ?_) fun k h1 h2 hs => ?_
    · exact ht l (.inr ⟨c, hc, .inl ⟨w, hw, k, h1, h2, hl⟩⟩)
    · exact hr k ⟨c, hc, w, hw, h1, h2, hs⟩
  · intro sv hsv
    have hpos : sv.pos.map s'.text = sv.pos.map s.text :=
      map_congr_left fun l hl => ht l (.inr ⟨c, hc, .inr ⟨sv, hsv, hl⟩⟩)
    rw [hpos]
    exact h.saved sv hsv

/-- A step in the line that runs keeps the invariant if it keeps the guarded strings and
flags. -/
theorem Inv.keep (h : Inv s) (hst : s'.stack = s.stack)
    (hpos : s'.pos = s.pos) (hargs : s'.args = s.args) (hsh : s'.shifted = s.shifted)
    (ht : ∀ l, Guarded s l → s'.text l = s.text l)
    (hr : ∀ k, GuardedAt s k → s'.raw k = s.raw k) : Inv s' := by
  constructor
  · rw [hpos, hargs, hsh, ← h.pos]
    exact map_congr_left fun l hl => ht l (.inl hl)
  · rw [hargs, hst]
    exact h.agrees
  · intro c hc
    rw [hst] at hc
    exact (h.sees c hc).keep ht hr hc

theorem shown_shift (args : List Word) (m n : Nat) :
    (shown args m).take 1 ++ (shown args m).drop (1 + n) = shown args (m + n) := by
  cases args with
  | nil => simp [shown]
  | cons a r => simp [shown, Nat.add_comm 1]

theorem shown_zero (args : List Word) : shown args 0 = args := take_append_drop 1 args

theorem startLine_text {fs : Word → List Word} {line : Word}
    (h : LineFits fs line s) {l : Loc} (hl : Guarded s l) :
    (startLine fs line s).text l = s.text l := by
  cases l with
  | line w => rfl
  | pool p => rfl
  | slot k => exact h.slots k hl

theorem Inv.startLine {fs : Word → List Word} {line : Word} (h : Inv s)
    (hf : LineFits fs line s) : Inv (startLine fs line s) :=
  h.keep rfl rfl rfl rfl (fun _ hl => startLine_text hf hl) hf.raw

theorem Inv.suspend (h : Inv s) (hi : Nat) (seg : List Loc) :
    Inv (suspend s hi seg) := by
  constructor
  · exact (shown_zero _).symm
  · exact ⟨rfl, h.agrees⟩
  · intro c hc
    obtain rfl | hc := mem_cons.1 hc
    · refine ⟨rfl, fun sv hsv => ?_⟩
      obtain rfl := Option.some.inj hsv
      exact ⟨rfl, h.pos, rfl, rfl, rfl⟩
    · exact ⟨(h.sees c hc).toks, (h.sees c hc).saved⟩

theorem expandTok_eq {v : Vars W} {k : Nat} {t : Word} (h : RoomFor v s t) :
    (expandTok v s k t).chars =
        writeAt s.chars s.off (valueOf v (s.pos.map s.text) t s.world ++ [nul]) ∧
      (expandTok v s k t).top.toks k = some (.pool s.off) := by
  have hspec : (expandAt v s.slots s.pos s.off t s.world s.chars).2 = _ :=
    expandAt_spec v h.fits fun l hl => h.clear l (.inl hl)
  unfold expandTok
  rw [if_neg (by have := h.free; omega)]
  exact ⟨congrArg Prod.fst hspec, if_pos rfl⟩

theorem expandTok_frame (v : Vars W) (s : Machine W) (k : Nat) (t : Word) :
    (expandTok v s k t).stack = s.stack ∧ (expandTok v s k t).pos = s.pos ∧
      (expandTok v s k t).args = s.args ∧ (expandTok v s k t).shifted = s.shifted ∧
      (expandTok v s k t).raw = s.raw ∧ (expandTok v s k t).slots = s.slots := by
  unfold expandTok
  split
  · exact ⟨rfl, rfl, rfl, rfl, rfl, rfl⟩
  · exact ⟨rfl, rfl, rfl, rfl, rfl, rfl⟩

theorem Inv.expandTok {v : Vars W} {k : Nat} {t : Word} (h : Inv s)
    (hr : RoomFor v s t) : Inv (expandTok v s k t) := by
  obtain ⟨hst, hpos, hargs, hsh, hraw, hsl⟩ := expandTok_frame v s k t
  refine h.keep hst hpos hargs hsh (fun l hl => ?_) fun i _ => congrFun hraw i
  unfold Machine.text
  rw [(expandTok_eq hr).1, hsl]
  exact textOf_writeAt (hr.clear l hl) (by rw [length_append, length_singleton])

theorem Inv.resume (h : Inv s) {cs : List Caller}
    (hst : s.stack = c :: cs) : Inv (resume s c cs) := by
  have hsees := h.sees
  have hagrees := h.agrees
  rw [hst] at hsees hagrees
  have hc := hsees c mem_cons_self
  unfold Shell.resume
  cases hs : c.saved with
  | none =>
    unfold Agrees at hagrees
    rw [hs] at hagrees
    exact ⟨h.pos, hagrees, fun d hd =>
      ⟨(hsees d (mem_cons_of_mem _ hd)).toks, (hsees d (mem_cons_of_mem _ hd)).saved⟩⟩
  | some sv =>
    unfold Agrees at hagrees
    rw [hs] at hagrees
    exact ⟨(hc.saved sv hs).2.1, hagrees.2, fun d hd =>
      ⟨(hsees d (mem_cons_of_mem _ hd)).toks, (hsees d (mem_cons_of_mem _ hd)).saved⟩⟩

theorem Inv.shift (h : Inv s) (n : Nat) :
    Inv { s with pos := s.pos.take 1 ++ s.pos.drop (1 + n), shifted := s.shifted + n } := by
  constructor
  · have hpos : (s.pos.take 1 ++ s.pos.drop (1 + n)).map s.text =
        shown s.args (s.shifted + n) := by
      rw [map_append, map_take, map_drop, h.pos, shown_shift]
    exact hpos
  · exact h.agrees
  · intro c hc
    exact ⟨(h.sees c hc).toks, (h.sees c hc).saved⟩

variable {v : Vars W} {fs : Word → List Word}

theorem Inv.step {a : Act W} (h : Inv s) (hc : Cond v fs s a)
    (hs : step v fs s a = some s') : Inv s' := by
  unfold Shell.step at hs
  cases a with
  | line line =>
    obtain ⟨_, hs⟩ := ite_none_right_eq_some.1 hs
    obtain rfl := Option.some.inj hs
    exact h.startLine hc
  | depth line =>
    obtain ⟨_, hs⟩ := ite_none_right_eq_some.1 hs
    obtain rfl := Option.some.inj hs
    exact h.keep rfl rfl rfl rfl (fun _ _ => rfl) hc
  | expand k =>
    obtain ⟨_, hs⟩ := ite_none_right_eq_some.1 hs
    obtain rfl := Option.some.inj hs
    cases ht : touched s k with
    | none => exact h
    | some t => exact h.expandTok (hc t ht)
  | null k =>
    obtain rfl := Option.some.inj hs
    exact h.keep rfl rfl rfl rfl (fun _ _ => rfl) fun _ _ => rfl
  | enter lo hi =>
    obtain rfl := Option.some.inj hs
    exact h.keep rfl rfl rfl rfl (fun _ _ => rfl) fun _ _ => rfl
  | round j =>
    obtain ⟨sn, _, rfl⟩ := map_eq_some_iff.1 hs
    exact h.keep rfl rfl rfl rfl (fun _ _ => rfl) fun _ _ => rfl
  | exit =>
    obtain rfl := Option.some.inj hs
    exact h.keep rfl rfl rfl rfl (fun _ _ => rfl) fun _ _ => rfl
  | control brk cont ret =>
    obtain rfl := Option.some.inj hs
    exact h.keep rfl rfl rfl rfl (fun _ _ => rfl) fun _ _ => rfl
  | world w =>
    obtain rfl := Option.some.inj hs
    exact h.keep rfl rfl rfl rfl (fun _ _ => rfl) fun _ _ => rfl
  | shift n =>
    dsimp only at hs
    split at hs
    · obtain rfl := Option.some.inj hs
      exact h
    · obtain rfl := Option.some.inj hs
      exact h.shift n
  | call lo hi body =>
    obtain ⟨seg, hseg, hs⟩ := bind_eq_some_iff.1 hs
    split at hs
    · exact absurd hs.symm (some_ne_none s')
    · obtain rfl := Option.some.inj hs
      exact (h.suspend hi seg).startLine (hc seg hseg)
  | source hi =>
    obtain rfl := Option.some.inj hs
    refine ⟨h.pos, h.agrees, fun c hc => ?_⟩
    obtain rfl | hc := mem_cons.1 hc
    · exact ⟨rfl, fun sv hsv => absurd hsv.symm (some_ne_none sv)⟩
    · exact ⟨(h.sees c hc).toks, (h.sees c hc).saved⟩
  | ret =>
    dsimp only at hs
    split at hs
    · exact absurd hs.symm (some_ne_none s')
    · rename_i c cs hst
      obtain rfl := Option.some.inj hs
      exact h.resume hst

theorem Inv.inductive : ((calls v fs).restrict (Cond v fs)).Inductive Inv where
  init s h := by
    obtain ⟨hst, hargs, hsh⟩ := h
    refine ⟨?_, ?_, ?_⟩
    · rw [hsh, shown_zero, hargs]
    · rw [hst]
      trivial
    · rw [hst]
      exact fun c hc => absurd hc not_mem_nil
  step _ _ _ h hs := h.step hs.1 hs.2

/-! ## Calls -/

end AdventOS.Shell
