import AdventOS.Shell.Tokenize

/-!
# The static pools of the shell (`user/sh.c`)

A token is a pointer. It points into the buffer of its line, which is on the stack of the
call that reads the line and stays as it is; or into the pool of `$` expansions, which every
expansion writes to at an offset that each line starts anew; or to a slot of the glob pool,
which every line with a wildcard fills from the first slot on. The positional parameters are
pointers too.

What `$` can stand for besides the positional parameters is a parameter (`Vars`).

* `expandAt_spec`: what an expansion writes, if it fits and the pool it writes to holds none
  of the positional parameters.
-/
namespace AdventOS.Shell
open List

def nul : Char := Char.ofNat 0

def lineMax : Nat := 512

/-- `DOLLAR_Q_POOL_LEN`. -/
def poolLen : Nat := lineMax * 4

/-- Where a string is. -/
inductive Loc
  /-- In the buffer of a line, or in `argv`. -/
  | line (w : Word)
  /-- In `g_dollar_q_pool`. -/
  | pool (p : Nat)
  /-- In `g_glob_pool`. -/
  | slot (k : Nat)
  deriving DecidableEq

abbrev Chars := Nat → Char
abbrev Slots := Nat → Word

def cstr (c : Chars) : Nat → Nat → Word
  | _, 0 => []
  | p, n + 1 => if c p = nul then [] else c p :: cstr c (p + 1) n

/-- The string of a pointer. In the pool it is read for more than the pool holds. -/
def textOf (c : Chars) (sl : Slots) : Loc → Word
  | .line w => w
  | .pool p => cstr c p (poolLen + 1)
  | .slot k => sl k

/-! ## Writing -/

def setChar (c : Chars) (p : Nat) (x : Char) : Chars := fun k => if k = p then x else c k

def writeAt (c : Chars) (p : Nat) (w : Word) : Chars :=
  fun k => if p ≤ k then w.getD (k - p) (c k) else c k

/-- sh.c:3307-3310 `emit_str`, of a string outside of the pool: `o` characters
of the `cap` are written. -/
def emitWord (dst cap : Nat) : Word → Chars × Nat → Chars × Nat
  | [], r => r
  | x :: w, (c, o) => if o < cap then emitWord dst cap w (setChar c (dst + o) x, o + 1) else (c, o)

/-- `emit_str` of a string in the pool, from `p` on, with room for `n` characters. -/
def emitPool (dst : Nat) : Nat → Nat → Chars × Nat → Chars × Nat
  | 0, _, r => r
  | n + 1, p, (c, o) =>
    if c p = nul then (c, o) else emitPool dst n (p + 1) (setChar c (dst + o) (c p), o + 1)

def emitLoc (sl : Slots) (dst cap : Nat) : Loc → Chars × Nat → Chars × Nat
  | .line w, r => emitWord dst cap w r
  | .slot k, r => emitWord dst cap (sl k) r
  | .pool p, r => emitPool dst (cap - r.2) p r

/-- sh.c:3549-3553: the arguments with blanks between them. -/
def emitAll (sl : Slots) (dst cap : Nat) : List Loc → Chars × Nat → Chars × Nat
  | [], r => r
  | [l], r => emitLoc sl dst cap l r
  | l :: ls, r => emitAll sl dst cap ls (emitWord dst cap [' '] (emitLoc sl dst cap l r))

/-! ## The expansion of a token -/

/-- The rest of `$`: `$HOME`, and the value of a text that starts with a `$` and is no
positional parameter, with the number of characters it takes. -/
structure Vars (W : Type) where
  home : W → Word
  value : W → List Word → Word → Option (Word × Nat × W)

variable {W : Type}

/-- A piece of a token. -/
inductive Piece
  | word (u : Word)
  | arg (i : Nat)
  | all
  deriving DecidableEq

def isDigit (c : Char) : Bool := '0' ≤ c && c ≤ '9'

/-- sh.c:3346-3574: the first piece of a text, and what is left. The name and
the arguments are `args`. -/
def nextPiece (v : Vars W) (args : List Word) (w : W) : Word → Piece × Word × W
  | [] => (.word [], [], w)
  | [x] => (.word [x], [], w)
  | x :: y :: t =>
    if x ≠ '$' then (.word [x], y :: t, w)
    else if isDigit y then (.arg (y.toNat - '0'.toNat), t, w)
    else if y = '#' then (.word (Nat.repr (args.length - 1)).toList, t, w)
    else if y = '@' ∨ y = '*' then (.all, t, w)
    else
      match v.value w args (x :: y :: t) with
      | some (u, k, w') => (.word u, (x :: y :: t).drop k, w')
      | none => (.word [x], y :: t, w)

def emitPiece (sl : Slots) (pos : List Loc) (dst cap : Nat) : Piece → Chars × Nat → Chars × Nat
  | .word u, r => emitWord dst cap u r
  | .arg i, r => (pos[i]?).elim r fun l => emitLoc sl dst cap l r
  | .all, r => emitAll sl dst cap pos.tail r

/-- The loop over a token, at most `n` pieces. -/
def expandLoop (v : Vars W) (sl : Slots) (pos : List Loc) (dst cap : Nat) :
    Nat → Word → W → Chars × Nat → W × Chars × Nat
  | 0, _, w, r => (w, r)
  | n + 1, t, w, r =>
    if t = [] ∨ cap ≤ r.2 then (w, r)
    else
      let s := nextPiece v (pos.map (textOf r.1 sl)) w t
      expandLoop v sl pos dst cap n s.2.1 s.2.2 (emitPiece sl pos dst cap s.1 r)

def hasTilde (t : Word) : Bool := t = ['~'] || ['~', '/'].isPrefixOf t

/-- A `$` with a character behind it. -/
def hasDollar : Word → Bool
  | x :: y :: t => x = '$' || hasDollar (y :: t)
  | _ => false

/-- Whether the expansion touches the token at all. -/
def needsExpand (t : Word) : Bool := hasDollar t || hasTilde t

/-- sh.c:3329-3578: a token's text `t` expanded at offset `dst` of the pool. -/
def expandAt (v : Vars W) (sl : Slots) (pos : List Loc) (dst : Nat) (t : Word) (w : W)
    (c : Chars) : W × Chars × Nat :=
  let cap := poolLen - dst - 1
  let r := if hasTilde t then emitWord dst cap (v.home w) (c, 0) else (c, 0)
  let t' := if hasTilde t then t.tail else t
  let e := expandLoop v sl pos dst cap (t'.length + 1) t' w r
  (e.1, setChar e.2.1 (dst + e.2.2) nul, e.2.2)

/-! ## What an expansion should give -/

def joined : List Word → Word
  | [] => []
  | [u] => u
  | u :: us => u ++ ' ' :: joined us

def pieceValue (args : List Word) : Piece → Word
  | .word u => u
  | .arg i => args.getD i []
  | .all => joined args.tail

/-- The value of a text, with `args` for the name and the arguments. -/
def valueLoop (v : Vars W) (args : List Word) : Nat → Word → W → Word
  | 0, _, _ => []
  | n + 1, t, w =>
    if t = [] then []
    else
      let s := nextPiece v args w t
      pieceValue args s.1 ++ valueLoop v args n s.2.1 s.2.2

def valueOf (v : Vars W) (args : List Word) (t : Word) (w : W) : Word :=
  let t' := if hasTilde t then t.tail else t
  (if hasTilde t then v.home w else []) ++ valueLoop v args (t'.length + 1) t' w

/-! ## Reading and writing -/

theorem writeAt_nil (c : Chars) (p : Nat) : writeAt c p [] = c := by
  funext k
  unfold writeAt
  split <;> rfl

variable {c : Chars} {dst n : Nat}

theorem writeAt_outside {p k : Nat} {u : Word} (h : k < p ∨ p + u.length ≤ k) :
    writeAt c p u k = c k := by
  unfold writeAt
  split
  · rw [getD_eq_default _ _ (by omega)]
  · rfl

theorem writeAt_append (c : Chars) (p : Nat) (u u' : Word) :
    writeAt (writeAt c p u) (p + u.length) u' = writeAt c p (u ++ u') := by
  funext k
  unfold writeAt
  by_cases hp : p ≤ k
  · by_cases hu : p + u.length ≤ k
    · rw [if_pos hu, if_pos hp, if_pos hp, getD_append_right _ _ _ _ (by omega),
        getD_eq_default u _ (by omega), Nat.sub_sub]
    · rw [if_neg hu, if_pos hp, if_pos hp, getD_append _ _ _ _ (by omega),
        getD_eq_getElem _ _ (by omega)]
  · rw [if_neg (by omega), if_neg hp, if_neg hp]

theorem setChar_eq (c : Chars) (p : Nat) (x : Char) : setChar c p x = writeAt c p [x] := by
  funext k
  unfold setChar writeAt
  by_cases hk : k = p
  · subst hk
    simp
  · rw [if_neg hk]
    split
    · rw [getD_eq_default _ _ (by simp; omega)]
    · rfl

theorem setChar_append (c : Chars) (p : Nat) (u : Word) (x : Char) :
    setChar (writeAt c p u) (p + u.length) x = writeAt c p (u ++ [x]) := by
  rw [setChar_eq, writeAt_append]

/-- The string `w` stands at `p`. -/
structure HoldsAt (c : Chars) (p : Nat) (w : Word) : Prop where
  chars : ∀ i (h : i < w.length), c (p + i) = w[i]
  last : c (p + w.length) = nul
  plain : ∀ x ∈ w, x ≠ nul

theorem cstr_holds : ∀ {p : Nat}, (cstr c p n).length < n → HoldsAt c p (cstr c p n) := by
  induction n with
  | zero => intro p h; exact absurd h (Nat.not_lt_zero _)
  | succ n ih =>
    intro p h
    unfold cstr at h ⊢
    split
    · rename_i h0
      exact ⟨fun i hi => absurd hi (Nat.not_lt_zero i), h0, fun x hx => absurd hx not_mem_nil⟩
    · rename_i h0
      rw [if_neg h0, length_cons] at h
      obtain ⟨hc, hl, hp⟩ := ih (p := p + 1) (by omega)
      refine ⟨fun i hi => ?_, ?_, ?_⟩
      · cases i with
        | zero => rfl
        | succ i =>
          have hi' : i < (cstr c (p + 1) n).length := by simpa using hi
          rw [getElem_cons_succ, ← hc i hi']
          congr 1
          omega
      · rw [length_cons, ← hl]
        congr 1
        omega
      · intro x hx
        obtain rfl | hx := mem_cons.1 hx
        · exact h0
        · exact hp x hx

theorem cstr_congr {c' : Chars} : ∀ {p : Nat},
    (∀ k, p ≤ k → k ≤ p + (cstr c p n).length → c' k = c k) → cstr c' p n = cstr c p n := by
  induction n with
  | zero => intros; rfl
  | succ n ih =>
    intro p h
    have h0 := h p (le_refl p) (by omega)
    unfold cstr at h ⊢
    rw [h0]
    split
    · rfl
    · rename_i hne
      rw [if_neg hne, length_cons] at h
      rw [ih fun k hk hk' => h k (by omega) (by omega)]

/-- A write of `n` characters at `dst` leaves the string alone. -/
def Clear (c : Chars) (dst n : Nat) : Loc → Prop
  | .pool p => p + (cstr c p (poolLen + 1)).length < dst ∨ dst + n ≤ p
  | .line _ => True
  | .slot _ => True

theorem textOf_writeAt {sl : Slots} {l : Loc} (h : Clear c dst n l)
    {u : Word} (hu : u.length ≤ n) : textOf (writeAt c dst u) sl l = textOf c sl l := by
  cases l with
  | line w => rfl
  | slot k => rfl
  | pool p =>
    unfold Clear at h
    refine cstr_congr fun k hk hk' => writeAt_outside ?_
    omega

/-! ## What is written -/

theorem emitWord_spec {cap : Nat} (u : Word) : ∀ {c : Chars} {s : Word}, s.length + u.length ≤ cap →
    emitWord dst cap u (writeAt c dst s, s.length) = (writeAt c dst (s ++ u), (s ++ u).length) := by
  induction u with
  | nil =>
    intro c s _
    rw [append_nil]
    rfl
  | cons x u ih =>
    intro c s h
    rw [length_cons] at h
    unfold emitWord
    rw [if_pos (by omega), setChar_append]
    have hlen : s.length + 1 = (s ++ [x]).length := by simp
    rw [hlen, ih (by rw [← hlen]; omega), append_assoc, singleton_append]

theorem emitPool_spec (w : Word) : ∀ {c : Chars} {s : Word} {p n : Nat},
    HoldsAt (writeAt c dst s) p w → w.length ≤ n →
    (p + w.length < dst + s.length ∨ dst + s.length + w.length ≤ p) →
    emitPool dst n p (writeAt c dst s, s.length) = (writeAt c dst (s ++ w), (s ++ w).length) := by
  induction w with
  | nil =>
    intro c s p n h _ _
    rw [append_nil]
    cases n with
    | zero => rfl
    | succ n =>
      exact if_pos h.last
  | cons x w ih =>
    intro c s p n h hn hd
    rw [length_cons] at hn hd
    cases n with
    | zero => omega
    | succ n =>
      have hx : writeAt c dst s p = x := h.chars 0 (Nat.succ_pos _)
      unfold emitPool
      rw [hx, if_neg (h.plain x mem_cons_self), setChar_append]
      have hlen : s.length + 1 = (s ++ [x]).length := by simp
      -- the rest of the string is behind the character, and not where it is written
      have hkeep : ∀ k, p + 1 ≤ k → k ≤ p + 1 + w.length →
          writeAt c dst (s ++ [x]) k = writeAt c dst s k := by
        intro k hk hk'
        rw [← writeAt_append]
        exact writeAt_outside (by rw [length_singleton]; omega)
      have hrest : HoldsAt (writeAt c dst (s ++ [x])) (p + 1) w := by
        refine ⟨fun i hi => ?_, ?_, fun y hy => h.plain y (mem_cons_of_mem _ hy)⟩
        · rw [hkeep _ (by omega) (by omega)]
          have := h.chars (i + 1) (by rw [length_cons]; omega)
          rwa [show p + (i + 1) = p + 1 + i by omega] at this
        · rw [hkeep _ (by omega) (by omega)]
          have := h.last
          rwa [length_cons, show p + (w.length + 1) = p + 1 + w.length by omega] at this
      rw [hlen, ih hrest (by omega) (by rw [← hlen]; omega), append_assoc, singleton_append]

/-- What has been written so far, `s`, and what is to come fit into `n` characters that are
clear of the string. -/
theorem emitLoc_spec {sl : Slots} {cap : Nat} {l : Loc} {s : Word}
    (h : Clear c dst n l) (hcap : s.length + (textOf c sl l).length ≤ cap)
    (hn : s.length + (textOf c sl l).length ≤ n) (hp : cap ≤ poolLen) :
    emitLoc sl dst cap l (writeAt c dst s, s.length) =
      (writeAt c dst (s ++ textOf c sl l), (s ++ textOf c sl l).length) := by
  have htext : textOf (writeAt c dst s) sl l = textOf c sl l := textOf_writeAt h (by omega)
  cases l with
  | line w => exact emitWord_spec w hcap
  | slot k => exact emitWord_spec (sl k) hcap
  | pool p =>
    have hc : cstr (writeAt c dst s) p (poolLen + 1) = cstr c p (poolLen + 1) := htext
    have hcap' : s.length + (cstr c p (poolLen + 1)).length ≤ cap := hcap
    have hn' : s.length + (cstr c p (poolLen + 1)).length ≤ n := hn
    have hholds : HoldsAt (writeAt c dst s) p (cstr c p (poolLen + 1)) := by
      rw [← hc]
      exact cstr_holds (by rw [hc]; omega)
    refine emitPool_spec (cstr c p (poolLen + 1)) hholds ?_ ?_
    · omega
    · unfold Clear at h
      omega

theorem joined_cons (u : Word) {us : List Word} (h : us ≠ []) :
    joined (u :: us) = u ++ ' ' :: joined us := by
  cases us with
  | nil => exact absurd rfl h
  | cons u' us => rfl

theorem emitAll_cons (sl : Slots) (dst cap : Nat) (l : Loc) {ls : List Loc} (h : ls ≠ [])
    (r : Chars × Nat) : emitAll sl dst cap (l :: ls) r =
      emitAll sl dst cap ls (emitWord dst cap [' '] (emitLoc sl dst cap l r)) := by
  cases ls with
  | nil => exact absurd rfl h
  | cons l' ls => rfl

section spec
variable {c : Chars} {sl : Slots} {dst cap n : Nat}

theorem emitAll_spec (hp : cap ≤ poolLen) : ∀ {ls : List Loc}, (∀ l ∈ ls, Clear c dst n l) →
    ∀ {s : Word}, s.length + (joined (ls.map (textOf c sl))).length ≤ cap →
    s.length + (joined (ls.map (textOf c sl))).length ≤ n →
    emitAll sl dst cap ls (writeAt c dst s, s.length) =
      (writeAt c dst (s ++ joined (ls.map (textOf c sl))),
        (s ++ joined (ls.map (textOf c sl))).length) := by
  intro ls
  induction ls with
  | nil =>
    intro _ s _ _
    rw [map_nil, joined, append_nil]
    rfl
  | cons l ls ih =>
    intro h s hcap hn
    have hl := h l mem_cons_self
    by_cases hls : ls = []
    · subst hls
      exact emitLoc_spec hl hcap hn hp
    · have hmap : ls.map (textOf c sl) ≠ [] := fun he => hls (map_eq_nil_iff.1 he)
      rw [map_cons, joined_cons _ hmap] at hcap hn ⊢
      rw [length_append, length_cons] at hcap hn
      rw [emitAll_cons _ _ _ _ hls, emitLoc_spec hl (by omega) (by omega) hp,
        emitWord_spec [' '] (by rw [length_append, length_singleton]; omega),
        ih (fun l' hl' => h l' (mem_cons_of_mem _ hl'))]
      · simp
      · simp only [length_append, length_singleton]
        omega
      · simp only [length_append, length_singleton]
        omega

variable {pos : List Loc}

theorem emitPiece_spec (hp : cap ≤ poolLen) (h : ∀ l ∈ pos, Clear c dst n l) {s : Word}
    {q : Piece} (hcap : s.length + (pieceValue (pos.map (textOf c sl)) q).length ≤ cap)
    (hn : s.length + (pieceValue (pos.map (textOf c sl)) q).length ≤ n) :
    emitPiece sl pos dst cap q (writeAt c dst s, s.length) =
      (writeAt c dst (s ++ pieceValue (pos.map (textOf c sl)) q),
        (s ++ pieceValue (pos.map (textOf c sl)) q).length) := by
  cases q with
  | word u => exact emitWord_spec u hcap
  | all =>
    dsimp only [pieceValue] at hcap hn ⊢
    rw [← map_tail] at hcap hn ⊢
    exact emitAll_spec hp (fun l hl => h l (mem_of_mem_tail hl)) hcap hn
  | arg i =>
    dsimp only [pieceValue, emitPiece] at hcap hn ⊢
    rw [getD_eq_getElem?_getD, getElem?_map] at hcap hn ⊢
    cases hi : pos[i]? with
    | none =>
      simp
    | some l =>
      rw [hi] at hcap hn
      exact emitLoc_spec (h l (mem_of_getElem? hi)) hcap hn hp

variable {W : Type} (v : Vars W)

theorem expandLoop_spec (hp : cap ≤ poolLen) (h : ∀ l ∈ pos, Clear c dst n l) (m : Nat) :
    ∀ {t : Word} {w : W} {s : Word},
      s.length + (valueLoop v (pos.map (textOf c sl)) m t w).length ≤ cap →
      s.length + (valueLoop v (pos.map (textOf c sl)) m t w).length ≤ n →
      (expandLoop v sl pos dst cap m t w (writeAt c dst s, s.length)).2 =
        (writeAt c dst (s ++ valueLoop v (pos.map (textOf c sl)) m t w),
          (s ++ valueLoop v (pos.map (textOf c sl)) m t w).length) := by
  induction m with
  | zero =>
    intro t w s _ _
    rw [valueLoop, append_nil]
    rfl
  | succ m ih =>
    intro t w s hcap hn
    -- the parameters read the same behind what is written
    have hpos : pos.map (textOf (writeAt c dst s) sl) = pos.map (textOf c sl) :=
      map_congr_left fun l hl => textOf_writeAt (h l hl) (by omega)
    unfold expandLoop
    dsimp only
    rw [hpos]
    unfold valueLoop at hcap hn ⊢
    by_cases ht : t = []
    · rw [if_pos (Or.inl ht), if_pos ht, append_nil]
    · rw [if_neg ht] at hcap hn ⊢
      rw [length_append] at hcap hn
      by_cases hs : cap ≤ s.length
      · have h0 : pieceValue (pos.map (textOf c sl)) (nextPiece v (pos.map (textOf c sl)) w t).1 ++
            valueLoop v (pos.map (textOf c sl)) m (nextPiece v (pos.map (textOf c sl)) w t).2.1
              (nextPiece v (pos.map (textOf c sl)) w t).2.2 = [] :=
          eq_nil_of_length_eq_zero (by rw [length_append]; omega)
        rw [if_pos (Or.inr hs), h0, append_nil]
      · rw [if_neg (not_or.2 ⟨ht, hs⟩), emitPiece_spec hp h (by omega) (by omega),
          ih (by rw [length_append]; omega) (by rw [length_append]; omega),
          append_assoc]

theorem expandAt_spec {t : Word} {w : W}
    (hfit : (valueOf v (pos.map (textOf c sl)) t w).length ≤ poolLen - dst - 1)
    (h : ∀ l ∈ pos, Clear c dst ((valueOf v (pos.map (textOf c sl)) t w).length + 1) l) :
    (expandAt v sl pos dst t w c).2 =
      (writeAt c dst (valueOf v (pos.map (textOf c sl)) t w ++ [nul]),
        (valueOf v (pos.map (textOf c sl)) t w).length) := by
  have hp : poolLen - dst - 1 ≤ poolLen := by omega
  have hnil : ((c, 0) : Chars × Nat) = (writeAt c dst [], ([] : Word).length) := by
    rw [writeAt_nil]
    rfl
  by_cases ht : hasTilde t = true
  · simp only [expandAt, valueOf, ht, if_true] at hfit h ⊢
    rw [length_append] at hfit h
    rw [hnil, emitWord_spec _ (by rw [length_nil]; omega), nil_append,
      expandLoop_spec v hp h _ (by omega) (by omega)]
    rw [setChar_append]
  · simp only [expandAt, valueOf, ht, if_false, Bool.false_eq_true, nil_append] at hfit h ⊢
    rw [hnil, expandLoop_spec v hp h _ (by rw [length_nil]; omega) (by rw [length_nil]; omega)]
    rw [setChar_append, nil_append]

end spec

end AdventOS.Shell
