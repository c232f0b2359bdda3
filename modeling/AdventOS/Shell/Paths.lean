import AdventOS.Core.Lines
import AdventOS.Shell.Control

/-!
# The paths of `cd` (`user/sh.c`)

`normalize_path` applies the components of a target to a base. A path is here the list of its
components, with `render` for its text, and `resolve` says which path is asked for. The code
works on the text, and on a stack of the places where the components of the text begin.

* `Placed`, `Seeded`: text and stack belong to a list of components.
* `eachComp_eq`: the loops over the characters are folds over the components.
* `normalizePath_right_iff`: exactly when the answer is right. The base has a limit of its
  own, of 32 components, behind which they are passed over without a word, and needs a byte
  for a slash that is dropped again; and a path on the way to the one asked for may be the
  one that is too long.
-/
namespace AdventOS.Shell.Paths
open List

open Lines

/-! ## The code -/

/-- `out[0..o)`, and `stack[0..depth)` with the top first. -/
structure PathBuf where
  out : Word
  stack : List Nat

def segMax : Nat := 32

/-- A byte, where there is room for it and for the terminator. -/
def put (cap : Int) (out : Word) (c : Char) : Option Word :=
  if cap - 1 ≤ out.length then none else some (out ++ [c])

def putAll (cap : Int) (out cs : Word) : Option Word := cs.foldlM (put cap) out

/-- sh.c:1367-1375: a component of the base. -/
def seedComp (cap : Int) (st : PathBuf) (comp : Word) : Option PathBuf :=
  if 0 < comp.length ∧ st.stack.length < segMax then
    ((putAll cap st.out comp).bind fun out => put cap out '/').map fun out =>
      ⟨out, st.out.length :: st.stack⟩
  else some st

/-- sh.c:1390-1412: a component of the target. -/
def walkComp (cap : Int) (st : PathBuf) (comp : Word) : Option PathBuf :=
  if comp = [] then some st
  else if comp = ['.'] then some st
  else if comp = ['.', '.'] then
    if st.stack = [] then some st
    else some ⟨st.out.take (if st.stack.tail = [] then 1 else st.stack.headD 0 - 1), st.stack.tail⟩
  else if segMax ≤ st.stack.length then none
  else
    (if 1 < st.out.length then put cap st.out '/' else some st.out).bind fun out =>
      (putAll cap out comp).map fun out' => ⟨out', out.length :: st.stack⟩

/-- The loops of sh.c:1364-1377 and 1386-1413: up to the next slash, and over it. -/
def eachComp (f : PathBuf → Word → Option PathBuf) (st : PathBuf) (s : Word) : Option PathBuf :=
  if s = [] then some st
  else (f st (s.takeWhile (· ≠ '/'))).bind fun st =>
    eachComp f st ((s.dropWhile (· ≠ '/')).drop 1)
termination_by s.length
decreasing_by
  have h1 := (dropWhile_suffix (fun x => decide (x ≠ '/')) (l := s)).length_le
  rename_i hs
  have h2 := length_pos_iff.mpr hs
  rw [length_drop]
  omega

def stripSlash (s : Word) : Word := if s.head? = some '/' then s.tail else s

def dropSlash (out : Word) : Word :=
  if 1 < out.length ∧ out.getLast? = some '/' then out.dropLast else out

/-- sh.c:1349-1418 `normalize_path`: what `out` holds behind a 0. -/
def normalizePath (base target : Word) (cap : Int) : Option Word :=
  if cap < 2 then none
  else
    (if target.head? = some '/' then some ⟨['/'], []⟩
     else
      (eachComp (seedComp cap) ⟨['/'], []⟩ (stripSlash base)).map fun st =>
        { st with out := dropSlash st.out }).bind fun st =>
      (eachComp (walkComp cap) st (stripSlash target)).map fun st =>
        if st.out = [] then ['/'] else st.out

/-! ## What is asked for -/

def components (s : Word) : List Word := fields '/' s

def enter (cs : List Word) (comp : Word) : List Word :=
  if comp = [] ∨ comp = ['.'] then cs
  else if comp = ['.', '.'] then cs.dropLast
  else cs ++ [comp]

/-- The paths on the way from `cs` over the components of `target`. -/
def way (cs : List Word) (target : Word) : List (List Word) := (components target).scanl enter cs

def walk (cs : List Word) (target : Word) : List Word := (components target).foldl enter cs

/-- Where the target starts, if the base has the components `cs`. -/
def origin (cs : List Word) (target : Word) : List Word :=
  if target.head? = some '/' then [] else cs

def resolve (cs : List Word) (target : Word) : List Word := walk (origin cs target) target

def render (cs : List Word) : Word := if cs = [] then ['/'] else cs.flatMap ('/' :: ·)

structure Canonical (cs : List Word) : Prop where
  ne_nil : [] ∉ cs
  ne_dot : ['.'] ∉ cs
  ne_dots : ['.', '.'] ∉ cs
  noSlash : ∀ c ∈ cs, '/' ∉ c

/-- The path with its terminator fits, and is not too deep. -/
def Room (cap : Int) (cs : List Word) : Prop :=
  (render cs).length + 1 ≤ cap ∧ cs.length ≤ segMax

instance (cap : Int) (cs : List Word) : Decidable (Room cap cs) :=
  inferInstanceAs (Decidable (_ ∧ _))

/-- The answer is right: the path asked for, or -1 where there is no room for it. -/
def Right (cs : List Word) (target : Word) (cap : Int) : Prop :=
  (normalizePath (render cs) target cap).elim (¬Room cap (resolve cs target)) fun out =>
    out = render (resolve cs target) ∧ Canonical (resolve cs target)

variable {cap : Int} {st st' : PathBuf} {cs rs : List Word} {c comp out target s : Word}

/-! ## Characters and components -/

theorem components_slash (s : Word) : components ('/' :: s) = [] :: components s :=
  fields_cons (l := []) not_mem_nil

variable {f : PathBuf → Word → Option PathBuf}

theorem eachComp_eq (hf : ∀ st, f st [] = some st)
    (st : PathBuf) (s : Word) : eachComp f st s = (components s).foldlM f st := by
  induction hn : s.length using Nat.strongRecOn generalizing s st with
  | ind n ih =>
    rw [eachComp]
    split
    · rename_i hs
      subst hs
      rw [show components [] = [[]] from rfl, foldlM_cons, hf]
      rfl
    · by_cases hmem : '/' ∈ s
      · conv_rhs => rw [takeWhile_line hmem]
        unfold components
        rw [fields_cons takeWhile_notMem, foldlM_cons]
        refine congrArg _ (funext fun st => ?_)
        have hl := congrArg List.length (takeWhile_line hmem)
        rw [length_append, length_cons] at hl
        exact ih _ (by omega) _ _ rfl
      · have hall : ∀ d ∈ s, decide (d ≠ '/') = true :=
          fun d hd => decide_eq_true fun he => hmem (he ▸ hd)
        rw [takeWhile_eq_self_iff.mpr hall, dropWhile_eq_nil_iff.mpr hall]
        unfold components
        rw [fields_of_notMem hmem, foldlM_cons]
        refine congrArg _ (funext fun st => ?_)
        rw [drop_nil, eachComp, if_pos rfl]
        rfl

theorem eachComp_stripSlash (hf : ∀ st, f st [] = some st)
    (st : PathBuf) (s : Word) :
    eachComp f st (stripSlash s) = (components s).foldlM f st := by
  rw [eachComp_eq hf]
  unfold stripSlash
  split
  · rename_i hs
    cases s with
    | nil => cases hs
    | cons d s =>
      rw [Option.some.inj hs, components_slash, foldlM_cons, hf]
      rfl
  · rfl

theorem components_flatMap (hc : '/' ∉ c) (hcs : ∀ c ∈ cs, '/' ∉ c) :
    components (c ++ cs.flatMap ('/' :: ·)) = c :: cs := by
  induction cs generalizing c with
  | nil =>
    rw [flatMap_nil, append_nil]
    exact fields_of_notMem hc
  | cons d cs ih =>
    rw [flatMap_cons, cons_append]
    unfold components
    rw [fields_cons hc]
    exact congrArg _ (ih (hcs d mem_cons_self) fun e he => hcs e (mem_cons_of_mem _ he))

theorem foldlM_render (hf : ∀ st, f st [] = some st)
    (h : Canonical cs) (st : PathBuf) :
    (components (render cs)).foldlM f st = cs.foldlM f st := by
  unfold render
  split
  · rename_i hcs
    subst hcs
    rw [show components ['/'] = [[], []] from rfl, foldlM_cons, hf]
    show ([[]] : List Word).foldlM f st = _
    rw [foldlM_cons, hf]
    rfl
  · have := components_flatMap (c := []) not_mem_nil h.noSlash
    rw [nil_append] at this
    rw [this, foldlM_cons, hf]
    rfl

/-! ## Text and stack of a path

Behind the loop over the target the components are kept with the last one first, as the stack
is. -/

def body (rs : List Word) : Word := rs.reverse.flatMap ('/' :: ·)

def starts : List Word → List Nat
  | [] => []
  | _ :: rs => ((body rs).length + 1) :: starts rs

/-- While the base is copied, a slash stands behind every component. -/
structure Seeded (st : PathBuf) (rs : List Word) : Prop where
  out : st.out = body rs ++ ['/']
  stack : st.stack = starts rs

structure Placed (st : PathBuf) (rs : List Word) : Prop where
  out : st.out = render rs.reverse
  stack : st.stack = starts rs
  ne_nil : [] ∉ rs

theorem body_cons (c : Word) (rs : List Word) : body (c :: rs) = body rs ++ '/' :: c := by
  unfold body
  rw [reverse_cons, flatMap_append, flatMap_singleton]

theorem starts_length (rs : List Word) : (starts rs).length = rs.length := by
  induction rs with
  | nil => rfl
  | cons c rs ih => rw [starts, length_cons, length_cons, ih]

theorem starts_eq_nil : starts rs = [] ↔ rs = [] := by
  rw [← length_eq_zero_iff, starts_length, length_eq_zero_iff]

theorem render_reverse (rs : List Word) :
    render rs.reverse = if rs = [] then ['/'] else body rs := by
  unfold render body
  simp only [reverse_eq_nil_iff]

theorem render_cons (c : Word) (rs : List Word) : render (c :: rs).reverse = body (c :: rs) := by
  rw [render_reverse, if_neg (cons_ne_nil c rs)]

theorem Seeded.placed (h : Seeded st rs) (hne : [] ∉ rs) :
    Placed { st with out := dropSlash st.out } rs := by
  refine ⟨?_, h.stack, hne⟩
  rw [h.out, render_reverse]
  unfold dropSlash
  rw [List.getLast?_append, length_append]
  cases rs with
  | nil => rfl
  | cons c rs =>
    rw [if_neg (cons_ne_nil c rs), if_pos, dropLast_concat]
    refine ⟨?_, rfl⟩
    rw [body_cons, length_append, length_cons, length_singleton]
    omega

/-! ## Room -/

theorem put_of_le (h : (out.length : Int) + 2 ≤ cap) (c : Char) :
    put cap out c = some (out ++ [c]) :=
  if_neg (by omega)

theorem put_of_lt (h : cap < (out.length : Int) + 2) (c : Char) : put cap out c = none :=
  if_pos (by omega)

theorem putAll_eq (h : (out.length : Int) + 1 ≤ cap) (cs : Word) :
    putAll cap out cs =
      if ((out ++ cs).length : Int) + 1 ≤ cap then some (out ++ cs) else none := by
  unfold putAll
  induction cs generalizing out with
  | nil =>
    rw [append_nil, if_pos h]
    rfl
  | cons c cs ih =>
    rw [foldlM_cons]
    rcases Int.lt_or_le cap ((out.length : Int) + 2) with hlt | hle
    · rw [put_of_lt hlt, if_neg]
      · rfl
      · rw [length_append, length_cons]
        omega
    · rw [put_of_le hle]
      show List.foldlM _ _ _ = _
      rw [ih (by rw [length_append, length_singleton]; omega), append_assoc,
        singleton_append]

theorem seedComp_eq (h : Seeded st rs) (hc : c ≠ []) (hd : rs.length < segMax)
    (hr : ((body rs).length : Int) + 2 ≤ cap) :
    seedComp cap st c =
      if ((body (c :: rs)).length : Int) + 2 ≤ cap then
        some ⟨body (c :: rs) ++ ['/'], starts (c :: rs)⟩
      else none := by
  have hlen : st.out.length = (body rs).length + 1 := by
    rw [h.out, length_append, length_singleton]
  have hbody : (body (c :: rs)).length = (body rs).length + 1 + c.length := by
    rw [body_cons, length_append, length_cons]
    omega
  have htext : st.out ++ c = body (c :: rs) := by
    rw [h.out, body_cons, append_assoc, singleton_append]
  unfold seedComp
  rw [if_pos ⟨length_pos_iff.mpr hc, by rw [h.stack, starts_length]; exact hd⟩,
    putAll_eq (by omega), htext]
  by_cases hfit : ((body (c :: rs)).length : Int) + 2 ≤ cap
  · rw [if_pos hfit, if_pos (by omega)]
    show (put cap (body (c :: rs)) '/').map _ = _
    rw [put_of_le hfit]
    rw [hlen, h.stack]
    rfl
  · rw [if_neg hfit]
    split
    · show (put cap (body (c :: rs)) '/').map _ = _
      rw [put_of_lt (by omega)]
      rfl
    · rfl

theorem seedComp_full (h : Seeded st rs) (hd : rs.length = segMax) (c : Word) :
    seedComp cap st c = some st := by
  unfold seedComp
  rw [if_neg]
  rw [h.stack, starts_length]
  omega

theorem body_length_le (ds rs : List Word) : (body rs).length ≤ (body (ds ++ rs)).length := by
  induction ds with
  | nil => exact Nat.le_refl _
  | cons d ds ih =>
    rw [cons_append, body_cons, length_append]
    omega

theorem seed_eq (hne : [] ∉ cs) (h : Seeded st rs) (hd : rs.length ≤ segMax)
    (hr : ((body rs).length : Int) + 2 ≤ cap) :
    cs.foldlM (seedComp cap) st =
      if ((body ((cs.take (segMax - rs.length)).reverse ++ rs)).length : Int) + 2 ≤ cap then
        some ⟨body ((cs.take (segMax - rs.length)).reverse ++ rs) ++ ['/'],
          starts ((cs.take (segMax - rs.length)).reverse ++ rs)⟩
      else none := by
  induction cs generalizing st rs with
  | nil =>
    rw [take_nil, reverse_nil, nil_append, if_pos hr, ← h.out, ← h.stack]
    rfl
  | cons c cs ih =>
    have hne' : [] ∉ cs := fun hm => hne (mem_cons_of_mem _ hm)
    rw [foldlM_cons]
    rcases Nat.lt_or_ge rs.length segMax with hlt | hge
    · obtain ⟨k, hk⟩ : ∃ k, segMax - rs.length = k + 1 := ⟨segMax - rs.length - 1, by omega⟩
      have hk' : segMax - (c :: rs).length = k := by
        rw [length_cons]
        omega
      rw [seedComp_eq h (fun he => hne (he ▸ mem_cons_self)) hlt hr, hk, take_succ_cons,
        reverse_cons, append_assoc, singleton_append]
      by_cases hfit : ((body (c :: rs)).length : Int) + 2 ≤ cap
      · rw [if_pos hfit]
        show List.foldlM _ _ _ = _
        rw [ih hne' ⟨rfl, rfl⟩ (by rw [length_cons]; omega) hfit, hk']
      · have := body_length_le (cs.take k).reverse (c :: rs)
        rw [if_neg hfit, if_neg (by omega)]
        rfl
    · have hz : segMax - rs.length = 0 := by omega
      rw [seedComp_full h (by omega), hz, take_zero]
      show List.foldlM _ _ _ = _
      rw [ih hne' h hd hr, hz, take_zero]

/-! ## The target -/

theorem enter_reverse (rs : List Word) (comp : Word) :
    enter rs.reverse comp =
      (if comp = [] ∨ comp = ['.'] then rs else if comp = ['.', '.'] then rs.tail
        else comp :: rs).reverse := by
  unfold enter
  split
  · rfl
  · split
    · exact dropLast_reverse
    · exact reverse_cons.symm

theorem room_reverse (cap : Int) (rs : List Word) :
    Room cap rs.reverse ↔ ((if rs = [] then 1 else (body rs).length : Nat) : Int) + 1 ≤ cap ∧
      rs.length ≤ segMax := by
  unfold Room
  rw [render_reverse, length_reverse]
  split
  · rfl
  · rfl

theorem body_length_pos (c : Word) (rs : List Word) : 0 < (body (c :: rs)).length := by
  rw [body_cons, length_append, length_cons]
  omega

theorem Room.tail (h : Room cap rs.reverse) : Room cap rs.tail.reverse := by
  rw [room_reverse] at h ⊢
  cases rs with
  | nil => exact h
  | cons c rs =>
    rw [if_neg (cons_ne_nil c rs), length_cons] at h
    have := body_length_pos c rs
    have hb := body_length_le [c] rs
    rw [singleton_append] at hb
    rw [tail_cons]
    split
    · omega
    · omega

theorem length_lt_body (h : [] ∉ c :: rs) : 1 < (body (c :: rs)).length := by
  have := length_pos_iff.mpr fun he : c = [] => h (he ▸ mem_cons_self)
  rw [body_cons, length_append, length_cons]
  omega

theorem Placed.slash (h : Placed st rs) (hr : Room cap rs.reverse) :
    (if 1 < st.out.length then put cap st.out '/' else some st.out) =
      if ((body rs).length : Int) + 2 ≤ cap then some (body rs ++ ['/']) else none := by
  rw [room_reverse] at hr
  rw [h.out, render_reverse]
  cases rs with
  | nil =>
    have h1 := hr.1
    have h0 : (body []).length = 0 := rfl
    rw [if_pos rfl] at h1
    rw [if_pos (rfl : ([] : List Word) = []),
      if_neg (show ¬1 < ['/'].length by decide), if_pos (by omega)]
    rfl
  | cons c rs =>
    rw [if_neg (cons_ne_nil c rs), if_pos (length_lt_body h.ne_nil)]
    split
    · rename_i hle
      exact put_of_le hle _
    · exact put_of_lt (by omega) _

theorem walkComp_spec (h : Placed st rs) (hr : Room cap rs.reverse) (comp : Word) :
    (Room cap (enter rs.reverse comp) → ∃ st' rs', walkComp cap st comp = some st' ∧
      Placed st' rs' ∧ enter rs.reverse comp = rs'.reverse) ∧
    (¬Room cap (enter rs.reverse comp) → walkComp cap st comp = none) := by
  rw [enter_reverse]
  unfold walkComp
  by_cases hskip : comp = [] ∨ comp = ['.']
  · rw [if_pos hskip]
    refine ⟨fun _ => ⟨st, rs, ?_, h, rfl⟩, fun hn => absurd hr hn⟩
    split
    · rfl
    · rename_i hn
      exact if_pos (hskip.resolve_left hn)
  · rw [if_neg hskip, if_neg fun he => hskip (Or.inl he), if_neg fun he => hskip (Or.inr he)]
    by_cases hup : comp = ['.', '.']
    · rw [if_pos hup, if_pos hup, h.stack]
      refine ⟨fun _ => ?_, fun hn => absurd hr.tail hn⟩
      cases rs with
      | nil => exact ⟨st, [], rfl, h, rfl⟩
      | cons c rs =>
        refine ⟨_, rs, if_neg (cons_ne_nil _ _), ⟨?_, rfl, ?_⟩, rfl⟩
        · show st.out.take (if starts rs = [] then 1 else (body rs).length + 1 - 1) = _
          rw [h.out, render_cons, render_reverse, body_cons]
          simp only [starts_eq_nil]
          split
          · rename_i hnil
            subst hnil
            rfl
          · rw [Nat.add_sub_cancel, take_left]
        · exact fun hm => h.ne_nil (mem_cons_of_mem _ hm)
    · rw [if_neg hup, if_neg hup, room_reverse, if_neg (cons_ne_nil comp rs), h.slash hr,
        length_cons, h.stack, starts_length]
      have hbody : (body (comp :: rs)).length = (body rs).length + 1 + comp.length := by
        rw [body_cons, length_append, length_cons]
        omega
      have htext : body rs ++ ['/'] ++ comp = body (comp :: rs) := by
        rw [body_cons, append_assoc, singleton_append]
      have hlen : (body rs ++ ['/']).length = (body rs).length + 1 := by
        rw [length_append, length_singleton]
      constructor
      · rintro ⟨hfit, hd⟩
        refine ⟨⟨body (comp :: rs), starts (comp :: rs)⟩, comp :: rs, ?_, ⟨?_, rfl, ?_⟩, rfl⟩
        · rw [if_neg (by omega), if_pos (by omega)]
          show (putAll cap (body rs ++ ['/']) comp).map _ = _
          rw [putAll_eq (by omega), htext, if_pos hfit, hlen]
          rfl
        · exact (render_cons comp rs).symm
        · intro hm
          rcases mem_cons.mp hm with he | hm
          · exact hskip (Or.inl he.symm)
          · exact h.ne_nil hm
      · intro hn
        split
        · rfl
        · split
          · show (putAll cap (body rs ++ ['/']) comp).map _ = _
            rw [putAll_eq (by omega), htext, if_neg (by omega)]
            rfl
          · rfl

theorem mem_scanl (cs : List Word) (comps : List Word) : cs ∈ comps.scanl enter cs := by
  cases comps with
  | nil => exact mem_singleton_self _
  | cons d ds =>
    rw [scanl_cons]
    exact mem_cons_self

/-- The loop over the target goes through if there is room for every path on the way. -/
theorem walk_spec (h : Placed st rs) (hr : Room cap rs.reverse) (comps : List Word) :
    ((∀ ds ∈ comps.scanl enter rs.reverse, Room cap ds) → ∃ st',
      comps.foldlM (walkComp cap) st = some st' ∧
        st'.out = render (comps.foldl enter rs.reverse)) ∧
    (¬(∀ ds ∈ comps.scanl enter rs.reverse, Room cap ds) →
      comps.foldlM (walkComp cap) st = none) := by
  induction comps generalizing st rs with
  | nil =>
    refine ⟨fun _ => ⟨st, rfl, h.out⟩, fun hn => absurd (fun ds hds => ?_) hn⟩
    rw [scanl_nil, mem_singleton] at hds
    exact hds ▸ hr
  | cons comp comps ih =>
    rw [scanl_cons, foldlM_cons, foldl_cons]
    obtain ⟨h1, h2⟩ := walkComp_spec h hr comp
    by_cases hroom : Room cap (enter rs.reverse comp)
    · obtain ⟨st', rs', hw, hp, he⟩ := h1 hroom
      rw [he] at hroom
      rw [hw, he]
      obtain ⟨ih1, ih2⟩ := ih hp hroom
      refine ⟨fun hall => ih1 fun ds hds => hall ds (mem_cons_of_mem _ hds), fun hn => ?_⟩
      refine ih2 fun hall => hn fun ds hds => ?_
      rcases mem_cons.mp hds with rfl | hds
      · exact hr
      · exact hall ds hds
    · rw [h2 hroom]
      refine ⟨fun hall => absurd (hall _ (mem_cons_of_mem _ ?_)) hroom, fun _ => rfl⟩
      exact mem_scanl _ comps

/-! ## The whole function -/

/-- Where the walk over the target really starts. -/
def kept (cs : List Word) (target : Word) : List Word := origin (cs.take segMax) target

/-- There is room for the copy of the base, with a slash behind it, and for every path that
the walk comes to from there. -/
def Passable (cs : List Word) (target : Word) (cap : Int) : Prop :=
  (kept cs target ≠ [] → ((render (kept cs target)).length : Int) + 2 ≤ cap) ∧
    ∀ ds ∈ way (kept cs target) target, Room cap ds

theorem Canonical.take (h : Canonical cs) (n : Nat) : Canonical (cs.take n) :=
  ⟨fun hm => h.ne_nil (mem_of_mem_take hm), fun hm => h.ne_dot (mem_of_mem_take hm),
    fun hm => h.ne_dots (mem_of_mem_take hm),
    fun c hm => h.noSlash c (mem_of_mem_take hm)⟩

theorem seedComp_nil (cap : Int) (st : PathBuf) : seedComp cap st [] = some st :=
  if_neg fun h => absurd h.1 (Nat.lt_irrefl 0)

theorem walkComp_nil (cap : Int) (st : PathBuf) : walkComp cap st [] = some st := if_pos rfl

theorem room_nil : Room cap [] ↔ 2 ≤ cap := by
  unfold Room
  rw [show (render ([] : List Word)).length = 1 from rfl]
  constructor
  · rintro ⟨h, -⟩
    exact h
  · intro h
    exact ⟨h, Nat.zero_le _⟩

theorem render_length_pos (cs : List Word) : 0 < (render cs).length := by
  unfold render
  cases cs with
  | nil => exact Nat.one_pos
  | cons c cs =>
    rw [if_neg (cons_ne_nil c cs), flatMap_cons, cons_append]
    exact Nat.succ_pos _

theorem seeded_spec (h : Canonical cs) (hcap : 2 ≤ cap) (target : Word) :
    let start := if target.head? = some '/' then some ⟨['/'], []⟩
      else (eachComp (seedComp cap) ⟨['/'], []⟩ (stripSlash (render cs))).map fun st =>
        { st with out := dropSlash st.out }
    let fits := kept cs target ≠ [] → ((render (kept cs target)).length : Int) + 2 ≤ cap
    (fits → ∃ st, start = some st ∧ Placed st (kept cs target).reverse ∧
      Room cap (kept cs target)) ∧ (¬fits → start = none) := by
  intro start fits
  by_cases hroot : target.head? = some '/'
  · have hk : kept cs target = [] := if_pos hroot
    refine ⟨fun _ => ⟨⟨['/'], []⟩, if_pos hroot, ?_, ?_⟩, fun hn => absurd (fun hne => ?_) hn⟩
    · rw [hk]
      exact ⟨rfl, rfl, not_mem_nil⟩
    · rw [hk]
      exact room_nil.mpr hcap
    · exact absurd hk hne
  · have hk : kept cs target = cs.take segMax := if_neg hroot
    have hstart : start = ((cs.foldlM (seedComp cap) ⟨['/'], []⟩).map fun st =>
        { st with out := dropSlash st.out } : Option PathBuf) := by
      show (if _ then _ else _) = _
      rw [if_neg hroot, eachComp_stripSlash (seedComp_nil cap), foldlM_render (seedComp_nil cap) h]
    have hbody : body (cs.take segMax).reverse = (cs.take segMax).flatMap ('/' :: ·) := by
      unfold body
      rw [reverse_reverse]
    have hfits : fits ↔ ((body (cs.take segMax).reverse).length : Int) + 2 ≤ cap := by
      show (kept cs target ≠ [] → _) ↔ _
      rw [hk, hbody]
      unfold render
      split
      · rename_i hnil
        rw [hnil]
        exact ⟨fun _ => hcap, fun _ hne => absurd rfl hne⟩
      · rename_i hne
        exact ⟨fun hf => hf hne, fun hf _ => hf⟩
    have hseed := seed_eq h.ne_nil (⟨rfl, rfl⟩ : Seeded ⟨['/'], []⟩ []) (Nat.zero_le _) hcap
    rw [length_nil, Nat.sub_zero, append_nil] at hseed
    rw [hstart, hseed, hfits, hk]
    constructor
    · intro hf
      rw [if_pos hf]
      have hp : Seeded ⟨body (cs.take segMax).reverse ++ ['/'], starts (cs.take segMax).reverse⟩
          (cs.take segMax).reverse := ⟨rfl, rfl⟩
      refine ⟨_, rfl, hp.placed ?_, ?_⟩
      · rw [mem_reverse]
        exact (h.take segMax).ne_nil
      · have hr := (room_reverse cap (cs.take segMax).reverse).mpr ⟨?_, ?_⟩
        · rwa [reverse_reverse] at hr
        · split
          · omega
          · omega
        · rw [length_reverse, length_take]
          omega
    · intro hf
      rw [if_neg hf]
      rfl

theorem normalizePath_spec (h : Canonical cs) (target : Word) (cap : Int) :
    (Passable cs target cap →
      normalizePath (render cs) target cap = some (render (walk (kept cs target) target))) ∧
    (¬Passable cs target cap → normalizePath (render cs) target cap = none) := by
  unfold normalizePath
  by_cases hcap : cap < 2
  · rw [if_pos hcap]
    refine ⟨fun hp => ?_, fun _ => rfl⟩
    have hroom := hp.2 _ (mem_scanl (kept cs target) (components target))
    have := render_length_pos (kept cs target)
    unfold Room at hroom
    omega
  · rw [if_neg hcap]
    have hcap' : 2 ≤ cap := by omega
    obtain ⟨h1, h2⟩ := seeded_spec h hcap' target
    by_cases hfits : kept cs target ≠ [] → ((render (kept cs target)).length : Int) + 2 ≤ cap
    · obtain ⟨st, hs, hp, hr⟩ := h1 hfits
      rw [hs]
      show (_ → Option.map _ (eachComp (walkComp cap) st _) = _) ∧
        (_ → Option.map _ (eachComp (walkComp cap) st _) = _)
      rw [eachComp_stripSlash (walkComp_nil cap)]
      rw [← reverse_reverse (kept cs target)] at hr
      obtain ⟨w1, w2⟩ := walk_spec hp hr (components target)
      rw [reverse_reverse] at w1 w2
      constructor
      · intro hpass
        obtain ⟨st', hw, ho⟩ := w1 hpass.2
        rw [hw]
        refine congrArg some ((if_neg fun he => ?_).trans ho)
        have := render_length_pos (walk (kept cs target) target)
        rw [← length_eq_zero_iff, ho] at he
        unfold walk at this
        omega
      · intro hn
        rw [w2 fun hall => hn ⟨hfits, hall⟩]
        rfl
    · rw [h2 hfits]
      exact ⟨fun hpass => absurd hpass.1 hfits, fun _ => rfl⟩

/-! ## Right answers -/

theorem Canonical.enter (h : Canonical cs) (hc : '/' ∉ comp) : Canonical (enter cs comp) := by
  unfold Paths.enter
  split
  · exact h
  · rename_i hskip
    split
    · exact ⟨fun hm => h.ne_nil (mem_of_mem_dropLast hm),
        fun hm => h.ne_dot (mem_of_mem_dropLast hm),
        fun hm => h.ne_dots (mem_of_mem_dropLast hm),
        fun c hm => h.noSlash c (mem_of_mem_dropLast hm)⟩
    · rename_i hup
      have hsplit : ∀ {d : Word}, d ∈ cs ++ [comp] → d ∈ cs ∨ d = comp := fun hm =>
        (mem_append.mp hm).imp_right mem_singleton.mp
      refine ⟨fun hm => ?_, fun hm => ?_, fun hm => ?_, fun d hm => ?_⟩
      · exact (hsplit hm).elim h.ne_nil fun he => hskip (Or.inl he.symm)
      · exact (hsplit hm).elim h.ne_dot fun he => hskip (Or.inr he.symm)
      · exact (hsplit hm).elim h.ne_dots fun he => hup he.symm
      · exact (hsplit hm).elim (h.noSlash d) fun he => he ▸ hc

theorem Canonical.walk (h : Canonical cs) (target : Word) : Canonical (walk cs target) := by
  unfold Paths.walk
  have hs : ∀ comp ∈ components target, '/' ∉ comp := fun comp => notMem_of_mem_fields
  generalize components target = comps at hs
  induction comps generalizing cs with
  | nil => exact h
  | cons comp comps ih =>
    exact ih (h.enter (hs comp mem_cons_self)) fun d hd => hs d (mem_cons_of_mem _ hd)

theorem Canonical.origin (h : Canonical cs) (target : Word) : Canonical (origin cs target) := by
  unfold Paths.origin
  split
  · exact ⟨not_mem_nil, not_mem_nil, not_mem_nil, fun c hc => by cases hc⟩
  · exact h

theorem components_render (h : Canonical cs) (hne : cs ≠ []) :
    components (render cs) = [] :: cs := by
  unfold render
  rw [if_neg hne]
  exact components_flatMap (c := []) not_mem_nil h.noSlash

theorem Canonical.render_inj {ds : List Word} (h : Canonical cs) (hd : Canonical ds)
    (he : render cs = render ds) : cs = ds := by
  have hc := congrArg components he
  by_cases h1 : cs = []
  · by_cases h2 : ds = []
    · rw [h1, h2]
    · rw [components_render hd h2, h1] at hc
      have : [[]] = ds := (List.cons.inj hc).2
      exact absurd (this ▸ mem_cons_self) hd.ne_nil
  · by_cases h2 : ds = []
    · rw [components_render h h1, h2] at hc
      have : cs = [[]] := (List.cons.inj hc).2
      exact absurd (this ▸ mem_cons_self) h.ne_nil
    · rw [components_render h h1, components_render hd h2] at hc
      exact (List.cons.inj hc).2

/-- Two walks over the same target, from a path and from its first `m` components, with `k`
components left behind so far and the components `s` entered since: they come together if and
only if the first one comes to the root. -/
theorem foldl_enter_take {m k : Nat} (hm : m < cs.length) (hk : k < cs.length) (s : List Word)
    (comps : List Word) :
    comps.foldl enter (cs.take (m - k) ++ s) = comps.foldl enter (cs.take (cs.length - k) ++ s) ↔
      [] ∈ comps.scanl enter (cs.take (cs.length - k) ++ s) := by
  induction comps generalizing k s with
  | nil =>
    have hpos : cs.take (cs.length - k) ++ s ≠ [] := by
      intro he
      have hl := congrArg List.length he
      rw [length_append, length_take, length_nil] at hl
      omega
    rw [scanl_nil, mem_singleton]
    refine ⟨fun he => ?_, fun he => absurd he.symm hpos⟩
    have hl := congrArg List.length he
    rw [foldl_nil, foldl_nil, length_append, length_append, length_take,
      length_take] at hl
    omega
  | cons comp comps ih =>
    have hpos : [] ≠ cs.take (cs.length - k) ++ s := by
      intro he
      have hl := congrArg List.length he
      rw [length_append, length_take, length_nil] at hl
      omega
    rw [foldl_cons, foldl_cons, scanl_cons, mem_cons, or_iff_right hpos]
    unfold Paths.enter
    split
    · exact ih hk s
    · split
      · cases s using List.reverseRecOn with
        | nil =>
          have hdrop : ∀ i ≤ cs.length, (cs.take i).dropLast = cs.take (i - 1) := by
            intro i hi
            rw [dropLast_eq_take, take_take, length_take]
            exact congrArg (cs.take ·) (by omega)
          rw [append_nil, append_nil, hdrop _ (by omega), hdrop _ (by omega),
            Nat.sub_sub, Nat.sub_sub]
          rcases Nat.lt_or_ge (k + 1) cs.length with hlt | hge
          · have := ih hlt []
            rwa [append_nil, append_nil] at this
          · rw [show m - (k + 1) = 0 by omega, show cs.length - (k + 1) = 0 by omega]
            exact iff_of_true rfl (mem_scanl [] comps)
        | append_singleton s d _ =>
          rw [← append_assoc, ← append_assoc, dropLast_concat, dropLast_concat]
          exact ih hk s
      · rw [append_assoc, append_assoc]
        exact ih hk _

theorem kept_eq_origin (h : (origin cs target).length ≤ segMax) :
    kept cs target = origin cs target := by
  unfold kept
  unfold origin at h ⊢
  split
  · rfl
  · rename_i hr
    rw [if_neg hr] at h
    exact take_of_length_le h

theorem walk_kept_iff :
    walk (kept cs target) target = resolve cs target ↔
      (origin cs target).length ≤ segMax ∨ [] ∈ way (origin cs target) target := by
  by_cases hle : (origin cs target).length ≤ segMax
  · rw [kept_eq_origin hle]
    exact iff_of_true rfl (Or.inl hle)
  · rw [or_iff_right hle]
    have hroot : ¬target.head? = some '/' := by
      intro hr
      apply hle
      unfold origin
      rw [if_pos hr]
      exact Nat.zero_le _
    have ho : origin cs target = cs := if_neg hroot
    have hk : kept cs target = cs.take segMax := if_neg hroot
    rw [ho] at hle ⊢
    unfold resolve
    rw [ho, hk]
    have hlt : segMax < cs.length := by omega
    have := foldl_enter_take (k := 0) hlt (by omega) [] (components target)
    rwa [Nat.sub_zero, Nat.sub_zero, append_nil, append_nil, take_length] at this

/-- The walk goes through, and either the base has no component behind the limit of the stack
or the target leads over the root; or the walk does not go through, and there is no room for
the path asked for either. -/
def Served (cs : List Word) (target : Word) (cap : Int) : Prop :=
  (Passable cs target cap ∧
    ((origin cs target).length ≤ segMax ∨ [] ∈ way (origin cs target) target)) ∨
  (¬Passable cs target cap ∧ ¬Room cap (resolve cs target))

/-- **Exactly when the path is right.** For every canonical base, target and capacity. -/
theorem normalizePath_right_iff (h : Canonical cs) (target : Word) (cap : Int) :
    Right cs target cap ↔ Served cs target cap := by
  obtain ⟨h1, h2⟩ := normalizePath_spec h target cap
  have hres : Canonical (resolve cs target) := (h.origin target).walk target
  have hkept : Canonical (walk (kept cs target) target) :=
    ((h.take segMax).origin target).walk target
  unfold Right Served
  by_cases hp : Passable cs target cap
  · rw [h1 hp, or_iff_left fun hn => hn.1 hp, and_iff_right hp, ← walk_kept_iff]
    constructor
    · intro hr
      exact hkept.render_inj hres hr.1
    · intro he
      exact ⟨congrArg render he, hres⟩
  · rw [h2 hp, or_iff_right fun hn => hp hn.1, and_iff_right hp]
    exact Iff.rfl

/-! ## Concrete paths -/

instance (cs : List Word) (target : Word) (cap : Int) : Decidable (Passable cs target cap) :=
  inferInstanceAs (Decidable (_ ∧ _))

instance (cs : List Word) (target : Word) (cap : Int) : Decidable (Served cs target cap) :=
  inferInstanceAs (Decidable (_ ∨ _))

def etc : List Word := [['e', 't', 'c']]

theorem canonical_etc : Canonical etc := ⟨by decide, by decide, by decide, by decide⟩

/-- `cd ../mnt` from there. -/
theorem normalizePath_right_etc : Right etc ['.', '.', '/', 'm', 'n', 't'] 160 :=
  (normalizePath_right_iff canonical_etc _ _).mpr (by decide)

/-- A directory of 33 components, which the buffer of `cmd_cd` for the current one can hold. -/
def deep : List Word := List.replicate 33 ['a']

theorem canonical_deep : Canonical deep := ⟨by decide, by decide, by decide, by decide⟩

/-- **The last component is lost.** `cd .` in a directory of 33 components, with the buffers of
`cmd_cd`, leads to the directory above it. -/
theorem normalizePath_not_right :
    ¬∀ (cs : List Word) (target : Word) (cap : Int), Canonical cs → Right cs target cap := by
  intro h
  have hr := h deep ['.'] 160 canonical_deep
  unfold Right at hr
  rw [(normalizePath_spec canonical_deep ['.'] 160).1 (by decide)] at hr
  have he : render (walk (kept deep ['.']) ['.']) = render (resolve deep ['.']) := hr.1
  have hl : (render (walk (kept deep ['.']) ['.'])).length ≠
      (render (resolve deep ['.'])).length := by decide
  exact hl (congrArg List.length he)

end AdventOS.Shell.Paths
