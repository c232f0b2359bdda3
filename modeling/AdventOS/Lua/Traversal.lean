import AdventOS.Core.Rounds
import AdventOS.Lua.NumericFor

/-!
# Traversing a Lua table

`pairs` gives the builtin `next`, which finds its place in a table by searching for the key it
gave last. Removing a key closes the gap, so the place of a removed key is lost.

* `nextFrom_eq`: left alone, a table is enumerated in the order of its pairs; `built_keys` says
  which keys these are.
* `Front`: what holds between two rounds of a loop over a table: visited keys stand before
  the others.
* `Visits`: the rounds that the loop makes, with the key of each.
* `pairs_visits_iff`.
-/
namespace AdventOS.Lua
open List

/-- The builtins `next` and `pairs`, and the others. -/
inductive Iter (B : Type)
  | next
  | pairs
  | other (b : B)
  deriving DecidableEq

variable {B W : Type} [DecidableEq B]

/-! ## Tables -/

def keys (t : Table B) : List (Value B) := t.map Prod.fst

/-- What every table is: no key twice, and `nil` is none. -/
structure Sound (t : Table B) : Prop where
  nodup : (keys t).Nodup
  nil_notMem : Value.nil ∉ keys t

variable {t t' : Table B} {k v : Value B}

theorem findIdx_isSome : (t.findIdx? fun p => p.1 = k).isSome = true ↔ k ∈ keys t := by
  rw [List.findIdx?_isSome, any_eq_true, keys, mem_map]
  simp only [decide_eq_true_eq]

/-- `table_set` by the keys it leaves: a key of the table goes if `v` is `nil`, another one comes
if `v` is not. -/
theorem tableSet_cases (hk : k ≠ .nil) (v : Value B) :
    (∃ i, ∃ h : i < t.length, (t[i]).1 = k ∧
      tableSet t k v = if v = .nil then t.eraseIdx i else t.modify i fun p => (p.1, v)) ∨
    (k ∉ keys t ∧ tableSet t k v = if v = .nil then t else t ++ [(k, v)]) := by
  unfold tableSet
  rw [if_neg hk]
  cases hf : t.findIdx? fun p => p.1 = k with
  | some i =>
    obtain ⟨hi, hp, -⟩ := List.findIdx?_eq_some_iff_getElem.mp hf
    exact Or.inl ⟨i, hi, of_decide_eq_true hp, rfl⟩
  | none =>
    refine Or.inr ⟨fun hm => ?_, rfl⟩
    have := findIdx_isSome.mpr hm
    rw [hf] at this
    cases this

omit [DecidableEq B] in
theorem keys_modify (t : Table B) (i : Nat) (v : Value B) :
    keys (t.modify i fun p => (p.1, v)) = keys t := by
  refine ext_getElem? fun j => ?_
  unfold keys
  rw [List.getElem?_map, List.getElem?_map, List.getElem?_modify]
  cases t[j]? with
  | none => rfl
  | some p =>
    split
    · rfl
    · rfl

omit [DecidableEq B] in
theorem keys_eraseIdx (t : Table B) (i : Nat) : keys (t.eraseIdx i) = (keys t).eraseIdx i :=
  (eraseIdx_map ..).symm

theorem keys_tableSet_of_mem (hs : Sound t) (hk : k ∈ keys t) (v : Value B) :
    keys (tableSet t k v) = if v = .nil then (keys t).erase k else keys t := by
  have hne : k ≠ .nil := fun h => hs.nil_notMem (h ▸ hk)
  rcases tableSet_cases hne v (t := t) with ⟨i, hi, rfl, he⟩ | ⟨hno, -⟩
  · rw [he]
    split
    · have hi' : i < (keys t).length := by rwa [keys, length_map]
      have hget : (keys t)[i] = (t[i]).1 := getElem_map ..
      rw [keys_eraseIdx, ← hget, hs.nodup.erase_getElem i hi']
    · exact keys_modify t i v
  · exact absurd hk hno

theorem keys_tableSet_of_notMem (hk : k ∉ keys t) (hne : k ≠ .nil) (v : Value B) :
    keys (tableSet t k v) = if v = .nil then keys t else keys t ++ [k] := by
  rcases tableSet_cases hne v (t := t) with ⟨i, hi, rfl, -⟩ | ⟨-, he⟩
  · exact absurd (mem_map_of_mem (getElem_mem hi)) hk
  · rw [he]
    split
    · rfl
    · exact map_append

theorem tableSet_nil (t : Table B) (v : Value B) : tableSet t .nil v = t := if_pos rfl

theorem Sound.tableSet (hs : Sound t) (k v : Value B) : Sound (tableSet t k v) := by
  by_cases hne : k = .nil
  · rwa [hne, tableSet_nil]
  by_cases hk : k ∈ keys t
  · have he := keys_tableSet_of_mem hs hk v
    split at he
    · exact ⟨he ▸ hs.nodup.erase k, fun hm => hs.nil_notMem (mem_of_mem_erase (he ▸ hm))⟩
    · exact ⟨he ▸ hs.nodup, he ▸ hs.nil_notMem⟩
  · have he := keys_tableSet_of_notMem hk hne v
    split at he
    · exact ⟨he ▸ hs.nodup, he ▸ hs.nil_notMem⟩
    · refine ⟨?_, fun hm => ?_⟩
      · rw [he]
        exact nodup_append.mpr ⟨hs.nodup, nodup_singleton k, fun a ha b hb hab =>
          hk (mem_singleton.mp hb ▸ hab ▸ ha)⟩
      · rw [he] at hm
        rcases mem_append.mp hm with hm | hm
        · exact hs.nil_notMem hm
        · exact hne (mem_singleton.mp hm).symm

theorem mem_keys_tableSet (hs : Sound t) (k v k' : Value B) :
    k' ∈ keys (Lua.tableSet t k v) ↔ if k' = k then k ≠ .nil ∧ v ≠ .nil else k' ∈ keys t := by
  by_cases hne : k = .nil
  · rw [hne, tableSet_nil]
    split
    · rename_i he
      rw [he]
      exact iff_of_false hs.nil_notMem fun h => h.1 rfl
    · rfl
  by_cases hk : k ∈ keys t
  · rw [keys_tableSet_of_mem hs hk]
    split
    · rename_i hv
      rw [hs.nodup.mem_erase_iff]
      split
      · rename_i he
        exact iff_of_false (fun h => h.1 he) fun h => h.2 hv
      · rename_i he
        exact and_iff_right he
    · rename_i hv
      split
      · rename_i he
        exact iff_of_true (he ▸ hk) ⟨hne, hv⟩
      · rfl
  · rw [keys_tableSet_of_notMem hk hne]
    split
    · rename_i hv
      split
      · rename_i he
        exact iff_of_false (he ▸ hk) fun h => h.2 hv
      · rfl
    · rename_i hv
      rw [mem_append, mem_singleton]
      split
      · rename_i he
        exact iff_of_true (Or.inr he) ⟨hne, hv⟩
      · rename_i he
        exact or_iff_left he

/-! ## What `table_set` has installed -/

def built (hist : List (Value B × Value B)) : Table B :=
  hist.foldl (fun t p => tableSet t p.1 p.2) []

/-- The value of the last assignment to `k`, `nil` if there is none. -/
def lastAssigned (hist : List (Value B × Value B)) (k : Value B) : Value B :=
  ((hist.reverse.find? fun p => p.1 = k).map Prod.snd).getD .nil

theorem built_snoc (hist : List (Value B × Value B)) (p : Value B × Value B) :
    built (hist ++ [p]) = tableSet (built hist) p.1 p.2 := by
  unfold built
  rw [foldl_append]
  rfl

theorem built_sound (hist : List (Value B × Value B)) : Sound (built hist) := by
  induction hist using List.reverseRecOn with
  | nil => exact ⟨nodup_nil, not_mem_nil⟩
  | append_singleton hist p ih =>
    rw [built_snoc]
    exact ih.tableSet p.1 p.2

theorem built_keys (hist : List (Value B × Value B)) (k : Value B) :
    k ∈ keys (built hist) ↔ k ≠ .nil ∧ lastAssigned hist k ≠ .nil := by
  induction hist using List.reverseRecOn with
  | nil => exact iff_of_false not_mem_nil fun h => h.2 rfl
  | append_singleton hist p ih =>
    rw [built_snoc, mem_keys_tableSet (built_sound hist)]
    unfold lastAssigned at ih ⊢
    rw [reverse_append, reverse_singleton, singleton_append, List.find?_cons]
    by_cases he : k = p.1
    · rw [if_pos he, decide_eq_true he.symm, he]
      rfl
    · rw [if_neg he, decide_eq_false fun h => he h.symm]
      exact ih

/-! ## `next` -/

/-- lua.c:1759-1773 `bi_next`, for a table. -/
def nextOf (t : Table B) (k : Value B) : List (Value B) :=
  ((if k = .nil then some 0 else (t.findIdx? fun p => p.1 = k).map (· + 1)).bind fun i =>
    t[i]?).elim [] fun p => [p.1, p.2]

/-- The keys that `next` gives one after the other, behind `k`. -/
def nextFrom (t : Table B) : Nat → Value B → List (Value B)
  | 0, _ => []
  | n + 1, k => ((nextOf t k).head?).elim [] fun k' => k' :: nextFrom t n k'

theorem nextOf_missing (hne : k ≠ .nil) (hk : k ∉ keys t) : nextOf t k = [] := by
  unfold nextOf
  rw [if_neg hne]
  cases hf : t.findIdx? fun p => p.1 = k with
  | some i =>
    have := findIdx_isSome.mp (by rw [hf]; rfl : (t.findIdx? fun p => p.1 = k).isSome = true)
    exact absurd this hk
  | none => rfl

/-- The place behind the last of the keys `A`: it is found by `nil` in front of all keys, and
by the key before it else. -/
def Stands (A : List (Value B)) (k : Value B) : Prop := (k = .nil ∧ A = []) ∨ A.getLast? = some k

variable {A R : List (Value B)}

theorem place_eq (hs : Sound t) (hsplit : keys t = A ++ R)
    (hk : Stands A k) :
    (if k = .nil then some 0 else (t.findIdx? fun p => p.1 = k).map (· + 1)) = some A.length := by
  rcases hk with ⟨hk, hA⟩ | hlast
  · rw [if_pos hk, hA]
    rfl
  · obtain ⟨A, rfl⟩ := List.getLast?_eq_some_iff.mp hlast
    have hmem : k ∈ keys t := by
      rw [hsplit]
      simp
    have hnotA : k ∉ A := by
      have hn := hs.nodup
      rw [hsplit, append_assoc, nodup_append] at hn
      exact fun hm => hn.2.2 k hm k (by simp) rfl
    obtain ⟨ta, tb, rfl, hta, htb⟩ := map_eq_append_iff.mp
      (show t.map Prod.fst = A ++ ([k] ++ R) by rw [← append_assoc]; exact hsplit)
    obtain ⟨p, tb, rfl, hp, -⟩ := map_eq_cons_iff.mp htb
    have hnone : ta.findIdx? (fun p => p.1 = k) = none := by
      refine List.findIdx?_eq_none_iff.mpr fun q hq => decide_eq_false fun he => hnotA ?_
      rw [← hta, ← he]
      exact mem_map_of_mem hq
    rw [if_neg fun h : k = .nil => hs.nil_notMem (h ▸ hmem), List.findIdx?_append, hnone,
      List.findIdx?_cons, decide_eq_true hp, ← hta]
    simp

theorem nextOf_eq (hs : Sound t) (hsplit : keys t = A ++ R)
    (hk : Stands A k) : (nextOf t k).head? = R.head? := by
  unfold nextOf
  rw [place_eq hs hsplit hk]
  obtain ⟨ta, tb, rfl, hta, htb⟩ := map_eq_append_iff.mp
    (show t.map Prod.fst = A ++ R from hsplit)
  show (((ta ++ tb)[A.length]?).elim [] _).head? = _
  rw [← hta, length_map, List.getElem?_append_right (Nat.le_refl _), Nat.sub_self, ← htb]
  cases tb with
  | nil => rfl
  | cons p tb => rfl

theorem nextOf_shape (t : Table B) (k : Value B) :
    nextOf t k = [] ∨ ∃ k' v, nextOf t k = [k', v] := by
  unfold nextOf
  cases ((if k = .nil then some 0 else (t.findIdx? fun p => p.1 = k).map (· + 1)).bind fun i =>
    t[i]?) with
  | none => exact Or.inl rfl
  | some p => exact Or.inr ⟨p.1, p.2, rfl⟩

theorem nextFrom_eq (hs : Sound t) (hsplit : keys t = A ++ R)
    (hk : Stands A k) {n : Nat} (hn : R.length ≤ n) : nextFrom t n k = R := by
  induction n generalizing A R k with
  | zero => exact (length_eq_zero_iff.mp (Nat.le_zero.mp hn)).symm
  | succ n ih =>
    unfold nextFrom
    rw [nextOf_eq hs hsplit hk]
    cases R with
    | nil => rfl
    | cons k' R =>
      refine congrArg _ (ih (A := A ++ [k']) (by rw [hsplit, append_assoc]; rfl) ?_ ?_)
      · exact Or.inr List.getLast?_concat
      · exact Nat.le_of_succ_le_succ hn

/-! ## Assignments to keys of the table -/

/-- A run of code that assigns to keys present only. -/
def Reassigned (t t' : Table B) : Prop :=
  Relation.ReflTransGen (fun t t' => ∃ k v, k ∈ keys t ∧ t' = tableSet t k v) t t'

theorem Reassigned.sound (h : Reassigned t t') (hs : Sound t) :
    Sound t' ∧ (keys t').Sublist (keys t) := by
  induction h with
  | refl => exact ⟨hs, List.Sublist.refl _⟩
  | tail _ hstep ih =>
    obtain ⟨k, v, hk, rfl⟩ := hstep
    refine ⟨ih.1.tableSet k v, List.Sublist.trans ?_ ih.2⟩
    rw [keys_tableSet_of_mem ih.1 hk]
    split
    · exact erase_sublist
    · exact List.Sublist.refl _

/-- Between two rounds of a loop over a table that had the keys `K`, `ks` of them visited, `c`
last: the visited keys of the table stand before the others, and `c` is the last of them, if it
is still there. -/
structure Front (K ks : List (Value B)) (c : Value B) (t : Table B) : Prop where
  sound : Sound t
  sublist : (keys t).Sublist K
  nodup : ks.Nodup
  visited : ks ⊆ K
  first : c = .nil → ks = []
  split : ∃ A R, keys t = A ++ R ∧ A ⊆ ks ∧ (∀ k ∈ R, k ∉ ks) ∧ ks.length + R.length ≤ K.length ∧
    (c = .nil → A = []) ∧ (c ≠ .nil → c ∈ keys t → A.getLast? = some c)

omit [DecidableEq B] in
theorem Front.start (hs : Sound t) : Front (keys t) [] .nil t where
  sound := hs
  sublist := List.Sublist.refl _
  nodup := nodup_nil
  visited := nil_subset _
  first := fun _ => rfl
  split := ⟨[], keys t, rfl, nil_subset _, fun _ _ => not_mem_nil, by simp,
    fun _ => rfl, fun h => absurd rfl h⟩

variable {K ks : List (Value B)} {c : Value B}

theorem Front.stands (h : Front K ks c t) (hc : c = .nil ∨ c ∈ keys t) :
    ∃ A R, keys t = A ++ R ∧ A ⊆ ks ∧ (∀ k ∈ R, k ∉ ks) ∧ ks.length + R.length ≤ K.length ∧
      Stands A c := by
  obtain ⟨A, R, h1, h2, h3, h4, h5, h6⟩ := h.split
  refine ⟨A, R, h1, h2, h3, h4, ?_⟩
  by_cases hn : c = .nil
  · exact Or.inl ⟨hn, h5 hn⟩
  · exact Or.inr (h6 hn (hc.resolve_left hn))

theorem Front.round (h : Front K ks c t) (hnext : nextOf t c = [k, v]) (hr : Reassigned t t') :
    Front K (ks ++ [k]) k t' := by
  have hc : c = .nil ∨ c ∈ keys t := by
    by_contra hno
    rw [not_or] at hno
    rw [nextOf_missing hno.1 hno.2] at hnext
    cases hnext
  obtain ⟨A, R, h1, h2, h3, h4, h5⟩ := h.stands hc
  obtain ⟨R, rfl⟩ : ∃ R', R = k :: R' := by
    have hh := nextOf_eq h.sound h1 h5
    rw [hnext] at hh
    cases R with
    | nil => cases hh
    | cons a R => exact ⟨R, by rw [Option.some.inj hh]⟩
  obtain ⟨hs', hsub⟩ := hr.sound h.sound
  have hk : k ∉ ks := h3 k mem_cons_self
  have hkt : k ∈ keys t := by
    rw [h1]
    simp
  have hne : k ≠ .nil := fun he => h.sound.nil_notMem (he ▸ hkt)
  have hnd := h.sound.nodup
  rw [h1, nodup_append, nodup_cons] at hnd
  rw [h1, sublist_append_iff] at hsub
  obtain ⟨A', R', hsplit, hA, hR⟩ := hsub
  refine ⟨hs', (hr.sound h.sound).2.trans h.sublist, ?_, ?_, fun he => absurd he hne, ?_⟩
  · exact nodup_append.mpr ⟨h.nodup, nodup_singleton k, fun a ha b hb hab =>
      hk (mem_singleton.mp hb ▸ hab ▸ ha)⟩
  · intro a ha
    rcases mem_append.mp ha with ha | ha
    · exact h.visited ha
    · exact h.sublist.subset (mem_singleton.mp ha ▸ hkt)
  · rw [length_append, length_singleton]
    rw [length_cons] at h4
    rcases sublist_cons_iff.mp hR with hR | ⟨R'', rfl, hR'⟩
    · have hnot : k ∉ keys t' := by
        rw [hsplit]
        intro hm
        rcases mem_append.mp hm with hm | hm
        · exact hk (h2 (hA.subset hm))
        · exact hnd.2.1.1 (hR.subset hm)
      have := hR.length_le
      refine ⟨A', R', hsplit, ?_, ?_, by omega, fun he => absurd he hne, fun _ hm => absurd hm hnot⟩
      · exact fun a ha => mem_append_left _ (h2 (hA.subset ha))
      · intro a ha hm
        rcases mem_append.mp hm with hm | hm
        · exact h3 a (mem_cons_of_mem _ (hR.subset ha)) hm
        · exact hnd.2.1.1 (mem_singleton.mp hm ▸ hR.subset ha)
    · have := hR'.length_le
      refine ⟨A' ++ [k], R'', by rw [hsplit, append_assoc]; rfl, ?_, ?_, by omega,
        fun he => absurd he hne, fun _ _ => List.getLast?_concat⟩
      · intro a ha
        rcases mem_append.mp ha with ha | ha
        · exact mem_append_left _ (h2 (hA.subset ha))
        · exact mem_append_right _ ha
      · intro a ha hm
        rcases mem_append.mp hm with hm | hm
        · exact h3 a (mem_cons_of_mem _ (hR'.subset ha)) hm
        · exact hnd.2.1.1 (mem_singleton.mp hm ▸ hR'.subset ha)

theorem Front.all_visited (h : Front K ks c t) (hc : c = .nil ∨ c ∈ keys t)
    (hend : nextOf t c = []) : ∀ k ∈ keys t, k ∈ ks := by
  obtain ⟨A, R, hsplit, hA, -, -, hstands⟩ := h.stands hc
  have hhead := nextOf_eq h.sound hsplit hstands
  rw [hend] at hhead
  obtain rfl := List.head?_eq_none_iff.mp hhead.symm
  rw [hsplit, append_nil]
  exact fun k hk => hA hk

theorem mem_of_nextOf (hnext : nextOf t c = [k, v]) : k ∈ keys t := by
  unfold nextOf at hnext
  cases hi : (if c = .nil then some 0 else (t.findIdx? fun p => p.1 = c).map (· + 1)).bind
      fun i => t[i]? with
  | none =>
    rw [hi] at hnext
    cases hnext
  | some p =>
    rw [hi] at hnext
    obtain ⟨i, -, hget⟩ := Option.bind_eq_some_iff.mp hi
    obtain ⟨rfl, -⟩ := List.cons.inj hnext
    exact mem_map_of_mem (mem_of_getElem? hget)

/-! ## The builtins -/

/-- lua.c:1759-1773 `bi_next`. -/
def biNext (tables : List (Table B)) (args : List (Value B)) : List (Value B) :=
  match vsFirst args with
  | .table t => nextOf (tables.getD t []) (vsFirst args.tail)
  | _ => []

/-- lua.c:1774-1783 `bi_pairs`. -/
def biPairs (args : List (Value (Iter B))) :
    EStateM Stop (Store (Iter B) W) (List (Value (Iter B))) :=
  match vsFirst args with
  | .table t => return [.builtin (.lib .next), .table t, .nil]
  | _ => throw (.die .lib)

/-- The library with `next` and `pairs` as they are. -/
def Lib.withIter (lib : Lib (Iter B) W) : Lib (Iter B) W :=
  { lib with
    call := fun b args =>
      match b with
      | .next => fun s => .ok (biNext s.tables args) s
      | .pairs => biPairs args
      | .other b => lib.call (.other b) args }

/-! ## The loop -/

def tableOf (s : State B W) (t : Nat) : Table B := s.tables.getD t []

section Loop

variable (lib : Lib (Iter B) W) (n slot0 : Nat) (body : List (Node Bytes)) (t : Nat)

/-- What the loop has before its call of `next`: the control variable and the rest. -/
abbrev Turn (B W : Type) := Value (Iter B) × Env (Iter B) × State (Iter B) W

/-- lua.c:1576-1578 -/
def bound (k v : Value (Iter B)) (e : Env (Iter B)) : Env (Iter B) :=
  { e with locals := bindVars e.locals slot0 [k, v] n }

/-- The loop over table `t` as a system; a round is labelled with the key it visits. -/
def genLTS (e : Env (Iter B)) (s : State (Iter B) W) : LTS (Turn B W) (Value (Iter B)) where
  init := fun p => p = (.nil, e, s)
  step := fun p k q => k ≠ .nil ∧ q.1 = k ∧ ∃ v, nextOf (tableOf p.2.2 t) p.1 = [k, v] ∧
    Ends lib.withIter body (bound n slot0 k v p.2.1) p.2.2 q.2.1 .normal q.2.2

/-- The loop has run its body from `e` and `s` on, once with each of the keys `ks`; `next` goes on
from `c`. -/
def Visits (e : Env (Iter B)) (s : State (Iter B) W) (ks : List (Value (Iter B)))
    (c : Value (Iter B)) (e₁ : Env (Iter B)) (s₁ : State (Iter B) W) : Prop :=
  (genLTS lib n slot0 body t e s).Run (.nil, e, s) ks (c, e₁, s₁)

/-- The body comes to its end in every round, and has assigned to keys of the table only. -/
def Assigning (e : Env (Iter B)) (s : State (Iter B) W) : Prop :=
  ∀ ks c e₁ s₁ k v, Visits lib n slot0 body t e s ks c e₁ s₁ →
    nextOf (tableOf s₁ t) c = [k, v] →
      ∃ e₂ s₂, Ends lib.withIter body (bound n slot0 k v e₁) s₁ e₂ .normal s₂ ∧
        Reassigned (tableOf s₁ t) (tableOf s₂ t)

/-- No round takes its own key out of the table while the table has a key that is still to
come. -/
def KeepsPlace (e : Env (Iter B)) (s : State (Iter B) W) : Prop :=
  ∀ ks c e₁ s₁, Visits lib n slot0 body t e s ks c e₁ s₁ → ks ≠ [] →
    c ∉ keys (tableOf s₁ t) → ∀ k ∈ keys (tableOf s₁ t), k ∈ ks

/-- The loop comes to its end in `e'` and `s'`: it has visited keys of the table only, each of
them once, and every one that was not removed before its turn. -/
def Traverses (e : Env (Iter B)) (s : State (Iter B) W) (e' : Env (Iter B))
    (s' : State (Iter B) W) : Prop :=
  ∃ ks c, Visits lib n slot0 body t e s ks c e' s' ∧ nextOf (tableOf s' t) c = [] ∧ ks.Nodup ∧
    ks ⊆ keys (tableOf s t) ∧ ∀ k ∈ keys (tableOf s t), k ∈ ks ∨ k ∉ keys (tableOf s' t)

variable {lib n slot0 body t} {e e₁ e' : Env (Iter B)} {s s₁ s' : State (Iter B) W}
  {ks : List (Value (Iter B))} {c : Value (Iter B)}

theorem genLTS_deterministic : (genLTS lib n slot0 body t e s).Deterministic := by
  rintro p k q k' q' ⟨-, hq, v, hv, hends⟩ ⟨-, hq', v', hv', hends'⟩
  obtain ⟨rfl, hvs⟩ := List.cons.inj (hv.symm.trans hv')
  obtain ⟨rfl, -⟩ := List.cons.inj hvs
  obtain ⟨he, hs⟩ := hends.unique hends'
  exact ⟨rfl, Prod.ext (hq.trans hq'.symm) (Prod.ext (Prod.mk.inj he).1 hs)⟩

section
variable (hs : Sound (tableOf s t)) (hbody : Assigning lib n slot0 body t e s)
include hs hbody

theorem Visits.front (h : Visits lib n slot0 body t e s ks c e₁ s₁) :
    Front (keys (tableOf s t)) ks c (tableOf s₁ t) := by
  induction ks using List.reverseRecOn generalizing c e₁ s₁ with
  | nil =>
    obtain ⟨rfl, he⟩ := Prod.mk.inj (LTS.Run.nil_iff.mp h)
    obtain ⟨rfl, rfl⟩ := Prod.mk.inj he
    exact Front.start hs
  | append_singleton ks k ih =>
    obtain ⟨⟨c₂, e₂, s₂⟩, before, -, hc, v, hv, hends⟩ := LTS.Run.of_snoc h
    obtain rfl : c = k := hc
    obtain ⟨e₃, s₃, hends', hr⟩ := hbody ks c₂ e₂ s₂ c v before hv
    obtain ⟨-, rfl⟩ := hends.unique hends'
    exact (ih before).round hv hr

theorem Visits.round {k v : Value (Iter B)} (h : Visits lib n slot0 body t e s ks c e₁ s₁)
    (hnext : nextOf (tableOf s₁ t) c = [k, v]) :
    ∃ e₂ s₂, Visits lib n slot0 body t e s (ks ++ [k]) k e₂ s₂ := by
  obtain ⟨e₂, s₂, hends, -⟩ := hbody ks c e₁ s₁ k v h hnext
  have hne : k ≠ .nil := fun he => (h.front hs hbody).sound.nil_notMem (he ▸ mem_of_nextOf hnext)
  exact ⟨e₂, s₂, LTS.Run.snoc h ⟨hne, rfl, v, hnext, hends⟩⟩

theorem Visits.exists_end :
    ∃ ks c e' s', Visits lib n slot0 body t e s ks c e' s' ∧ nextOf (tableOf s' t) c = [] := by
  have key : ∀ (m : Nat) ks c e₁ s₁, Visits lib n slot0 body t e s ks c e₁ s₁ →
      (keys (tableOf s t)).length - ks.length < m →
      ∃ ks c e' s', Visits lib n slot0 body t e s ks c e' s' ∧ nextOf (tableOf s' t) c = [] := by
    intro m
    induction m with
    | zero => exact fun _ _ _ _ _ h => absurd h (Nat.not_lt_zero _)
    | succ m ih =>
      intro ks c e₁ s₁ h hm
      rcases nextOf_shape (tableOf s₁ t) c with hend | ⟨k, v, hnext⟩
      · exact ⟨ks, c, e₁, s₁, h, hend⟩
      · obtain ⟨e₂, s₂, hround⟩ := h.round hs hbody hnext
        have hf := hround.front hs hbody
        have hle := (hf.nodup.subperm hf.visited).length_le
        rw [length_append, length_singleton] at hle
        refine ih _ _ _ _ hround ?_
        rw [length_append, length_singleton]
        omega
  exact key _ [] .nil e s (.nil _) (Nat.lt_succ_self _)

theorem traverses_iff :
    (∃ e' s', Traverses lib n slot0 body t e s e' s') ↔ KeepsPlace lib n slot0 body t e s := by
  constructor
  · rintro ⟨e', s', ks, c, hrun, hend, -, -, hall⟩ ks₁ c₁ e₁ s₁ hrun₁ hne hgone
    have hf := hrun₁.front hs hbody
    have hstop : nextOf (tableOf s₁ t) c₁ = [] :=
      nextOf_missing (fun h => hne (hf.first h)) hgone
    rcases Nat.lt_trichotomy ks₁.length ks.length with hlt | heq | hlt
    · obtain ⟨p, k, q, hp, ⟨-, -, v, hv, -⟩, -⟩ := LTS.Run.at hrun hlt
      obtain ⟨-, rfl⟩ := LTS.Run.unique genLTS_deterministic hp hrun₁
        (by rw [length_take]; omega)
      rw [hstop] at hv
      cases hv
    · obtain ⟨rfl, he⟩ := LTS.Run.unique genLTS_deterministic hrun₁ hrun heq
      obtain ⟨rfl, he'⟩ := Prod.mk.inj he
      obtain ⟨rfl, rfl⟩ := Prod.mk.inj he'
      exact fun k hk => (hall k (hf.sublist.subset hk)).resolve_right fun h => h hk
    · obtain ⟨p, k, q, hp, ⟨-, -, v, hv, -⟩, -⟩ := LTS.Run.at hrun₁ hlt
      obtain ⟨-, rfl⟩ := LTS.Run.unique genLTS_deterministic hp hrun
        (by rw [length_take]; omega)
      rw [hend] at hv
      cases hv
  · intro hkeeps
    obtain ⟨ks, c, e', s', hrun, hend⟩ := Visits.exists_end hs hbody
    have hf := hrun.front hs hbody
    refine ⟨e', s', ks, c, hrun, hend, hf.nodup, hf.visited, fun k _ => ?_⟩
    by_cases hk : k ∈ keys (tableOf s' t)
    · refine Or.inl ?_
      by_cases hc : c = .nil ∨ c ∈ keys (tableOf s' t)
      · exact hf.all_visited hc hend k hk
      · rw [not_or] at hc
        refine hkeeps ks c e' s' hrun (fun he => ?_) hc.2 k hk
        subst he
        exact hc.1 (Prod.mk.inj (LTS.Run.nil_iff.mp hrun)).1
    · exact Or.inr hk

end
end Loop

/-! ## The statement -/

section Statement

/-- lua.c:1542-1550: iterator, state and control variable of the loop, and the
environment with its variables. -/
def genHeader (lib : Lib B W) (n : Nat) (e : Env B) (vars : List Bytes) (rhs : List (Node Bytes)) :
    M B W (Value B × Value B × Value B × Env B) := do
  let exprs ← evalPack (evalExpr lib n e) (evalMulti lib n e) maxRets rhs
  let e' ← declareAll e (pad vars [])
  return (vsFirst exprs, vsFirst exprs.tail, vsFirst exprs.tail.tail, e')

theorem evalStmt_forGen (lib : Lib B W) (n : Nat) (e : Env B) (vars : List Bytes)
    (rhs : List (Node Bytes)) (body : Node Bytes) :
    evalStmt lib (n + 1) e (.forGen vars rhs body) = do
      let h ← genHeader lib n e vars rhs
      let r ← forGenLoop lib n vars.length e.locals.length h.1 h.2.1 h.2.2.1 h.2.2.2
        (blockList body)
      return ({ r.1 with locals := r.1.locals.take e.locals.length }, r.2) := by
  rw [evalStmt.eq_def]
  unfold genHeader
  simp only [bind_assoc, pure_bind]

theorem genHeader_longer (lib : Lib B W) (n : Nat) (e : Env B) (vars : List Bytes)
    (rhs : List (Node Bytes)) :
    Longer (genHeader lib n e vars rhs) (genHeader lib (n + 1) e vars rhs) :=
  ((walkerBelow lib n).pack e _ _).bind fun _ => Below.refl _

variable {lib : Lib (Iter B) W} {n slot0 : Nat} {body : List (Node Bytes)} {t : Nat}
  {e e₁ e' : Env (Iter B)} {s s₁ s' : State (Iter B) W} {ks : List (Value (Iter B))}
  {c : Value (Iter B)}

theorem callValue_next (lib : Lib (Iter B) W) (n : Nat) (err : LuaErr) (t : Nat)
    (c : Value (Iter B)) (s : State (Iter B) W) :
    callValue lib.withIter (n + 1) err (.builtin (.lib .next)) [.table t, c] s =
      .ok (nextOf (tableOf s t) c) s := rfl

theorem forGenLoop_round {k v : Value (Iter B)} {fuel : Nat} (hk : k ≠ .nil)
    (hnext : nextOf (tableOf s t) c = [k, v])
    (hbody : evalBlock lib.withIter (fuel + 1) (bound n slot0 k v e) body s =
      .ok (e₁, .normal) s₁) :
    forGenLoop lib.withIter (fuel + 2) n slot0 (.builtin (.lib .next)) (.table t) c e body s =
      forGenLoop lib.withIter (fuel + 1) n slot0 (.builtin (.lib .next)) (.table t) k e₁ body
        s₁ := by
  rw [forGenLoop.eq_def]
  simp only [Bind.bind, EStateM.bind, callValue_next, hnext]
  rw [if_neg (show vsFirst [k, v] ≠ .nil from hk)]
  show (evalBlock lib.withIter (fuel + 1) (bound n slot0 k v e) body >>= _ :
    M (Iter B) W (Env (Iter B) × Flow (Iter B))) s = _
  simp only [Bind.bind, EStateM.bind, hbody]
  rfl

theorem forGenLoop_end (fuel : Nat) (hnext : nextOf (tableOf s t) c = []) :
    forGenLoop lib.withIter (fuel + 2) n slot0 (.builtin (.lib .next)) (.table t) c e body s =
      .ok (e, .normal) s := by
  rw [forGenLoop.eq_def]
  simp only [Bind.bind, EStateM.bind, callValue_next, hnext]
  rfl

theorem Visits.loop_eq (h : Visits lib n slot0 body t e s ks c e₁ s₁) :
    ∃ N, ∀ m ≥ N, forGenLoop lib.withIter (m + ks.length) n slot0 (.builtin (.lib .next))
        (.table t) .nil e body s =
      forGenLoop lib.withIter m n slot0 (.builtin (.lib .next)) (.table t) c e₁ body s₁ := by
  induction ks using List.reverseRecOn generalizing c e₁ s₁ with
  | nil =>
    obtain ⟨rfl, he⟩ := Prod.mk.inj (LTS.Run.nil_iff.mp h)
    obtain ⟨rfl, rfl⟩ := Prod.mk.inj he
    exact ⟨0, fun m _ => rfl⟩
  | append_singleton ks k ih =>
    obtain ⟨⟨c₂, e₂, s₂⟩, before, hk, hc, v, hv, i, hi⟩ := LTS.Run.of_snoc h
    obtain rfl : c = k := hc
    obtain ⟨N, hN⟩ := ih before
    refine ⟨max N (i + 1), fun m hm => ?_⟩
    obtain ⟨fuel, rfl⟩ : ∃ fuel, m = fuel + 1 := ⟨m - 1, by omega⟩
    have hbody := (Below.le (fun n => (walkerBelow lib.withIter n).block _ body)
      (show i ≤ fuel + 1 by omega)).ok hi
    rw [length_append, length_singleton,
      show fuel + 1 + (ks.length + 1) = fuel + 2 + ks.length by omega, hN _ (by omega)]
    exact forGenLoop_round hk hv hbody

/-- The loop over table `t` visits every key that is not removed before its turn, once, and the
statement ends. -/
def VisitsAll (lib : Lib (Iter B) W) (e : Env (Iter B)) (vars : List Bytes)
    (rhs : List (Node Bytes)) (body : Node Bytes) (t : Nat) (e₀ : Env (Iter B))
    (s s₀ : State (Iter B) W) : Prop :=
  ∃ e' s', Traverses lib vars.length e.locals.length (blockList body) t e₀ s₀ e' s' ∧
    ∃ n, evalStmt lib.withIter n e (.forGen vars rhs body) s =
      .ok ({ e' with locals := e'.locals.take e.locals.length }, .normal) s'

variable {vars : List Bytes} {rhs : List (Node Bytes)} {blk : Node Bytes} {e₀ : Env (Iter B)}
  {s₀ : State (Iter B) W}

theorem visitsAll_iff (hh : ∃ n, genHeader lib.withIter n e vars rhs s =
      .ok (.builtin (.lib .next), .table t, .nil, e₀) s₀) :
    VisitsAll lib e vars rhs blk t e₀ s s₀ ↔
      ∃ e' s', Traverses lib vars.length e.locals.length (blockList blk) t e₀ s₀ e' s' := by
  constructor
  · rintro ⟨e', s', h, -⟩
    exact ⟨e', s', h⟩
  · rintro ⟨e', s', h⟩
    refine ⟨e', s', h, ?_⟩
    obtain ⟨k, hk⟩ := hh
    obtain ⟨ks, c, hrun, hend, -⟩ := h
    obtain ⟨N, hN⟩ := hrun.loop_eq
    refine ⟨k + N + 2 + ks.length + 1, ?_⟩
    have hok := (Below.le (fun n => genHeader_longer lib.withIter n e vars rhs)
      (show k ≤ k + N + 2 + ks.length by omega)).ok hk
    rw [evalStmt_forGen]
    simp only [Bind.bind, EStateM.bind, hok]
    rw [hN _ (by omega), forGenLoop_end _ hend]
    rfl

/-- A loop over a table, as assignments have made it, whose body assigns to keys
of the table only, visits every key that is not removed before its turn, each once, and
terminates, if and only if no round takes its own key out of the table while another is still to
come. A table left alone is enumerated key by key: those installed and not removed since. -/
theorem pairs_visits_iff {hist : List (Value (Iter B) × Value (Iter B))}
    (htable : tableOf s₀ t = built hist)
    (hh : ∃ n, genHeader lib.withIter n e vars rhs s =
      .ok (.builtin (.lib .next), .table t, .nil, e₀) s₀)
    (hbody : Assigning lib vars.length e.locals.length (blockList blk) t e₀ s₀) :
    (VisitsAll lib e vars rhs blk t e₀ s s₀ ↔
      KeepsPlace lib vars.length e.locals.length (blockList blk) t e₀ s₀) ∧
    (∀ n, (built hist).length ≤ n → nextFrom (built hist) n .nil = keys (built hist)) ∧
    (keys (built hist)).Nodup ∧
    ∀ k, k ∈ keys (built hist) ↔ k ≠ .nil ∧ lastAssigned hist k ≠ .nil := by
  have hs : Sound (tableOf s₀ t) := htable ▸ built_sound hist
  refine ⟨(visitsAll_iff hh).trans (traverses_iff hs hbody), fun n hn => ?_,
    (built_sound hist).nodup, built_keys hist⟩
  refine nextFrom_eq (built_sound hist) (A := []) rfl (Or.inl ⟨rfl, rfl⟩) ?_
  rwa [length_map]

end Statement

/-! ## Concrete loops -/

def iterLib : Lib (Iter Empty) Unit where
  call := fun _ _ => throw .trap
  errText := fun _ _ => []
  bits := fun _ _ => 0
  rightFirst := .false

/-- `x`, a table of two keys. -/
def twoKeys : List (Value (Iter Empty) × Value (Iter Empty)) :=
  [(.num 1, .num 10), (.num 2, .num 20)]

/-- `for k in pairs(x)`, with `x` table number 1. -/
def pairsX : List (Node Bytes) := [.call (.name (word ['p', 'a', 'i', 'r', 's'])) [.name nameX]]

def nameK : Bytes := word ['k']

def holdsX : Env (Iter Empty) := ⟨[(nameX, .table 1)], none⟩

/-- Where a script stands before its loop. -/
def tablesState : State (Iter Empty) Unit where
  tables := [[(.str (word ['p', 'a', 'i', 'r', 's']), .builtin (.lib .pairs))], built twoKeys]
  lastError := none
  world := ()
  funcs := []
  log := []

/-- The loop's environment, and the state behind its header. -/
def loopEnv : Env (Iter Empty) := ⟨[(nameX, .table 1), (nameK, .nil)], none⟩

def loopState : State (Iter Empty) Unit :=
  { tablesState with
    log := [.lookup holdsX (word ['p', 'a', 'i', 'r', 's']) (.builtin (.lib .pairs))
      (.builtin (.lib .pairs)), .lookup holdsX nameX .nil (.table 1)] }

theorem genHeader_pairsX : ∃ n, genHeader iterLib.withIter n holdsX [nameK] pairsX tablesState =
    .ok (.builtin (.lib .next), .table 1, .nil, loopEnv) loopState := ⟨6, rfl⟩

section Empty

variable {lib : Lib (Iter B) W} {n slot0 t : Nat} {e : Env (Iter B)} {s : State (Iter B) W}

theorem assigning_nil : Assigning lib n slot0 [] t e s :=
  fun _ _ _ s₁ _ _ _ _ => ⟨_, s₁, ends_nil lib.withIter _ s₁, .refl⟩

theorem keepsPlace_nil : KeepsPlace lib n slot0 [] t e s := by
  intro ks c e₁ s₁ hrun hne hgone
  obtain rfl | ⟨ks, k, rfl⟩ := eq_nil_or_concat' ks
  · exact absurd rfl hne
  obtain ⟨⟨c₂, e₂, s₂⟩, -, -, hc, v, hv, hends⟩ := LTS.Run.of_snoc hrun
  obtain ⟨-, rfl⟩ := hends.unique (ends_nil lib.withIter _ s₂)
  obtain rfl : c = k := hc
  exact absurd (mem_of_nextOf hv) hgone

end Empty

/-- `for k in pairs(x) do end`. -/
theorem pairs_visits_two : VisitsAll iterLib holdsX [nameK] pairsX (.block []) 1 loopEnv
    tablesState loopState :=
  (pairs_visits_iff (show tableOf loopState 1 = built twoKeys from rfl) genHeader_pairsX
    assigning_nil).1.mpr keepsPlace_nil

/-- `x[k] = nil`. -/
def cutBody : Node Bytes := .block [.assign [.index (.name nameX) (.name nameK)] [.nil]]

theorem cut_ends : ∃ e s, Ends iterLib.withIter (blockList cutBody)
    (bound 1 1 (.num 1) (.num 10) loopEnv) loopState e .normal s ∧
    tableOf s 1 = tableSet (tableOf loopState 1) (.num 1) .nil := ⟨_, _, ⟨8, rfl⟩, rfl⟩

theorem cut_round {ks : List (Value (Iter Empty))} {c k : Value (Iter Empty)}
    {e : Env (Iter Empty)} {s : State (Iter Empty) Unit}
    (h : Visits iterLib 1 1 (blockList cutBody) 1 loopEnv loopState (k :: ks) c e s) :
    ks = [] ∧ c = .num 1 ∧ tableOf s 1 = [(.num 2, .num 20)] := by
  obtain ⟨⟨c₂, e₂, s₂⟩, ⟨-, hc, v, hv, hends⟩, hrun⟩ := LTS.Run.cons_iff.mp h
  obtain rfl : c₂ = k := hc
  obtain ⟨hk, hvs⟩ := List.cons.inj hv
  obtain ⟨hv', -⟩ := List.cons.inj hvs
  subst hk hv'
  obtain ⟨e₃, s₃, hends', htable⟩ := cut_ends
  obtain ⟨-, rfl⟩ := hends.unique hends'
  have hnext : nextOf (tableOf s₂ 1) (.num 1) = [] := by rw [htable]; rfl
  cases hrun with
  | nil => exact ⟨rfl, rfl, htable⟩
  | cons hstep _ =>
    obtain ⟨-, -, v', hv', -⟩ := hstep
    cases hnext.symm.trans hv'

/-- **The key that the body removes.** `for k in pairs(x) do x[k] = nil end` stops behind the
first of two keys. -/
theorem pairs_not_visits :
    ¬∀ body : Node Bytes, Assigning iterLib 1 1 (blockList body) 1 loopEnv loopState →
      VisitsAll iterLib holdsX [nameK] pairsX body 1 loopEnv tablesState loopState := by
  intro h
  obtain ⟨e₁, s₁, hends, htable⟩ := cut_ends
  have hbody : Assigning iterLib 1 1 (blockList cutBody) 1 loopEnv loopState := by
    intro ks c e s k v hrun hnext
    cases ks with
    | nil =>
      obtain ⟨rfl, he⟩ := Prod.mk.inj (LTS.Run.nil_iff.mp hrun)
      obtain ⟨rfl, rfl⟩ := Prod.mk.inj he
      obtain ⟨rfl, hvs⟩ := List.cons.inj hnext
      obtain ⟨rfl, -⟩ := List.cons.inj hvs
      exact ⟨e₁, s₁, hends, .single ⟨.num 1, .nil, mem_cons_self, htable⟩⟩
    | cons a ks =>
      obtain ⟨-, rfl, htable'⟩ := cut_round hrun
      rw [htable'] at hnext
      cases hnext
  have hkeeps := (traverses_iff (s := loopState) (t := 1) (built_sound twoKeys) hbody).mp
    ((visitsAll_iff genHeader_pairsX).mp (h cutBody hbody))
  have hrun : Visits iterLib 1 1 (blockList cutBody) 1 loopEnv loopState [.num 1] (.num 1) e₁ s₁ :=
    .single ⟨nofun, rfl, .num 10, rfl, hends⟩
  have htwo := hkeeps _ _ _ _ hrun (cons_ne_nil _ _)
  rw [htable] at htwo
  exact absurd (htwo (by decide) (.num 2) (by decide)) (by decide)

end AdventOS.Lua
