import Mathlib

/-!
# JSON texts over bytes (RFC 8259)

A text is read from the front: `Reads s x t` says that the bytes `s` begin with the
phrase `x` and go on with `t`. Numbers are integers without fraction or exponent; a phrase
keeps its tokens (`Number`, `Piece`), so that a reader can give them their meaning with
`Tree.map`.

The relation is a little wider than the RFC: a number may have leading zeros, and the
bytes of a string are not yet required to be UTF-8. `Rfc` adds both.

* `Reads.unique`, `Text.unique`: a text is read in one way only.
-/
namespace AdventOS.Json
open List

/-- A tree with numbers `N` and strings `S`. -/
inductive Tree (N S : Type) where
  | null
  | bool (b : Bool)
  | num (n : N)
  | str (s : S)
  | arr (items : List (Tree N S))
  | obj (members : List (S × Tree N S))

variable {N S N' S' : Type}

mutual
def Tree.map (f : N → N') (g : S → S') : Tree N S → Tree N' S'
  | .null => .null
  | .bool b => .bool b
  | .num n => .num (f n)
  | .str s => .str (g s)
  | .arr l => .arr (mapItems f g l)
  | .obj l => .obj (mapMembers f g l)

def mapItems (f : N → N') (g : S → S') : List (Tree N S) → List (Tree N' S')
  | [] => []
  | v :: vs => v.map f g :: mapItems f g vs

def mapMembers (f : N → N') (g : S → S') : List (S × Tree N S) → List (S' × Tree N' S')
  | [] => []
  | (k, v) :: ms => (g k, v.map f g) :: mapMembers f g ms
end

mutual
def Tree.numbers : Tree N S → List N
  | .null => []
  | .bool _ => []
  | .num n => [n]
  | .str _ => []
  | .arr l => itemsNumbers l
  | .obj l => membersNumbers l

def itemsNumbers : List (Tree N S) → List N
  | [] => []
  | v :: vs => v.numbers ++ itemsNumbers vs

def membersNumbers : List (S × Tree N S) → List N
  | [] => []
  | (_, v) :: ms => v.numbers ++ membersNumbers ms
end

mutual
theorem Tree.map_congr {f f' : N → N'} {g : S → S'} : (j : Tree N S) →
    (∀ n ∈ j.numbers, f n = f' n) → j.map f g = j.map f' g
  | .null, _ => rfl
  | .bool _, _ => rfl
  | .num n, h => congrArg Tree.num (h n (mem_singleton_self n))
  | .str _, _ => rfl
  | .arr l, h => congrArg Tree.arr (mapItems_congr l h)
  | .obj l, h => congrArg Tree.obj (mapMembers_congr l h)

theorem mapItems_congr {f f' : N → N'} {g : S → S'} : (l : List (Tree N S)) →
    (∀ n ∈ itemsNumbers l, f n = f' n) → mapItems f g l = mapItems f' g l
  | [], _ => rfl
  | v :: vs, h => by
    unfold mapItems
    rw [v.map_congr fun n hn => h n (mem_append_left _ hn),
      mapItems_congr vs fun n hn => h n (mem_append_right _ hn)]

theorem mapMembers_congr {f f' : N → N'} {g : S → S'} : (l : List (S × Tree N S)) →
    (∀ n ∈ membersNumbers l, f n = f' n) → mapMembers f g l = mapMembers f' g l
  | [], _ => rfl
  | (k, v) :: ms, h => by
    unfold mapMembers
    rw [v.map_congr fun n hn => h n (mem_append_left _ hn),
      mapMembers_congr ms fun n hn => h n (mem_append_right _ hn)]
end

/-! ## Tokens -/

abbrev Bytes := List UInt8

def quote : UInt8 := 34
def backslash : UInt8 := 92
def comma : UInt8 := 44
def colon : UInt8 := 58
def minus : UInt8 := 45
def lbracket : UInt8 := 91
def rbracket : UInt8 := 93
def lbrace : UInt8 := 123
def rbrace : UInt8 := 125

def isWs (c : UInt8) : Bool := c = 32 || c = 9 || c = 10 || c = 13

def isDigit (c : UInt8) : Bool := 48 ≤ c && c ≤ 57

def digitByte (d : Fin 10) : UInt8 := UInt8.ofNat (48 + d)

/-- White space, then `t`. -/
inductive Ws : Bytes → Bytes → Prop
  | nil {t : Bytes} : Ws t t
  | cons {c : UInt8} {s t : Bytes} : isWs c = true → Ws s t → Ws (c :: s) t

/-- An optional minus sign and digits. -/
structure Number where
  neg : Bool
  digits : List (Fin 10)

def ofDigits (ds : List (Fin 10)) : Nat := ds.foldl (fun n d => n * 10 + d.val) 0

def Number.value (n : Number) : Int := if n.neg then -(ofDigits n.digits : Int) else ofDigits n.digits

/-- A byte that would go on with a number: a digit, `.`, `e` or `E`. -/
def continues (c : UInt8) : Bool := isDigit c || c = 46 || c = 101 || c = 69

/-- A number token, as long as it gets, that is neither a fraction nor has an exponent. -/
structure Num (s : Bytes) (n : Number) (t : Bytes) : Prop where
  digits : n.digits ≠ []
  text : s = (if n.neg then [minus] else []) ++ (n.digits.map digitByte ++ t)
  ends : ∀ c ∈ t.head?, continues c = false

/-- One element of a string: a byte as it stands, a two-character escape, or `\\uXXXX`. -/
inductive Piece
  | byte (c : UInt8)
  | escape (c : UInt8)
  | unicode (a b c d : UInt8)
  deriving DecidableEq

/-- `"`, `\\`, `/`, `b`, `f`, `n`, `r`, `t` and what they stand for. -/
def escapeOf (c : UInt8) : Option Nat :=
  if c = quote ∨ c = backslash ∨ c = 47 then some c.toNat
  else if c = 98 then some 8
  else if c = 102 then some 12
  else if c = 110 then some 10
  else if c = 114 then some 13
  else if c = 116 then some 9
  else none

def hexDigit (c : UInt8) : Option Nat :=
  if 48 ≤ c ∧ c ≤ 57 then some (c.toNat - 48)
  else if 97 ≤ c ∧ c ≤ 102 then some (c.toNat - 87)
  else if 65 ≤ c ∧ c ≤ 70 then some (c.toNat - 55)
  else none

/-- The rest of a string behind its opening quote, up to and with the closing one. -/
inductive Body : Bytes → List Piece → Bytes → Prop
  | close {t : Bytes} : Body (quote :: t) [] t
  | byte {c : UInt8} {s : Bytes} {ps : List Piece} {t : Bytes} :
    32 ≤ c → c ≠ quote → c ≠ backslash → Body s ps t → Body (c :: s) (.byte c :: ps) t
  | escape {c : UInt8} {s : Bytes} {ps : List Piece} {t : Bytes} :
    (escapeOf c).isSome → Body s ps t → Body (backslash :: c :: s) (.escape c :: ps) t
  | unicode {a b c d : UInt8} {s : Bytes} {ps : List Piece} {t : Bytes} :
    (hexDigit a).isSome → (hexDigit b).isSome → (hexDigit c).isSome → (hexDigit d).isSome →
      Body s ps t → Body (backslash :: 117 :: a :: b :: c :: d :: s) (.unicode a b c d :: ps) t

/-! ## Phrases -/

abbrev Raw := Tree Number (List Piece)

/-- A value, or what stands between a bracket or a comma and the closing bracket. -/
inductive Phrase
  | value (v : Raw)
  | items (vs : List Raw)
  | members (ms : List (List Piece × Raw))

def kwNull : Bytes := [110, 117, 108, 108]
def kwTrue : Bytes := [116, 114, 117, 101]
def kwFalse : Bytes := [102, 97, 108, 115, 101]

inductive Reads : Bytes → Phrase → Bytes → Prop
  | null {t : Bytes} : Reads (kwNull ++ t) (.value .null) t
  | yes {t : Bytes} : Reads (kwTrue ++ t) (.value (.bool true)) t
  | no {t : Bytes} : Reads (kwFalse ++ t) (.value (.bool false)) t
  | num {s t : Bytes} {n : Number} : Num s n t → Reads s (.value (.num n)) t
  | str {s t : Bytes} {ps : List Piece} : Body s ps t → Reads (quote :: s) (.value (.str ps)) t
  | emptyArr {s t : Bytes} : Ws s (rbracket :: t) → Reads (lbracket :: s) (.value (.arr [])) t
  | arr {s t : Bytes} {vs : List Raw} :
    Reads s (.items vs) t → Reads (lbracket :: s) (.value (.arr vs)) t
  | emptyObj {s t : Bytes} : Ws s (rbrace :: t) → Reads (lbrace :: s) (.value (.obj [])) t
  | obj {s t : Bytes} {ms : List (List Piece × Raw)} :
    Reads s (.members ms) t → Reads (lbrace :: s) (.value (.obj ms)) t
  | lastItem {s s1 s2 t : Bytes} {v : Raw} :
    Ws s s1 → Reads s1 (.value v) s2 → Ws s2 (rbracket :: t) → Reads s (.items [v]) t
  | item {s s1 s2 s3 t : Bytes} {v : Raw} {vs : List Raw} :
    Ws s s1 → Reads s1 (.value v) s2 → Ws s2 (comma :: s3) → Reads s3 (.items vs) t →
      Reads s (.items (v :: vs)) t
  | lastMember {s s1 s2 s3 s4 s5 t : Bytes} {k : List Piece} {v : Raw} :
    Ws s (quote :: s1) → Body s1 k s2 → Ws s2 (colon :: s3) → Ws s3 s4 →
      Reads s4 (.value v) s5 → Ws s5 (rbrace :: t) → Reads s (.members [(k, v)]) t
  | member {s s1 s2 s3 s4 s5 s6 t : Bytes} {k : List Piece} {v : Raw}
    {ms : List (List Piece × Raw)} :
    Ws s (quote :: s1) → Body s1 k s2 → Ws s2 (colon :: s3) → Ws s3 s4 →
      Reads s4 (.value v) s5 → Ws s5 (comma :: s6) → Reads s6 (.members ms) t →
      Reads s (.members ((k, v) :: ms)) t

/-- The whole of `s` is one value between white space. -/
def Text (s : Bytes) (v : Raw) : Prop := ∃ s1 s2, Ws s s1 ∧ Reads s1 (.value v) s2 ∧ Ws s2 []

/-- No superfluous leading zero. -/
def Number.Canonical (n : Number) : Prop := n.digits.head? = some 0 → n.digits = [0]

/-- The encoding of a sequence of Unicode characters. -/
def Utf8 (s : Bytes) : Prop := ∃ cs : List Char, s = cs.flatMap String.utf8EncodeChar

/-- A JSON text of the RFC whose numbers are integers without fraction or exponent. -/
def Rfc (s : Bytes) (v : Raw) : Prop := Utf8 s ∧ Text s v ∧ ∀ n ∈ v.numbers, n.Canonical

/-- The numbers fit a signed 32-bit integer. -/
def InRange (n : Number) : Prop := -2 ^ 31 ≤ n.value ∧ n.value < 2 ^ 31

/-! ## One reading -/

/-- The text does not begin with white space. -/
def NoWs (t : Bytes) : Prop := ∀ c ∈ t.head?, isWs c = false

variable {c : UInt8} {s t t' : Bytes} {v : Raw} {vs : List Raw} {ms : List (List Piece × Raw)}

theorem NoWs.cons (h : isWs c = false) : NoWs (c :: t) := by
  intro d hd
  obtain rfl : c = d := by simpa using hd
  exact h

theorem Ws.length_le (h : Ws s t) : t.length ≤ s.length := by
  induction h with
  | nil => exact Nat.le_refl _
  | cons _ _ ih => exact Nat.le_succ_of_le ih

theorem Ws.unique (h : Ws s t) (h' : Ws s t') (ht : NoWs t) (ht' : NoWs t') :
    t = t' := by
  induction h with
  | nil =>
    cases h' with
    | nil => rfl
    | cons hc _ =>
      rw [ht _ rfl] at hc
      cases hc
  | cons hc _ ih =>
    cases h' with
    | nil =>
      rw [ht' _ rfl] at hc
      cases hc
    | cons _ h' => exact ih h' ht

theorem digitByte_toNat (d : Fin 10) : (digitByte d).toNat = 48 + d := by
  unfold digitByte
  rw [UInt8.toNat_ofNat']
  omega

theorem isDigit_iff : isDigit c = true ↔ 48 ≤ c.toNat ∧ c.toNat ≤ 57 := by
  unfold isDigit
  rw [Bool.and_eq_true, decide_eq_true_eq, decide_eq_true_eq, UInt8.le_iff_toNat_le,
    UInt8.le_iff_toNat_le]
  rfl

theorem isDigit_digitByte (d : Fin 10) : isDigit (digitByte d) = true := by
  rw [isDigit_iff, digitByte_toNat]
  omega

theorem continues_digit (h : isDigit c = true) : continues c = true := by
  unfold continues
  rw [h]
  rfl

theorem digits_unique {ds ds' : List (Fin 10)}
    (h : ds.map digitByte ++ t = ds'.map digitByte ++ t') (ht : ∀ c ∈ t.head?, continues c = false)
    (ht' : ∀ c ∈ t'.head?, continues c = false) : ds = ds' ∧ t = t' := by
  induction ds generalizing ds' with
  | nil =>
    cases ds' with
    | nil => exact ⟨rfl, h⟩
    | cons d ds' =>
      have hc := ht (digitByte d) (by rw [map_nil, nil_append] at h; rw [h]; rfl)
      rw [continues_digit (isDigit_digitByte d)] at hc
      cases hc
  | cons d ds ih =>
    cases ds' with
    | nil =>
      have hc := ht' (digitByte d) (by rw [map_nil, nil_append] at h; rw [← h]; rfl)
      rw [continues_digit (isDigit_digitByte d)] at hc
      cases hc
    | cons d' ds' =>
      rw [map_cons, map_cons, cons_append, cons_append] at h
      obtain ⟨hd, h⟩ := List.cons.inj h
      have hnat := congrArg UInt8.toNat hd
      rw [digitByte_toNat, digitByte_toNat] at hnat
      obtain ⟨hds, ht⟩ := ih h
      exact ⟨by rw [hds, Fin.ext (show d.val = d'.val by omega)], ht⟩

theorem Num.head {n : Number} (h : Num s n t) :
    ∃ c r, s = c :: r ∧ if n.neg then c = minus else isDigit c = true := by
  obtain ⟨hne, htext, -⟩ := h
  cases hneg : n.neg with
  | true =>
    rw [hneg] at htext
    exact ⟨_, _, htext, rfl⟩
  | false =>
    rw [hneg] at htext
    cases hds : n.digits with
    | nil => exact absurd hds hne
    | cons d ds =>
      rw [hds] at htext
      exact ⟨_, _, htext, isDigit_digitByte d⟩

theorem Num.unique {n n' : Number} (h : Num s n t) (h' : Num s n' t') :
    n = n' ∧ t = t' := by
  have hneg : n.neg = n'.neg := by
    obtain ⟨c, r, hs, hc⟩ := h.head
    obtain ⟨c', r', hs', hc'⟩ := h'.head
    obtain ⟨rfl, -⟩ := List.cons.inj (hs.symm.trans hs')
    have hminus : isDigit minus = false := rfl
    cases hn : n.neg <;> cases hn' : n'.neg <;> rw [hn] at hc <;> rw [hn'] at hc'
    · rw [if_neg (by simp)] at hc
      rw [if_pos rfl] at hc'
      rw [hc', hminus] at hc
      cases hc
    · rw [if_pos rfl] at hc
      rw [if_neg (by simp)] at hc'
      rw [hc, hminus] at hc'
      cases hc'
  have heq := h.text.symm.trans h'.text
  rw [hneg] at heq
  obtain ⟨hds, ht⟩ := digits_unique (append_cancel_left heq) h.ends h'.ends
  refine ⟨?_, ht⟩
  cases n
  cases n'
  simp only [Number.mk.injEq]
  exact ⟨hneg, hds⟩

theorem Body.inv {ps : List Piece} (h : Body s ps t) :
    (s = quote :: t ∧ ps = []) ∨
    (∃ c r qs, s = c :: r ∧ ps = .byte c :: qs ∧ 32 ≤ c ∧ c ≠ quote ∧ c ≠ backslash ∧
      Body r qs t) ∨
    (∃ c r qs, s = backslash :: c :: r ∧ ps = .escape c :: qs ∧ (escapeOf c).isSome ∧
      Body r qs t) ∨
    ∃ a b c d r qs, s = backslash :: 117 :: a :: b :: c :: d :: r ∧
      ps = .unicode a b c d :: qs ∧ (hexDigit a).isSome ∧ (hexDigit b).isSome ∧
      (hexDigit c).isSome ∧ (hexDigit d).isSome ∧ Body r qs t := by
  cases h with
  | close => exact .inl ⟨rfl, rfl⟩
  | byte h1 h2 h3 h => exact .inr (.inl ⟨_, _, _, rfl, rfl, h1, h2, h3, h⟩)
  | escape h1 h => exact .inr (.inr (.inl ⟨_, _, _, rfl, rfl, h1, h⟩))
  | unicode h1 h2 h3 h4 h =>
    exact .inr (.inr (.inr ⟨_, _, _, _, _, _, rfl, rfl, h1, h2, h3, h4, h⟩))

theorem escapeOf_u : escapeOf 117 = none := by decide

theorem backslash_ne_quote : backslash ≠ quote := by decide

theorem Body.unique {ps ps' : List Piece} (h : Body s ps t) (h' : Body s ps' t') :
    ps = ps' ∧ t = t' := by
  induction h generalizing ps' with
  | close =>
    rcases h'.inv with ⟨hs, rfl⟩ | ⟨c, r, qs, hs, -, -, hq, -⟩ | ⟨c, r, qs, hs, -⟩ |
      ⟨a, b, c, d, r, qs, hs, -⟩
    · exact ⟨rfl, (List.cons.inj hs).2⟩
    · exact absurd (List.cons.inj hs).1.symm hq
    · exact absurd (List.cons.inj hs).1.symm backslash_ne_quote
    · exact absurd (List.cons.inj hs).1.symm backslash_ne_quote
  | byte h1 hq hb _ ih =>
    rcases h'.inv with ⟨hs, -⟩ | ⟨c, r, qs, hs, rfl, -, -, -, h'⟩ | ⟨c, r, qs, hs, -⟩ |
      ⟨a, b, c, d, r, qs, hs, -⟩
    · exact absurd (List.cons.inj hs).1 hq
    · obtain ⟨rfl, rfl⟩ := List.cons.inj hs
      obtain ⟨rfl, ht⟩ := ih h'
      exact ⟨rfl, ht⟩
    · exact absurd (List.cons.inj hs).1 hb
    · exact absurd (List.cons.inj hs).1 hb
  | escape he _ ih =>
    rcases h'.inv with ⟨hs, -⟩ | ⟨c, r, qs, hs, -, -, -, hb, -⟩ | ⟨c, r, qs, hs, rfl, -, h'⟩ |
      ⟨a, b, c, d, r, qs, hs, -⟩
    · exact absurd (List.cons.inj hs).1 backslash_ne_quote
    · exact absurd (List.cons.inj hs).1.symm hb
    · obtain ⟨rfl, rfl⟩ := List.cons.inj (List.cons.inj hs).2
      obtain ⟨rfl, ht⟩ := ih h'
      exact ⟨rfl, ht⟩
    · obtain ⟨rfl, -⟩ := List.cons.inj (List.cons.inj hs).2
      rw [escapeOf_u] at he
      cases he
  | unicode _ _ _ _ _ ih =>
    rcases h'.inv with ⟨hs, -⟩ | ⟨c, r, qs, hs, -, -, -, hb, -⟩ | ⟨c, r, qs, hs, -, he, -⟩ |
      ⟨a, b, c, d, r, qs, hs, rfl, -, -, -, -, h'⟩
    · exact absurd (List.cons.inj hs).1 backslash_ne_quote
    · exact absurd (List.cons.inj hs).1.symm hb
    · obtain ⟨rfl, -⟩ := List.cons.inj (List.cons.inj hs).2
      rw [escapeOf_u] at he
      cases he
    · obtain ⟨rfl, rfl, rfl, rfl, rfl⟩ := hs
      obtain ⟨rfl, ht⟩ := ih h'
      exact ⟨rfl, ht⟩

/-- Which kind of value starts with a byte. -/
def kindOf (c : UInt8) : Option Nat :=
  if c = 110 then some 0
  else if c = 116 ∨ c = 102 then some 1
  else if c = minus ∨ isDigit c then some 2
  else if c = quote then some 3
  else if c = lbracket then some 4
  else if c = lbrace then some 5
  else none

def Tree.kind : Tree N S → Nat
  | .null => 0
  | .bool _ => 1
  | .num _ => 2
  | .str _ => 3
  | .arr _ => 4
  | .obj _ => 5

theorem kindOf_digit (h : isDigit c = true) : kindOf c = some 2 := by
  have hr := isDigit_iff.1 h
  have hne : ∀ d : UInt8, 57 < d.toNat → c ≠ d := by
    intro d hd heq
    rw [← heq] at hd
    omega
  unfold kindOf
  rw [if_neg (hne 110 (by decide)), if_neg (not_or.2 ⟨hne 116 (by decide), hne 102 (by decide)⟩),
    if_pos (.inr h)]

theorem Reads.value_head (h : Reads s (.value v) t) :
    ∃ c r, s = c :: r ∧ kindOf c = some v.kind := by
  cases h with
  | null => exact ⟨_, _, rfl, rfl⟩
  | yes => exact ⟨_, _, rfl, rfl⟩
  | no => exact ⟨_, _, rfl, rfl⟩
  | num h =>
    obtain ⟨c, r, hs, hc⟩ := h.head
    refine ⟨c, r, hs, ?_⟩
    split at hc
    · rw [hc]
      rfl
    · exact kindOf_digit hc
  | str h => exact ⟨_, _, rfl, rfl⟩
  | emptyArr h => exact ⟨_, _, rfl, rfl⟩
  | arr h => exact ⟨_, _, rfl, rfl⟩
  | emptyObj h => exact ⟨_, _, rfl, rfl⟩
  | obj h => exact ⟨_, _, rfl, rfl⟩

theorem kindOf_ws (h : isWs c = true) : kindOf c = none := by
  unfold isWs at h
  simp only [Bool.or_eq_true, decide_eq_true_eq] at h
  rcases h with ((rfl | rfl) | rfl) | rfl <;> rfl

theorem Reads.noWs (h : Reads s (.value v) t) : NoWs s := by
  obtain ⟨c, r, rfl, hk⟩ := h.value_head
  refine NoWs.cons ?_
  by_contra hws
  rw [kindOf_ws (by simpa using hws)] at hk
  cases hk

theorem Reads.value_cons (h : Reads (c :: s) (.value v) t) :
    kindOf c = some v.kind := by
  obtain ⟨d, r, hs, hk⟩ := h.value_head
  rw [(List.cons.inj hs).1]
  exact hk

theorem Reads.inv_value (h : Reads s (.value v) t) :
    match v with
    | .null => s = kwNull ++ t
    | .bool b => s = (if b then kwTrue else kwFalse) ++ t
    | .num n => Num s n t
    | .str ps => ∃ s1, s = quote :: s1 ∧ Body s1 ps t
    | .arr vs => ∃ s1, s = lbracket :: s1 ∧
        (vs = [] ∧ Ws s1 (rbracket :: t) ∨ Reads s1 (.items vs) t)
    | .obj ms => ∃ s1, s = lbrace :: s1 ∧
        (ms = [] ∧ Ws s1 (rbrace :: t) ∨ Reads s1 (.members ms) t) := by
  cases h with
  | null => rfl
  | yes => rfl
  | no => rfl
  | num h => exact h
  | str h => exact ⟨_, rfl, h⟩
  | emptyArr h => exact ⟨_, rfl, .inl ⟨rfl, h⟩⟩
  | arr h => exact ⟨_, rfl, .inr h⟩
  | emptyObj h => exact ⟨_, rfl, .inl ⟨rfl, h⟩⟩
  | obj h => exact ⟨_, rfl, .inr h⟩

theorem Reads.inv_items (h : Reads s (.items vs) t) :
    ∃ s1 s2 v ws, vs = v :: ws ∧ Ws s s1 ∧ Reads s1 (.value v) s2 ∧
      (ws = [] ∧ Ws s2 (rbracket :: t) ∨
        ∃ s3, Ws s2 (comma :: s3) ∧ Reads s3 (.items ws) t) := by
  cases h with
  | lastItem h1 h2 h3 => exact ⟨_, _, _, [], rfl, h1, h2, .inl ⟨rfl, h3⟩⟩
  | item h1 h2 h3 h4 => exact ⟨_, _, _, _, rfl, h1, h2, .inr ⟨_, h3, h4⟩⟩

theorem Reads.inv_members (h : Reads s (.members ms) t) :
    ∃ s1 s2 s3 s4 s5 k v ns, ms = (k, v) :: ns ∧ Ws s (quote :: s1) ∧ Body s1 k s2 ∧
      Ws s2 (colon :: s3) ∧ Ws s3 s4 ∧ Reads s4 (.value v) s5 ∧
      (ns = [] ∧ Ws s5 (rbrace :: t) ∨
        ∃ s6, Ws s5 (comma :: s6) ∧ Reads s6 (.members ns) t) := by
  cases h with
  | lastMember h1 h2 h3 h4 h5 h6 =>
    exact ⟨_, _, _, _, _, _, _, [], rfl, h1, h2, h3, h4, h5, .inl ⟨rfl, h6⟩⟩
  | member h1 h2 h3 h4 h5 h6 h7 =>
    exact ⟨_, _, _, _, _, _, _, _, rfl, h1, h2, h3, h4, h5, .inr ⟨_, h6, h7⟩⟩

theorem Ws.trans {u : Bytes} (h : Ws s t) (h' : Ws t u) : Ws s u := by
  induction h with
  | nil => exact h'
  | cons hc _ ih => exact .cons hc (ih h')

theorem Reads.items_ws {s1 : Bytes} (h : Reads s1 (.items vs) t)
    (hw : Ws s s1) : Reads s (.items vs) t := by
  cases h with
  | lastItem h1 h2 h3 => exact .lastItem (hw.trans h1) h2 h3
  | item h1 h2 h3 h4 => exact .item (hw.trans h1) h2 h3 h4

theorem Reads.members_ws {s1 : Bytes}
    (h : Reads s1 (.members ms) t) (hw : Ws s s1) : Reads s (.members ms) t := by
  cases h with
  | lastMember h1 h2 h3 h4 h5 h6 => exact .lastMember (hw.trans h1) h2 h3 h4 h5 h6
  | member h1 h2 h3 h4 h5 h6 h7 => exact .member (hw.trans h1) h2 h3 h4 h5 h6 h7

theorem Reads.items_not_close (h : Reads s (.items vs) t)
    (hw : Ws s (rbracket :: t')) : False := by
  obtain ⟨s1, s2, v, ws, -, h1, h2, -⟩ := h.inv_items
  rw [h1.unique hw h2.noWs (NoWs.cons rfl)] at h2
  have hk := h2.value_cons
  cases hk

theorem Reads.members_not_close
    (h : Reads s (.members ms) t) (hw : Ws s (rbrace :: t')) : False := by
  obtain ⟨s1, -, -, -, -, -, -, -, -, h1, -⟩ := h.inv_members
  have := h1.unique hw (NoWs.cons rfl) (NoWs.cons rfl)
  exact absurd (List.cons.inj this).1 (by decide)

/-- There is no other way to read the phrase. -/
def Only (s : Bytes) (x : Phrase) (t : Bytes) : Prop :=
  match x with
  | .value v => ∀ v' t', Reads s (.value v') t' → v = v' ∧ t = t'
  | .items vs => ∀ vs' t', Reads s (.items vs') t' → vs = vs' ∧ t = t'
  | .members ms => ∀ ms' t', Reads s (.members ms') t' → ms = ms' ∧ t = t'

theorem Reads.kind_eq {v' : Raw} (h : Reads s (.value v) t)
    (h' : Reads s (.value v') t') : v.kind = v'.kind := by
  obtain ⟨c, r, rfl, hk⟩ := h.value_head
  rw [h'.value_cons] at hk
  exact (Option.some.inj hk).symm

theorem Ws.cons_unique {c' : UInt8} (h : Ws s (c :: t)) (h' : Ws s (c' :: t'))
    (hc : isWs c = false) (hc' : isWs c' = false) : c = c' ∧ t = t' :=
  List.cons.inj (h.unique h' (NoWs.cons hc) (NoWs.cons hc'))

theorem Reads.only {x : Phrase} (h : Reads s x t) : Only s x t := by
  induction h with
  | null =>
    intro v' t' h'
    have hk := Reads.null.kind_eq h'
    cases v' <;> cases hk
    exact ⟨rfl, append_cancel_left h'.inv_value⟩
  | yes =>
    intro v' t' h'
    have hk := Reads.yes.kind_eq h'
    cases v' <;> cases hk
    rename_i b
    cases b with
    | true => exact ⟨rfl, append_cancel_left h'.inv_value⟩
    | false => exact absurd (List.cons.inj h'.inv_value).1 (by decide)
  | no =>
    intro v' t' h'
    have hk := Reads.no.kind_eq h'
    cases v' <;> cases hk
    rename_i b
    cases b with
    | true => exact absurd (List.cons.inj h'.inv_value).1 (by decide)
    | false => exact ⟨rfl, append_cancel_left h'.inv_value⟩
  | num hn =>
    intro v' t' h'
    have hk := (Reads.num hn).kind_eq h'
    cases v' <;> cases hk
    obtain ⟨rfl, ht⟩ := hn.unique h'.inv_value
    exact ⟨rfl, ht⟩
  | str hb =>
    intro v' t' h'
    have hk := (Reads.str hb).kind_eq h'
    cases v' <;> cases hk
    obtain ⟨s1, hs, hb'⟩ := h'.inv_value
    rw [← (List.cons.inj hs).2] at hb'
    obtain ⟨rfl, ht⟩ := hb.unique hb'
    exact ⟨rfl, ht⟩
  | emptyArr hw =>
    intro v' t' h'
    have hk := (Reads.emptyArr hw).kind_eq h'
    cases v' <;> cases hk
    obtain ⟨s1, hs, h1⟩ := h'.inv_value
    rw [← (List.cons.inj hs).2] at h1
    rcases h1 with ⟨rfl, hw'⟩ | hi
    · exact ⟨rfl, (hw.cons_unique hw' rfl rfl).2⟩
    · exact absurd hw hi.items_not_close
  | arr hi ih =>
    intro v' t' h'
    have hk := (Reads.arr hi).kind_eq h'
    cases v' <;> cases hk
    obtain ⟨s1, hs, h1⟩ := h'.inv_value
    rw [← (List.cons.inj hs).2] at h1
    rcases h1 with ⟨-, hw⟩ | hi'
    · exact absurd hw hi.items_not_close
    · obtain ⟨rfl, ht⟩ := ih _ _ hi'
      exact ⟨rfl, ht⟩
  | emptyObj hw =>
    intro v' t' h'
    have hk := (Reads.emptyObj hw).kind_eq h'
    cases v' <;> cases hk
    obtain ⟨s1, hs, h1⟩ := h'.inv_value
    rw [← (List.cons.inj hs).2] at h1
    rcases h1 with ⟨rfl, hw'⟩ | hi
    · exact ⟨rfl, (hw.cons_unique hw' rfl rfl).2⟩
    · exact absurd hw hi.members_not_close
  | obj hi ih =>
    intro v' t' h'
    have hk := (Reads.obj hi).kind_eq h'
    cases v' <;> cases hk
    obtain ⟨s1, hs, h1⟩ := h'.inv_value
    rw [← (List.cons.inj hs).2] at h1
    rcases h1 with ⟨-, hw⟩ | hi'
    · exact absurd hw hi.members_not_close
    · obtain ⟨rfl, ht⟩ := ih _ _ hi'
      exact ⟨rfl, ht⟩
  | lastItem h1 h2 h3 ih =>
    intro vs' t' h'
    obtain ⟨r1, r2, v, ws, rfl, g1, g2, g3⟩ := h'.inv_items
    rw [← h1.unique g1 h2.noWs g2.noWs] at g2
    obtain ⟨rfl, rfl⟩ := ih _ _ g2
    rcases g3 with ⟨rfl, g3⟩ | ⟨r3, g3, -⟩
    · exact ⟨rfl, (h3.cons_unique g3 rfl rfl).2⟩
    · exact absurd (h3.cons_unique g3 rfl rfl).1 (by decide)
  | item h1 h2 h3 h4 ih2 ih4 =>
    intro vs' t' h'
    obtain ⟨r1, r2, v, ws, rfl, g1, g2, g3⟩ := h'.inv_items
    rw [← h1.unique g1 h2.noWs g2.noWs] at g2
    obtain ⟨rfl, rfl⟩ := ih2 _ _ g2
    rcases g3 with ⟨rfl, g3⟩ | ⟨r3, g3, g4⟩
    · exact absurd (h3.cons_unique g3 rfl rfl).1 (by decide)
    · rw [← (h3.cons_unique g3 rfl rfl).2] at g4
      obtain ⟨rfl, ht⟩ := ih4 _ _ g4
      exact ⟨rfl, ht⟩
  | lastMember h1 h2 h3 h4 h5 h6 ih =>
    intro ms' t' h'
    obtain ⟨r1, r2, r3, r4, r5, k, v, ns, rfl, g1, g2, g3, g4, g5, g6⟩ := h'.inv_members
    rw [← (h1.cons_unique g1 rfl rfl).2] at g2
    obtain ⟨rfl, rfl⟩ := h2.unique g2
    rw [← (h3.cons_unique g3 rfl rfl).2] at g4
    rw [← h4.unique g4 h5.noWs g5.noWs] at g5
    obtain ⟨rfl, rfl⟩ := ih _ _ g5
    rcases g6 with ⟨rfl, g6⟩ | ⟨r6, g6, -⟩
    · exact ⟨rfl, (h6.cons_unique g6 rfl rfl).2⟩
    · exact absurd (h6.cons_unique g6 rfl rfl).1 (by decide)
  | member h1 h2 h3 h4 h5 h6 h7 ih5 ih7 =>
    intro ms' t' h'
    obtain ⟨r1, r2, r3, r4, r5, k, v, ns, rfl, g1, g2, g3, g4, g5, g6⟩ := h'.inv_members
    rw [← (h1.cons_unique g1 rfl rfl).2] at g2
    obtain ⟨rfl, rfl⟩ := h2.unique g2
    rw [← (h3.cons_unique g3 rfl rfl).2] at g4
    rw [← h4.unique g4 h5.noWs g5.noWs] at g5
    obtain ⟨rfl, rfl⟩ := ih5 _ _ g5
    rcases g6 with ⟨rfl, g6⟩ | ⟨r6, g6, g7⟩
    · exact absurd (h6.cons_unique g6 rfl rfl).1 (by decide)
    · rw [← (h6.cons_unique g6 rfl rfl).2] at g7
      obtain ⟨rfl, ht⟩ := ih7 _ _ g7
      exact ⟨rfl, ht⟩

theorem Text.unique {v' : Raw} (h : Text s v) (h' : Text s v') : v = v' := by
  obtain ⟨s1, s2, h1, h2, -⟩ := h
  obtain ⟨r1, r2, g1, g2, -⟩ := h'
  rw [← h1.unique g1 h2.noWs g2.noWs] at g2
  exact (h2.only _ _ g2).1

end AdventOS.Json
