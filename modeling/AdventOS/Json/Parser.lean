import AdventOS.Json.Grammar

/-!
# The JSON parser (`libjson/libjson.c`)

The parser walks the text from the front and takes nodes and string bytes from an arena of
`cap` bytes. Its state is what is left of the text and how much of the arena is used; a
`struct json_v` is the tree below it, children in their linked order. `long` and `int` are
32-bit and wrap.

* `jsonParse_iff`: with a large enough arena, what it accepts and returns;
* `accepts_rfc_iff`;
* `leading_zero_accepted`.
-/
namespace AdventOS.Json
open List Option

/-! ## The functions -/

structure PState where
  rest : Bytes
  used : Nat

/-- libjson.c:240-245 -/
def arenaAllocBytes (cap n : Nat) (p : PState) : Option PState :=
  if p.used + n > cap then none else some { p with used := p.used + n }

/-- libjson.c:250-256 -/
def arenaAllocAligned (cap n : Nat) (p : PState) : Option PState :=
  let aligned := (p.used + 3) / 4 * 4
  if aligned + n > cap then none else some { p with used := aligned + n }

/-- `sizeof(struct json_v)` on a 32-bit machine. -/
def nodeSize : Nat := 24

/-- libjson.c:258-268 -/
def nodeAlloc (cap : Nat) (p : PState) : Option PState := arenaAllocAligned cap nodeSize p

/-- libjson.c:281-288 -/
def pSkipWs : Bytes → Bytes
  | [] => []
  | c :: s => if isWs c then pSkipWs s else c :: s

def PState.skipWs (p : PState) : PState := { p with rest := pSkipWs p.rest }

/-- The bytes of a code point. libjson.c:294-313 -/
def utf8Bytes (cp : Nat) : Bytes :=
  if cp < 0x80 then [UInt8.ofNat cp]
  else if cp < 0x800 then [UInt8.ofNat (0xC0 + cp / 64), UInt8.ofNat (0x80 + cp % 64)]
  else [UInt8.ofNat (0xE0 + cp / 4096), UInt8.ofNat (0x80 + cp / 64 % 64),
    UInt8.ofNat (0x80 + cp % 64)]

/-- libjson.c:294-313 -/
def arenaPutcUtf8 (cap : Nat) (p : PState) (cp : Nat) : Option PState :=
  arenaAllocBytes cap (utf8Bytes cp).length p

/-- The code point of `\\uXXXX`; a surrogate becomes U+FFFD. -/
def unicodeOf (a b c d : UInt8) : Option Nat :=
  match hexDigit a, hexDigit b, hexDigit c, hexDigit d with
  | some a, some b, some c, some d =>
    let cp := a * 4096 + b * 256 + c * 16 + d
    some (if 0xD800 ≤ cp ∧ cp ≤ 0xDFFF then 0xFFFD else cp)
  | _, _, _, _ => none

/-- The loop of `p_string` behind the opening quote, and the final NUL.
libjson.c:335-388 -/
def pChars (cap : Nat) : Bytes → (used : Nat) → Option (Bytes × PState)
  | [], _ => none
  | c :: s, used =>
    if c = quote then (arenaAllocBytes cap 1 ⟨s, used⟩).map fun p => ([], p)
    else if c = backslash then
      match s with
      | [] => none
      | e :: s =>
        if e = 117 then
          match s with
          | h0 :: h1 :: h2 :: h3 :: s =>
            (unicodeOf h0 h1 h2 h3).bind fun cp =>
              (arenaPutcUtf8 cap ⟨s, used⟩ cp).bind fun p =>
                (pChars cap s p.used).map fun r => (utf8Bytes cp ++ r.1, r.2)
          | _ => none
        else
          (escapeOf e).bind fun cp =>
            (arenaPutcUtf8 cap ⟨s, used⟩ cp).bind fun p =>
              (pChars cap s p.used).map fun r => (utf8Bytes cp ++ r.1, r.2)
    else if c < 32 then none
    else
      (arenaPutcUtf8 cap ⟨s, used⟩ c.toNat).bind fun p =>
        (pChars cap s p.used).map fun r => (utf8Bytes c.toNat ++ r.1, r.2)

/-- libjson.c:322-389 -/
def pString (cap : Nat) (p : PState) : Option (Bytes × PState) :=
  match p.rest with
  | c :: s => if c = quote then pChars cap s p.used else none
  | [] => none

def wrap32 (n : Int) : Int := n.bmod (2 ^ 32)

/-- The loop of `p_number`. libjson.c:397-404 -/
def pDigits : Bytes → Int → Option (Int × Bytes)
  | [], n => some (n, [])
  | c :: s, n =>
    if isDigit c then
      if n > 214748364 then none else pDigits s (wrap32 (n * 10 + (c.toNat - 48)))
    else some (n, c :: s)

/-- libjson.c:391-412 -/
def pNumber (s : Bytes) : Option (Int × Bytes) :=
  let neg := s.head? = some minus
  let s := if neg then s.tail else s
  match s with
  | [] => none
  | c :: _ =>
    if isDigit c then
      (pDigits s 0).bind fun r =>
        match r.2.head? with
        | some c =>
          if c = 46 ∨ c = 101 ∨ c = 69 then none
          else some (if neg then wrap32 (-r.1) else r.1, r.2)
        | none => some (if neg then wrap32 (-r.1) else r.1, r.2)
    else none

/-- libjson.c:415-423 -/
def pMatch (kw s : Bytes) : Option Bytes := if kw <+: s then some (s.drop kw.length) else none

abbrev Value := Tree Int Bytes

/-- The next byte has to be `c`. -/
def pExpect (c : UInt8) (p : PState) : Option PState :=
  match p.rest with
  | d :: s => if d = c then some { p with rest := s } else none
  | [] => none

mutual
/-- libjson.c:480-517 -/
def pValue (cap : Nat) : (fuel : Nat) → PState → Option (Value × PState)
  | 0, _ => none
  | fuel + 1, p =>
    let p := p.skipWs
    match p.rest with
    | [] => none
    | c :: _ =>
      if c = lbrace then pObject cap fuel p
      else if c = lbracket then pArray cap fuel p
      else if c = quote then
        (nodeAlloc cap p).bind fun p => (pString cap p).map fun r => (.str r.1, r.2)
      else if c = 116 then
        (pMatch kwTrue p.rest).bind fun s =>
          (nodeAlloc cap { p with rest := s }).map fun p => (.bool true, p)
      else if c = 102 then
        (pMatch kwFalse p.rest).bind fun s =>
          (nodeAlloc cap { p with rest := s }).map fun p => (.bool false, p)
      else if c = 110 then
        (pMatch kwNull p.rest).bind fun s =>
          (nodeAlloc cap { p with rest := s }).map fun p => (.null, p)
      else if c = minus ∨ isDigit c then
        (pNumber p.rest).bind fun r =>
          (nodeAlloc cap { p with rest := r.2 }).map fun p => (.num r.1, p)
      else none

/-- libjson.c:425-431 -/
def pArray (cap : Nat) : (fuel : Nat) → PState → Option (Value × PState)
  | 0, _ => none
  | fuel + 1, p =>
    (pExpect lbracket p).bind fun p =>
      (nodeAlloc cap p).bind fun p =>
        match pExpect rbracket p.skipWs with
        | some q => some (.arr [], q)
        | none => (pItems cap fuel p.skipWs).map fun r => (.arr r.1, r.2)

/-- The loop of `p_array`. libjson.c:433-445 -/
def pItems (cap : Nat) : (fuel : Nat) → PState → Option (List Value × PState)
  | 0, _ => none
  | fuel + 1, p =>
    (pValue cap fuel p.skipWs).bind fun r =>
      match pExpect comma r.2.skipWs with
      | some p => (pItems cap fuel p).map fun q => (r.1 :: q.1, q.2)
      | none => (pExpect rbracket r.2.skipWs).map fun p => ([r.1], p)

/-- libjson.c:447-453 -/
def pObject (cap : Nat) : (fuel : Nat) → PState → Option (Value × PState)
  | 0, _ => none
  | fuel + 1, p =>
    (pExpect lbrace p).bind fun p =>
      (nodeAlloc cap p).bind fun p =>
        match pExpect rbrace p.skipWs with
        | some q => some (.obj [], q)
        | none => (pMembers cap fuel p.skipWs).map fun r => (.obj r.1, r.2)

/-- The loop of `p_object`. libjson.c:455-477 -/
def pMembers (cap : Nat) : (fuel : Nat) → PState → Option (List (Bytes × Value) × PState)
  | 0, _ => none
  | fuel + 1, p =>
    if p.skipWs.rest.head? ≠ some quote then none
    else
      (nodeAlloc cap p.skipWs).bind fun p =>
        (pString cap p).bind fun k =>
          (pExpect colon k.2.skipWs).bind fun p =>
            (pValue cap fuel p.skipWs).bind fun r =>
              match pExpect comma r.2.skipWs with
              | some p => (pMembers cap fuel p).map fun q => ((k.1, r.1) :: q.1, q.2)
              | none => (pExpect rbrace r.2.skipWs).map fun p => ([(k.1, r.1)], p)
end

/-- libjson.c:519-541, `scratch_sz` being `cap`. No text nests deeper than
it is long. -/
def jsonParse (src : Bytes) (cap : Nat) : Option Value :=
  if cap < nodeSize then none
  else
    (pValue cap (3 * src.length + 1) (PState.mk src 0).skipWs).bind fun r =>
      if r.2.skipWs.rest = [] then some r.1 else none

/-! ## White space and separators -/

theorem pSkipWs_spec (s : Bytes) : Ws s (pSkipWs s) ∧ NoWs (pSkipWs s) := by
  induction s with
  | nil => exact ⟨.nil, fun c hc => nomatch hc⟩
  | cons c s ih =>
    unfold pSkipWs
    split
    · rename_i hc
      exact ⟨.cons hc ih.1, ih.2⟩
    · rename_i hc
      exact ⟨.nil, NoWs.cons (by simpa using hc)⟩

variable {kw s s1 s2 s3 s4 s5 src t : Bytes} {c d : UInt8} {p q : PState} {cap fuel : Nat}
  {k ps : List Piece} {ds : List (Fin 10)} {x : Int} {v : Value} {n : Number} {j : Raw}

theorem Ws.skip (h : Ws s t) (ht : NoWs t) : pSkipWs s = t :=
  (pSkipWs_spec s).1.unique h (pSkipWs_spec s).2 ht

theorem NoWs.skip (h : NoWs s) : pSkipWs s = s := Ws.nil.skip h

theorem pExpect_eq :
    pExpect c p = some q ↔ p.rest = c :: q.rest ∧ q.used = p.used := by
  unfold pExpect
  constructor
  · intro h
    split at h
    · rename_i d s hs
      split at h
      · rename_i hd
        cases h
        exact ⟨by rw [hs, hd], rfl⟩
      · cases h
    · cases h
  · intro ⟨h1, h2⟩
    rw [h1]
    dsimp only
    rw [if_pos rfl, ← h2]

theorem pExpect_none (h : p.rest = d :: s) (hne : d ≠ c) :
    pExpect c p = none := by
  unfold pExpect
  rw [h]
  exact if_neg hne

theorem nodeAlloc_room (h : p.used + 27 ≤ cap) :
    ∃ q, nodeAlloc cap p = some q ∧ q.rest = p.rest ∧ q.used ≤ p.used + 27 := by
  refine ⟨⟨p.rest, (p.used + 3) / 4 * 4 + nodeSize⟩, if_neg ?_, rfl, ?_⟩
  · unfold nodeSize
    omega
  · unfold nodeSize
    dsimp only
    omega

theorem nodeAlloc_rest (h : nodeAlloc cap p = some q) :
    q.rest = p.rest := by
  unfold nodeAlloc arenaAllocAligned at h
  dsimp only at h
  split at h
  · cases h
  · cases h
    rfl

/-! ## Strings -/

/-- The code point that the parser takes a piece for: a byte is taken for itself. -/
def Piece.codePoint : Piece → Nat
  | .byte c => c.toNat
  | .escape c => (escapeOf c).getD 0
  | .unicode a b c d => (unicodeOf a b c d).getD 0

def strBytes (ps : List Piece) : Bytes := ps.flatMap fun p => utf8Bytes p.codePoint

theorem strBytes_cons (p : Piece) (ps : List Piece) :
    strBytes (p :: ps) = utf8Bytes p.codePoint ++ strBytes ps := rfl

theorem codePoint_escape {cp : Nat} (h : escapeOf c = some cp) :
    (Piece.escape c).codePoint = cp := by
  change (escapeOf c).getD 0 = cp
  rw [h]
  rfl

theorem codePoint_unicode {a b : UInt8} {cp : Nat} (h : unicodeOf a b c d = some cp) :
    (Piece.unicode a b c d).codePoint = cp := by
  change (unicodeOf a b c d).getD 0 = cp
  rw [h]
  rfl

theorem utf8Bytes_length_le (cp : Nat) : (utf8Bytes cp).length ≤ 3 := by
  unfold utf8Bytes
  split
  · exact Nat.le_of_ble_eq_true rfl
  · split <;> exact Nat.le_of_ble_eq_true rfl

theorem arenaPutcUtf8_room (cp : Nat) (h : p.used + 3 ≤ cap) :
    ∃ q, arenaPutcUtf8 cap p cp = some q ∧ q.rest = p.rest ∧ q.used ≤ p.used + 3 := by
  have := utf8Bytes_length_le cp
  exact ⟨_, if_neg (by omega), rfl, by dsimp only; omega⟩

theorem unicodeOf_isSome {a b : UInt8} : (unicodeOf a b c d).isSome ↔
    (hexDigit a).isSome ∧ (hexDigit b).isSome ∧ (hexDigit c).isSome ∧ (hexDigit d).isSome := by
  unfold unicodeOf
  cases hexDigit a <;> cases hexDigit b <;> cases hexDigit c <;> cases hexDigit d <;> simp

/-- The arena used and 28 bytes for each byte of text that is left. -/
def PState.cost (p : PState) : Nat := p.used + 28 * p.rest.length

theorem pChars_complete (h : Body s ps t) {u : Nat}
    (hroom : (PState.mk s u).cost ≤ cap) :
    ∃ q, pChars cap s u = some (strBytes ps, q) ∧ q.rest = t ∧ q.cost ≤ (PState.mk s u).cost := by
  unfold PState.cost at *
  dsimp only at *
  induction h generalizing u with
  | @close t =>
    rw [length_cons] at hroom
    refine ⟨⟨t, u + 1⟩, ?_, rfl, ?_⟩
    · unfold pChars arenaAllocBytes
      rw [if_pos rfl, if_neg (by dsimp only; omega)]
      rfl
    · dsimp only
      rw [length_cons]
      omega
  | @byte c s ps t h1 hq hb _ ih =>
    rw [length_cons] at hroom
    obtain ⟨p, hp, hps, hpu⟩ := arenaPutcUtf8_room c.toNat (p := ⟨s, u⟩)
      (show u + 3 ≤ cap by omega)
    dsimp only at hpu
    obtain ⟨q, hq', ht, hqu⟩ := ih (u := p.used) (by omega)
    refine ⟨q, ?_, ht, ?_⟩
    · unfold pChars
      rw [if_neg hq, if_neg hb, if_neg (by rw [UInt8.not_lt]; exact h1), hp, bind_some, hq']
      rfl
    · rw [length_cons]
      omega
  | @escape c s ps t he _ ih =>
    rw [length_cons, length_cons] at hroom
    obtain ⟨cp, hcp⟩ := isSome_iff_exists.1 he
    obtain ⟨p, hp, hps, hpu⟩ := arenaPutcUtf8_room cp (p := ⟨s, u⟩)
      (show u + 3 ≤ cap by omega)
    dsimp only at hpu
    obtain ⟨q, hq', ht, hqu⟩ := ih (u := p.used) (by omega)
    have hne : c ≠ 117 := by
      intro h
      rw [h, escapeOf_u] at hcp
      cases hcp
    refine ⟨q, ?_, ht, ?_⟩
    · unfold pChars
      rw [if_neg backslash_ne_quote, if_pos rfl]
      dsimp only
      rw [if_neg hne, hcp, bind_some, hp, bind_some, hq', strBytes_cons,
        codePoint_escape hcp]
      rfl
    · rw [length_cons, length_cons]
      omega
  | @unicode a b c d s ps t ha hb hc hd _ ih =>
    simp only [length_cons] at hroom
    obtain ⟨cp, hcp⟩ := isSome_iff_exists.1 (unicodeOf_isSome.2 ⟨ha, hb, hc, hd⟩)
    obtain ⟨p, hp, hps, hpu⟩ := arenaPutcUtf8_room cp (p := ⟨s, u⟩)
      (show u + 3 ≤ cap by omega)
    dsimp only at hpu
    obtain ⟨q, hq', ht, hqu⟩ := ih (u := p.used) (by omega)
    refine ⟨q, ?_, ht, ?_⟩
    · unfold pChars
      rw [if_neg backslash_ne_quote, if_pos rfl]
      dsimp only
      rw [if_pos rfl, hcp, bind_some, hp, bind_some, hq', strBytes_cons,
        codePoint_unicode hcp]
      rfl
    · simp only [length_cons]
      omega

theorem pChars_sound {b : Bytes} {u : Nat}
    (h : pChars cap s u = some (b, q)) : ∃ ps, Body s ps q.rest ∧ b = strBytes ps := by
  fun_induction pChars cap s u generalizing b q with
  | case1 => cases h
  | case2 u s =>
    obtain ⟨p, hp, heq⟩ := map_eq_some_iff.1 h
    unfold arenaAllocBytes at hp
    split at hp
    · cases hp
    · cases hp
      cases heq
      exact ⟨[], .close, rfl⟩
  | case3 => cases h
  | case4 u h0 h1 h2 h3 s _ ih =>
    obtain ⟨cp, hcp, h⟩ := bind_eq_some_iff.1 h
    obtain ⟨p, hp, h⟩ := bind_eq_some_iff.1 h
    obtain ⟨r, hr, heq⟩ := map_eq_some_iff.1 h
    cases heq
    obtain ⟨ps, hps, hb⟩ := ih p hr
    have hsome := unicodeOf_isSome.1 (isSome_iff_exists.2 ⟨cp, hcp⟩)
    refine ⟨_, .unicode hsome.1 hsome.2.1 hsome.2.2.1 hsome.2.2.2 hps, ?_⟩
    rw [strBytes_cons, codePoint_unicode hcp, hb]
  | case5 => cases h
  | case6 u e s _ _ ih =>
    obtain ⟨cp, hcp, h⟩ := bind_eq_some_iff.1 h
    obtain ⟨p, hp, h⟩ := bind_eq_some_iff.1 h
    obtain ⟨r, hr, heq⟩ := map_eq_some_iff.1 h
    cases heq
    obtain ⟨ps, hps, hb⟩ := ih p hr
    refine ⟨_, .escape (isSome_iff_exists.2 ⟨cp, hcp⟩) hps, ?_⟩
    rw [strBytes_cons, codePoint_escape hcp, hb]
  | case7 => cases h
  | case8 u c s hq hb h32 ih =>
    obtain ⟨p, hp, h⟩ := bind_eq_some_iff.1 h
    obtain ⟨r, hr, heq⟩ := map_eq_some_iff.1 h
    cases heq
    obtain ⟨ps, hps, hb'⟩ := ih p hr
    refine ⟨_, .byte (UInt8.not_lt.1 h32) hq hb hps, ?_⟩
    rw [hb']
    rfl

theorem pString_complete (h : Body s ps t)
    (hp : p.rest = quote :: s) (hroom : p.used + 28 * s.length ≤ cap) :
    ∃ q, pString cap p = some (strBytes ps, q) ∧ q.rest = t ∧
      q.cost ≤ p.used + 28 * s.length := by
  unfold pString
  rw [hp]
  dsimp only
  rw [if_pos rfl]
  exact pChars_complete h hroom

theorem pString_sound {b : Bytes} (h : pString cap p = some (b, q)) :
    ∃ s ps, p.rest = quote :: s ∧ Body s ps q.rest ∧ b = strBytes ps := by
  unfold pString at h
  split at h
  · rename_i c s hs
    split at h
    · rename_i hc
      obtain ⟨ps, hps, hb⟩ := pChars_sound h
      exact ⟨s, ps, by rw [hs, hc], hps, hb⟩
    · cases h
  · cases h

/-! ## Numbers -/

/-- The digit loop on digits alone. -/
def runDigits : Int → List (Fin 10) → Option Int
  | n, [] => some n
  | n, d :: ds => if n > 214748364 then none else runDigits (wrap32 (n * 10 + d)) ds

theorem split_digits (s : Bytes) :
    ∃ (ds : List (Fin 10)) (t : Bytes), s = ds.map digitByte ++ t ∧
      ∀ c ∈ t.head?, isDigit c = false := by
  induction s with
  | nil => exact ⟨[], [], rfl, fun c hc => nomatch hc⟩
  | cons c s ih =>
    by_cases hc : isDigit c = true
    · obtain ⟨ds, t, hs, ht⟩ := ih
      have hr := isDigit_iff.1 hc
      have hd : digitByte ⟨c.toNat - 48, by omega⟩ = c := by
        apply UInt8.toNat_inj.1
        rw [digitByte_toNat]
        dsimp only
        omega
      exact ⟨⟨c.toNat - 48, by omega⟩ :: ds, t, by rw [map_cons, hd, cons_append, hs], ht⟩
    · refine ⟨[], c :: s, rfl, fun d hd => ?_⟩
      obtain rfl : c = d := by simpa using hd
      simpa using hc

theorem pDigits_eq (ht : ∀ c ∈ t.head?, isDigit c = false)
    (n : Int) : pDigits (ds.map digitByte ++ t) n = (runDigits n ds).map fun m => (m, t) := by
  induction ds generalizing n with
  | nil =>
    rw [map_nil, nil_append]
    cases t with
    | nil => rfl
    | cons c t =>
      unfold pDigits
      rw [if_neg (by simpa using ht c rfl)]
      rfl
  | cons d ds ih =>
    rw [map_cons, cons_append]
    unfold pDigits runDigits
    rw [if_pos (isDigit_digitByte d), digitByte_toNat]
    split
    · rfl
    · have hd : ((48 + d.val : Nat) : Int) - 48 = d.val := by omega
      rw [hd, ih]

theorem wrap32_step (m : Int) (d : Int) : wrap32 (wrap32 m * 10 + d) = wrap32 (m * 10 + d) := by
  unfold wrap32
  rw [← Int.bmod_add_bmod, Int.bmod_mul_bmod, Int.bmod_add_bmod]

/-- Every proper prefix of the digits, as a signed 32-bit integer, is small enough for the
overflow guard. -/
def Number.Passes (n : Number) : Prop :=
  ∀ p, p <+: n.digits → p ≠ n.digits → wrap32 (ofDigits p) ≤ 214748364

theorem runDigits_iff {m : Nat} :
    runDigits (wrap32 m) ds = some x ↔
      (∀ p, p <+: ds → p ≠ ds →
        wrap32 ((p.foldl (fun n d => n * 10 + d.val) m : Nat) : Int) ≤ 214748364) ∧
      x = wrap32 ((ds.foldl (fun n d => n * 10 + d.val) m : Nat) : Int) := by
  induction ds generalizing m with
  | nil =>
    constructor
    · intro h
      refine ⟨fun p hp hne => absurd (prefix_nil.1 hp) hne, ?_⟩
      exact (Option.some.inj h).symm
    · intro h
      rw [h.2]
      rfl
  | cons d ds ih =>
    have hstep : wrap32 (wrap32 m * 10 + d.val) = wrap32 ((m * 10 + d.val : Nat) : Int) := by
      rw [wrap32_step]
      rfl
    unfold runDigits
    rw [hstep]
    constructor
    · intro h
      split at h
      · cases h
      · rename_i hguard
        obtain ⟨hp, hx⟩ := ih.1 h
        refine ⟨fun p hpre hne => ?_, hx⟩
        cases p with
        | nil => exact not_lt.1 hguard
        | cons e p =>
          obtain ⟨rfl, htail⟩ := cons_prefix_cons.1 hpre
          exact hp p htail fun h => hne (by rw [h])
    · intro ⟨hp, hx⟩
      have hguard : wrap32 (m : Int) ≤ 214748364 := hp [] nil_prefix (by simp)
      rw [if_neg (not_lt.2 hguard)]
      refine ih.2 ⟨fun p hpre hne => ?_, hx⟩
      exact hp (d :: p) (cons_prefix_cons.2 ⟨rfl, hpre⟩) (by simpa using hne)

theorem runDigits_zero :
    runDigits 0 ds = some x ↔
      (∀ p, p <+: ds → p ≠ ds → wrap32 (ofDigits p) ≤ 214748364) ∧ x = wrap32 (ofDigits ds) := by
  have h0 : wrap32 ((0 : Nat) : Int) = 0 := by decide
  rw [← h0]
  exact runDigits_iff

theorem continues_iff :
    continues c = false ↔ isDigit c = false ∧ ¬(c = 46 ∨ c = 101 ∨ c = 69) := by
  unfold continues
  cases isDigit c <;> simp [and_assoc]

theorem pDigits_iff :
    ((∃ c ∈ s.head?, isDigit c = true) ∧ pDigits s 0 = some (x, t)) ↔
      ∃ ds : List (Fin 10), ds ≠ [] ∧ s = ds.map digitByte ++ t ∧ (∀ c ∈ t.head?, isDigit c = false) ∧
        (∀ p, p <+: ds → p ≠ ds → wrap32 (ofDigits p) ≤ 214748364) ∧ x = wrap32 (ofDigits ds) := by
  constructor
  · intro ⟨⟨c, hc, hd⟩, h⟩
    obtain ⟨ds, t', hs, ht'⟩ := split_digits s
    rw [hs, pDigits_eq ht'] at h
    obtain ⟨m, hm, heq⟩ := map_eq_some_iff.1 h
    cases heq
    refine ⟨ds, ?_, hs, ht', runDigits_zero.1 hm⟩
    intro hnil
    rw [hs, hnil] at hc
    rw [ht' c hc] at hd
    cases hd
  · intro ⟨ds, hne, hs, ht, hrun⟩
    rw [hs, pDigits_eq ht, runDigits_zero.2 hrun]
    refine ⟨?_, rfl⟩
    cases ds with
    | nil => exact absurd rfl hne
    | cons d ds => exact ⟨digitByte d, rfl, isDigit_digitByte d⟩

theorem wrap32_neg (n : Int) : wrap32 (-wrap32 n) = wrap32 (-n) := by
  have h := Int.bmod_mul_bmod (x := n) (n := 2 ^ 32) (y := -1)
  rwa [Int.mul_neg_one, Int.mul_neg_one] at h

theorem pNumber_parts :
    pNumber s = some (x, t) ↔ ∃ (neg : Bool) (r : Bytes) (m : Int),
      (neg = true ↔ s.head? = some minus) ∧ s = (if neg then [minus] else []) ++ r ∧
      ((∃ c ∈ r.head?, isDigit c = true) ∧ pDigits r 0 = some (m, t)) ∧
      (∀ c ∈ t.head?, ¬(c = 46 ∨ c = 101 ∨ c = 69)) ∧ x = if neg then wrap32 (-m) else m := by
  have key : ∀ (neg : Bool) (r : Bytes), (neg = true ↔ s.head? = some minus) →
      (if s.head? = some minus then s.tail else s) = r →
      (pNumber s = some (x, t) ↔ ∃ m, ((∃ c ∈ r.head?, isDigit c = true) ∧
        pDigits r 0 = some (m, t)) ∧ (∀ c ∈ t.head?, ¬(c = 46 ∨ c = 101 ∨ c = 69)) ∧
        x = if neg then wrap32 (-m) else m) := by
    intro neg r hneg hr
    have hif : ∀ m : Int, (if s.head? = some minus then wrap32 (-m) else m) =
        if neg then wrap32 (-m) else m := by
      intro m
      by_cases hn : neg = true
      · rw [if_pos (hneg.1 hn), if_pos hn]
      · rw [if_neg (mt hneg.2 hn), if_neg hn]
    unfold pNumber
    dsimp only
    rw [hr]
    constructor
    · intro h
      split at h
      · cases h
      · rename_i c r'
        split at h
        · rename_i hc
          obtain ⟨⟨m, t'⟩, hm, h⟩ := bind_eq_some_iff.1 h
          cases ht : t'.head? with
          | none =>
            rw [ht] at h
            obtain ⟨rfl, rfl⟩ := Prod.mk.inj (Option.some.inj h)
            refine ⟨m, ⟨⟨c, rfl, hc⟩, hm⟩, ?_, hif m⟩
            rw [ht]
            exact fun d hd => nomatch hd
          | some d =>
            rw [ht] at h
            dsimp only at h
            split at h
            · cases h
            · rename_i hd
              obtain ⟨rfl, rfl⟩ := Prod.mk.inj (Option.some.inj h)
              refine ⟨m, ⟨⟨c, rfl, hc⟩, hm⟩, ?_, hif m⟩
              rw [ht]
              intro e he
              obtain rfl : d = e := by simpa using he
              exact hd
        · cases h
    · intro ⟨m, ⟨⟨c, hc, hd⟩, hm⟩, ht, hx⟩
      cases r with
      | nil => cases hc
      | cons c' r =>
        obtain rfl : c' = c := by simpa using hc
        dsimp only
        rw [if_pos hd, hm, bind_some]
        cases hth : t.head? with
        | none =>
          rw [hif, hx]
        | some e =>
          dsimp only
          rw [if_neg (ht e hth), hif, hx]
  constructor
  · intro h
    by_cases hm : s.head? = some minus
    · obtain ⟨m, hrest⟩ := (key true s.tail (by simp [hm]) (if_pos hm)).1 h
      refine ⟨true, s.tail, m, by simp [hm], ?_, hrest⟩
      cases s with
      | nil => cases hm
      | cons c s =>
        obtain rfl : c = minus := by simpa using hm
        rfl
    · obtain ⟨m, hrest⟩ := (key false s (by simp [hm]) (if_neg hm)).1 h
      exact ⟨false, s, m, by simp [hm], rfl, hrest⟩
  · intro ⟨neg, r, m, hneg, hs, hrest⟩
    refine (key neg r hneg ?_).2 ⟨m, hrest⟩
    by_cases hn : neg = true
    · rw [if_pos (hneg.1 hn), hs, hn]
      rfl
    · rw [if_neg (mt hneg.2 hn), hs, if_neg hn]
      rfl

theorem pNumber_iff :
    pNumber s = some (x, t) ↔ ∃ n, Num s n t ∧ n.Passes ∧ x = wrap32 n.value := by
  have hvalue : ∀ n : Number, (if n.neg then wrap32 (-wrap32 (ofDigits n.digits))
      else wrap32 (ofDigits n.digits)) = wrap32 n.value := by
    intro n
    unfold Number.value
    split
    · exact wrap32_neg _
    · rfl
  rw [pNumber_parts]
  constructor
  · intro ⟨neg, r, m, hneg, hs, hd, ht, hx⟩
    obtain ⟨ds, hne, hr, htd, hpass, hm⟩ := pDigits_iff.1 hd
    refine ⟨⟨neg, ds⟩, ⟨hne, by rw [hs, hr], ?_⟩, hpass, ?_⟩
    · intro c hc
      exact continues_iff.2 ⟨htd c hc, ht c hc⟩
    · rw [hx, ← hvalue, hm]
  · intro ⟨n, hn, hpass, hx⟩
    refine ⟨n.neg, n.digits.map digitByte ++ t, wrap32 (ofDigits n.digits), ?_, hn.text,
      pDigits_iff.2 ⟨n.digits, hn.digits, rfl, fun c hc => (continues_iff.1 (hn.ends c hc)).1,
        hpass, rfl⟩, fun c hc => (continues_iff.1 (hn.ends c hc)).2, ?_⟩
    · obtain ⟨c, r, hs, hc⟩ := hn.head
      rw [hs, List.head?_cons, Option.some.injEq]
      cases hneg : n.neg with
      | true =>
        rw [hneg, if_pos rfl] at hc
        simp [hc]
      | false =>
        rw [hneg, if_neg (by simp)] at hc
        have : c ≠ minus := by
          intro h
          rw [h] at hc
          cases hc
        simp [this]
    · rw [hx, ← hvalue]

/-! ## What is accepted is a text -/

/-- What the parser makes of a tree of tokens. -/
def meaning (j : Raw) : Value := j.map (fun n => wrap32 n.value) strBytes

def itemsMeaning (js : List Raw) : List Value := mapItems (fun n => wrap32 n.value) strBytes js

def membersMeaning (ms : List (List Piece × Raw)) : List (Bytes × Value) :=
  mapMembers (fun n => wrap32 n.value) strBytes ms

theorem pMatch_iff : pMatch kw s = some t ↔ s = kw ++ t := by
  unfold pMatch
  constructor
  · intro h
    split at h
    · rename_i hpre
      obtain ⟨r, rfl⟩ := hpre
      rw [drop_left] at h
      rw [Option.some.inj h]
    · cases h
  · intro h
    rw [if_pos ⟨t, h.symm⟩, h, drop_left]

/-- `v` is what a value read from `s` up to `t` means. -/
def ValueOf (s : Bytes) (v : Value) (t : Bytes) : Prop :=
  ∃ j, Reads s (.value j) t ∧ (∀ n ∈ j.numbers, n.Passes) ∧ v = meaning j

def ItemsOf (s : Bytes) (vs : List Value) (t : Bytes) : Prop :=
  ∃ js, Reads s (.items js) t ∧ (∀ n ∈ itemsNumbers js, n.Passes) ∧ vs = itemsMeaning js

def MembersOf (s : Bytes) (ms : List (Bytes × Value)) (t : Bytes) : Prop :=
  ∃ js, Reads s (.members js) t ∧ (∀ n ∈ membersNumbers js, n.Passes) ∧ ms = membersMeaning js

theorem PState.skipWs_spec (p : PState) : Ws p.rest p.skipWs.rest := (pSkipWs_spec p.rest).1

theorem pSkipWs_idem (s : Bytes) : pSkipWs (pSkipWs s) = pSkipWs s := (pSkipWs_spec s).2.skip

theorem node_keyword {w : Value}
    (h : ((pMatch kw p.rest).bind fun s =>
      (nodeAlloc cap { p with rest := s }).map fun p => (v, p)) = some (w, q)) :
    p.rest = kw ++ q.rest ∧ w = v := by
  obtain ⟨s, hs, h⟩ := bind_eq_some_iff.1 h
  obtain ⟨p', hp, heq⟩ := map_eq_some_iff.1 h
  cases heq
  rw [pMatch_iff.1 hs, nodeAlloc_rest hp]
  exact ⟨rfl, rfl⟩

theorem pValue_sound_step
    (harr : ∀ p v q, pArray cap fuel p = some (v, q) → ValueOf p.rest v q.rest)
    (hobj : ∀ p v q, pObject cap fuel p = some (v, q) → ValueOf p.rest v q.rest)
    (h : pValue cap (fuel + 1) p = some (v, q)) :
    ValueOf p.skipWs.rest v q.rest := by
  unfold pValue at h
  dsimp only at h
  split at h
  · cases h
  · split at h
    · exact hobj _ _ _ h
    · split at h
      · exact harr _ _ _ h
      · split at h
        · obtain ⟨p1, hp1, h⟩ := bind_eq_some_iff.1 h
          obtain ⟨b, hb, heq⟩ := map_eq_some_iff.1 h
          cases heq
          obtain ⟨s, ps, hs, hbody, hdec⟩ := pString_sound hb
          rw [nodeAlloc_rest hp1] at hs
          rw [hs]
          exact ⟨.str ps, .str hbody, fun n hn => (not_mem_nil hn).elim, by rw [hdec]; rfl⟩
        · split at h
          · obtain ⟨hs, rfl⟩ := node_keyword h
            rw [hs]
            exact ⟨.bool true, .yes, fun n hn => (not_mem_nil hn).elim, rfl⟩
          · split at h
            · obtain ⟨hs, rfl⟩ := node_keyword h
              rw [hs]
              exact ⟨.bool false, .no, fun n hn => (not_mem_nil hn).elim, rfl⟩
            · split at h
              · obtain ⟨hs, rfl⟩ := node_keyword h
                rw [hs]
                exact ⟨.null, .null, fun n hn => (not_mem_nil hn).elim, rfl⟩
              · split at h
                · obtain ⟨⟨x, t⟩, hx, h⟩ := bind_eq_some_iff.1 h
                  obtain ⟨p1, hp1, heq⟩ := map_eq_some_iff.1 h
                  cases heq
                  obtain ⟨n, hn, hpass, rfl⟩ := pNumber_iff.1 hx
                  rw [nodeAlloc_rest hp1]
                  refine ⟨.num n, .num hn, fun m hm => ?_, rfl⟩
                  obtain rfl : m = n := mem_singleton.1 hm
                  exact hpass
                · cases h

theorem pArray_sound_step
    (hitems : ∀ p vs q, pItems cap fuel p = some (vs, q) → ItemsOf p.rest vs q.rest)
    (h : pArray cap (fuel + 1) p = some (v, q)) :
    ValueOf p.rest v q.rest := by
  obtain ⟨p1, hp1, h⟩ := bind_eq_some_iff.1 h
  obtain ⟨p2, hp2, h⟩ := bind_eq_some_iff.1 h
  rw [(pExpect_eq.1 hp1).1, ← nodeAlloc_rest hp2]
  split at h
  · rename_i q' hq
    cases h
    refine ⟨.arr [], .emptyArr ?_, fun n hn => (not_mem_nil hn).elim, rfl⟩
    rw [← (pExpect_eq.1 hq).1]
    exact p2.skipWs_spec
  · obtain ⟨⟨vs, q'⟩, hi, heq⟩ := map_eq_some_iff.1 h
    cases heq
    obtain ⟨js, hjs, hpass, rfl⟩ := hitems _ _ _ hi
    exact ⟨.arr js, .arr (hjs.items_ws p2.skipWs_spec), hpass, rfl⟩

theorem pObject_sound_step
    (hmembers : ∀ p ms q, pMembers cap fuel p = some (ms, q) → MembersOf p.rest ms q.rest)
    (h : pObject cap (fuel + 1) p = some (v, q)) :
    ValueOf p.rest v q.rest := by
  obtain ⟨p1, hp1, h⟩ := bind_eq_some_iff.1 h
  obtain ⟨p2, hp2, h⟩ := bind_eq_some_iff.1 h
  rw [(pExpect_eq.1 hp1).1, ← nodeAlloc_rest hp2]
  split at h
  · rename_i q' hq
    cases h
    refine ⟨.obj [], .emptyObj ?_, fun n hn => (not_mem_nil hn).elim, rfl⟩
    rw [← (pExpect_eq.1 hq).1]
    exact p2.skipWs_spec
  · obtain ⟨⟨ms, q'⟩, hi, heq⟩ := map_eq_some_iff.1 h
    cases heq
    obtain ⟨js, hjs, hpass, rfl⟩ := hmembers _ _ _ hi
    exact ⟨.obj js, .obj (hjs.members_ws p2.skipWs_spec), hpass, rfl⟩

theorem pItems_sound_step
    (hvalue : ∀ p v q, pValue cap fuel p = some (v, q) → ValueOf p.skipWs.rest v q.rest)
    (hitems : ∀ p vs q, pItems cap fuel p = some (vs, q) → ItemsOf p.rest vs q.rest)
    {vs : List Value} (h : pItems cap (fuel + 1) p = some (vs, q)) :
    ItemsOf p.rest vs q.rest := by
  obtain ⟨⟨v, r⟩, hv, h⟩ := bind_eq_some_iff.1 h
  obtain ⟨j, hj, hpass, rfl⟩ := hvalue _ _ _ hv
  have hskip : p.skipWs.skipWs.rest = p.skipWs.rest := pSkipWs_idem p.rest
  rw [hskip] at hj
  split at h
  · rename_i p1 hp1
    obtain ⟨⟨ws, r'⟩, hi, heq⟩ := map_eq_some_iff.1 h
    cases heq
    obtain ⟨js, hjs, hpass', rfl⟩ := hitems _ _ _ hi
    have hsep := r.skipWs_spec
    rw [(pExpect_eq.1 hp1).1] at hsep
    refine ⟨j :: js, .item p.skipWs_spec hj hsep hjs, fun n hn => ?_, rfl⟩
    rcases mem_append.1 hn with hn | hn
    · exact hpass n hn
    · exact hpass' n hn
  · obtain ⟨p1, hp1, heq⟩ := map_eq_some_iff.1 h
    cases heq
    have hsep := r.skipWs_spec
    rw [(pExpect_eq.1 hp1).1] at hsep
    refine ⟨[j], .lastItem p.skipWs_spec hj hsep, fun n hn => ?_, rfl⟩
    rcases mem_append.1 hn with hn | hn
    · exact hpass n hn
    · cases hn

theorem pMembers_sound_step
    (hvalue : ∀ p v q, pValue cap fuel p = some (v, q) → ValueOf p.skipWs.rest v q.rest)
    (hmembers : ∀ p ms q, pMembers cap fuel p = some (ms, q) → MembersOf p.rest ms q.rest)
    {ms : List (Bytes × Value)} (h : pMembers cap (fuel + 1) p = some (ms, q)) :
    MembersOf p.rest ms q.rest := by
  unfold pMembers at h
  split at h
  · cases h
  · obtain ⟨p1, hp1, h⟩ := bind_eq_some_iff.1 h
    obtain ⟨⟨k, p2⟩, hk, h⟩ := bind_eq_some_iff.1 h
    obtain ⟨p3, hp3, h⟩ := bind_eq_some_iff.1 h
    obtain ⟨⟨v, r⟩, hv, h⟩ := bind_eq_some_iff.1 h
    obtain ⟨s, ps, hs, hbody, rfl⟩ := pString_sound hk
    obtain ⟨j, hj, hpass, rfl⟩ := hvalue _ _ _ hv
    have hskip : p3.skipWs.skipWs.rest = p3.skipWs.rest := pSkipWs_idem p3.rest
    rw [hskip] at hj
    have hquote := p.skipWs_spec
    rw [← nodeAlloc_rest hp1, hs] at hquote
    have hcolon := p2.skipWs_spec
    rw [(pExpect_eq.1 hp3).1] at hcolon
    split at h
    · rename_i p4 hp4
      obtain ⟨⟨ws, r'⟩, hi, heq⟩ := map_eq_some_iff.1 h
      cases heq
      obtain ⟨js, hjs, hpass', rfl⟩ := hmembers _ _ _ hi
      have hsep := r.skipWs_spec
      rw [(pExpect_eq.1 hp4).1] at hsep
      refine ⟨(ps, j) :: js, .member hquote hbody hcolon p3.skipWs_spec hj hsep hjs,
        fun n hn => ?_, rfl⟩
      rcases mem_append.1 hn with hn | hn
      · exact hpass n hn
      · exact hpass' n hn
    · obtain ⟨p4, hp4, heq⟩ := map_eq_some_iff.1 h
      cases heq
      have hsep := r.skipWs_spec
      rw [(pExpect_eq.1 hp4).1] at hsep
      refine ⟨[(ps, j)], .lastMember hquote hbody hcolon p3.skipWs_spec hj hsep,
        fun n hn => ?_, rfl⟩
      rcases mem_append.1 hn with hn | hn
      · exact hpass n hn
      · cases hn

theorem parser_sound (cap fuel : Nat) :
    (∀ p v q, pValue cap fuel p = some (v, q) → ValueOf p.skipWs.rest v q.rest) ∧
    (∀ p v q, pArray cap fuel p = some (v, q) → ValueOf p.rest v q.rest) ∧
    (∀ p vs q, pItems cap fuel p = some (vs, q) → ItemsOf p.rest vs q.rest) ∧
    (∀ p v q, pObject cap fuel p = some (v, q) → ValueOf p.rest v q.rest) ∧
    ∀ p ms q, pMembers cap fuel p = some (ms, q) → MembersOf p.rest ms q.rest := by
  induction fuel with
  | zero =>
    refine ⟨?_, ?_, ?_, ?_, ?_⟩ <;> intro p v q h <;> cases h
  | succ fuel ih =>
    obtain ⟨hvalue, harr, hitems, hobj, hmembers⟩ := ih
    exact ⟨fun _ _ _ => pValue_sound_step harr hobj, fun _ _ _ => pArray_sound_step hitems,
      fun _ _ _ => pItems_sound_step hvalue hitems, fun _ _ _ => pObject_sound_step hmembers,
      fun _ _ _ => pMembers_sound_step hvalue hmembers⟩

theorem jsonParse_sound (h : jsonParse src cap = some v) :
    ∃ j, Text src j ∧ (∀ n ∈ j.numbers, n.Passes) ∧ v = meaning j := by
  unfold jsonParse at h
  split at h
  · cases h
  · obtain ⟨⟨w, r⟩, hw, h⟩ := bind_eq_some_iff.1 h
    split at h
    · rename_i hend
      cases h
      obtain ⟨j, hj, hpass, hv⟩ := (parser_sound cap _).1 _ _ _ hw
      have hskip : (PState.mk src 0).skipWs.skipWs.rest = (PState.mk src 0).skipWs.rest :=
        pSkipWs_idem src
      rw [hskip] at hj
      have hlast := r.skipWs_spec
      rw [hend] at hlast
      exact ⟨j, ⟨_, _, (PState.mk src 0).skipWs_spec, hj, hlast⟩, hpass, hv⟩
    · cases h

/-! ## Every text is accepted -/

theorem PState.skipWs_self (h : NoWs p.rest) : p.skipWs = p := by
  unfold PState.skipWs
  rw [h.skip]

theorem PState.skipWs_rest (h : Ws p.rest t) (ht : NoWs t) :
    p.skipWs.rest = t := h.skip ht

theorem PState.skipWs_cost (p : PState) : p.skipWs.cost ≤ p.cost := by
  have := p.skipWs_spec.length_le
  unfold PState.cost
  change p.used + _ ≤ _
  omega

theorem nodeAlloc_cost (h : p.rest = c :: s)
    (hroom : p.cost ≤ cap) :
    ∃ q, nodeAlloc cap p = some q ∧ q.rest = p.rest ∧ q.used ≤ p.used + 27 := by
  unfold PState.cost at hroom
  rw [h, length_cons] at hroom
  exact nodeAlloc_room (by omega)

theorem scalar_complete (h : p.rest = c :: s) (hroom : p.cost ≤ cap) (ht : t.length ≤ s.length) :
    ∃ q, (nodeAlloc cap { p with rest := t }).map (fun p => (v, p)) = some (v, q) ∧
      q.rest = t ∧ q.cost ≤ p.cost := by
  unfold PState.cost at *
  rw [h, length_cons] at hroom ⊢
  obtain ⟨q, hq, hqr, hqu⟩ := nodeAlloc_room (p := { p with rest := t })
    (show p.used + 27 ≤ cap by omega)
  dsimp only at hqr hqu
  refine ⟨q, by rw [hq]; rfl, hqr, ?_⟩
  rw [hqr]
  omega

/-- Reading the phrase from `s` with enough steps and enough room comes out at `t`. Some of
the white space in front of items or members may have been skipped. -/
def Done (cap : Nat) (s : Bytes) (x : Phrase) (t : Bytes) : Prop :=
  match x with
  | .value j => (∀ n ∈ j.numbers, n.Passes) → ∀ fuel p, 3 * s.length + 1 ≤ fuel → p.rest = s →
      p.cost ≤ cap → ∃ q, pValue cap fuel p = some (meaning j, q) ∧ q.rest = t ∧ q.cost ≤ p.cost
  | .items js => (∀ n ∈ itemsNumbers js, n.Passes) → ∀ fuel p, 3 * s.length + 2 ≤ fuel →
      Ws s p.rest → p.cost ≤ cap →
      ∃ q, pItems cap fuel p = some (itemsMeaning js, q) ∧ q.rest = t ∧ q.cost ≤ p.cost
  | .members js => (∀ n ∈ membersNumbers js, n.Passes) → ∀ fuel p, 3 * s.length + 2 ≤ fuel →
      Ws s p.rest → p.cost ≤ cap →
      ∃ q, pMembers cap fuel p = some (membersMeaning js, q) ∧ q.rest = t ∧ q.cost ≤ p.cost

theorem pValue_head (h : p.rest = c :: s)
    (hws : isWs c = false) : pValue cap (fuel + 1) p =
      if c = lbrace then pObject cap fuel p
      else if c = lbracket then pArray cap fuel p
      else if c = quote then
        (nodeAlloc cap p).bind fun p => (pString cap p).map fun r => (.str r.1, r.2)
      else if c = 116 then
        (pMatch kwTrue p.rest).bind fun s =>
          (nodeAlloc cap { p with rest := s }).map fun p => (.bool true, p)
      else if c = 102 then
        (pMatch kwFalse p.rest).bind fun s =>
          (nodeAlloc cap { p with rest := s }).map fun p => (.bool false, p)
      else if c = 110 then
        (pMatch kwNull p.rest).bind fun s =>
          (nodeAlloc cap { p with rest := s }).map fun p => (.null, p)
      else if c = minus ∨ isDigit c then
        (pNumber p.rest).bind fun r =>
          (nodeAlloc cap { p with rest := r.2 }).map fun p => (.num r.1, p)
      else none := by
  have hskip : p.skipWs = p := PState.skipWs_self (by rw [h]; exact NoWs.cons hws)
  unfold pValue
  rw [hskip]
  dsimp only
  split
  · rename_i hnil
    rw [h] at hnil
    cases hnil
  · rename_i d r hd
    rw [h] at hd
    rw [(List.cons.inj hd).1]

theorem Num.length_lt (h : Num s n t) : t.length < s.length := by
  obtain ⟨hne, hs, -⟩ := h
  have := length_pos_of_ne_nil hne
  rw [hs, length_append, length_append, length_map]
  omega

theorem number_ne (h : c = minus ∨ isDigit c = true) : c ≠ lbrace ∧ c ≠ lbracket ∧
    c ≠ quote ∧ c ≠ 116 ∧ c ≠ 102 ∧ c ≠ 110 := by
  have hk : kindOf c = some 2 := by
    rcases h with h | h
    · rw [h]
      rfl
    · exact kindOf_digit h
  refine ⟨?_, ?_, ?_, ?_, ?_, ?_⟩ <;> intro hc <;> rw [hc] at hk <;> cases hk

theorem done_num (h : Num s n t) :
    Done cap s (.value (.num n)) t := by
  intro hpass fuel p hfuel hp hroom
  obtain ⟨c, r, hs, hc⟩ := h.head
  have hcn : c = minus ∨ isDigit c = true := by
    split at hc
    · exact .inl hc
    · exact .inr hc
  have hlt := h.length_lt
  rw [hs, length_cons] at hlt
  obtain ⟨n1, n2, n3, n4, n5, n6⟩ := number_ne hcn
  obtain ⟨q, hq, hqt, hqc⟩ := scalar_complete (v := .num (wrap32 n.value)) (hp.trans hs) hroom
    (show t.length ≤ r.length by omega)
  refine ⟨q, ?_, hqt, hqc⟩
  obtain ⟨fuel, rfl⟩ : ∃ f, fuel = f + 1 := ⟨fuel - 1, by omega⟩
  have hws : isWs c = false := by
    have := (Reads.num h).noWs
    rw [hs] at this
    exact this c rfl
  rw [pValue_head (hp.trans hs) hws, if_neg n1, if_neg n2, if_neg n3, if_neg n4, if_neg n5,
    if_neg n6, if_pos hcn, hp, pNumber_iff.2 ⟨n, h, hpass n (mem_singleton_self n), rfl⟩]
  exact hq

theorem done_keyword {r : Bytes} (hkw : kw = c :: r)
    (hhead : ∀ fuel p s, p.rest = c :: s → pValue cap (fuel + 1) p = (pMatch kw p.rest).bind
      fun s => (nodeAlloc cap { p with rest := s }).map fun p => (meaning j, p)) :
    Done cap (kw ++ t) (.value j) t := by
  intro _ fuel p hfuel hp hroom
  have hrest : p.rest = c :: (r ++ t) := by rw [hp, hkw, cons_append]
  obtain ⟨q, hq, hqt, hqc⟩ := scalar_complete (v := meaning j) hrest hroom
    (show t.length ≤ (r ++ t).length by rw [length_append]; omega)
  refine ⟨q, ?_, hqt, hqc⟩
  obtain ⟨fuel, rfl⟩ : ∃ f, fuel = f + 1 := ⟨fuel - 1, by omega⟩
  rw [hhead fuel p _ hrest, pMatch_iff.2 hp]
  exact hq

theorem done_str (h : Body s ps t) :
    Done cap (quote :: s) (.value (.str ps)) t := by
  intro _ fuel p hfuel hp hroom
  obtain ⟨q, hq, hqr, hqu⟩ := nodeAlloc_cost hp hroom
  unfold PState.cost at hroom
  rw [hp, length_cons] at hroom
  obtain ⟨r, hr, hrt, hrc⟩ := pString_complete h (hqr.trans hp)
    (show q.used + 28 * s.length ≤ cap by omega)
  obtain ⟨fuel, rfl⟩ : ∃ f, fuel = f + 1 := ⟨fuel - 1, by omega⟩
  refine ⟨r, ?_, hrt, ?_⟩
  · rw [pValue_head hp rfl, if_neg (by decide), if_neg (by decide), if_pos rfl, hq,
      bind_some, hr]
    rfl
  · unfold PState.cost at *
    rw [hp, length_cons]
    omega

theorem Body.length_lt (h : Body s ps t) : t.length < s.length := by
  induction h with
  | close => exact Nat.lt_succ_self _
  | byte _ _ _ _ ih =>
    rw [length_cons]
    omega
  | escape _ _ ih =>
    rw [length_cons, length_cons]
    omega
  | unicode _ _ _ _ _ ih =>
    simp only [length_cons]
    omega

theorem Ws.length_cons (h : Ws s (c :: t)) : t.length < s.length := by
  have := h.length_le
  rw [List.length_cons] at this
  exact this

theorem Reads.length_lt {x : Phrase} (h : Reads s x t) : t.length < s.length := by
  induction h with
  | null =>
    unfold kwNull
    simp only [cons_append, nil_append, length_cons]
    omega
  | yes =>
    unfold kwTrue
    simp only [cons_append, nil_append, length_cons]
    omega
  | no =>
    unfold kwFalse
    simp only [cons_append, nil_append, length_cons]
    omega
  | num h => exact h.length_lt
  | str h =>
    have := h.length_lt
    rw [length_cons]
    omega
  | emptyArr h =>
    have := h.length_cons
    rw [length_cons]
    omega
  | arr _ ih =>
    rw [length_cons]
    omega
  | emptyObj h =>
    have := h.length_cons
    rw [length_cons]
    omega
  | obj _ ih =>
    rw [length_cons]
    omega
  | lastItem h1 _ h3 ih =>
    have := h1.length_le
    have := h3.length_cons
    omega
  | item h1 _ h3 _ ih ih' =>
    have := h1.length_le
    have := h3.length_cons
    omega
  | lastMember h1 h2 h3 h4 _ h6 ih =>
    have := h1.length_cons
    have := h2.length_lt
    have := h3.length_cons
    have := h4.length_le
    have := h6.length_cons
    omega
  | member h1 h2 h3 h4 _ h6 _ ih ih' =>
    have := h1.length_cons
    have := h2.length_lt
    have := h3.length_cons
    have := h4.length_le
    have := h6.length_cons
    omega

theorem open_complete (h : p.rest = c :: s)
    (hroom : p.cost ≤ cap) :
    ∃ p1 p2, pExpect c p = some p1 ∧ nodeAlloc cap p1 = some p2 ∧ p2.rest = s ∧
      p2.cost ≤ p.cost := by
  have hexp : pExpect c p = some { p with rest := s } := pExpect_eq.2 ⟨h, rfl⟩
  unfold PState.cost at hroom
  rw [h, length_cons] at hroom
  obtain ⟨p2, hp2, hr, hu⟩ := nodeAlloc_room (p := { p with rest := s })
    (show p.used + 27 ≤ cap by omega)
  refine ⟨_, p2, hexp, hp2, hr, ?_⟩
  unfold PState.cost
  rw [hr, h, length_cons]
  dsimp only at hu ⊢
  omega

theorem sep_complete (h : Ws p.rest (c :: t))
    (hc : isWs c = false) : ∃ q, pExpect c p.skipWs = some q ∧ q.rest = t ∧ q.cost ≤ p.cost := by
  have hr := p.skipWs_rest h (NoWs.cons hc)
  have hcost := p.skipWs_cost
  refine ⟨⟨t, p.skipWs.used⟩, pExpect_eq.2 ⟨hr, rfl⟩, rfl, ?_⟩
  unfold PState.cost at *
  rw [hr, length_cons] at hcost
  dsimp only
  omega

theorem sep_none (h : Ws p.rest (d :: t))
    (hd : isWs d = false) (hne : d ≠ c) : pExpect c p.skipWs = none :=
  pExpect_none (p.skipWs_rest h (NoWs.cons hd)) hne

theorem done_emptyArr (h : Ws s (rbracket :: t)) :
    Done cap (lbracket :: s) (.value (.arr [])) t := by
  intro _ fuel p hfuel hp hroom
  obtain ⟨p1, p2, hp1, hp2, hr, hcost⟩ := open_complete hp hroom
  rw [← hr] at h
  obtain ⟨q, hq, hqt, hqc⟩ := sep_complete h rfl
  obtain ⟨fuel, rfl⟩ : ∃ f, fuel = f + 2 := ⟨fuel - 2, by rw [length_cons] at hfuel; omega⟩
  refine ⟨q, ?_, hqt, hqc.trans hcost⟩
  rw [pValue_head hp rfl, if_neg (by decide), if_pos rfl]
  unfold pArray
  rw [hp1, bind_some, hp2, bind_some, hq]
  rfl

theorem done_emptyObj (h : Ws s (rbrace :: t)) :
    Done cap (lbrace :: s) (.value (.obj [])) t := by
  intro _ fuel p hfuel hp hroom
  obtain ⟨p1, p2, hp1, hp2, hr, hcost⟩ := open_complete hp hroom
  rw [← hr] at h
  obtain ⟨q, hq, hqt, hqc⟩ := sep_complete h rfl
  obtain ⟨fuel, rfl⟩ : ∃ f, fuel = f + 2 := ⟨fuel - 2, by rw [length_cons] at hfuel; omega⟩
  refine ⟨q, ?_, hqt, hqc.trans hcost⟩
  rw [pValue_head hp rfl, if_pos rfl]
  unfold pObject
  rw [hp1, bind_some, hp2, bind_some, hq]
  rfl

theorem done_arr {vs : List Raw} (h : Reads s (.items vs) t)
    (ih : Done cap s (.items vs) t) : Done cap (lbracket :: s) (.value (.arr vs)) t := by
  intro hpass fuel p hfuel hp hroom
  obtain ⟨p1, p2, hp1, hp2, hr, hcost⟩ := open_complete hp hroom
  rw [length_cons] at hfuel
  obtain ⟨fuel, rfl⟩ : ∃ f, fuel = f + 2 := ⟨fuel - 2, by omega⟩
  obtain ⟨s1, s2, v, ws, -, h1, h2, -⟩ := h.inv_items
  obtain ⟨c, r, hs1, hk⟩ := h2.value_head
  have hnone : pExpect rbracket p2.skipWs = none := by
    rw [← hr, hs1] at h1
    refine sep_none h1 ?_ ?_
    · have := h2.noWs
      rw [hs1] at this
      exact this c rfl
    · intro hc
      rw [hc] at hk
      cases hk
  obtain ⟨q, hq, hqt, hqc⟩ := ih hpass fuel p2.skipWs (by omega) (hr ▸ p2.skipWs_spec)
    ((p2.skipWs_cost.trans hcost).trans hroom)
  refine ⟨q, ?_, hqt, (hqc.trans p2.skipWs_cost).trans hcost⟩
  rw [pValue_head hp rfl, if_neg (by decide), if_pos rfl]
  unfold pArray
  rw [hp1, bind_some, hp2, bind_some, hnone]
  rw [hq]
  rfl

theorem done_obj {ms : List (List Piece × Raw)}
    (h : Reads s (.members ms) t) (ih : Done cap s (.members ms) t) :
    Done cap (lbrace :: s) (.value (.obj ms)) t := by
  intro hpass fuel p hfuel hp hroom
  obtain ⟨p1, p2, hp1, hp2, hr, hcost⟩ := open_complete hp hroom
  rw [length_cons] at hfuel
  obtain ⟨fuel, rfl⟩ : ∃ f, fuel = f + 2 := ⟨fuel - 2, by omega⟩
  obtain ⟨s1, -, -, -, -, -, -, -, -, h1, -⟩ := h.inv_members
  have hnone : pExpect rbrace p2.skipWs = none := by
    rw [← hr] at h1
    exact sep_none h1 rfl (by decide)
  obtain ⟨q, hq, hqt, hqc⟩ := ih hpass fuel p2.skipWs (by omega) (hr ▸ p2.skipWs_spec)
    ((p2.skipWs_cost.trans hcost).trans hroom)
  refine ⟨q, ?_, hqt, (hqc.trans p2.skipWs_cost).trans hcost⟩
  rw [pValue_head hp rfl, if_pos rfl]
  unfold pObject
  rw [hp1, bind_some, hp2, bind_some, hnone]
  rw [hq]
  rfl

theorem item_complete {v : Raw} (h1 : Ws s s1)
    (h2 : Reads s1 (.value v) s2) (ih : Done cap s1 (.value v) s2)
    (hpass : ∀ n ∈ v.numbers, n.Passes) (fuel : Nat) (hfuel : 3 * s.length + 1 ≤ fuel)
    (hp : Ws s p.rest) (hroom : p.cost ≤ cap) :
    ∃ r, pValue cap fuel p.skipWs = some (meaning v, r) ∧ r.rest = s2 ∧ r.cost ≤ p.cost := by
  have hrest : p.skipWs.rest = s1 :=
    (hp.trans p.skipWs_spec).unique h1 (pSkipWs_spec p.rest).2 h2.noWs
  have := h1.length_le
  obtain ⟨r, hr, hrt, hrc⟩ := ih hpass fuel p.skipWs (by omega) hrest (p.skipWs_cost.trans hroom)
  exact ⟨r, hr, hrt, hrc.trans p.skipWs_cost⟩

theorem done_lastItem {v : Raw} (h1 : Ws s s1)
    (h2 : Reads s1 (.value v) s2) (h3 : Ws s2 (rbracket :: t)) (ih : Done cap s1 (.value v) s2) :
    Done cap s (.items [v]) t := by
  intro hpass fuel p hfuel hp hroom
  obtain ⟨fuel, rfl⟩ : ∃ f, fuel = f + 1 := ⟨fuel - 1, by omega⟩
  obtain ⟨r, hr, hrt, hrc⟩ := item_complete h1 h2 ih
    (fun n hn => hpass n (mem_append_left _ hn)) fuel (by omega) hp hroom
  rw [← hrt] at h3
  obtain ⟨q, hq, hqt, hqc⟩ := sep_complete h3 rfl
  refine ⟨q, ?_, hqt, hqc.trans hrc⟩
  unfold pItems
  rw [hr, bind_some]
  rw [sep_none h3 rfl (by decide), hq]
  rfl

theorem done_item {v : Raw} {vs : List Raw} (h1 : Ws s s1)
    (h2 : Reads s1 (.value v) s2) (h3 : Ws s2 (comma :: s3)) (ih : Done cap s1 (.value v) s2)
    (ih' : Done cap s3 (.items vs) t) : Done cap s (.items (v :: vs)) t := by
  intro hpass fuel p hfuel hp hroom
  obtain ⟨fuel, rfl⟩ : ∃ f, fuel = f + 1 := ⟨fuel - 1, by omega⟩
  obtain ⟨r, hr, hrt, hrc⟩ := item_complete h1 h2 ih
    (fun n hn => hpass n (mem_append_left _ hn)) fuel (by omega) hp hroom
  have hlen1 := h1.length_le
  have hlen2 := h2.length_lt
  have hlen3 := h3.length_cons
  rw [← hrt] at h3
  obtain ⟨p1, hp1, hpt, hpc⟩ := sep_complete h3 rfl
  obtain ⟨q, hq, hqt, hqc⟩ := ih' (fun n hn => hpass n (mem_append_right _ hn)) fuel p1
    (by omega) (hpt ▸ .nil) ((hpc.trans hrc).trans hroom)
  refine ⟨q, ?_, hqt, (hqc.trans hpc).trans hrc⟩
  unfold pItems
  rw [hr, bind_some]
  rw [hp1]
  dsimp only
  rw [hq]
  rfl

section
variable (h1 : Ws s (quote :: s1)) (h2 : Body s1 k s2) (h3 : Ws s2 (colon :: s3)) (h4 : Ws s3 s4)
include h1 h2 h3 h4

theorem member_complete {v : Raw} (h5 : Reads s4 (.value v) s5) (ih : Done cap s4 (.value v) s5)
    (hpass : ∀ n ∈ v.numbers, n.Passes) (fuel : Nat) (hfuel : 3 * s.length + 1 ≤ fuel)
    (hp : Ws s p.rest) (hroom : p.cost ≤ cap) :
    p.skipWs.rest.head? = some quote ∧ ∃ p1 p2 p3 r, nodeAlloc cap p.skipWs = some p1 ∧
      pString cap p1 = some (strBytes k, p2) ∧ pExpect colon p2.skipWs = some p3 ∧
      pValue cap fuel p3.skipWs = some (meaning v, r) ∧ r.rest = s5 ∧ r.cost ≤ p.cost := by
  have hrest : p.skipWs.rest = quote :: s1 :=
    (hp.trans p.skipWs_spec).unique h1 (pSkipWs_spec p.rest).2 (NoWs.cons rfl)
  have hcost := p.skipWs_cost
  have hlen1 := h1.length_cons
  have hlen2 := h2.length_lt
  have hlen3 := h3.length_cons
  obtain ⟨p1, hp1, hr1, hu1⟩ := nodeAlloc_cost hrest (hcost.trans hroom)
  have hcost1 : p1.used + 28 * s1.length ≤ p.cost := by
    refine le_trans ?_ hcost
    unfold PState.cost
    rw [hrest, length_cons]
    omega
  obtain ⟨p2, hp2, hr2, hc2⟩ := pString_complete h2 (hr1.trans hrest) (hcost1.trans hroom)
  rw [← hr2] at h3
  obtain ⟨p3, hp3, hr3, hc3⟩ := sep_complete h3 rfl
  have hc := hc3.trans (hc2.trans hcost1)
  rw [← hr3] at h4
  obtain ⟨r, hr, hrt, hrc⟩ := item_complete h4 h5 ih hpass fuel (by rw [hr3]; omega) .nil
    (hc.trans hroom)
  exact ⟨by rw [hrest]; rfl, p1, p2, p3, r, hp1, hp2, hp3, hr, hrt, hrc.trans hc⟩

theorem done_lastMember {v : Raw} (h5 : Reads s4 (.value v) s5) (h6 : Ws s5 (rbrace :: t))
    (ih : Done cap s4 (.value v) s5) : Done cap s (.members [(k, v)]) t := by
  intro hpass fuel p hfuel hp hroom
  obtain ⟨fuel, rfl⟩ : ∃ f, fuel = f + 1 := ⟨fuel - 1, by omega⟩
  obtain ⟨hquote, p1, p2, p3, r, hp1, hp2, hp3, hr, hrt, hrc⟩ := member_complete h1 h2 h3 h4 h5 ih
    (fun n hn => hpass n (mem_append_left _ hn)) fuel (by omega) hp hroom
  rw [← hrt] at h6
  obtain ⟨q, hq, hqt, hqc⟩ := sep_complete h6 rfl
  refine ⟨q, ?_, hqt, hqc.trans hrc⟩
  unfold pMembers
  rw [if_neg (not_not.2 hquote), hp1, bind_some, hp2, bind_some]
  rw [hp3, bind_some, hr, bind_some]
  rw [sep_none h6 rfl (by decide), hq]
  rfl

theorem done_member {s6 : Bytes} {v : Raw} {ms : List (List Piece × Raw)}
    (h5 : Reads s4 (.value v) s5) (h6 : Ws s5 (comma :: s6)) (ih : Done cap s4 (.value v) s5)
    (ih' : Done cap s6 (.members ms) t) : Done cap s (.members ((k, v) :: ms)) t := by
  intro hpass fuel p hfuel hp hroom
  obtain ⟨fuel, rfl⟩ : ∃ f, fuel = f + 1 := ⟨fuel - 1, by omega⟩
  obtain ⟨hquote, p1, p2, p3, r, hp1, hp2, hp3, hr, hrt, hrc⟩ := member_complete h1 h2 h3 h4 h5 ih
    (fun n hn => hpass n (mem_append_left _ hn)) fuel (by omega) hp hroom
  have hlen1 := h1.length_cons
  have hlen2 := h2.length_lt
  have hlen3 := h3.length_cons
  have hlen4 := h4.length_le
  have hlen5 := h5.length_lt
  have hlen6 := h6.length_cons
  rw [← hrt] at h6
  obtain ⟨p4, hp4, hpt, hpc⟩ := sep_complete h6 rfl
  obtain ⟨q, hq, hqt, hqc⟩ := ih' (fun n hn => hpass n (mem_append_right _ hn)) fuel p4
    (by omega) (hpt ▸ .nil) ((hpc.trans hrc).trans hroom)
  refine ⟨q, ?_, hqt, (hqc.trans hpc).trans hrc⟩
  unfold pMembers
  rw [if_neg (not_not.2 hquote), hp1, bind_some, hp2, bind_some]
  rw [hp3, bind_some, hr, bind_some]
  rw [hp4]
  dsimp only
  rw [hq]
  rfl

end
theorem Reads.done {x : Phrase} (h : Reads s x t) : Done cap s x t := by
  induction h with
  | null =>
    refine done_keyword rfl fun fuel p s hp => ?_
    rw [pValue_head hp rfl, if_neg (by decide), if_neg (by decide), if_neg (by decide),
      if_neg (by decide), if_neg (by decide), if_pos rfl]
    rfl
  | yes =>
    refine done_keyword rfl fun fuel p s hp => ?_
    rw [pValue_head hp rfl, if_neg (by decide), if_neg (by decide), if_neg (by decide), if_pos rfl]
    rfl
  | no =>
    refine done_keyword rfl fun fuel p s hp => ?_
    rw [pValue_head hp rfl, if_neg (by decide), if_neg (by decide), if_neg (by decide),
      if_neg (by decide), if_pos rfl]
    rfl
  | num h => exact done_num h
  | str h => exact done_str h
  | emptyArr h => exact done_emptyArr h
  | arr h ih => exact done_arr h ih
  | emptyObj h => exact done_emptyObj h
  | obj h ih => exact done_obj h ih
  | lastItem h1 h2 h3 ih => exact done_lastItem h1 h2 h3 ih
  | item h1 h2 h3 _ ih ih' => exact done_item h1 h2 h3 ih ih'
  | lastMember h1 h2 h3 h4 h5 h6 ih => exact done_lastMember h1 h2 h3 h4 h5 h6 ih
  | member h1 h2 h3 h4 h5 h6 _ ih ih' => exact done_member h1 h2 h3 h4 h5 h6 ih ih'

/-- Enough scratch for a text of this length. -/
def scratchFor (n : Nat) : Nat := 28 * n + nodeSize

theorem jsonParse_complete (hcap : scratchFor src.length ≤ cap)
    (h : Text src j) (hpass : ∀ n ∈ j.numbers, n.Passes) :
    jsonParse src cap = some (meaning j) := by
  obtain ⟨s1, s2, h1, h2, h3⟩ := h
  unfold scratchFor at hcap
  have hroom : (PState.mk src 0).cost ≤ cap := by
    unfold PState.cost
    dsimp only
    omega
  obtain ⟨r, hr, hrt, -⟩ := item_complete (p := PState.mk src 0) h1 h2 h2.done hpass
    (3 * src.length + 1) (Nat.le_refl _) .nil hroom
  have hend : r.skipWs.rest = [] := by
    refine r.skipWs_rest (hrt ▸ h3) fun c hc => nomatch hc
  unfold jsonParse
  rw [if_neg (by omega), hr, bind_some]
  exact if_pos hend

/-- **What the parser accepts**, with enough scratch: the texts whose numbers pass the
overflow guard; and what it returns. -/
theorem jsonParse_iff (hcap : scratchFor src.length ≤ cap) :
    jsonParse src cap = some v ↔
      ∃ j, Text src j ∧ (∀ n ∈ j.numbers, n.Passes) ∧ v = meaning j := by
  constructor
  · exact jsonParse_sound
  · intro ⟨j, hj, hpass, hv⟩
    rw [hv]
    exact jsonParse_complete hcap hj hpass

/-! ## The RFC -/

theorem wrap32_of_range (h1 : -2 ^ 31 ≤ x) (h2 : x < 2 ^ 31) : wrap32 x = x := by
  exact Int.bmod_eq_of_le (by omega) (by omega)

theorem ofDigits_prefix {p : List (Fin 10)} (h : p <+: ds) (hne : p ≠ ds) :
    ofDigits p * 10 ≤ ofDigits ds := by
  obtain ⟨q, rfl⟩ := h
  have hgrow : ∀ (q : List (Fin 10)) (m : Nat), m ≤ q.foldl (fun n d => n * 10 + d.val) m := by
    intro q
    induction q with
    | nil => exact fun m => Nat.le_refl m
    | cons d q ih =>
      intro m
      have := ih (m * 10 + d.val)
      rw [foldl_cons]
      omega
  cases q with
  | nil => exact absurd (append_nil p).symm hne
  | cons d q =>
    unfold ofDigits
    rw [foldl_append, foldl_cons]
    have := hgrow q (p.foldl (fun n d => n * 10 + d.val) 0 * 10 + d.val)
    omega

theorem InRange.passes (h : InRange n) : n.Passes := by
  intro p hp hne
  have hten := ofDigits_prefix hp hne
  obtain ⟨h1, h2⟩ := h
  unfold Number.value at h1 h2
  have hle : ofDigits n.digits ≤ 2147483648 := by
    split at h1 <;> rename_i hneg
    · omega
    · rw [if_neg hneg] at h2
      omega
  rw [wrap32_of_range (by omega) (by omega)]
  omega

/-- What the RFC asks of the parser: it accepts the RFC's texts of 32-bit integers and no
others, and each number it returns is the one the text denotes. -/
def ReadsRfc (src : Bytes) (cap : Nat) : Prop :=
  ∀ v, jsonParse src cap = some v ↔
    ∃ j, Rfc src j ∧ (∀ n ∈ j.numbers, InRange n) ∧ v = j.map Number.value strBytes

theorem meaning_of_range (h : ∀ n ∈ j.numbers, InRange n) :
    meaning j = j.map Number.value strBytes :=
  j.map_congr fun n hn => wrap32_of_range (h n hn).1 (h n hn).2

/-- With enough scratch the parser reads the RFC exactly on the inputs that
are not a text with a superfluous leading zero, with a number outside the 32-bit range
that passes the overflow guard, or with bytes that are not UTF-8. -/
theorem accepts_rfc_iff (hcap : scratchFor src.length ≤ cap) :
    ReadsRfc src cap ↔ ∀ j, Text src j → (∀ n ∈ j.numbers, n.Passes) →
      Utf8 src ∧ ∀ n ∈ j.numbers, n.Canonical ∧ InRange n := by
  constructor
  · intro h j hj hpass
    obtain ⟨j', ⟨hutf, hj', hcanon⟩, hrange, -⟩ := (h _).1 (jsonParse_complete hcap hj hpass)
    obtain rfl := hj.unique hj'
    exact ⟨hutf, fun n hn => ⟨hcanon n hn, hrange n hn⟩⟩
  · intro h v
    rw [jsonParse_iff hcap]
    constructor
    · intro ⟨j, hj, hpass, hv⟩
      obtain ⟨hutf, hgood⟩ := h j hj hpass
      refine ⟨j, ⟨hutf, hj, fun n hn => (hgood n hn).1⟩, fun n hn => (hgood n hn).2, ?_⟩
      rw [hv, meaning_of_range fun n hn => (hgood n hn).2]
    · intro ⟨j, ⟨_, hj, _⟩, hrange, hv⟩
      exact ⟨j, hj, fun n hn => (hrange n hn).passes, by rw [hv, meaning_of_range hrange]⟩

theorem text_digits (ds : List (Fin 10)) (h : ds ≠ []) :
    Text (ds.map digitByte) (.num ⟨false, ds⟩) :=
  ⟨_, [], .nil, .num ⟨h, (append_nil _).symm, fun _ hc => nomatch hc⟩, .nil⟩

/-- The text `7`. -/
theorem accepts_rfc_iff_seven : ReadsRfc [55] (scratchFor 1) := by
  refine (accepts_rfc_iff (Nat.le_refl (scratchFor 1))).2 fun j hj _ => ?_
  obtain rfl := (text_digits [7] (by decide)).unique hj
  refine ⟨⟨['7'], rfl⟩, fun n hn => ?_⟩
  obtain rfl : n = ⟨false, [7]⟩ := mem_singleton.1 hn
  refine ⟨fun h => absurd h (by decide), ?_, ?_⟩ <;> decide

/-- `01` is read as 1. -/
theorem leading_zero_accepted :
    ¬∀ (src : Bytes) (cap : Nat), scratchFor src.length ≤ cap → ReadsRfc src cap := by
  intro h
  have hparse : jsonParse [48, 49] (scratchFor 2) = some (.num 1) := rfl
  obtain ⟨j, ⟨-, hj, hcanon⟩, -⟩ := (h [48, 49] (scratchFor 2) (Nat.le_refl _) _).1 hparse
  obtain rfl := (text_digits [0, 1] (by decide)).unique hj
  exact absurd (hcanon ⟨false, [0, 1]⟩ mem_cons_self rfl) (by decide)

end AdventOS.Json
