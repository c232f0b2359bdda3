import AdventOS.Json.Fitting

/-!
# What a text says

The reading of a text by the grammar alone: numbers of any size, the bytes of strings as they
stand, an escape as the UTF-8 form of its code unit. `meaning` is what the parser of libjson makes
of it: it wraps numbers to 32 bits, takes each byte of a string for a character, and replaces
surrogates.

* `strBytes_plain`, `key_iff`: the strings and keys that the parser reads as they are.
* `plain_pieces`: what the writer writes of a string says that string.
* `render_printable`: a rendered tree has no byte below 32.
* `render_length`: how long a rendered tree can be, whatever its numbers and escapes.
-/
namespace AdventOS.Json
open List Option

/-- The code unit of `\\uXXXX`. -/
def codeUnit (a b c d : UInt8) : Nat :=
  if (unicodeOf a b c d).isSome then
    (hexDigit a).getD 0 * 4096 + (hexDigit b).getD 0 * 256 + (hexDigit c).getD 0 * 16 +
      (hexDigit d).getD 0
  else 0

def Surrogate (n : Nat) : Prop := 0xD800 ≤ n ∧ n ≤ 0xDFFF

instance (n : Nat) : Decidable (Surrogate n) := inferInstanceAs (Decidable (_ ∧ _))

/-- The bytes that a piece stands for. -/
def Piece.bytes : Piece → Bytes
  | .byte c => [c]
  | .escape c => utf8Bytes ((escapeOf c).getD 0)
  | .unicode a b c d => utf8Bytes (codeUnit a b c d)

def plain (ps : List Piece) : Bytes := ps.flatMap Piece.bytes

def exact (j : Raw) : Value := j.map Number.value plain

/-- A piece that the parser reads as it is: no byte of a longer character, and no surrogate. -/
def Piece.Simple (p : Piece) : Prop := utf8Bytes p.codePoint = p.bytes

instance (p : Piece) : Decidable p.Simple := inferInstanceAs (Decidable (_ = _))

theorem strBytes_plain {ps : List Piece} (h : ∀ p ∈ ps, p.Simple) : strBytes ps = plain ps := by
  induction ps with
  | nil => rfl
  | cons p ps ih =>
    unfold plain at *
    rw [strBytes_cons, h p mem_cons_self, ih fun q hq => h q (mem_cons_of_mem _ hq), flatMap_cons]

theorem unicode_codePoint (a b c d : UInt8) : (Piece.unicode a b c d).codePoint =
      if Surrogate (codeUnit a b c d) then 0xFFFD else codeUnit a b c d := by
  show (unicodeOf a b c d).getD 0 = _
  by_cases h : (unicodeOf a b c d).isSome = true
  · have hunit : codeUnit a b c d = (hexDigit a).getD 0 * 4096 + (hexDigit b).getD 0 * 256 +
        (hexDigit c).getD 0 * 16 + (hexDigit d).getD 0 := if_pos h
    obtain ⟨ha, hb, hc, hd⟩ := unicodeOf_isSome.mp h
    obtain ⟨w, ha⟩ := isSome_iff_exists.mp ha
    obtain ⟨x, hb⟩ := isSome_iff_exists.mp hb
    obtain ⟨y, hc⟩ := isSome_iff_exists.mp hc
    obtain ⟨z, hd⟩ := isSome_iff_exists.mp hd
    rw [hunit, ha, hb, hc, hd]
    unfold unicodeOf
    rw [ha, hb, hc, hd]
    rfl
  · have hunit : codeUnit a b c d = 0 := if_neg h
    rw [hunit, not_isSome_iff_eq_none.mp h]
    rfl

variable {c : UInt8} {s : Bytes}

theorem hexDigit_lt : (hexDigit c).getD 0 < 16 := by
  have h := c.toNat_lt
  unfold hexDigit
  split
  · rename_i hc
    have := UInt8.le_iff_toNat_le.mp hc.2
    show c.toNat - 48 < 16
    have : (57 : UInt8).toNat = 57 := rfl
    omega
  · split
    · rename_i hc
      have := UInt8.le_iff_toNat_le.mp hc.2
      show c.toNat - 87 < 16
      have : (102 : UInt8).toNat = 102 := rfl
      omega
    · split
      · rename_i hc
        have := UInt8.le_iff_toNat_le.mp hc.2
        show c.toNat - 55 < 16
        have : (70 : UInt8).toNat = 70 := rfl
        omega
      · show 0 < 16
        decide

theorem codeUnit_lt (a b c d : UInt8) : codeUnit a b c d < 65536 := by
  unfold codeUnit
  split
  · have ha := @hexDigit_lt a
    have hb := @hexDigit_lt b
    have hc := @hexDigit_lt c
    have hd := @hexDigit_lt d
    omega
  · decide

theorem lt_of_ascii {n : Nat} (hn : n < 65536) (h : Ascii (utf8Bytes n)) : n < 128 := by
  by_contra hge
  unfold utf8Bytes at h
  rw [if_neg (by omega)] at h
  split at h
  · have hfirst := h _ mem_cons_self
    rw [UInt8.toNat_ofNat'] at hfirst
    omega
  · have hfirst := h _ mem_cons_self
    rw [UInt8.toNat_ofNat'] at hfirst
    omega

theorem Piece.simple_of_ascii {p : Piece} (h : Ascii (utf8Bytes p.codePoint) ∨ Ascii p.bytes) :
    p.Simple := by
  cases p with
  | byte c =>
    refine utf8Bytes_ascii ?_
    rcases h with h | h
    · exact lt_of_ascii (c.toNat_lt.trans (by decide)) h
    · exact h c mem_cons_self
  | escape c => rfl
  | unicode a b c d =>
    unfold Piece.Simple
    rw [unicode_codePoint] at *
    by_cases hs : Surrogate (codeUnit a b c d)
    · exfalso
      rcases h with h | h
      · rw [if_pos hs] at h
        exact absurd (lt_of_ascii (by decide) h) (by decide)
      · have hlt := lt_of_ascii (codeUnit_lt a b c d) h
        unfold Surrogate at hs
        omega
    · rw [if_neg hs]
      rfl

theorem Ascii.mono {t : Bytes} (h : Ascii t) (hs : ∀ c ∈ s, c ∈ t) : Ascii s :=
  fun c hc => h c (hs c hc)

theorem key_iff {ps : List Piece} {key : Bytes} (hk : Ascii key) :
    strBytes ps = key ↔ plain ps = key := by
  constructor
  · intro h
    rw [← h, strBytes_plain]
    intro p hp
    refine Piece.simple_of_ascii (.inl ((h ▸ hk : Ascii (strBytes ps)).mono fun c hc => ?_))
    exact mem_flatMap.mpr ⟨p, hp, hc⟩
  · intro h
    rw [← h, strBytes_plain]
    intro p hp
    refine Piece.simple_of_ascii (.inr ((h ▸ hk : Ascii (plain ps)).mono fun c hc => ?_))
    exact mem_flatMap.mpr ⟨p, hp, hc⟩

/-! ## What is written -/

theorem pieceOf_high (h : ¬c.toNat < 128) : pieceOf c = .byte c := by
  have hne : ∀ d : UInt8, d.toNat < 128 → ¬c = d := by
    rintro d hd rfl
    exact h hd
  have hlow : ¬c < 32 := by
    intro hlt
    have h32 : c.toNat < 32 := UInt8.lt_iff_toNat_lt.mp hlt
    omega
  unfold pieceOf
  rw [if_neg (hne _ (by decide)), if_neg (hne _ (by decide)), if_neg (hne _ (by decide)),
    if_neg (hne _ (by decide)), if_neg (hne _ (by decide)), if_neg (hne _ (by decide)),
    if_neg (hne _ (by decide)), if_neg hlow]

theorem pieceOf_bytes (c : UInt8) : (pieceOf c).bytes = [c] := by
  by_cases h : c.toNat < 128
  · have hsimple : (pieceOf c).Simple := by
      refine Piece.simple_of_ascii (.inl ?_)
      rw [pieceOf_codePoint, utf8Bytes_ascii h]
      exact fun d hd => mem_singleton.mp hd ▸ h
    rw [← hsimple, pieceOf_codePoint, utf8Bytes_ascii h]
  · rw [pieceOf_high h]
    rfl

theorem plain_pieces (s : Bytes) : plain (s.map pieceOf) = s := by
  unfold plain
  rw [flatMap_map]
  simp [pieceOf_bytes]

/-- No byte of a line feed or another control character. -/
def Printable (s : Bytes) : Prop := ∀ c ∈ s, 32 ≤ c.toNat

theorem Printable.append {t : Bytes} (hs : Printable s) (ht : Printable t) : Printable (s ++ t) :=
  fun c hc => (mem_append.mp hc).elim (hs c) (ht c)

theorem Printable.cons (hc : 32 ≤ c.toNat) (hs : Printable s) : Printable (c :: s) :=
  forall_mem_cons.mpr ⟨hc, hs⟩

theorem Printable.nil : Printable [] := forall_mem_nil _

theorem Printable.notMem (h : Printable s) (hc : c.toNat < 32) : c ∉ s :=
  fun hm => absurd (h c hm) (by omega)

theorem hexByte_printable {n : Nat} (h : n < 16) : 32 ≤ (hexByte n).toNat := by
  unfold hexByte
  split
  · rw [UInt8.toNat_ofNat']
    omega
  · rw [UInt8.toNat_ofNat']
    omega

theorem escaped_printable (c : UInt8) : Printable (escaped c) := by
  have hlt := c.toNat_lt
  unfold escaped
  split
  · exact .cons (by decide) (.cons (by decide) .nil)
  · split
    · exact .cons (by decide) (.cons (by decide) .nil)
    · split
      · exact .cons (by decide) (.cons (by decide) .nil)
      · split
        · exact .cons (by decide) (.cons (by decide) .nil)
        · split
          · exact .cons (by decide) (.cons (by decide) .nil)
          · split
            · exact .cons (by decide) (.cons (by decide) .nil)
            · split
              · exact .cons (by decide) (.cons (by decide) .nil)
              · split
                · exact .cons (by decide) (.cons (by decide) (.cons (by decide) (.cons (by decide)
                    (.cons (hexByte_printable (by omega)) (.cons (hexByte_printable (by omega))
                      .nil)))))
                · rename_i hge
                  refine .cons ?_ .nil
                  have := UInt8.le_iff_toNat_le.mp (UInt8.not_lt.mp hge)
                  exact this

theorem renderStr_printable (s : Bytes) : Printable (renderStr s) := by
  refine .cons (by decide) (.append (fun c hc => ?_) (.cons (by decide) .nil))
  obtain ⟨d, -, hd⟩ := mem_flatMap.mp hc
  exact escaped_printable d c hd

theorem renderInt_printable (n : Int) : Printable (renderInt n) := by
  refine .append ?_ fun c hc => ?_
  · split
    · exact .cons (by decide) .nil
    · exact .nil
  · obtain ⟨d, -, rfl⟩ := mem_map.mp hc
    rw [digitByte_toNat]
    omega

theorem sep_printable (first : Bool) : Printable (sep first) := by
  cases first
  · exact .cons (by decide) .nil
  · exact .nil

mutual
theorem render_printable : (j : Value) → Printable (render j)
  | .null => .cons (by decide) (.cons (by decide) (.cons (by decide) (.cons (by decide) .nil)))
  | .bool true => .cons (by decide) (.cons (by decide) (.cons (by decide) (.cons (by decide) .nil)))
  | .bool false => .cons (by decide) (.cons (by decide) (.cons (by decide) (.cons (by decide)
      (.cons (by decide) .nil))))
  | .num n => renderInt_printable n
  | .str s => renderStr_printable s
  | .arr l => .cons (by decide) ((renderItems_printable true l).append (.cons (by decide) .nil))
  | .obj l => .cons (by decide) ((renderMembers_printable true l).append (.cons (by decide) .nil))

theorem renderItems_printable : (first : Bool) → (l : List Value) → Printable (renderItems first l)
  | _, [] => .nil
  | first, v :: vs =>
    (sep_printable first).append ((render_printable v).append (renderItems_printable false vs))

theorem renderMembers_printable : (first : Bool) → (l : List (Bytes × Value)) →
    Printable (renderMembers first l)
  | _, [] => .nil
  | first, (k, v) :: ms =>
    (sep_printable first).append ((renderStr_printable (cString k)).append
      (.cons (by decide) ((render_printable v).append (renderMembers_printable false ms))))
end

/-! ## How long a text gets -/

mutual
/-- A number has up to 11 characters, a byte of a string up to six. -/
def weight : Value → Nat
  | .null => 4
  | .bool _ => 5
  | .num _ => 11
  | .str s => 6 * s.length + 2
  | .arr l => itemsWeight l + 2
  | .obj l => membersWeight l + 2

def itemsWeight : List Value → Nat
  | [] => 0
  | v :: vs => weight v + itemsWeight vs + 1

def membersWeight : List (Bytes × Value) → Nat
  | [] => 0
  | (k, v) :: ms => 6 * k.length + weight v + membersWeight ms + 4
end

theorem decLoop_length (fuel u : Nat) : (decLoop fuel u).length ≤ fuel := by
  induction fuel generalizing u with
  | zero => exact le_refl 0
  | succ fuel ih =>
    unfold decLoop
    split
    · exact Nat.zero_le _
    · rw [length_append, length_singleton]
      exact Nat.add_le_add_right (ih _) 1

theorem renderInt_length (n : Int) : (renderInt n).length ≤ 11 := by
  have hdec : (decDigits n.natAbs).length ≤ 10 := by
    unfold decDigits
    split
    · exact Nat.le_of_ble_eq_true rfl
    · exact decLoop_length _ _
  unfold renderInt
  rw [length_append, length_map]
  split
  · rw [length_singleton]
    omega
  · rw [length_nil]
    omega

theorem escaped_length (c : UInt8) : (escaped c).length ≤ 6 := by
  unfold escaped
  repeat' split
  all_goals exact Nat.le_of_ble_eq_true rfl

theorem renderStr_length (s : Bytes) : (renderStr s).length ≤ 6 * s.length + 2 := by
  have hbody : (s.flatMap escaped).length ≤ 6 * s.length := by
    induction s with
    | nil => exact le_refl 0
    | cons c s ih =>
      have := escaped_length c
      rw [flatMap_cons, length_append, length_cons]
      omega
  unfold renderStr
  rw [length_cons, length_append, length_singleton]
  omega

theorem sep_length (first : Bool) : (sep first).length ≤ 1 := by cases first <;> decide

theorem cString_length (s : Bytes) : (cString s).length ≤ s.length := ( takeWhile_prefix _).length_le

mutual
theorem render_length : (j : Value) → (render j).length ≤ weight j
  | .null => Nat.le_refl 4
  | .bool true => Nat.le_succ 4
  | .bool false => Nat.le_refl 5
  | .num n => renderInt_length n
  | .str s => renderStr_length s
  | .arr l => by
    have h := renderItems_length true l
    rw [render, weight, length_cons, length_append, length_singleton]
    omega
  | .obj l => by
    have h := renderMembers_length true l
    rw [render, weight, length_cons, length_append, length_singleton]
    omega

theorem renderItems_length : (first : Bool) → (l : List Value) →
    (renderItems first l).length ≤ itemsWeight l
  | _, [] => Nat.le_refl 0
  | first, v :: vs => by
    have h1 := sep_length first
    have h2 := render_length v
    have h3 := renderItems_length false vs
    rw [renderItems, itemsWeight, length_append, length_append]
    omega

theorem renderMembers_length : (first : Bool) → (l : List (Bytes × Value)) →
    (renderMembers first l).length ≤ membersWeight l
  | _, [] => Nat.le_refl 0
  | first, (k, v) :: ms => by
    have h1 := sep_length first
    have h2 := renderStr_length (cString k)
    have h3 := cString_length k
    have h4 := render_length v
    have h5 := renderMembers_length false ms
    rw [renderMembers, membersWeight, length_append, length_append, length_cons, length_append]
    omega
end

end AdventOS.Json
