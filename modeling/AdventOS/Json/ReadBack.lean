import AdventOS.Json.Arena
import AdventOS.Json.Writer

/-!
# What the parser makes of a written tree (`libjson/libjson.c`)

`json_uint` writes unsigned numbers, and the parser reads into a signed `long` behind a guard
against overflow. For a tree of numbers from `-2^31` up to `2^32`, strings of any bytes and any
arena: the parser returns the tree with its numbers wrapped and its strings decoded, if the
numbers pass the guard, which is to say that none is above 2147483649, and the tree fits the
arena (`parse_render`).
-/
namespace AdventOS.Json
open List

/-! ## Any arena -/

theorem arenaNeed_le (src : Bytes) : arenaNeed src ≤ scratchFor src.length := by
  have hnode : nodeSize ≤ scratchFor src.length := by unfold scratchFor; omega
  refine max_le hnode ?_
  cases hp : pText src (scratchFor src.length) with
  | none => exact Nat.zero_le _
  | some r =>
    obtain ⟨hp, -⟩ := Option.filter_eq_some_iff.mp hp
    have h := ((parser_metered (3 * src.length + 1)).1 (PState.mk src 0).skipWs).clip
      (Nat.zero_le _) (le_refl (scratchFor src.length))
    rw [h] at hp
    simpa using (Option.filter_eq_some_iff.mp hp).2

theorem jsonParse_arena (src : Bytes) (cap : Nat) : jsonParse src cap =
      if arenaNeed src ≤ cap then jsonParse src (scratchFor src.length) else none := by
  rcases le_total cap (scratchFor src.length) with h | h
  · exact jsonParse_clip h
  · rw [if_pos ((arenaNeed_le src).trans h)]
    ext v
    rw [jsonParse_iff h, jsonParse_iff le_rfl]

/-! ## The guard -/

theorem ofDigits_dropLast {ds : List (Fin 10)} (h : ds ≠ []) :
    ofDigits ds.dropLast = ofDigits ds / 10 := by
  have hsplit := dropLast_append_getLast h
  conv_rhs => rw [← hsplit]
  rw [ofDigits_snoc]
  omega

theorem wrap32_small {x : Nat} (h : x < 2 ^ 31) : wrap32 (x : Int) = x :=
  wrap32_of_range (by omega) (by omega)

theorem passes_iff {n : Int} (h1 : -2 ^ 31 ≤ n) (h2 : n < 2 ^ 32) :
    (numberOf n).Passes ↔ n ≤ 2147483649 := by
  have hdig : ofDigits (decDigits n.natAbs) = n.natAbs := ofDigits_decDigits (by omega)
  constructor
  · intro hp
    by_contra hbig
    have hne := decDigits_ne_nil n.natAbs
    have hlast := ofDigits_dropLast hne
    rw [hdig] at hlast
    have hlt : (decDigits n.natAbs).dropLast ≠ decDigits n.natAbs := by
      intro he
      have := congrArg length he
      rw [length_dropLast] at this
      have := length_pos_iff.mpr hne
      omega
    have hguard := hp (decDigits n.natAbs).dropLast ( dropLast_prefix _) hlt
    rw [hlast, wrap32_small (by omega)] at hguard
    omega
  · intro hsmall p hpre hne
    have htenth := ofDigits_prefix hpre hne
    change ofDigits p * 10 ≤ ofDigits (decDigits n.natAbs) at htenth
    rw [hdig] at htenth
    rw [wrap32_small (by omega)]
    omega

theorem numberOf_meaning {n : Int} (h1 : -2 ^ 31 ≤ n) (h2 : n < 2 ^ 32) :
    (numberOf n).value = n := by
  unfold Number.value numberOf
  rw [ofDigits_decDigits (by omega)]
  by_cases hn : n < 0
  · rw [if_pos (by simpa using hn)]
    omega
  · rw [if_neg (by simpa using hn)]
    omega

/-! ## The tokens -/

mutual
theorem tokens_numbers : (j : Value) → (tokens j).numbers = j.numbers.map numberOf
  | .null => rfl
  | .bool _ => rfl
  | .num _ => rfl
  | .str _ => rfl
  | .arr l => itemsTokens_numbers l
  | .obj l => membersTokens_numbers l

theorem itemsTokens_numbers : (l : List Value) →
    itemsNumbers (itemsTokens l) = (itemsNumbers l).map numberOf
  | [] => rfl
  | v :: vs => by
    unfold itemsTokens itemsNumbers
    rw [tokens_numbers v, itemsTokens_numbers vs, map_append]

theorem membersTokens_numbers : (l : List (Bytes × Value)) →
    membersNumbers (membersTokens l) = (membersNumbers l).map numberOf
  | [] => rfl
  | (_, v) :: ms => by
    unfold membersTokens membersNumbers
    rw [tokens_numbers v, membersTokens_numbers ms, map_append]
end

/-- The tree with its numbers as a `long` holds them. -/
def wrapped (j : Value) : Value := j.map wrap32 id

mutual
theorem tokens_wrapped : (j : Value) → (∀ n ∈ j.numbers, -2 ^ 31 ≤ n ∧ n < 2 ^ 32) →
    meaning (tokens j) = readBack (wrapped j)
  | .null, _ => rfl
  | .bool _, _ => rfl
  | .num n, h => by
    obtain ⟨h1, h2⟩ := h n (mem_singleton_self n)
    change Tree.num (wrap32 (numberOf n).value) = Tree.num (wrap32 n)
    rw [numberOf_meaning h1 h2]
  | .str s, _ => congrArg Tree.str (strBytes_pieces s)
  | .arr l, h => congrArg Tree.arr (itemsTokens_wrapped l h)
  | .obj l, h => congrArg Tree.obj (membersTokens_wrapped l h)

theorem itemsTokens_wrapped : (l : List Value) → (∀ n ∈ itemsNumbers l, -2 ^ 31 ≤ n ∧ n < 2 ^ 32) →
    itemsMeaning (itemsTokens l) = itemsReadBack (mapItems wrap32 id l)
  | [], _ => rfl
  | v :: vs, h =>
    congrArg₂ cons (tokens_wrapped v fun n hn => h n (mem_append_left _ hn))
      (itemsTokens_wrapped vs fun n hn => h n (mem_append_right _ hn))

theorem membersTokens_wrapped : (l : List (Bytes × Value)) →
    (∀ n ∈ membersNumbers l, -2 ^ 31 ≤ n ∧ n < 2 ^ 32) →
    membersMeaning (membersTokens l) = membersReadBack (mapMembers wrap32 id l)
  | [], _ => rfl
  | (_, v) :: ms, h => congrArg₂ cons (Prod.ext (strBytes_pieces _)
        (tokens_wrapped v fun n hn => h n (mem_append_left _ hn)))
      (membersTokens_wrapped ms fun n hn => h n (mem_append_right _ hn))
end

mutual
theorem readBack_keys : (j : Value) → ∀ k ∈ (readBack j).keys, NulFree k
  | .null => forall_mem_nil _
  | .bool _ => forall_mem_nil _
  | .num _ => forall_mem_nil _
  | .str _ => forall_mem_nil _
  | .arr l => itemsReadBack_keys l
  | .obj l => membersReadBack_keys l

theorem itemsReadBack_keys : (l : List Value) → ∀ k ∈ itemsKeys (itemsReadBack l), NulFree k
  | [] => forall_mem_nil _
  | v :: vs => forall_mem_append.mpr ⟨readBack_keys v, itemsReadBack_keys vs⟩

theorem membersReadBack_keys : (l : List (Bytes × Value)) →
    ∀ k ∈ membersKeys (membersReadBack l), NulFree k
  | [] => forall_mem_nil _
  | (k, v) :: ms => forall_mem_cons.mpr ⟨doubled_nulFree (cString_nulFree k),
      forall_mem_append.mpr ⟨readBack_keys v, membersReadBack_keys ms⟩⟩
end

mutual
theorem wrapped_self : (j : Value) → (∀ n ∈ j.numbers, Fits n) → wrapped j = j
  | .null, _ => rfl
  | .bool _, _ => rfl
  | .num n, h =>
    congrArg Tree.num (wrap32_of_range (h n (mem_singleton_self n)).1
      (h n (mem_singleton_self n)).2)
  | .str _, _ => rfl
  | .arr l, h => congrArg Tree.arr (itemsWrapped_self l h)
  | .obj l, h => congrArg Tree.obj (membersWrapped_self l h)

theorem itemsWrapped_self : (l : List Value) → (∀ n ∈ itemsNumbers l, Fits n) →
    mapItems wrap32 id l = l
  | [], _ => rfl
  | v :: vs, h => by
    obtain ⟨hv, hvs⟩ := forall_mem_append.mp h
    exact congrArg₂ cons (wrapped_self v hv) (itemsWrapped_self vs hvs)

theorem membersWrapped_self : (l : List (Bytes × Value)) →
    (∀ n ∈ membersNumbers l, Fits n) → mapMembers wrap32 id l = l
  | [], _ => rfl
  | (k, v) :: ms, h => by
    obtain ⟨hv, hms⟩ := forall_mem_append.mp h
    exact congrArg₂ cons (Prod.ext rfl (wrapped_self v hv)) (membersWrapped_self ms hms)
end

theorem parse_render {j : Value} (hj : ∀ n ∈ j.numbers, -2 ^ 31 ≤ n ∧ n < 2 ^ 32) (cap : Nat) :
    ((∀ n ∈ j.numbers, n ≤ 2147483649) ∧ arenaNeed (render j) ≤ cap →
      jsonParse (render j) cap = some (readBack (wrapped j))) ∧
    (¬((∀ n ∈ j.numbers, n ≤ 2147483649) ∧ arenaNeed (render j) ≤ cap) →
      jsonParse (render j) cap = none) := by
  have hpass : (∀ n ∈ (tokens j).numbers, n.Passes) ↔ ∀ n ∈ j.numbers, n ≤ 2147483649 := by
    rw [tokens_numbers, forall_mem_map]
    exact forall₂_congr fun n hn => passes_iff (hj n hn).1 (hj n hn).2
  rw [jsonParse_arena]
  constructor
  · intro ⟨hn, harena⟩
    rw [if_pos harena, jsonParse_complete le_rfl (render_text j) (hpass.mpr hn),
      tokens_wrapped j hj]
  · intro hnot
    by_cases harena : arenaNeed (render j) ≤ cap
    · rw [if_pos harena]
      cases hp : jsonParse (render j) (scratchFor (render j).length) with
      | none => rfl
      | some v =>
        obtain ⟨raw, hraw, hrawpass, -⟩ := jsonParse_sound hp
        rw [hraw.unique (render_text j)] at hrawpass
        exact absurd ⟨hpass.mp hrawpass, harena⟩ hnot
    · rw [if_neg harena]

end AdventOS.Json
