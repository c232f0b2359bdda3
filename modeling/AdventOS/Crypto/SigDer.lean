import Mathlib

/-!
# The DER form of an ECDSA signature

A signature is 64 bytes, `r` and `s` of 32 each. `p256_sig_to_der` writes them as a SEQUENCE of
two INTEGERs without unneeded zero bytes; `p256_sig_from_der` reads them back.

* `sigFromDer_sigToDer`: reading undoes writing.
* `sigToDer_sigFromDer_iff`: writing undoes reading exactly when each INTEGER read was minimal
  and not negative and nothing followed the second.
* `trailing_byte`: a string with a byte behind the second INTEGER is accepted.
-/
namespace AdventOS.Crypto.SigDer
open List

/-- `while (start < 31 && in[start] == 0) start++;`, the bytes from `start` on. -/
def fromStart : Nat → List UInt8 → List UInt8
  | 0, bytes => bytes
  | _ + 1, [] => []
  | fuel + 1, b :: bytes => if b = 0 then fromStart fuel bytes else b :: bytes

/-- The content of the INTEGER.
p256.c:751-754, 758-759 -/
def content (bytes : List UInt8) : List UInt8 :=
  let digits := fromStart 31 bytes
  if digits.headD 0 &&& 0x80 ≠ 0 then 0x00 :: digits else digits

/-- p256.c:750-762 -/
def encodeInteger (bytes : List UInt8) : List UInt8 :=
  0x02 :: UInt8.ofNat (content bytes).length :: content bytes

/-- `none` where the code returns -1.
p256.c:764-775 -/
def sigToDer (outCap : Nat) (sig : List UInt8) : Option (List UInt8) :=
  let body := encodeInteger (sig.take 32) ++ encodeInteger (sig.drop 32)
  if outCap < 2 + body.length then none else some (0x30 :: UInt8.ofNat body.length :: body)

/-- The 32 bytes and the number of bytes consumed of `p`, of which there are `avail`.
p256.c:777-789 -/
def decodeInteger (p : List UInt8) : Option (List UInt8 × Nat) :=
  let avail := p.length
  if avail < 2 ∨ p.getD 0 0 ≠ 0x02 then none else
    let len := (p.getD 1 0).toNat
    if len < 1 ∨ avail - 2 < len then none else
      let pad := if 2 ≤ len ∧ p.getD 2 0 = 0x00 then 1 else 0
      if 32 < len - pad then none else
        some (List.replicate (32 - (len - pad)) 0 ++ (p.drop (2 + pad)).take (len - pad), 2 + len)

/-- p256.c:791-800 -/
def sigFromDer (der : List UInt8) : Option (List UInt8) :=
  if der.length < 8 ∨ der.getD 0 0 ≠ 0x30 then none else
    if (der.getD 1 0).toNat + 2 ≠ der.length then none else
      (decodeInteger (der.drop 2)).bind fun r =>
        (decodeInteger (der.drop (2 + r.2))).map fun s => r.1 ++ s.1

/-! ## An INTEGER as a value -/

variable {c d l rest der sig : List UInt8}

def tlv (c : List UInt8) : List UInt8 := 0x02 :: UInt8.ofNat c.length :: c

/-- What `decode_integer` makes of a content: one leading zero byte is dropped. -/
def dropPad : List UInt8 → List UInt8
  | b :: d :: l => if b = 0 then d :: l else b :: d :: l
  | l => l

def pad32 (l : List UInt8) : List UInt8 := List.replicate (32 - l.length) 0 ++ l

/-- A content that DER allows: not empty, not negative, and no zero byte but one that keeps the
number from being negative. -/
structure Minimal (c : List UInt8) : Prop where
  short : c.length < 256
  notEmpty : c ≠ []
  notNegative : c.headD 0 &&& 0x80 = 0
  needed : c.headD 0 = 0 → 2 ≤ c.length → c.getD 1 0 &&& 0x80 ≠ 0

/-- A SEQUENCE of two such INTEGERs and nothing else. -/
def Canonical (der : List UInt8) : Prop :=
  ∃ r s, Minimal r ∧ Minimal s ∧
    der = 0x30 :: UInt8.ofNat (tlv r ++ tlv s).length :: (tlv r ++ tlv s)

theorem tlv_append_inj {c c' rest rest' : List UInt8} (hc : c.length < 256) (hc' : c'.length < 256)
    (h : tlv c ++ rest = tlv c' ++ rest') : c = c' ∧ rest = rest' := by
  simp only [tlv, cons_append, cons.injEq, true_and] at h
  have hlen := congrArg UInt8.toNat h.1
  rw [UInt8.toNat_ofNat_of_lt' hc, UInt8.toNat_ofNat_of_lt' hc'] at hlen
  exact append_inj h.2 hlen

theorem exists_cons_cons (h : 2 ≤ l.length) : ∃ b d rest, l = b :: d :: rest := by
  cases l with
  | nil => simp at h
  | cons b l =>
    cases l with
    | nil => simp at h
    | cons d rest => exact ⟨b, d, rest, rfl⟩

theorem decodeInteger_tlv (h1 : c ≠ []) (h2 : c.length < 256) (rest : List UInt8) :
    decodeInteger (tlv c ++ rest) =
      if (dropPad c).length ≤ 32 then some (pad32 (dropPad c), (tlv c).length) else none := by
  have hlen : (UInt8.ofNat c.length).toNat = c.length := UInt8.toNat_ofNat_of_lt' h2
  have hpos : 0 < c.length := length_pos_iff.mpr h1
  have hread : ∀ pad, c.drop pad = dropPad c → (c ++ rest).drop pad = dropPad c ++ rest →
      (if 2 ≤ c.length ∧ (c ++ rest).getD 0 0 = 0x00 then 1 else 0) = pad →
      decodeInteger (tlv c ++ rest) =
        if (dropPad c).length ≤ 32 then some (pad32 (dropPad c), (tlv c).length) else none := by
    intro pad hdrop happ hpad
    have hk : c.length - pad = (dropPad c).length := by rw [← hdrop, length_drop]
    have htwo : (tlv c).length = 2 + c.length := by simp [tlv]; omega
    unfold decodeInteger
    simp only [tlv, cons_append, length_cons, getD_cons_zero, getD_cons_succ,
      length_append, hlen, hpad, hk, add_comm 2 pad, drop_succ_cons, happ,
      take_left', pad32]
    rw [if_neg (by simp), if_neg (by omega)]
    by_cases h32 : (dropPad c).length ≤ 32
    · rw [if_neg (by omega), if_pos h32, add_comm]
    · rw [if_pos (by omega), if_neg h32]
  cases c with
  | nil => exact absurd rfl h1
  | cons b l =>
    cases l with
    | nil => exact hread 0 rfl rfl rfl
    | cons d l =>
      by_cases hb : b = 0
      · exact hread 1 (by simp [dropPad, hb]) (by simp [dropPad, hb]) (by simp [hb])
      · exact hread 0 (by simp [dropPad, hb]) (by simp [dropPad, hb]) (by simp [hb])

theorem tlv_of_decodeInteger {p : List UInt8} {x : List UInt8 × Nat}
    (h : decodeInteger p = some x) : ∃ c rest, p = tlv c ++ rest ∧ c ≠ [] ∧ c.length < 256 := by
  unfold decodeInteger at h
  simp only at h
  split at h
  · cases h
  rename_i htag
  split at h
  · cases h
  rename_i hlen
  obtain ⟨hshort, htag⟩ := not_or.mp htag
  obtain ⟨hpos, havail⟩ := not_or.mp hlen
  obtain ⟨t, n, q, rfl⟩ := exists_cons_cons (l := p) (by omega)
  simp only [getD_cons_zero, getD_cons_succ, length_cons, not_not] at *
  have hn := n.toNat_lt
  have hq : (q.take n.toNat).length = n.toNat := by
    rw [length_take]
    omega
  refine ⟨q.take n.toNat, q.drop n.toNat, ?_, ?_, by omega⟩
  · rw [tlv, hq, UInt8.ofNat_toNat, cons_append, cons_append, take_append_drop, htag]
  · rw [← length_pos_iff]
    omega

/-! ## Writing -/

/-- What is kept of the bytes: the zeros dropped were leading ones, and another leading zero is
kept only when all but one byte were dropped. -/
theorem fromStart_spec : ∀ (n : Nat) (l : List UInt8), n < l.length →
    l = List.replicate (l.length - (fromStart n l).length) 0 ++ fromStart n l ∧
      l.length - n ≤ (fromStart n l).length ∧ (fromStart n l).length ≤ l.length ∧
      ((fromStart n l).headD 0 = 0 → (fromStart n l).length = l.length - n)
  | 0, l, h => by simp [fromStart]
  | n + 1, [], h => absurd h (by simp)
  | n + 1, b :: l, h => by
    rw [length_cons] at h
    rw [fromStart]
    by_cases hb : b = 0
    · obtain ⟨h1, h2, h3, h4⟩ := fromStart_spec n l (by omega)
      rw [if_pos hb, length_cons]
      refine ⟨?_, by omega, by omega, fun h0 => by rw [h4 h0]; omega⟩
      rw [Nat.succ_sub h3, replicate_succ, cons_append, ← h1, hb]
    · rw [if_neg hb]
      exact ⟨by simp, by omega, le_refl _, fun h0 => absurd h0 hb⟩

theorem fromStart_zeros (hd : d.headD 0 = 0 → d.length = 1) (hne : d ≠ []) : ∀ (k n : Nat),
    k + d.length = n + 1 → fromStart n (List.replicate k 0 ++ d) = d
  | 0, 0, _ => rfl
  | 0, n + 1, h => by
    cases d with
    | nil => exact absurd rfl hne
    | cons b l =>
      have hb : b ≠ 0 := fun h0 => by
        have := hd h0
        omega
      exact if_neg hb
  | k + 1, 0, h => by
    have := length_pos_iff.mpr hne
    omega
  | k + 1, n + 1, h => (if_pos rfl).trans (fromStart_zeros hd hne k n (by omega))

variable {v : List UInt8}

theorem length_pad32 (h : l.length ≤ 32) : (pad32 l).length = 32 := by
  rw [pad32, length_append, length_replicate]
  omega

theorem dropPad_of_head (h : l.headD 0 = 0 → l.length = 1) : dropPad l = l := by
  cases l with
  | nil => rfl
  | cons b l =>
    cases l with
    | nil => rfl
    | cons d l => exact if_neg fun hb => absurd (h hb) (by simp)

theorem content_spec (hv : v.length = 32) :
    Minimal (content v) ∧ (dropPad (content v)).length ≤ 32 ∧ pad32 (dropPad (content v)) = v ∧
      (content v).length ≤ 33 := by
  obtain ⟨hpad, hge, hle, hzero⟩ := fromStart_spec 31 v (by omega)
  unfold content
  generalize fromStart 31 v = d at *
  rw [hv] at hpad hge hle hzero
  have hne : d ≠ [] := length_pos_iff.mp (by omega)
  by_cases hlead : d.headD 0 &&& 0x80 ≠ 0
  · simp only [if_pos hlead]
    cases d with
    | nil => exact absurd rfl hne
    | cons b l =>
      have hdrop : dropPad (0 :: b :: l) = b :: l := by simp [dropPad]
      rw [hdrop]
      rw [length_cons] at hle
      refine ⟨⟨?_, by simp, by simp, fun _ _ => hlead⟩, hle, hpad.symm, ?_⟩
      · simp only [length_cons]
        omega
      · simp only [length_cons]
        omega
  · simp only [if_neg hlead]
    rw [dropPad_of_head hzero]
    refine ⟨⟨by omega, hne, not_not.mp hlead, ?_⟩, hle, hpad.symm, by omega⟩
    intro h0 h2
    have := hzero h0
    omega

theorem content_pad32_iff (h : (dropPad c).length ≤ 32) :
    content (pad32 (dropPad c)) = c ↔ Minimal c := by
  constructor
  · intro hc
    rw [← hc]
    exact (content_spec (length_pad32 h)).1
  · intro hmin
    have hstart : ∀ d, d ≠ [] → (d.headD 0 = 0 → d.length = 1) → d.length ≤ 32 →
        content (pad32 d) = if d.headD 0 &&& 0x80 ≠ 0 then 0x00 :: d else d := by
      intro d hne hd hle
      have hpos := length_pos_iff.mpr hne
      unfold content pad32
      rw [fromStart_zeros hd hne _ 31 (by omega)]
    by_cases hpad : c.headD 0 = 0 ∧ 2 ≤ c.length
    · obtain ⟨h0, h2⟩ := hpad
      have hneed := hmin.needed h0 h2
      cases c with
      | nil => simp at h2
      | cons b c =>
        cases c with
        | nil => simp at h2
        | cons d l =>
          obtain rfl : b = 0 := h0
          have hdrop : dropPad (0 :: d :: l) = d :: l := by simp [dropPad]
          have hd : d &&& 0x80 ≠ 0 := hneed
          rw [hdrop] at h ⊢
          rw [hstart _ (by simp) (fun hz => ?_) h]
          · exact if_pos hd
          · obtain rfl : d = 0 := hz
            exact absurd rfl hd
    · have hone : c.headD 0 = 0 → c.length = 1 := by
        intro h0
        have := length_pos_iff.mpr hmin.notEmpty
        have : ¬ 2 ≤ c.length := fun h2 => hpad ⟨h0, h2⟩
        omega
      rw [dropPad_of_head hone] at h ⊢
      rw [hstart c hmin.notEmpty hone h, if_neg (not_not.mpr hmin.notNegative)]

/-! ## Signatures -/

theorem encodeInteger_eq (v : List UInt8) : encodeInteger v = tlv (content v) := rfl

theorem length_tlv (c : List UInt8) : (tlv c).length = 2 + c.length := by
  simp only [tlv, length_cons]
  omega

theorem sigFromDer_tlv {r s : List UInt8} (hr : r ≠ []) (hs : s ≠ []) (hr2 : r.length < 256)
    (hs2 : s.length < 256) (hlen : (tlv r ++ (tlv s ++ rest)).length < 256) :
    sigFromDer
        (0x30 :: UInt8.ofNat (tlv r ++ (tlv s ++ rest)).length :: (tlv r ++ (tlv s ++ rest))) =
      if (dropPad r).length ≤ 32 ∧ (dropPad s).length ≤ 32 then
        some (pad32 (dropPad r) ++ pad32 (dropPad s)) else none := by
  have hrpos := length_pos_iff.mpr hr
  have hspos := length_pos_iff.mpr hs
  have h6 : 6 ≤ (tlv r ++ (tlv s ++ rest)).length := by
    simp only [length_append, length_tlv]
    omega
  unfold sigFromDer
  simp only [length_cons, getD_cons_zero, getD_cons_succ, ne_eq, not_true_eq_false,
    or_false, UInt8.toNat_ofNat_of_lt' hlen, drop_succ_cons, drop_zero]
  rw [if_neg (by omega), if_neg not_false, decodeInteger_tlv hr hr2]
  by_cases h1 : (dropPad r).length ≤ 32
  · rw [if_pos h1, Option.bind_some, add_comm, drop_succ_cons, drop_succ_cons,
      drop_left, decodeInteger_tlv hs hs2]
    by_cases h2 : (dropPad s).length ≤ 32
    · rw [if_pos h2, if_pos ⟨h1, h2⟩]
      rfl
    · rw [if_neg h2, if_neg fun h => h2 h.2]
      rfl
  · rw [if_neg h1, if_neg fun h => h1 h.1]
    rfl

theorem of_sigFromDer (h : sigFromDer der = some sig) : ∃ r s rest, r ≠ [] ∧ s ≠ [] ∧
    r.length < 256 ∧ s.length < 256 ∧ (tlv r ++ (tlv s ++ rest)).length < 256 ∧
    der = 0x30 :: UInt8.ofNat (tlv r ++ (tlv s ++ rest)).length :: (tlv r ++ (tlv s ++ rest)) := by
  unfold sigFromDer at h
  split at h
  · cases h
  rename_i htag
  split at h
  · cases h
  rename_i hlen
  obtain ⟨hshort, htag⟩ := not_or.mp htag
  obtain ⟨t, n, q, rfl⟩ := exists_cons_cons (l := der) (by omega)
  have hseq : t = 0x30 := not_not.mp htag
  have hlen : n.toNat + 2 = q.length + 2 := not_not.mp hlen
  have hn := n.toNat_lt
  obtain ⟨x, hx, h⟩ := Option.bind_eq_some_iff.mp h
  obtain ⟨y, hy, -⟩ := Option.map_eq_some_iff.mp h
  obtain ⟨r, rest', hp, hr, hr2⟩ := tlv_of_decodeInteger hx
  rw [drop_succ_cons, drop_succ_cons, drop_zero] at hp
  subst hp
  rw [drop_succ_cons, drop_succ_cons, drop_zero, decodeInteger_tlv hr hr2] at hx
  split at hx
  · cases hx
    rw [add_comm, drop_succ_cons, drop_succ_cons, drop_left] at hy
    obtain ⟨s, rest, rfl, hs, hs2⟩ := tlv_of_decodeInteger hy
    have heq : (tlv r ++ (tlv s ++ rest)).length = n.toNat := by omega
    refine ⟨r, s, rest, hr, hs, hr2, hs2, by omega, ?_⟩
    rw [heq, UInt8.ofNat_toNat, hseq]
  · cases hx

theorem sigToDer_eq {outCap : Nat} {r s : List UInt8} (hr : r.length = 32) (hs : s.length = 32)
    (hcap : 72 ≤ outCap) : sigToDer outCap (r ++ s) =
      some (0x30 :: UInt8.ofNat (tlv (content r) ++ tlv (content s)).length ::
        (tlv (content r) ++ tlv (content s))) := by
  have hr33 := (content_spec hr).2.2.2
  have hs33 := (content_spec hs).2.2.2
  unfold sigToDer
  rw [take_left' hr, drop_left' hr, encodeInteger_eq, encodeInteger_eq, if_neg]
  simp only [length_append, length_tlv]
  omega

theorem sigFromDer_sigToDer {outCap : Nat} (hsig : sig.length = 64) (hcap : 72 ≤ outCap) :
    ∃ der, sigToDer outCap sig = some der ∧ sigFromDer der = some sig := by
  have hr32 : (sig.take 32).length = 32 := by simp [hsig]
  have hs32 : (sig.drop 32).length = 32 := by simp [hsig]
  obtain ⟨hr, hrlen, hrpad, hr33⟩ := content_spec hr32
  obtain ⟨hs, hslen, hspad, hs33⟩ := content_spec hs32
  refine ⟨_, (congrArg (sigToDer outCap) (take_append_drop 32 sig)).symm.trans
    (sigToDer_eq hr32 hs32 hcap), ?_⟩
  have hshort : (tlv (content (sig.take 32)) ++ (tlv (content (sig.drop 32)) ++ [])).length < 256 := by
    simp only [length_append, length_tlv, length_nil]
    omega
  have h := sigFromDer_tlv hr.notEmpty hs.notEmpty hr.short hs.short hshort
  rw [append_nil] at h
  rw [h, if_pos ⟨hrlen, hslen⟩, hrpad, hspad, take_append_drop]

/-- Reading undoes writing for every signature, and for every string that is
accepted writing gives that string back exactly when it is canonical. -/
theorem sigDer_round_trip (room : Nat) : (∀ sig : List UInt8, sig.length = 64 →
      ∃ der, sigToDer (72 + room) sig = some der ∧ sigFromDer der = some sig) ∧
    ∀ der sig, sigFromDer der = some sig →
      (sigToDer (72 + room) sig = some der ↔ Canonical der) := by
  have hcap : 72 ≤ 72 + room := Nat.le_add_right 72 room
  refine ⟨fun sig hsig => sigFromDer_sigToDer hsig hcap, ?_⟩
  intro der sig h
  obtain ⟨r, s, rest, hr, hs, hr2, hs2, hlen, rfl⟩ := of_sigFromDer h
  rw [sigFromDer_tlv hr hs hr2 hs2 hlen] at h
  by_cases h32 : (dropPad r).length ≤ 32 ∧ (dropPad s).length ≤ 32
  · rw [if_pos h32] at h
    cases h
    rw [sigToDer_eq (length_pad32 h32.1) (length_pad32 h32.2) hcap, Option.some.injEq]
    have hcr := content_pad32_iff h32.1
    have hcs := content_pad32_iff h32.2
    constructor
    · intro heq
      simp only [cons.injEq, true_and] at heq
      have hmr := (content_spec (length_pad32 h32.1)).1
      have hms := (content_spec (length_pad32 h32.2)).1
      have h1 := tlv_append_inj hmr.short hr2 heq.2
      have h2 := tlv_append_inj hms.short hs2 ((append_nil _).trans h1.2)
      rw [← h2.2, append_nil]
      exact ⟨r, s, hcr.mp h1.1, hcs.mp h2.1, rfl⟩
    · intro ⟨r', s', hmr, hms, heq⟩
      simp only [cons.injEq, true_and] at heq
      have h1 := tlv_append_inj hr2 hmr.short heq.2
      have h2 := tlv_append_inj hs2 hms.short (h1.2.trans (append_nil _).symm)
      rw [h2.2, append_nil, hcr.mpr (h1.1 ▸ hmr), hcs.mpr (h2.1 ▸ hms)]
  · rw [if_neg h32] at h
    cases h

/-- A byte behind the second INTEGER, inside the SEQUENCE. -/
theorem trailing_byte : ¬ ∀ der sig, sigFromDer der = some sig → sigToDer 72 sig = some der := by
  intro h
  have hread : sigFromDer [0x30, 7, 2, 1, 1, 2, 1, 1, 0] =
      some (pad32 [1] ++ pad32 [1]) := by decide
  exact absurd (h _ _ hread) (by decide)

end AdventOS.Crypto.SigDer
