import AdventOS.Json.Writer

/-!
# JSON lines (`libjson/libjson.c`)

`json_emit_line` writes the bytes of an encoder and a newline, in as many writes as the kernel
likes; `jsonl_read_line` reads them a byte at a time from what arrives in arbitrary pieces. An
input is the list of its pieces.

The return value 0 stands for the end of the input, and is the length of an empty line too. So:

* `replies_eq`: what the calls return, long lines included;
* `framed_iff`.
-/
namespace AdventOS.Json
open List

def newline : UInt8 := 10

/-! ## Writing -/

/-- The loop of `json_emit_line`: whether all was written, what was, and the number of the next
write. `io k` is how much write `k` may take, none if it fails. libjson.c:618-623 -/
def writeLoop (io : Nat → Nat) : (fuel k : Nat) → Bytes → Bool × Bytes × Nat
  | 0, k, s => (s.isEmpty, [], k)
  | fuel + 1, k, s =>
    if s = [] then (true, [], k)
    else if io k = 0 then (false, [], k + 1)
    else
      let r := writeLoop io fuel (k + 1) (s.drop (io k))
      (r.1, s.take (io k) ++ r.2.1, r.2.2)

/-- The return value, what was written, the encoder and the number of the next write.
libjson.c:614-636 -/
def jsonEmitLine (io : Nat → Nat) (k : Nat) (w : Writer) : Int × Bytes × Writer × Nat :=
  if w.ok = false then (-1, [], w, k)
  else
    let r := writeLoop io w.buf.length k w.buf
    if r.1 = false then (-1, r.2.1, w, r.2.2)
    else if io r.2.2 = 0 then (-1, r.2.1, w, r.2.2 + 1)
    else (w.buf.length + 1, r.2.1 ++ [newline], jsonWInit w.cap, r.2.2 + 1)

/-- What is written when the encoders' lines are emitted one after another. -/
def emitAll (io : Nat → Nat) : (k : Nat) → List Writer → Bytes
  | _, [] => []
  | k, w :: ws =>
    let r := jsonEmitLine io k w
    r.2.1 ++ emitAll io r.2.2.2 ws

/-! ## Reading -/

/-- `sys_read` of one byte, `none` at the end of the input. -/
def sysRead : List Bytes → Option (UInt8 × List Bytes)
  | [] => none
  | [] :: ps => sysRead ps
  | (c :: p) :: ps => some (c, p :: ps)

/-- Skip the rest of a line. libjson.c:659 -/
def drain : (fuel : Nat) → List Bytes → List Bytes
  | 0, ps => ps
  | fuel + 1, ps =>
    match sysRead ps with
    | none => ps
    | some (c, ps) => if c = newline then ps else drain fuel ps

/-- The return value of `jsonl_read_line` and the bytes before the NUL in its buffer. -/
structure Reply where
  ret : Int
  line : Bytes
  deriving DecidableEq, Repr

/-- The loop of `jsonl_read_line` with `buf` read; a turn reads a byte or ends the call.
libjson.c:640-663 -/
def readLoop (cap : Int) : (fuel : Nat) → (buf : Bytes) → List Bytes → Reply × List Bytes
  | 0, buf, ps => (⟨-1, buf⟩, ps)
  | fuel + 1, buf, ps =>
    match sysRead ps with
    | none => (⟨buf.length, buf⟩, ps)
    | some (c, ps) =>
      if c = newline then (⟨buf.length, buf⟩, ps)
      else if buf.length + 1 ≥ cap then (⟨-1, buf⟩, drain fuel ps)
      else readLoop cap fuel (buf ++ [c]) ps

/-- libjson.c:638-664 -/
def jsonlReadLine (cap : Int) (ps : List Bytes) : Reply × List Bytes :=
  if cap ≤ 1 then (⟨-1, []⟩, ps) else readLoop cap (ps.flatten.length + 1) [] ps

def replies (cap : Int) : (n : Nat) → List Bytes → List Reply
  | 0, _ => []
  | n + 1, ps => (jsonlReadLine cap ps).1 :: replies cap n (jsonlReadLine cap ps).2

/-! ## What is written -/

variable {io : Nat → Nat} {ws : List Writer} {w : Writer} {cap : Int} {ps : List Bytes}
  {c : UInt8} {s l buf rest : Bytes} {k fuel n : Nat}

theorem writeLoop_all (hio : ∀ k, 0 < io k) (h : s.length ≤ fuel) :
    (writeLoop io fuel k s).1 = true ∧ (writeLoop io fuel k s).2.1 = s := by
  induction fuel generalizing s k with
  | zero =>
    obtain rfl := eq_nil_of_length_eq_zero (Nat.le_zero.mp h)
    exact ⟨rfl, rfl⟩
  | succ fuel ih =>
    have hpos := hio k
    unfold writeLoop
    split
    · rename_i hs
      exact ⟨rfl, hs.symm⟩
    rename_i hs
    have hlen := length_pos_iff.mpr hs
    obtain ⟨h1, h2⟩ := ih (s := s.drop (io k)) (k := k + 1) (by rw [length_drop]; omega)
    rw [if_neg (by omega)]
    dsimp only
    rw [h2, take_append_drop]
    exact ⟨h1, rfl⟩

theorem emitAll_eq (hio : ∀ k, 0 < io k) (hok : ∀ w ∈ ws, w.ok = true) :
    emitAll io k ws = (ws.map fun w => w.buf ++ [newline]).flatten := by
  induction ws generalizing k with
  | nil => rfl
  | cons w ws ih =>
    obtain ⟨h1, h2⟩ := writeLoop_all (k := k) hio (le_refl w.buf.length)
    have hnl := hio (writeLoop io w.buf.length k w.buf).2.2
    have hw : (jsonEmitLine io k w).2.1 = w.buf ++ [newline] := by
      unfold jsonEmitLine
      rw [if_neg (by simp [hok w mem_cons_self])]
      rw [if_neg (by simp [h1]), if_neg (by omega), h2]
    rw [emitAll, hw, ih fun w' hw' => hok w' (mem_cons_of_mem w hw')]
    rfl

/-! ## What is read -/

theorem sysRead_none (h : ps.flatten = []) : sysRead ps = none := by
  induction ps with
  | nil => rfl
  | cons p ps ih =>
    obtain ⟨rfl, hps⟩ := append_eq_nil_iff.mp h
    exact ih hps

theorem sysRead_cons (h : ps.flatten = c :: s) :
    ∃ ps', sysRead ps = some (c, ps') ∧ ps'.flatten = s := by
  induction ps with
  | nil => cases h
  | cons p ps ih =>
    cases p with
    | nil => exact ih h
    | cons d p =>
      cases h
      exact ⟨p :: ps, rfl, rfl⟩

theorem drain_line (hl : newline ∉ l) (h : ps.flatten = l ++ newline :: rest)
    (hfuel : l.length < fuel) : (drain fuel ps).flatten = rest := by
  induction l generalizing ps fuel with
  | nil =>
    obtain ⟨fuel, rfl⟩ := Nat.exists_eq_succ_of_ne_zero (ne_of_gt hfuel)
    obtain ⟨ps', he, hps⟩ := sysRead_cons h
    rw [drain, he]
    exact hps
  | cons c l ih =>
    obtain ⟨fuel, rfl⟩ := Nat.exists_eq_succ_of_ne_zero (ne_of_gt (lt_of_le_of_lt
      (Nat.zero_le _) hfuel))
    obtain ⟨ps', he, hps⟩ := sysRead_cons h
    rw [drain, he]
    dsimp only
    rw [if_neg (ne_of_not_mem_cons hl).symm]
    exact ih (not_mem_of_not_mem_cons hl) hps (Nat.lt_of_succ_lt_succ hfuel)

def replyTo (cap : Int) (l : Bytes) : Int := if l.length < cap then l.length else -1

theorem readLoop_line (hl : newline ∉ l) (h : ps.flatten = l ++ newline :: rest)
    (hfuel : l.length < fuel) (hbuf : buf.length < cap) :
    ∃ line, (readLoop cap fuel buf ps).1 = ⟨replyTo cap (buf ++ l), line⟩ ∧
      ((buf ++ l).length < cap → line = buf ++ l) ∧ (readLoop cap fuel buf ps).2.flatten = rest := by
  unfold replyTo
  induction l generalizing ps fuel buf with
  | nil =>
    obtain ⟨fuel, rfl⟩ := Nat.exists_eq_succ_of_ne_zero (Nat.ne_of_gt hfuel)
    obtain ⟨ps', he, hps⟩ := sysRead_cons h
    rw [readLoop, he, append_nil, if_pos hbuf]
    exact ⟨buf, rfl, fun _ => rfl, hps⟩
  | cons c l ih =>
    obtain ⟨fuel, rfl⟩ := Nat.exists_eq_succ_of_ne_zero (Nat.ne_of_gt (Nat.lt_of_le_of_lt
      (Nat.zero_le _) hfuel))
    obtain ⟨ps', he, hps⟩ := sysRead_cons h
    have hl' := not_mem_of_not_mem_cons hl
    rw [readLoop, he]
    dsimp only
    rw [if_neg (ne_of_not_mem_cons hl).symm]
    have hlen : (buf ++ c :: l).length = buf.length + 1 + l.length := by simp; omega
    split
    · rw [hlen, if_neg (by omega)]
      exact ⟨buf, rfl, fun hc => by omega, drain_line hl' hps (Nat.lt_of_succ_lt_succ hfuel)⟩
    · have hsnoc : buf ++ [c] ++ l = buf ++ c :: l := by simp
      have hnext := ih hl' hps (Nat.lt_of_succ_lt_succ hfuel)
        (show ((buf ++ [c]).length : Int) < cap by rw [length_append]; simp; omega)
      rw [hsnoc] at hnext
      exact hnext

theorem replies_eq (hcap : 2 ≤ cap) (lines : List Bytes) (hl : ∀ l ∈ lines, newline ∉ l)
    (h : ps.flatten = (lines.map fun l => l ++ [newline]).flatten) :
    ∃ rs, replies cap (lines.length + 1) ps = rs ++ [⟨0, []⟩] ∧
      List.Forall₂ (fun l r => r.ret = replyTo cap l ∧ (l.length < cap → r.line = l)) lines rs := by
  induction lines generalizing ps with
  | nil =>
    refine ⟨[], ?_, .nil⟩
    have hread : jsonlReadLine cap ps = (⟨0, []⟩, ps) := by
      unfold jsonlReadLine
      rw [if_neg (by omega), readLoop, sysRead_none h]
      rfl
    rw [length_nil, replies, replies, hread]
    rfl
  | cons l lines ih =>
    rw [map_cons, flatten_cons, append_assoc] at h
    obtain ⟨line, h1, h2, h3⟩ := readLoop_line (hl l mem_cons_self) h
      (show l.length < ps.flatten.length + 1 by rw [h, length_append]; omega)
      (show (([] : Bytes).length : Int) < cap by rw [length_nil]; omega)
    have hread : jsonlReadLine cap ps = readLoop cap (ps.flatten.length + 1) [] ps :=
      if_neg (by omega)
    obtain ⟨rs, hrs, hall⟩ := ih (fun l' hl' => hl l' (mem_cons_of_mem l hl')) h3
    refine ⟨⟨replyTo cap l, line⟩ :: rs, ?_, .cons ⟨rfl, h2⟩ hall⟩
    rw [length_cons, replies, hread, h1, hrs]
    rfl

/-- The calls give the lines in order, an error for one that is too long, and the end of the input
after the last one only. -/
def Framed (cap : Int) (lines : List Bytes) (ps : List Bytes) : Prop :=
  ∃ rs, replies cap (lines.length + 1) ps = rs ++ [⟨0, []⟩] ∧
    List.Forall₂ (fun l r => r.ret ≠ 0 ∧ r.ret = replyTo cap l ∧ (l.length < cap → r.line = l))
      lines rs

/-- Lines without newlines, emitted by writes of any sizes and read back in any
pieces, come back as they were, a line longer than the buffer as an error, with the end of the
input after the last one only, exactly when the buffer has two bytes and no line is empty. -/
theorem framed_iff (hio : ∀ k, 0 < io k) (hok : ∀ w ∈ ws, w.ok = true)
    (hl : ∀ w ∈ ws, newline ∉ w.buf) (cap : Int) (hps : ps.flatten = emitAll io 0 ws) :
    Framed cap (ws.map (·.buf)) ps ↔ 2 ≤ cap ∧ [] ∉ ws.map (·.buf) := by
  have hlines : ∀ l ∈ ws.map (·.buf), newline ∉ l := by
    intro l hmem
    obtain ⟨w, hw, rfl⟩ := mem_map.mp hmem
    exact hl w hw
  have hflat : ps.flatten = ((ws.map (·.buf)).map fun l => l ++ [newline]).flatten := by
    rw [hps, emitAll_eq hio hok, map_map]
    rfl
  generalize ws.map (·.buf) = lines at *
  constructor
  · rintro ⟨rs, hrs, hall⟩
    have hcap : 2 ≤ cap := by
      by_contra hc
      -- every call is refused, the last one too
      have hrefused : ∀ n ps, ∀ r ∈ replies cap n ps, r.ret = -1 := by
        intro n
        induction n with
        | zero =>
          intro ps r hr
          cases hr
        | succ n ih =>
          intro ps r hr
          rcases mem_cons.mp hr with rfl | hr
          · rw [jsonlReadLine, if_pos (by omega)]
          · exact ih _ r hr
      have hlast := hrefused _ _ ⟨0, []⟩ (by rw [hrs]; exact mem_append_right _ (by simp))
      cases hlast
    refine ⟨hcap, fun hempty => ?_⟩
    obtain ⟨hlen, hget⟩ := forall₂_iff_get.mp hall
    obtain ⟨i, hi, he⟩ := mem_iff_getElem.mp hempty
    obtain ⟨hne, hret, -⟩ := hget i hi (by omega)
    rw [get_eq_getElem (l := lines), he, replyTo, length_nil, if_pos (by omega)] at hret
    exact hne hret
  · rintro ⟨hcap, hempty⟩
    obtain ⟨rs, hrs, hall⟩ := replies_eq hcap lines hlines hflat
    refine ⟨rs, hrs, ?_⟩
    clear hrs hflat hps
    induction hall with
    | nil => exact .nil
    | @cons l r lines rs hr _ ih =>
      refine .cons ⟨?_, hr⟩ (ih (fun l' h' => hlines l' (mem_cons_of_mem l h'))
        (not_mem_of_not_mem_cons hempty))
      have hpos : l.length ≠ 0 := fun h0 => hempty (eq_nil_of_length_eq_zero h0 ▸ mem_cons_self)
      rw [hr.1, replyTo]
      split <;> omega

def holding (s : Bytes) : Writer := { jsonWInit 64 with buf := s }

/-- Two lines through a buffer of four bytes. -/
theorem framed_iff_short :
    Framed 4 [[49], [123, 125]] [[49, 10, 123], [125, 10]] :=
  (@framed_iff (fun _ => 1) [holding [49], holding [123, 125]] _ (fun _ => Nat.one_pos)
    (by simp [holding, jsonWInit]) (by decide) 4 (by decide)).mpr ⟨by decide, by decide⟩

/-- An empty line between two others ends the input for its reader. -/
theorem empty_line_is_end :
    ¬ ∀ (cap : Int) (io : Nat → Nat) (ws : List Writer) (ps : List Bytes), 2 ≤ cap →
      (∀ k, 0 < io k) → (∀ w ∈ ws, w.ok = true ∧ newline ∉ w.buf ∧ w.buf.length < cap) →
      ps.flatten = emitAll io 0 ws → Framed cap (ws.map (·.buf)) ps := by
  intro h
  obtain ⟨rs, hrs, hall⟩ := h 4 (fun _ => 1) [holding [49], holding [], holding [50]]
    [[49, 10, 10, 50, 10]] (by decide) (fun _ => one_pos) (by simp [holding, jsonWInit, newline])
    (by decide)
  have hread : replies 4 4 [[49, 10, 10, 50, 10]] =
      [⟨1, [49]⟩, ⟨0, []⟩, ⟨1, [50]⟩] ++ [⟨0, []⟩] := by decide
  have heq : rs = [⟨1, [49]⟩, ⟨0, []⟩, ⟨1, [50]⟩] := append_cancel_right (hrs.symm.trans hread)
  subst heq
  obtain ⟨-, hall⟩ := forall₂_cons.mp hall
  exact (forall₂_cons.mp hall).1.1 rfl

end AdventOS.Json
