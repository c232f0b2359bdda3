import AdventOS.Json.Parser

/-!
# The JSON writer and the round trip (`libjson/libjson.c`)

The writer appends to a buffer of `cap` bytes and remembers, per open container, whether
the next child is the first. `emit` is the sequence of calls that writes a tree.

* `emit_spec`: when the writer finishes with `ok` set, the buffer holds `render j`;
* `render_text`: that is a text, and what its tokens are;
* `round_trip_iff`;
* `two_byte_character_doubled`.
-/
namespace AdventOS.Json
open Function List

/-! ## The functions -/

/-- libjson.h:71-84; `len` is the length of `buf`. -/
structure Writer where
  buf : Bytes
  cap : Nat
  ok : Bool
  depth : Nat
  first : Nat → Bool
  expectValue : Bool

def jsonWMaxDepth : Nat := 32

/-- libjson.c:115-123 -/
def jsonWInit (cap : Nat) : Writer := ⟨[], cap, true, 0, fun _ => false, false⟩

/-- libjson.c:40-44 -/
def putN (w : Writer) (s : Bytes) : Writer :=
  if w.ok = false then w
  else if w.buf.length + s.length > w.cap then { w with ok := false }
  else { w with buf := w.buf ++ s }

/-- libjson.c:34-38 -/
def putChar (w : Writer) (c : UInt8) : Writer := putN w [c]

/-- libjson.c:60-76 -/
def preEmit (w : Writer) : Writer :=
  if w.ok = false then w
  else if w.depth = 0 then w
  else if w.expectValue then { w with expectValue := false }
  else if w.first (w.depth - 1) then { w with first := update w.first (w.depth - 1) false }
  else putChar w comma

def hexByte (n : Nat) : UInt8 := if n < 10 then UInt8.ofNat (48 + n) else UInt8.ofNat (87 + n)

/-- One byte of a string. libjson.c:82-107 -/
def escaped (c : UInt8) : Bytes :=
  if c = quote then [backslash, quote]
  else if c = backslash then [backslash, backslash]
  else if c = 8 then [backslash, 98]
  else if c = 12 then [backslash, 102]
  else if c = 10 then [backslash, 110]
  else if c = 13 then [backslash, 114]
  else if c = 9 then [backslash, 116]
  else if c < 32 then [backslash, 117, 48, 48, hexByte (c.toNat / 16), hexByte (c.toNat % 16)]
  else [c]

/-- libjson.c:78-110 -/
def putEscapedStr (w : Writer) (s : Bytes) : Writer :=
  putChar (s.foldl (fun w c => putN w (escaped c)) (putChar w quote)) quote

/-- libjson.c:134-140 and 148-154, `{` or `[`. -/
def jsonBegin (c : UInt8) (w : Writer) : Writer :=
  if w.depth ≥ jsonWMaxDepth then { w with ok := false }
  else
    let w := putChar (preEmit w) c
    { w with first := update w.first w.depth true, depth := w.depth + 1 }

/-- libjson.c:142-146 and 156-160, `}` or `]`. -/
def jsonEnd (c : UInt8) (w : Writer) : Writer :=
  if w.depth = 0 then { w with ok := false } else putChar { w with depth := w.depth - 1 } c

def jsonObjBegin : Writer → Writer := jsonBegin lbrace
def jsonObjEnd : Writer → Writer := jsonEnd rbrace
def jsonArrBegin : Writer → Writer := jsonBegin lbracket
def jsonArrEnd : Writer → Writer := jsonEnd rbracket

/-- The bytes of a C string up to its NUL. -/
def cString (s : Bytes) : Bytes := s.takeWhile fun c => c ≠ 0

/-- libjson.c:162-168 -/
def jsonKey (w : Writer) (key : Bytes) : Writer :=
  { putChar (putEscapedStr (preEmit w) (cString key)) colon with expectValue := true }

/-- libjson.c:174-177 -/
def jsonStrN (w : Writer) (s : Bytes) : Writer := putEscapedStr (preEmit w) s

/-- The digits of the loop in `put_dec`, most significant first; a 32-bit number has at
most ten. -/
def decLoop : (fuel u : Nat) → List (Fin 10)
  | 0, _ => []
  | fuel + 1, u =>
    if u = 0 then [] else decLoop fuel (u / 10) ++ [⟨u % 10, Nat.mod_lt u (Nat.succ_pos 9)⟩]

theorem ten_pos : 0 < 10 := Nat.succ_pos 9

def decDigits (u : Nat) : List (Fin 10) := if u = 0 then [⟨0, ten_pos⟩] else decLoop 10 u

/-- libjson.c:179-186 -/
def putDec (w : Writer) (u : Nat) (neg : Bool) : Writer :=
  ((decDigits u).map digitByte).foldl putChar (if neg then putChar w minus else w)

/-- libjson.c:188-194 -/
def jsonInt (w : Writer) (v : Int) : Writer :=
  let w := preEmit w
  if v < 0 then putDec w ((-v) % 2 ^ 32).toNat true else putDec w v.toNat false

/-- libjson.c:201-205 -/
def jsonBool (w : Writer) (b : Bool) : Writer :=
  if b then putN (preEmit w) kwTrue else putN (preEmit w) kwFalse

/-- libjson.c:207-210 -/
def jsonNull (w : Writer) : Writer := putN (preEmit w) kwNull

mutual
def emit : Value → Writer → Writer
  | .null, w => jsonNull w
  | .bool b, w => jsonBool w b
  | .num n, w => jsonInt w n
  | .str s, w => jsonStrN w s
  | .arr l, w => jsonArrEnd (emitItems l (jsonArrBegin w))
  | .obj l, w => jsonObjEnd (emitMembers l (jsonObjBegin w))

def emitItems : List Value → Writer → Writer
  | [], w => w
  | v :: vs, w => emitItems vs (emit v w)

def emitMembers : List (Bytes × Value) → Writer → Writer
  | [], w => w
  | (k, v) :: ms, w => emitMembers ms (emit v (jsonKey w k))
end

/-! ## What is written -/

def renderStr (s : Bytes) : Bytes := quote :: (s.flatMap escaped ++ [quote])

def numberOf (n : Int) : Number := ⟨decide (n < 0), decDigits n.natAbs⟩

def renderInt (n : Int) : Bytes :=
  (if n < 0 then [minus] else []) ++ (decDigits n.natAbs).map digitByte

/-- The comma in front of all children but the first. -/
def sep (first : Bool) : Bytes := if first then [] else [comma]

mutual
def render : Value → Bytes
  | .null => kwNull
  | .bool b => if b then kwTrue else kwFalse
  | .num n => renderInt n
  | .str s => renderStr s
  | .arr l => lbracket :: (renderItems true l ++ [rbracket])
  | .obj l => lbrace :: (renderMembers true l ++ [rbrace])

def renderItems : Bool → List Value → Bytes
  | _, [] => []
  | first, v :: vs => sep first ++ (render v ++ renderItems false vs)

def renderMembers : Bool → List (Bytes × Value) → Bytes
  | _, [] => []
  | first, (k, v) :: ms =>
    sep first ++ (renderStr (cString k) ++ colon :: (render v ++ renderMembers false ms))
end

/-- Text appended to the buffer. -/
def Writer.append (w : Writer) (s : Bytes) : Writer := { w with buf := w.buf ++ s }

@[simp] theorem Writer.append_buf (w : Writer) (s : Bytes) : (w.append s).buf = w.buf ++ s := rfl
@[simp] theorem Writer.append_depth (w : Writer) (s : Bytes) : (w.append s).depth = w.depth := rfl
@[simp] theorem Writer.append_first (w : Writer) (s : Bytes) : (w.append s).first = w.first := rfl
@[simp] theorem Writer.append_ok (w : Writer) (s : Bytes) : (w.append s).ok = w.ok := rfl
@[simp] theorem Writer.append_expectValue (w : Writer) (s : Bytes) :
    (w.append s).expectValue = w.expectValue := rfl

theorem Writer.append_append (w : Writer) (s t : Bytes) :
    (w.append s).append t = w.append (s ++ t) := by
  unfold Writer.append
  rw [append_assoc]

variable {r w : Writer} {s t : Bytes} {c : UInt8} {u : Nat} {n : Int}

theorem putN_ok (h : (putN w s).ok = true) :
    w.ok = true ∧ putN w s = w.append s := by
  unfold putN at *
  split at h
  · rename_i hok
    rw [hok] at h
    cases h
  · rename_i hok
    rw [if_neg hok] at *
    split at h
    · cases h
    · rename_i hroom
      rw [if_neg hroom]
      exact ⟨h, rfl⟩

theorem putChar_ok (h : (putChar w c).ok = true) :
    w.ok = true ∧ putChar w c = w.append [c] := putN_ok h

theorem putAll_ok {f : UInt8 → Bytes}
    (h : (s.foldl (fun w c => putN w (f c)) w).ok = true) :
    w.ok = true ∧ s.foldl (fun w c => putN w (f c)) w = w.append (s.flatMap f) := by
  induction s generalizing w with
  | nil =>
    refine ⟨h, ?_⟩
    unfold Writer.append
    rw [flatMap_nil, append_nil]
    rfl
  | cons c s ih =>
    rw [foldl_cons] at h ⊢
    obtain ⟨hok, heq⟩ := ih h
    obtain ⟨hw, hput⟩ := putN_ok hok
    rw [heq, hput, Writer.append_append, flatMap_cons]
    exact ⟨hw, rfl⟩

theorem putEscapedStr_ok (h : (putEscapedStr w s).ok = true) :
    w.ok = true ∧ putEscapedStr w s = w.append (renderStr s) := by
  unfold putEscapedStr at *
  obtain ⟨h1, e1⟩ := putChar_ok h
  obtain ⟨h2, e2⟩ := putAll_ok h1
  obtain ⟨h3, e3⟩ := putChar_ok h2
  refine ⟨h3, ?_⟩
  rw [e1, e2, e3, Writer.append_append, Writer.append_append]
  rfl

theorem putDec_ok {neg : Bool} (h : (putDec w u neg).ok = true) :
    w.ok = true ∧ putDec w u neg =
      w.append ((if neg then [minus] else []) ++ (decDigits u).map digitByte) := by
  unfold putDec at *
  have hfold : ∀ w : Writer, ((decDigits u).map digitByte).foldl putChar w =
      ((decDigits u).map digitByte).foldl (fun w c => putN w [c]) w := fun _ => rfl
  rw [hfold] at h ⊢
  obtain ⟨h1, e1⟩ := putAll_ok (f := fun c => [c]) h
  have hflat : ((decDigits u).map digitByte).flatMap (fun c => [c]) =
      (decDigits u).map digitByte := flatMap_singleton' _
  rw [e1, hflat]
  cases neg with
  | false => exact ⟨h1, rfl⟩
  | true =>
    obtain ⟨h2, e2⟩ := putChar_ok h1
    refine ⟨h2, ?_⟩
    rw [if_pos rfl, e2, Writer.append_append]
    rfl

theorem preEmit_ok (h : (preEmit w).ok = true) : w.ok = true := by
  unfold preEmit at h
  split at h
  · exact h
  · rename_i hok
    simpa using hok

theorem preEmit_child (h : (preEmit w).ok = true) (hd : 0 < w.depth)
    (hv : w.expectValue = false) :
    (preEmit w).buf = w.buf ++ sep (w.first (w.depth - 1)) ∧ (preEmit w).depth = w.depth ∧
      (preEmit w).expectValue = false ∧ (preEmit w).first (w.depth - 1) = false ∧
      ∀ i < w.depth - 1, (preEmit w).first i = w.first i := by
  have hok := preEmit_ok h
  unfold preEmit at *
  rw [if_neg (by simp [hok]), if_neg (by omega), if_neg (by simp [hv])] at *
  split at h
  · rename_i hf
    rw [if_pos hf, hf]
    refine ⟨(append_nil _).symm, rfl, hv, update_self .., fun i hi => ?_⟩
    exact update_of_ne (by omega) _ _
  · rename_i hf
    obtain ⟨-, e⟩ := putChar_ok h
    have hf : w.first (w.depth - 1) = false := by simpa using hf
    rw [if_neg (by simp [hf]), e, hf]
    exact ⟨rfl, rfl, hv, hf, fun i _ => rfl⟩

theorem preEmit_value (h : (preEmit w).ok = true) (hd : 0 < w.depth)
    (hv : w.expectValue = true) : preEmit w = { w with expectValue := false } := by
  have hok := preEmit_ok h
  unfold preEmit
  rw [if_neg (by simp [hok]), if_neg (by omega), if_pos hv]

/-- `r` is `w` with `s` appended, and perhaps other flags for containers that are not open. -/
structure Wrote (w r : Writer) (s : Bytes) : Prop where
  buf : r.buf = w.buf ++ s
  depth : r.depth = w.depth
  value : r.expectValue = w.expectValue
  first : ∀ i < w.depth, r.first i = w.first i

theorem Wrote.of_append (h : r = w.append s) : Wrote w r s := by
  rw [h]
  exact ⟨rfl, rfl, rfl, fun i _ => rfl⟩

theorem preEmit_expectValue (h : (preEmit w).ok = true)
    (hw : w.depth = 0 → w.expectValue = false) : (preEmit w).expectValue = false := by
  rcases Nat.eq_zero_or_pos w.depth with hd | hd
  · have hok := preEmit_ok h
    unfold preEmit
    rw [if_neg (by simp [hok]), if_pos hd]
    exact hw hd
  · cases hv : w.expectValue with
    | false => exact (preEmit_child h hd hv).2.2.1
    | true => rw [preEmit_value h hd hv]

theorem jsonBegin_ok (h : (jsonBegin c w).ok = true) :
    (preEmit w).ok = true ∧ (jsonBegin c w).buf = (preEmit w).buf ++ [c] ∧
      (jsonBegin c w).depth = (preEmit w).depth + 1 ∧
      (jsonBegin c w).expectValue = (preEmit w).expectValue ∧
      (jsonBegin c w).first (preEmit w).depth = true ∧
      ∀ i < (preEmit w).depth, (jsonBegin c w).first i = (preEmit w).first i := by
  unfold jsonBegin at *
  split at h
  · cases h
  · rename_i hd
    rw [if_neg hd]
    obtain ⟨hok, e⟩ := putChar_ok h
    rw [e]
    exact ⟨hok, rfl, rfl, rfl, update_self .., fun i hi =>
      update_of_ne (Nat.ne_of_lt hi) _ _⟩

theorem jsonEnd_ok (h : (jsonEnd c w).ok = true) :
    w.ok = true ∧ jsonEnd c w = Writer.append { w with depth := w.depth - 1 } [c] := by
  unfold jsonEnd at *
  split at h
  · cases h
  · rename_i hd
    rw [if_neg hd]
    exact putChar_ok h

theorem jsonInt_ok (h1 : -2 ^ 31 ≤ n) (h2 : n < 2 ^ 31)
    (h : (jsonInt w n).ok = true) :
    (preEmit w).ok = true ∧ jsonInt w n = (preEmit w).append (renderInt n) := by
  unfold jsonInt at *
  unfold renderInt
  split at h
  · rename_i hneg
    obtain ⟨hok, e⟩ := putDec_ok h
    have habs : ((-n) % 2 ^ 32).toNat = n.natAbs := by omega
    rw [if_pos hneg, if_pos hneg, e, habs]
    exact ⟨hok, rfl⟩
  · rename_i hneg
    obtain ⟨hok, e⟩ := putDec_ok h
    have habs : n.toNat = n.natAbs := by omega
    rw [if_neg hneg, if_neg hneg, e, habs]
    exact ⟨hok, rfl⟩

/-- The integers of the tree are 32-bit. -/
def Fits (n : Int) : Prop := -2 ^ 31 ≤ n ∧ n < 2 ^ 31

theorem jsonKey_ok {k : Bytes} (h : (jsonKey w k).ok = true) :
    (preEmit w).ok = true ∧ (jsonKey w k).expectValue = true ∧
      (jsonKey w k).buf = (preEmit w).buf ++ (renderStr (cString k) ++ [colon]) ∧
      (jsonKey w k).depth = (preEmit w).depth ∧ (jsonKey w k).first = (preEmit w).first := by
  unfold jsonKey at *
  obtain ⟨h1, e1⟩ := putChar_ok h
  obtain ⟨h2, e2⟩ := putEscapedStr_ok h1
  rw [e1, e2, Writer.append_append]
  exact ⟨h2, rfl, rfl, rfl, rfl⟩

theorem jsonInt_wasOk (h : (jsonInt w n).ok = true) : w.ok = true := by
  unfold jsonInt at h
  split at h
  · exact preEmit_ok (putDec_ok h).1
  · exact preEmit_ok (putDec_ok h).1

mutual
theorem emit_wasOk : (j : Value) → ∀ w : Writer, (emit j w).ok = true → w.ok = true
  | .null, _, h => preEmit_ok (putN_ok h).1
  | .bool true, _, h => preEmit_ok (putN_ok h).1
  | .bool false, _, h => preEmit_ok (putN_ok h).1
  | .num _, _, h => jsonInt_wasOk h
  | .str _, _, h => preEmit_ok (putEscapedStr_ok h).1
  | .arr l, _, h => preEmit_ok (jsonBegin_ok (emitItems_wasOk l _ (jsonEnd_ok h).1)).1
  | .obj l, _, h => preEmit_ok (jsonBegin_ok (emitMembers_wasOk l _ (jsonEnd_ok h).1)).1

theorem emitItems_wasOk : (l : List Value) → ∀ w : Writer, (emitItems l w).ok = true → w.ok = true
  | [], _, h => h
  | v :: vs, w, h => emit_wasOk v w (emitItems_wasOk vs _ h)

theorem emitMembers_wasOk : (l : List (Bytes × Value)) → ∀ w : Writer,
    (emitMembers l w).ok = true → w.ok = true
  | [], _, h => h
  | (_, v) :: ms, _, h => preEmit_ok (jsonKey_ok (emit_wasOk v _ (emitMembers_wasOk ms _ h))).1
end

/-- The children of one open container: the buffer grew by `s`, and the flags of the
containers around it are as they were. -/
structure Filled (w r : Writer) (s : Bytes) : Prop where
  buf : r.buf = w.buf ++ s
  depth : r.depth = w.depth
  value : r.expectValue = false
  first : ∀ i < w.depth - 1, r.first i = w.first i

theorem container_spec {d : UInt8} {s : Bool → Bytes}
    (hw : w.depth = 0 → w.expectValue = false) (hopen : (jsonBegin c w).ok = true)
    (hfill : 0 < (jsonBegin c w).depth → (jsonBegin c w).expectValue = false →
      Filled (jsonBegin c w) r (s ((jsonBegin c w).first ((jsonBegin c w).depth - 1))))
    (hclose : (jsonEnd d r).ok = true) :
    (preEmit w).ok = true ∧ Wrote (preEmit w) (jsonEnd d r) (c :: (s true ++ [d])) := by
  obtain ⟨hok, hbuf, hdepth, hval, hfirst, hrest⟩ := jsonBegin_ok hopen
  obtain ⟨-, e⟩ := jsonEnd_ok hclose
  have hoff := preEmit_expectValue hok hw
  have hprev : (jsonBegin c w).depth - 1 = (preEmit w).depth := by omega
  have hf := hfill (by omega) (hval.trans hoff)
  rw [hprev, hfirst] at hf
  refine ⟨hok, ?_, ?_, ?_, ?_⟩
  · rw [e, Writer.append_buf]
    rw [hf.buf, hbuf, append_assoc, append_assoc]
    rfl
  · rw [e, Writer.append_depth]
    rw [hf.depth, hprev]
  · rw [e, Writer.append_expectValue]
    rw [hf.value, hoff]
  · intro i hi
    rw [e, Writer.append_first]
    rw [hf.first i (by omega), hrest i hi]

theorem Filled.cons {v : Writer} {a b : Bytes} (hbuf : v.buf = w.buf ++ (a ++ b))
    (hdepth : v.depth = w.depth) (hfirst : ∀ i < w.depth - 1, v.first i = w.first i)
    (h : Filled v r s) : Filled w r (a ++ (b ++ s)) where
  buf := by rw [h.buf, hbuf, append_assoc, append_assoc]
  depth := h.depth.trans hdepth
  value := h.value
  first i hi := by rw [h.first i (by omega), hfirst i hi]

mutual
/-- **What is written**, by induction on the tree: if the writer is still `ok` at the end, the
comma and the rendered value were appended. -/
theorem emit_spec : (j : Value) → (∀ n ∈ j.numbers, Fits n) → ∀ w : Writer,
    (w.depth = 0 → w.expectValue = false) → (emit j w).ok = true →
    (preEmit w).ok = true ∧ Wrote (preEmit w) (emit j w) (render j)
  | .null, _, w, _, h => by
    obtain ⟨hok, e⟩ := putN_ok h
    exact ⟨hok, .of_append e⟩
  | .bool true, _, w, _, h => by
    obtain ⟨hok, e⟩ := putN_ok h
    exact ⟨hok, .of_append e⟩
  | .bool false, _, w, _, h => by
    obtain ⟨hok, e⟩ := putN_ok h
    exact ⟨hok, .of_append e⟩
  | .num n, hfit, w, _, h => by
    obtain ⟨h1, h2⟩ := hfit n (mem_singleton_self n)
    obtain ⟨hok, e⟩ := jsonInt_ok h1 h2 h
    exact ⟨hok, .of_append e⟩
  | .str s, _, w, _, h => by
    obtain ⟨hok, e⟩ := putEscapedStr_ok h
    exact ⟨hok, .of_append e⟩
  | .arr l, hfit, w, hw, h => by
    have hitems := (jsonEnd_ok h).1
    exact container_spec (s := fun f => renderItems f l) hw (emitItems_wasOk l _ hitems)
      (fun hd hv => emitItems_spec l hfit _ hd hv hitems) h
  | .obj l, hfit, w, hw, h => by
    have hmembers := (jsonEnd_ok h).1
    exact container_spec (s := fun f => renderMembers f l) hw (emitMembers_wasOk l _ hmembers)
      (fun hd hv => emitMembers_spec l hfit _ hd hv hmembers) h

theorem emitItems_spec : (l : List Value) → (∀ n ∈ itemsNumbers l, Fits n) → ∀ w : Writer,
    0 < w.depth → w.expectValue = false → (emitItems l w).ok = true →
    Filled w (emitItems l w) (renderItems (w.first (w.depth - 1)) l)
  | [], _, w, _, hv, _ => ⟨(append_nil _).symm, rfl, hv, fun _ _ => rfl⟩
  | v :: vs, hfit, w, hd, hv, h => by
    obtain ⟨hok, hv1⟩ := emit_spec v (fun n hn => hfit n (mem_append_left _ hn)) w
      (fun h0 => absurd h0 (by omega)) (emitItems_wasOk vs _ h)
    obtain ⟨hbuf, hdepth, hval, hfirst, hrest⟩ := preEmit_child hok hd hv
    have hd1 : (emit v w).depth = w.depth := hv1.depth.trans hdepth
    have hf1 : (emit v w).first (w.depth - 1) = false := by
      rw [hv1.first _ (by omega), hfirst]
    have hvs := emitItems_spec vs (fun n hn => hfit n (mem_append_right _ hn)) (emit v w)
      (by omega) (hv1.value.trans hval) h
    rw [hd1, hf1] at hvs
    refine Filled.cons ?_ hd1 (fun i hi => ?_) hvs
    · rw [hv1.buf, hbuf, append_assoc]
    · rw [hv1.first i (by omega), hrest i hi]

theorem emitMembers_spec : (l : List (Bytes × Value)) → (∀ n ∈ membersNumbers l, Fits n) →
    ∀ w : Writer, 0 < w.depth → w.expectValue = false → (emitMembers l w).ok = true →
    Filled w (emitMembers l w) (renderMembers (w.first (w.depth - 1)) l)
  | [], _, w, _, hv, _ => ⟨(append_nil _).symm, rfl, hv, fun _ _ => rfl⟩
  | (k, v) :: ms, hfit, w, hd, hv, h => by
    have hkey := emit_wasOk v _ (emitMembers_wasOk ms _ h)
    obtain ⟨hok, hkval, hkbuf, hkdepth, hkfirst⟩ := jsonKey_ok hkey
    obtain ⟨hbuf, hdepth, hval, hfirst, hrest⟩ := preEmit_child hok hd hv
    have hdk : (jsonKey w k).depth = w.depth := hkdepth.trans hdepth
    obtain ⟨hok1, hv1⟩ := emit_spec v (fun n hn => hfit n (mem_append_left _ hn))
      (jsonKey w k) (fun h0 => absurd h0 (by omega)) (emitMembers_wasOk ms _ h)
    rw [preEmit_value hok1 (by omega) hkval] at hv1
    have hd1 : (emit v (jsonKey w k)).depth = w.depth := hv1.depth.trans hdk
    have hfw : ∀ i < w.depth, (emit v (jsonKey w k)).first i = (preEmit w).first i := by
      intro i hi
      rw [hv1.first i (by dsimp only; omega)]
      rw [hkfirst]
    have hvs := emitMembers_spec ms (fun n hn => hfit n (mem_append_right _ hn))
      (emit v (jsonKey w k)) (by omega) hv1.value h
    rw [hd1, hfw _ (by omega), hfirst] at hvs
    have hmember : (emit v (jsonKey w k)).buf =
        w.buf ++ (sep (w.first (w.depth - 1)) ++ (renderStr (cString k) ++ (colon :: render v))) := by
      rw [hv1.buf]
      rw [hkbuf, hbuf]
      simp only [append_assoc, cons_append, nil_append]
    have hall := Filled.cons hmember hd1 (fun i hi => by rw [hfw i (by omega), hrest i hi]) hvs
    rwa [append_assoc, cons_append] at hall
end

/-! ## The written text and its tokens -/

/-- The piece that the written form of a byte is. -/
def pieceOf (c : UInt8) : Piece :=
  if c = quote then .escape quote
  else if c = backslash then .escape backslash
  else if c = 8 then .escape 98
  else if c = 12 then .escape 102
  else if c = 10 then .escape 110
  else if c = 13 then .escape 114
  else if c = 9 then .escape 116
  else if c < 32 then .unicode 48 48 (hexByte (c.toNat / 16)) (hexByte (c.toNat % 16))
  else .byte c

mutual
def tokens : Value → Raw
  | .null => .null
  | .bool b => .bool b
  | .num n => .num (numberOf n)
  | .str s => .str (s.map pieceOf)
  | .arr l => .arr (itemsTokens l)
  | .obj l => .obj (membersTokens l)

def itemsTokens : List Value → List Raw
  | [] => []
  | v :: vs => tokens v :: itemsTokens vs

def membersTokens : List (Bytes × Value) → List (List Piece × Raw)
  | [] => []
  | (k, v) :: ms => ((cString k).map pieceOf, tokens v) :: membersTokens ms
end

theorem hexDigit_hexByte (n : Fin 16) : hexDigit (hexByte n) = some n.val := by
  revert n
  decide

theorem hexDigit_isSome {n : Nat} (h : n < 16) : (hexDigit (hexByte n)).isSome := by
  rw [hexDigit_hexByte ⟨n, h⟩]
  rfl

theorem escaped_body {ps : List Piece} (h : Body s ps t) :
    Body (escaped c ++ s) (pieceOf c :: ps) t := by
  have h48 : (hexDigit 48).isSome := rfl
  have hc := c.toNat_lt
  unfold escaped pieceOf
  by_cases h1 : c = quote
  · rw [if_pos h1, if_pos h1]
    exact .escape rfl h
  rw [if_neg h1, if_neg h1]
  by_cases h2 : c = backslash
  · rw [if_pos h2, if_pos h2]
    exact .escape rfl h
  rw [if_neg h2, if_neg h2]
  by_cases h3 : c = 8
  · rw [if_pos h3, if_pos h3]
    exact .escape rfl h
  rw [if_neg h3, if_neg h3]
  by_cases h4 : c = 12
  · rw [if_pos h4, if_pos h4]
    exact .escape rfl h
  rw [if_neg h4, if_neg h4]
  by_cases h5 : c = 10
  · rw [if_pos h5, if_pos h5]
    exact .escape rfl h
  rw [if_neg h5, if_neg h5]
  by_cases h6 : c = 13
  · rw [if_pos h6, if_pos h6]
    exact .escape rfl h
  rw [if_neg h6, if_neg h6]
  by_cases h7 : c = 9
  · rw [if_pos h7, if_pos h7]
    exact .escape rfl h
  rw [if_neg h7, if_neg h7]
  by_cases h8 : c < 32
  · rw [if_pos h8, if_pos h8]
    exact .unicode h48 h48 (hexDigit_isSome (by omega)) (hexDigit_isSome (by omega)) h
  · rw [if_neg h8, if_neg h8]
    exact .byte (UInt8.not_lt.1 h8) h1 h2 h

theorem renderStr_body (s t : Bytes) :
    Body (s.flatMap escaped ++ quote :: t) (s.map pieceOf) t := by
  induction s with
  | nil => exact .close
  | cons c s ih =>
    rw [flatMap_cons, append_assoc, map_cons]
    exact escaped_body ih

theorem decDigits_ne_nil (u : Nat) : decDigits u ≠ [] := by
  unfold decDigits
  split
  · simp
  · rename_i hu
    unfold decLoop
    rw [if_neg hu]
    simp

/-- What may stand behind a value. -/
def Follows (t : Bytes) : Prop := ∀ c ∈ t.head?, continues c = false

theorem follows_cons (h : continues c = false) : Follows (c :: t) := by
  intro d hd
  obtain rfl : c = d := by simpa using hd
  exact h

theorem renderInt_num (n : Int) (ht : Follows t) :
    Num (renderInt n ++ t) (numberOf n) t where
  digits := decDigits_ne_nil _
  text := by
    unfold renderInt numberOf
    rw [append_assoc]
    simp
  ends := ht

theorem renderStr_append (s t : Bytes) :
    renderStr s ++ t = quote :: (s.flatMap escaped ++ quote :: t) := by
  unfold renderStr
  rw [cons_append, append_assoc, cons_append, nil_append]

mutual
theorem render_reads : (j : Value) → ∀ t, Follows t →
    Reads (render j ++ t) (.value (tokens j)) t
  | .null, _, _ => .null
  | .bool true, _, _ => .yes
  | .bool false, _, _ => .no
  | .num n, _, ht => .num (renderInt_num n ht)
  | .str s, t, _ => by
    unfold render
    rw [renderStr_append]
    exact .str (renderStr_body s t)
  | .arr [], _, _ => .emptyArr .nil
  | .arr (v :: vs), t, _ => by
    have h := renderItems_reads (v :: vs) (by simp) t
    unfold render
    rw [cons_append, append_assoc]
    exact .arr h
  | .obj [], _, _ => .emptyObj .nil
  | .obj (m :: ms), t, _ => by
    have h := renderMembers_reads (m :: ms) (by simp) t
    unfold render
    rw [cons_append, append_assoc]
    exact .obj h

theorem renderItems_reads : (l : List Value) → l ≠ [] → ∀ t,
    Reads (renderItems true l ++ ([rbracket] ++ t)) (.items (itemsTokens l)) t
  | [], h, _ => absurd rfl h
  | [v], _, t => by
    have hv := render_reads v (rbracket :: t) (follows_cons rfl)
    have heq : renderItems true [v] ++ ([rbracket] ++ t) = render v ++ rbracket :: t := by
      simp [renderItems, sep]
    rw [heq]
    exact .lastItem .nil hv .nil
  | v :: w :: vs, _, t => by
    have hv := render_reads v (comma :: (renderItems true (w :: vs) ++ ([rbracket] ++ t)))
      (follows_cons rfl)
    have hvs := renderItems_reads (w :: vs) (by simp) t
    have heq : renderItems true (v :: w :: vs) ++ ([rbracket] ++ t) =
        render v ++ comma :: (renderItems true (w :: vs) ++ ([rbracket] ++ t)) := by
      simp [renderItems, sep]
    rw [heq]
    exact .item .nil hv .nil hvs

theorem renderMembers_reads : (l : List (Bytes × Value)) → l ≠ [] → ∀ t,
    Reads (renderMembers true l ++ ([rbrace] ++ t)) (.members (membersTokens l)) t
  | [], h, _ => absurd rfl h
  | [(k, v)], _, t => by
    have hv := render_reads v (rbrace :: t) (follows_cons rfl)
    have heq : renderMembers true [(k, v)] ++ ([rbrace] ++ t) =
        quote :: ((cString k).flatMap escaped ++ quote :: colon :: (render v ++ rbrace :: t)) := by
      simp [renderMembers, sep, renderStr]
    rw [heq]
    exact .lastMember .nil (renderStr_body _ _) .nil .nil hv .nil
  | (k, v) :: m :: ms, _, t => by
    have hv := render_reads v (comma :: (renderMembers true (m :: ms) ++ ([rbrace] ++ t)))
      (follows_cons rfl)
    have hms := renderMembers_reads (m :: ms) (by simp) t
    have heq : renderMembers true ((k, v) :: m :: ms) ++ ([rbrace] ++ t) =
        quote :: ((cString k).flatMap escaped ++ quote :: colon ::
          (render v ++ comma :: (renderMembers true (m :: ms) ++ ([rbrace] ++ t)))) := by
      simp [renderMembers, sep, renderStr]
    rw [heq]
    exact .member .nil (renderStr_body _ _) .nil .nil hv .nil hms
end

theorem render_text (j : Value) : Text (render j) (tokens j) := by
  have h := render_reads j [] fun c hc => nomatch hc
  rw [append_nil] at h
  exact ⟨_, _, .nil, h, .nil⟩

/-! ## What comes back -/

/-- A string as the parser decodes it: each byte is taken for a code point. -/
def doubled (s : Bytes) : Bytes := s.flatMap fun c => utf8Bytes c.toNat

mutual
/-- The tree that comes back from the written form. -/
def readBack : Value → Value
  | .null => .null
  | .bool b => .bool b
  | .num n => .num n
  | .str s => .str (doubled s)
  | .arr l => .arr (itemsReadBack l)
  | .obj l => .obj (membersReadBack l)

def itemsReadBack : List Value → List Value
  | [] => []
  | v :: vs => readBack v :: itemsReadBack vs

def membersReadBack : List (Bytes × Value) → List (Bytes × Value)
  | [] => []
  | (k, v) :: ms => (doubled (cString k), readBack v) :: membersReadBack ms
end

theorem unicodeOf_hexByte (h : c < 32) :
    unicodeOf 48 48 (hexByte (c.toNat / 16)) (hexByte (c.toNat % 16)) = some c.toNat := by
  have hlt : c.toNat < 32 := h
  have h48 : hexDigit 48 = some 0 := rfl
  have h1 := hexDigit_hexByte ⟨c.toNat / 16, by omega⟩
  have h2 := hexDigit_hexByte ⟨c.toNat % 16, by omega⟩
  unfold unicodeOf
  rw [h48, h1, h2]
  dsimp only
  rw [if_neg (by omega)]
  congr 1
  omega

theorem pieceOf_codePoint (c : UInt8) : (pieceOf c).codePoint = c.toNat := by
  unfold pieceOf
  split
  · rename_i h
    rw [h]
    rfl
  · split
    · rename_i h
      rw [h]
      rfl
    · split
      · rename_i h
        rw [h]
        rfl
      · split
        · rename_i h
          rw [h]
          rfl
        · split
          · rename_i h
            rw [h]
            rfl
          · split
            · rename_i h
              rw [h]
              rfl
            · split
              · rename_i h
                rw [h]
                rfl
              · split
                · rename_i h
                  exact codePoint_unicode (unicodeOf_hexByte h)
                · rfl

theorem strBytes_pieces (s : Bytes) : strBytes (s.map pieceOf) = doubled s := by
  unfold strBytes doubled
  rw [flatMap_map]
  simp only [pieceOf_codePoint]

theorem ofDigits_snoc (l : List (Fin 10)) (d : Fin 10) :
    ofDigits (l ++ [d]) = ofDigits l * 10 + d.val := by
  unfold ofDigits
  rw [foldl_append]
  rfl

theorem ofDigits_decLoop {fuel : Nat} (h : u < 10 ^ fuel) : ofDigits (decLoop fuel u) = u := by
  induction fuel generalizing u with
  | zero =>
    rw [Nat.pow_zero] at h
    obtain rfl : u = 0 := by omega
    rfl
  | succ fuel ih =>
    unfold decLoop
    split
    · rename_i h0
      rw [h0]
      rfl
    · rw [ofDigits_snoc, ih (by rw [Nat.pow_succ] at h; omega)]
      dsimp only
      omega

theorem ofDigits_decDigits (h : u < 10 ^ 10) : ofDigits (decDigits u) = u := by
  unfold decDigits
  split
  · rename_i h0
    rw [h0]
    rfl
  · exact ofDigits_decLoop h

theorem numberOf_value (h : Fits n) : (numberOf n).value = n := by
  obtain ⟨h1, h2⟩ := h
  unfold Number.value numberOf
  rw [ofDigits_decDigits (by omega)]
  by_cases hn : n < 0
  · rw [if_pos (by simpa using hn)]
    omega
  · rw [if_neg (by simpa using hn)]
    omega

mutual
theorem tokens_meaning : (j : Value) → (∀ n ∈ j.numbers, Fits n) →
    (∀ n ∈ (tokens j).numbers, InRange n) ∧ meaning (tokens j) = readBack j
  | .null, _ => ⟨fun _ hn => (not_mem_nil hn).elim, rfl⟩
  | .bool _, _ => ⟨fun _ hn => (not_mem_nil hn).elim, rfl⟩
  | .num n, h => by
    have hfit := h n (mem_singleton_self n)
    have hval := numberOf_value hfit
    refine ⟨fun m hm => ?_, ?_⟩
    · obtain rfl : m = numberOf n := mem_singleton.1 hm
      unfold InRange
      rw [hval]
      exact hfit
    · change Tree.num (wrap32 (numberOf n).value) = Tree.num n
      rw [hval, wrap32_of_range hfit.1 hfit.2]
  | .str s, _ =>
    ⟨fun _ hn => (not_mem_nil hn).elim, congrArg Tree.str (strBytes_pieces s)⟩
  | .arr l, h => ⟨(itemsTokens_meaning l h).1, congrArg Tree.arr (itemsTokens_meaning l h).2⟩
  | .obj l, h => ⟨(membersTokens_meaning l h).1, congrArg Tree.obj (membersTokens_meaning l h).2⟩

theorem itemsTokens_meaning : (l : List Value) → (∀ n ∈ itemsNumbers l, Fits n) →
    (∀ n ∈ itemsNumbers (itemsTokens l), InRange n) ∧
      itemsMeaning (itemsTokens l) = itemsReadBack l
  | [], _ => ⟨fun _ hn => (not_mem_nil hn).elim, rfl⟩
  | v :: vs, h => by
    obtain ⟨h1, e1⟩ := tokens_meaning v fun n hn => h n (mem_append_left _ hn)
    obtain ⟨h2, e2⟩ := itemsTokens_meaning vs fun n hn => h n (mem_append_right _ hn)
    refine ⟨fun n hn => (mem_append.1 hn).elim (h1 n) (h2 n), ?_⟩
    exact congrArg₂ List.cons e1 e2

theorem membersTokens_meaning : (l : List (Bytes × Value)) → (∀ n ∈ membersNumbers l, Fits n) →
    (∀ n ∈ membersNumbers (membersTokens l), InRange n) ∧
      membersMeaning (membersTokens l) = membersReadBack l
  | [], _ => ⟨fun _ hn => (not_mem_nil hn).elim, rfl⟩
  | (k, v) :: ms, h => by
    obtain ⟨h1, e1⟩ := tokens_meaning v fun n hn => h n (mem_append_left _ hn)
    obtain ⟨h2, e2⟩ := membersTokens_meaning ms fun n hn => h n (mem_append_right _ hn)
    refine ⟨fun n hn => (mem_append.1 hn).elim (h1 n) (h2 n), ?_⟩
    exact congrArg₂ List.cons (Prod.ext (strBytes_pieces _) e1) e2
end

/-! ## The round trip -/

mutual
def Tree.strings : Value → List Bytes
  | .null => []
  | .bool _ => []
  | .num _ => []
  | .str s => [s]
  | .arr l => itemsStrings l
  | .obj l => membersStrings l

def itemsStrings : List Value → List Bytes
  | [] => []
  | v :: vs => v.strings ++ itemsStrings vs

def membersStrings : List (Bytes × Value) → List Bytes
  | [] => []
  | (_, v) :: ms => v.strings ++ membersStrings ms
end

mutual
def Tree.keys : Value → List Bytes
  | .null => []
  | .bool _ => []
  | .num _ => []
  | .str _ => []
  | .arr l => itemsKeys l
  | .obj l => membersKeys l

def itemsKeys : List Value → List Bytes
  | [] => []
  | v :: vs => v.keys ++ itemsKeys vs

def membersKeys : List (Bytes × Value) → List Bytes
  | [] => []
  | (k, v) :: ms => k :: (v.keys ++ membersKeys ms)
end

def Ascii (s : Bytes) : Prop := ∀ c ∈ s, c.toNat < 128

/-- A key that a C string can hold. -/
def NulFree (s : Bytes) : Prop := ∀ c ∈ s, c ≠ 0

theorem utf8Bytes_ascii (h : c.toNat < 128) : utf8Bytes c.toNat = [c] := by
  unfold utf8Bytes
  rw [if_pos h, UInt8.ofNat_toNat]

theorem utf8Bytes_high (h : ¬c.toNat < 128) : (utf8Bytes c.toNat).length = 2 := by
  have := c.toNat_lt
  unfold utf8Bytes
  rw [if_neg h, if_pos (by omega)]
  rfl

theorem doubled_length (s : Bytes) : s.length ≤ (doubled s).length := by
  induction s with
  | nil => exact Nat.le_refl 0
  | cons c s ih =>
    unfold doubled at *
    rw [flatMap_cons, length_append, length_cons]
    by_cases h : c.toNat < 128
    · rw [utf8Bytes_ascii h, length_singleton]
      omega
    · rw [utf8Bytes_high h]
      omega

theorem doubled_eq_iff (s : Bytes) : doubled s = s ↔ Ascii s := by
  induction s with
  | nil => exact iff_of_true rfl (forall_mem_nil _)
  | cons c s ih =>
    unfold Ascii at *
    rw [forall_mem_cons, ← ih]
    by_cases h : c.toNat < 128
    · unfold doubled
      rw [flatMap_cons, utf8Bytes_ascii h, cons_append, nil_append,
        List.cons.injEq]
      exact ⟨fun he => ⟨h, he.2⟩, fun he => ⟨rfl, he.2⟩⟩
    · refine ⟨fun he => ?_, fun he => absurd he.1 h⟩
      have hlen := congrArg List.length he
      have := doubled_length s
      unfold doubled at hlen this
      rw [flatMap_cons, length_append, utf8Bytes_high h, length_cons] at hlen
      omega

theorem cString_nulFree (s : Bytes) : NulFree (cString s) := by
  intro c hc
  simpa using mem_takeWhile_imp hc

theorem cString_self (h : NulFree s) : cString s = s := by
  refine takeWhile_eq_self_iff.2 fun c hc => ?_
  simpa using h c hc

theorem doubled_nulFree (h : NulFree s) : NulFree (doubled s) := by
  intro c hc
  obtain ⟨d, hd, hc⟩ := mem_flatMap.1 hc
  have hne := h d hd
  have hdlt := d.toNat_lt
  by_cases hlow : d.toNat < 128
  · rw [utf8Bytes_ascii hlow] at hc
    rw [mem_singleton.1 hc]
    exact hne
  · unfold utf8Bytes at hc
    rw [if_neg hlow, if_pos (by omega)] at hc
    intro h0
    have hnat := congrArg UInt8.toNat h0
    rcases mem_cons.1 hc with rfl | hc
    · rw [UInt8.toNat_ofNat'] at hnat
      change _ = 0 at hnat
      omega
    · obtain rfl := mem_singleton.1 hc
      rw [UInt8.toNat_ofNat'] at hnat
      change _ = 0 at hnat
      omega

theorem key_eq_iff (k : Bytes) : doubled (cString k) = k ↔ Ascii k ∧ NulFree k := by
  constructor
  · intro h
    have hfree : NulFree k := by
      rw [← h]
      exact doubled_nulFree (cString_nulFree k)
    rw [cString_self hfree] at h
    exact ⟨(doubled_eq_iff k).1 h, hfree⟩
  · intro ⟨ha, hn⟩
    rw [cString_self hn]
    exact (doubled_eq_iff k).2 ha

mutual
theorem readBack_eq_iff : (j : Value) →
    (readBack j = j ↔ (∀ s ∈ j.strings, Ascii s) ∧ ∀ k ∈ j.keys, Ascii k ∧ NulFree k)
  | .null => iff_of_true rfl ⟨forall_mem_nil _, forall_mem_nil _⟩
  | .bool _ => iff_of_true rfl ⟨forall_mem_nil _, forall_mem_nil _⟩
  | .num _ => iff_of_true rfl ⟨forall_mem_nil _, forall_mem_nil _⟩
  | .str s => by
    change Tree.str (doubled s) = Tree.str s ↔ (∀ t ∈ [s], Ascii t) ∧ ∀ k ∈ [], _
    rw [Tree.str.injEq, doubled_eq_iff]
    simp
  | .arr l => by
    change Tree.arr (itemsReadBack l) = Tree.arr l ↔ _
    rw [Tree.arr.injEq]
    exact itemsReadBack_eq_iff l
  | .obj l => by
    change Tree.obj (membersReadBack l) = Tree.obj l ↔ _
    rw [Tree.obj.injEq]
    exact membersReadBack_eq_iff l

theorem itemsReadBack_eq_iff : (l : List Value) → (itemsReadBack l = l ↔
    (∀ s ∈ itemsStrings l, Ascii s) ∧ ∀ k ∈ itemsKeys l, Ascii k ∧ NulFree k)
  | [] => iff_of_true rfl ⟨forall_mem_nil _, forall_mem_nil _⟩
  | v :: vs => by
    unfold itemsReadBack itemsStrings itemsKeys
    rw [List.cons.injEq, readBack_eq_iff v, itemsReadBack_eq_iff vs, forall_mem_append,
      forall_mem_append]
    exact and_and_and_comm

theorem membersReadBack_eq_iff : (l : List (Bytes × Value)) → (membersReadBack l = l ↔
    (∀ s ∈ membersStrings l, Ascii s) ∧ ∀ k ∈ membersKeys l, Ascii k ∧ NulFree k)
  | [] => iff_of_true rfl ⟨forall_mem_nil _, forall_mem_nil _⟩
  | (k, v) :: ms => by
    unfold membersReadBack membersStrings membersKeys
    rw [List.cons.injEq, Prod.mk.injEq, key_eq_iff, readBack_eq_iff v, membersReadBack_eq_iff ms,
      forall_mem_append, forall_mem_cons, forall_mem_append]
    tauto
end

/-- A tree of 32-bit integers, written without the writer running out of buffer
or depth and parsed with enough scratch, comes back the same exactly when its strings and
keys are ASCII and no key holds a NUL. -/
theorem round_trip_iff {j : Value} (hfit : ∀ n ∈ j.numbers, Fits n) {cap scratch : Nat}
    (hok : (emit j (jsonWInit cap)).ok = true)
    (hscratch : scratchFor (emit j (jsonWInit cap)).buf.length ≤ scratch) :
    jsonParse (emit j (jsonWInit cap)).buf scratch = some j ↔
      (∀ s ∈ j.strings, Ascii s) ∧ ∀ k ∈ j.keys, Ascii k ∧ NulFree k := by
  obtain ⟨-, hwrote⟩ := emit_spec j hfit (jsonWInit cap) (fun _ => rfl) hok
  have hbuf : (emit j (jsonWInit cap)).buf = render j := hwrote.buf
  obtain ⟨hrange, hmean⟩ := tokens_meaning j hfit
  rw [hbuf] at hscratch ⊢
  rw [jsonParse_complete hscratch (render_text j) fun n hn => (hrange n hn).passes, hmean,
    Option.some.injEq]
  exact readBack_eq_iff j

/-- `{"a":[-1,"x"]}` -/
theorem round_trip_iff_small :
    (emit (.obj [([97], .arr [.num (-1), .str [120]])]) (jsonWInit 64)).ok = true ∧
      jsonParse (emit (.obj [([97], .arr [.num (-1), .str [120]])]) (jsonWInit 64)).buf 1000 =
        some (.obj [([97], .arr [.num (-1), .str [120]])]) := by
  have hok : (emit (.obj [([97], .arr [.num (-1), .str [120]])]) (jsonWInit 64)).ok = true := rfl
  refine ⟨hok, (round_trip_iff ?_ hok (by decide)).2 ⟨?_, ?_⟩⟩
  · intro n hn
    obtain rfl : n = -1 := mem_singleton.1 hn
    unfold Fits
    omega
  · intro s hs c hc
    obtain rfl : s = [120] := mem_singleton.1 hs
    obtain rfl : c = 120 := mem_singleton.1 hc
    decide
  · intro k hk
    obtain rfl : k = [97] := mem_singleton.1 hk
    refine ⟨fun c hc => ?_, fun c hc => ?_⟩ <;> obtain rfl : c = 97 := mem_singleton.1 hc <;>
      decide

/-- The two bytes of U+00E9 come back as four. -/
theorem two_byte_character_doubled :
    ¬∀ (j : Value) (cap scratch : Nat), (∀ n ∈ j.numbers, Fits n) → (∀ s ∈ j.strings, Utf8 s) →
      (∀ k ∈ j.keys, Utf8 k ∧ NulFree k) → (emit j (jsonWInit cap)).ok = true →
      scratchFor (emit j (jsonWInit cap)).buf.length ≤ scratch →
      jsonParse (emit j (jsonWInit cap)).buf scratch = some j := by
  intro h
  have hutf : Utf8 [0xC3, 0xA9] := ⟨[Char.ofNat 0xE9], by decide⟩
  have hback := h (.str [0xC3, 0xA9]) 8 1000 (forall_mem_nil _)
    (forall_mem_singleton.2 hutf) (forall_mem_nil _) rfl (by decide)
  have hascii := ((round_trip_iff (forall_mem_nil _) rfl (by decide)).1 hback).1
  have := hascii [0xC3, 0xA9] mem_cons_self 0xC3 mem_cons_self
  exact absurd this (by decide)

end AdventOS.Json
