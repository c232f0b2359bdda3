import AdventOS.Json.Writer

/-!
# When a tree fits the writer's buffer (`libjson/libjson.c`)

`emit_spec` says what is in the buffer when the writer ends with `ok` set. Here is when it does:
`emit_fits`, by induction on the tree, and for a whole text `writeOut_eq`: exactly when the
rendered tree is shorter than the buffer, for trees of at most 32 levels.
-/
namespace AdventOS.Json
open List

mutual
/-- The containers that are open at once while the tree is written. -/
def height : Value → Nat
  | .null => 0
  | .bool _ => 0
  | .num _ => 0
  | .str _ => 0
  | .arr l => itemsHeight l + 1
  | .obj l => membersHeight l + 1

def itemsHeight : List Value → Nat
  | [] => 0
  | v :: vs => max (height v) (itemsHeight vs)

def membersHeight : List (Bytes × Value) → Nat
  | [] => 0
  | (_, v) :: ms => max (height v) (membersHeight ms)
end

/-! ## The buffer's size does not change -/

@[simp] theorem putN_cap (w : Writer) (s : Bytes) : (putN w s).cap = w.cap := by
  unfold putN
  split
  · rfl
  · split <;> rfl

@[simp] theorem putChar_cap (w : Writer) (c : UInt8) : (putChar w c).cap = w.cap := putN_cap w [c]

@[simp] theorem preEmit_cap (w : Writer) : (preEmit w).cap = w.cap := by
  unfold preEmit
  split
  · rfl
  · split
    · rfl
    · split
      · rfl
      · split
        · rfl
        · exact putChar_cap w comma

theorem putAll_cap {f : UInt8 → Bytes} (s : Bytes) (w : Writer) :
    (s.foldl (fun w c => putN w (f c)) w).cap = w.cap := by
  induction s generalizing w with
  | nil => rfl
  | cons c s ih => rw [foldl_cons, ih, putN_cap]

@[simp] theorem putEscapedStr_cap (w : Writer) (s : Bytes) : (putEscapedStr w s).cap = w.cap := by
  unfold putEscapedStr
  rw [putChar_cap, putAll_cap, putChar_cap]

theorem putDec_cap (w : Writer) (u : Nat) (neg : Bool) : (putDec w u neg).cap = w.cap := by
  have h := putAll_cap (f := fun c => [c]) ((decDigits u).map digitByte)
    (if neg then putChar w minus else w)
  refine h.trans ?_
  cases neg with
  | false => rfl
  | true => exact putChar_cap w minus

@[simp] theorem jsonInt_cap (w : Writer) (n : Int) : (jsonInt w n).cap = w.cap := by
  unfold jsonInt
  split
  · rw [putDec_cap, preEmit_cap]
  · rw [putDec_cap, preEmit_cap]

@[simp] theorem jsonBegin_cap (c : UInt8) (w : Writer) : (jsonBegin c w).cap = w.cap := by
  unfold jsonBegin
  split
  · rfl
  · rw [putChar_cap, preEmit_cap]

@[simp] theorem jsonEnd_cap (c : UInt8) (w : Writer) : (jsonEnd c w).cap = w.cap := by
  unfold jsonEnd
  split
  · rfl
  · rw [putChar_cap]

@[simp] theorem jsonKey_cap (w : Writer) (k : Bytes) : (jsonKey w k).cap = w.cap := by
  unfold jsonKey
  rw [putChar_cap, putEscapedStr_cap, preEmit_cap]

mutual
theorem emit_cap : (j : Value) → ∀ w : Writer, (emit j w).cap = w.cap
  | .null, w => (putN_cap _ _).trans (preEmit_cap w)
  | .bool true, w => (putN_cap _ _).trans (preEmit_cap w)
  | .bool false, w => (putN_cap _ _).trans (preEmit_cap w)
  | .num n, w => jsonInt_cap w n
  | .str s, w => (putEscapedStr_cap _ s).trans (preEmit_cap w)
  | .arr l, w => (jsonEnd_cap _ _).trans ((emitItems_cap l _).trans (jsonBegin_cap _ w))
  | .obj l, w => (jsonEnd_cap _ _).trans ((emitMembers_cap l _).trans (jsonBegin_cap _ w))

theorem emitItems_cap : (l : List Value) → ∀ w : Writer, (emitItems l w).cap = w.cap
  | [], _ => rfl
  | v :: vs, w => (emitItems_cap vs _).trans (emit_cap v w)

theorem emitMembers_cap : (l : List (Bytes × Value)) → ∀ w : Writer, (emitMembers l w).cap = w.cap
  | [], _ => rfl
  | (k, v) :: ms, w =>
    (emitMembers_cap ms _).trans ((emit_cap v _).trans (jsonKey_cap w k))
end

/-! ## What fits goes through -/

variable {w : Writer} {s : Bytes} {c : UInt8}

theorem putN_fits (hok : w.ok = true)
    (h : w.buf.length + s.length ≤ w.cap) : (putN w s).ok = true := by
  unfold putN
  rw [if_neg (by simp [hok]), if_neg (by omega)]
  exact hok

theorem putAll_fits {f : UInt8 → Bytes} (hok : w.ok = true)
    (h : w.buf.length + (s.flatMap f).length ≤ w.cap) :
    (s.foldl (fun w c => putN w (f c)) w).ok = true := by
  induction s generalizing w with
  | nil => exact hok
  | cons c s ih =>
    rw [flatMap_cons, length_append] at h
    have h1 := putN_fits (s := f c) hok (by omega)
    rw [foldl_cons]
    refine ih h1 ?_
    rw [(putN_ok h1).2, Writer.append_buf, length_append]
    show _ ≤ w.cap
    omega

theorem putEscapedStr_fits (hok : w.ok = true)
    (h : w.buf.length + (renderStr s).length ≤ w.cap) : (putEscapedStr w s).ok = true := by
  have hlen : (renderStr s).length = (s.flatMap escaped).length + 2 := by
    unfold renderStr
    rw [length_cons, length_append]
    rfl
  have h1 : (putChar w quote).ok = true := putN_fits hok (by rw [length_singleton]; omega)
  have e1 := (putChar_ok h1).2
  have hb1 : (putChar w quote).buf.length = w.buf.length + 1 := by
    rw [e1, Writer.append_buf, length_append, length_singleton]
  have h2 := putAll_fits (f := escaped) (s := s) h1 (by rw [hb1, putChar_cap]; omega)
  refine putN_fits h2 ?_
  rw [(putAll_ok h2).2, Writer.append_buf, length_append, hb1, length_singleton]
  show _ ≤ (putChar w quote).cap
  rw [putChar_cap]
  omega

theorem putDec_fits {u : Nat} {neg : Bool} (hok : w.ok = true)
    (h : w.buf.length + ((if neg then [minus] else []) ++
      (decDigits u).map digitByte).length ≤ w.cap) : (putDec w u neg).ok = true := by
  have hflat : ((decDigits u).map digitByte).flatMap (fun c => [c]) =
      (decDigits u).map digitByte := flatMap_singleton' _
  rw [length_append] at h
  unfold putDec
  cases neg with
  | false =>
    rw [if_neg Bool.false_ne_true] at h ⊢
    refine putAll_fits (f := fun c => [c]) hok ?_
    rw [hflat]
    rw [length_nil] at h
    omega
  | true =>
    rw [if_pos rfl] at h ⊢
    rw [length_singleton] at h
    have h1 : (putChar w minus).ok = true := putN_fits hok (by rw [length_singleton]; omega)
    refine putAll_fits (f := fun c => [c]) h1 ?_
    rw [hflat, (putChar_ok h1).2, Writer.append_buf, length_append, length_singleton]
    show _ ≤ w.cap
    omega

theorem jsonInt_fits {n : Int} (hfit : Fits n) (hok : (preEmit w).ok = true)
    (h : (preEmit w).buf.length + (renderInt n).length ≤ w.cap) : (jsonInt w n).ok = true := by
  obtain ⟨h1, h2⟩ := hfit
  rw [← preEmit_cap] at h
  unfold renderInt at h
  unfold jsonInt
  split
  · rename_i hneg
    have habs : ((-n) % 2 ^ 32).toNat = n.natAbs := by omega
    rw [habs]
    refine putDec_fits hok ?_
    rwa [if_pos hneg] at h
  · rename_i hneg
    have habs : n.toNat = n.natAbs := by omega
    rw [habs]
    refine putDec_fits hok ?_
    rwa [if_neg hneg] at h

theorem jsonKey_fits {k : Bytes} (hok : (preEmit w).ok = true)
    (h : (preEmit w).buf.length + (renderStr (cString k)).length + 1 ≤ w.cap) :
    (jsonKey w k).ok = true := by
  have h1 := putEscapedStr_fits (s := cString k) hok (by rw [preEmit_cap]; omega)
  refine putN_fits h1 ?_
  rw [(putEscapedStr_ok h1).2, Writer.append_buf, length_append, length_singleton]
  show _ ≤ (preEmit w).cap
  rw [preEmit_cap]
  omega

theorem preEmit_fits (hok : w.ok = true) (hd : 0 < w.depth) (hv : w.expectValue = false)
    (h : w.buf.length + (sep (w.first (w.depth - 1))).length ≤ w.cap) :
    (preEmit w).ok = true := by
  unfold preEmit
  rw [if_neg (by simp [hok]), if_neg (by omega), if_neg (by simp [hv])]
  split
  · exact hok
  · rename_i hf
    have hf : w.first (w.depth - 1) = false := by simpa using hf
    rw [hf] at h
    exact putN_fits hok h

theorem jsonBegin_fits (hok : (preEmit w).ok = true)
    (hd : w.depth < jsonWMaxDepth) (h : (preEmit w).buf.length + 1 ≤ w.cap) :
    (jsonBegin c w).ok = true := by
  unfold jsonBegin
  rw [if_neg (by omega)]
  exact putN_fits hok (by rw [length_singleton, preEmit_cap]; omega)

theorem jsonEnd_fits (hok : w.ok = true) (hd : 0 < w.depth)
    (h : w.buf.length + 1 ≤ w.cap) : (jsonEnd c w).ok = true := by
  unfold jsonEnd
  rw [if_neg (by omega)]
  exact putN_fits hok (by rw [length_singleton]; exact h)

theorem preEmit_depth (h : (preEmit w).ok = true) : (preEmit w).depth = w.depth := by
  rcases Nat.eq_zero_or_pos w.depth with hd | hd
  · unfold preEmit
    rw [if_neg (by simp [preEmit_ok h]), if_pos hd]
  · cases hv : w.expectValue with
    | false => exact (preEmit_child h hd hv).2.1
    | true => rw [preEmit_value h hd hv]

theorem container_fits {d : UInt8} {r : Writer} {s : Bool → Bytes}
    (hw : w.depth = 0 → w.expectValue = false) (hok : (preEmit w).ok = true)
    (hdepth : w.depth < jsonWMaxDepth) (hcap : r.cap = (jsonBegin c w).cap)
    (h : (preEmit w).buf.length + (c :: (s true ++ [d])).length ≤ w.cap)
    (hfill : (jsonBegin c w).ok = true → 0 < (jsonBegin c w).depth →
      (jsonBegin c w).expectValue = false →
      (jsonBegin c w).buf.length + (s ((jsonBegin c w).first ((jsonBegin c w).depth - 1))).length
        ≤ w.cap → r.ok = true ∧
          Filled (jsonBegin c w) r (s ((jsonBegin c w).first ((jsonBegin c w).depth - 1)))) :
    (jsonEnd d r).ok = true := by
  rw [length_cons, length_append, length_singleton] at h
  have hopen : (jsonBegin c w).ok = true := jsonBegin_fits hok hdepth (by omega)
  obtain ⟨-, hbuf, hdep, hval, hfirst, -⟩ := jsonBegin_ok hopen
  have hprev : (jsonBegin c w).depth - 1 = (preEmit w).depth := by omega
  have hblen : (jsonBegin c w).buf.length = (preEmit w).buf.length + 1 := by
    rw [hbuf, length_append, length_singleton]
  obtain ⟨hr, hf⟩ := hfill hopen (by omega) (hval.trans (preEmit_expectValue hok hw))
    (by rw [hprev, hfirst, hblen]; omega)
  refine jsonEnd_fits hr (by rw [hf.depth]; omega) ?_
  rw [hf.buf, hprev, hfirst, length_append, hblen, hcap, jsonBegin_cap]
  omega

mutual
/-- **What fits**, by induction on the tree: with room for the comma and the rendered value, and
levels left for its containers, the writer is still `ok` at the end. -/
theorem emit_fits : (j : Value) → (∀ n ∈ j.numbers, Fits n) → ∀ w : Writer,
    (w.depth = 0 → w.expectValue = false) → (preEmit w).ok = true →
    w.depth + height j ≤ jsonWMaxDepth →
    (preEmit w).buf.length + (render j).length ≤ w.cap → (emit j w).ok = true
  | .null, _, w, _, hok, _, h => putN_fits hok (by rw [preEmit_cap]; exact h)
  | .bool true, _, w, _, hok, _, h => putN_fits hok (by rw [preEmit_cap]; exact h)
  | .bool false, _, w, _, hok, _, h => putN_fits hok (by rw [preEmit_cap]; exact h)
  | .num n, hfit, w, _, hok, _, h => jsonInt_fits (hfit n (mem_singleton_self n)) hok h
  | .str s, _, w, _, hok, _, h => putEscapedStr_fits hok (by rw [preEmit_cap]; exact h)
  | .arr l, hfit, w, hw, hok, hh, h => by
    have hdep := preEmit_depth hok
    unfold height at hh
    refine container_fits (s := fun f => renderItems f l) hw hok (by omega) (emitItems_cap l _) h ?_
    intro hopen hd hv hlen
    have hdep1 := (jsonBegin_ok hopen).2.2.1
    have hcap := jsonBegin_cap lbracket w
    have hitems := emitItems_fits l hfit _ hopen hd hv (by omega) (by rw [hcap]; exact hlen)
    exact ⟨hitems, emitItems_spec l hfit _ hd hv hitems⟩
  | .obj l, hfit, w, hw, hok, hh, h => by
    have hdep := preEmit_depth hok
    unfold height at hh
    refine container_fits (s := fun f => renderMembers f l) hw hok (by omega)
      (emitMembers_cap l _) h ?_
    intro hopen hd hv hlen
    have hdep1 := (jsonBegin_ok hopen).2.2.1
    have hcap := jsonBegin_cap lbrace w
    have hmembers := emitMembers_fits l hfit _ hopen hd hv (by omega) (by rw [hcap]; exact hlen)
    exact ⟨hmembers, emitMembers_spec l hfit _ hd hv hmembers⟩

theorem emitItems_fits : (l : List Value) → (∀ n ∈ itemsNumbers l, Fits n) → ∀ w : Writer,
    w.ok = true → 0 < w.depth → w.expectValue = false →
    w.depth + itemsHeight l ≤ jsonWMaxDepth →
    w.buf.length + (renderItems (w.first (w.depth - 1)) l).length ≤ w.cap →
    (emitItems l w).ok = true
  | [], _, _, hok, _, _, _, _ => hok
  | v :: vs, hfit, w, hok, hd, hv, hh, h => by
    unfold itemsHeight at hh
    unfold renderItems at h
    rw [length_append, length_append] at h
    have hpre := preEmit_fits hok hd hv (by omega)
    obtain ⟨hbuf, hdepth, hval, hfirst, -⟩ := preEmit_child hpre hd hv
    have hfitv : ∀ n ∈ v.numbers, Fits n := fun n hn => hfit n (mem_append_left _ hn)
    have hnz : w.depth = 0 → w.expectValue = false := fun h0 => absurd h0 (by omega)
    have hv1 := emit_fits v hfitv w hnz hpre (by omega) (by rw [hbuf, length_append]; omega)
    obtain ⟨-, hw1⟩ := emit_spec v hfitv w hnz hv1
    have hd1 : (emit v w).depth = w.depth := hw1.depth.trans hdepth
    have hf1 : (emit v w).first (w.depth - 1) = false := by
      rw [hw1.first _ (by omega), hfirst]
    have hb1 : (emit v w).buf.length =
        w.buf.length + (sep (w.first (w.depth - 1))).length + (render v).length := by
      rw [hw1.buf, hbuf, length_append, length_append]
    refine emitItems_fits vs (fun n hn => hfit n (mem_append_right _ hn)) (emit v w) hv1
      (by omega) (hw1.value.trans hval) (by omega) ?_
    rw [hd1, hf1, hb1, emit_cap]
    omega

theorem emitMembers_fits : (l : List (Bytes × Value)) → (∀ n ∈ membersNumbers l, Fits n) →
    ∀ w : Writer, w.ok = true → 0 < w.depth → w.expectValue = false →
    w.depth + membersHeight l ≤ jsonWMaxDepth →
    w.buf.length + (renderMembers (w.first (w.depth - 1)) l).length ≤ w.cap →
    (emitMembers l w).ok = true
  | [], _, _, hok, _, _, _, _ => hok
  | (k, v) :: ms, hfit, w, hok, hd, hv, hh, h => by
    unfold membersHeight at hh
    unfold renderMembers at h
    rw [length_append, length_append, length_cons, length_append] at h
    have hpre := preEmit_fits hok hd hv (by omega)
    obtain ⟨hbuf, hdepth, hval, hfirst, -⟩ := preEmit_child hpre hd hv
    have hkey := jsonKey_fits (k := k) hpre (by rw [hbuf, length_append]; omega)
    obtain ⟨-, hkval, hkbuf, hkdepth, hkfirst⟩ := jsonKey_ok hkey
    have hdk : (jsonKey w k).depth = w.depth := hkdepth.trans hdepth
    have hprek : preEmit (jsonKey w k) = { jsonKey w k with expectValue := false } := by
      unfold preEmit
      rw [if_neg (by simp [hkey]), if_neg (by omega), if_pos hkval]
    have hfitv : ∀ n ∈ v.numbers, Fits n := fun n hn => hfit n (mem_append_left _ hn)
    have hnz : (jsonKey w k).depth = 0 → (jsonKey w k).expectValue = false :=
      fun h0 => absurd h0 (by omega)
    have hbk : (jsonKey w k).buf.length = w.buf.length +
        (sep (w.first (w.depth - 1))).length + (renderStr (cString k)).length + 1 := by
      rw [hkbuf, hbuf]
      simp only [length_append, length_singleton]
      omega
    have hv1 := emit_fits v hfitv (jsonKey w k) hnz (by rw [hprek]; exact hkey) (by omega)
      (by rw [hprek, jsonKey_cap]; dsimp only; omega)
    obtain ⟨-, hw1⟩ := emit_spec v hfitv (jsonKey w k) hnz hv1
    rw [hprek] at hw1
    have hd1 : (emit v (jsonKey w k)).depth = w.depth := hw1.depth.trans hdk
    have hf1 : (emit v (jsonKey w k)).first (w.depth - 1) = false := by
      rw [hw1.first _ (by dsimp only; omega)]
      rw [hkfirst, hfirst]
    have hb1 : (emit v (jsonKey w k)).buf.length = (jsonKey w k).buf.length +
        (render v).length := by
      rw [hw1.buf, length_append]
    refine emitMembers_fits ms (fun n hn => hfit n (mem_append_right _ hn))
      (emit v (jsonKey w k)) hv1 (by omega) hw1.value (by omega) ?_
    rw [hd1, hf1, hb1, hbk, emit_cap, jsonKey_cap]
    omega
end

/-! ## A whole text -/

/-- libjson.c:128-132; the NUL behind the text is left out. -/
def jsonWFinish (w : Writer) : Writer :=
  if w.ok = false then w else if w.buf.length < w.cap then w else { w with ok := false }

/-- The text of a tree in a buffer of `cap` bytes, none when the writer is not `ok`. -/
def writeOut (cap : Nat) (j : Value) : Option Bytes :=
  let w := jsonWFinish (emit j (jsonWInit cap))
  if w.ok = true then some w.buf else none

theorem writeOut_eq {cap : Nat} {j : Value} (hfit : ∀ n ∈ j.numbers, Fits n)
    (hh : height j ≤ jsonWMaxDepth) :
    writeOut cap j = if (render j).length < cap then some (render j) else none := by
  have hcap : (emit j (jsonWInit cap)).cap = cap := emit_cap j _
  have hspec := emit_spec j hfit (jsonWInit cap) (fun _ => rfl)
  unfold writeOut jsonWFinish
  by_cases hok : (emit j (jsonWInit cap)).ok = true
  · have hbuf : (emit j (jsonWInit cap)).buf = render j := (hspec hok).2.buf
    have hon : ¬(emit j (jsonWInit cap)).ok = false := by simp [hok]
    rw [if_neg hon, hcap, hbuf]
    by_cases hlt : (render j).length < cap
    · rw [if_pos hlt, if_pos hlt, if_pos hok, hbuf]
    · rw [if_neg hlt, if_neg hlt]
      rfl
  · have hlt : ¬(render j).length < cap := by
      intro hlt
      refine hok (emit_fits j hfit (jsonWInit cap) (fun _ => rfl) rfl ?_ ?_)
      · show 0 + height j ≤ jsonWMaxDepth
        omega
      · show 0 + (render j).length ≤ cap
        omega
    have hoff : (emit j (jsonWInit cap)).ok = false := by simpa using hok
    rw [if_pos hoff, if_neg hlt]
    simp [hoff]

end AdventOS.Json
