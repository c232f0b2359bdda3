import AdventOS.Json.Fitting

/-!
# Sequences of writer calls (`libjson/libjson.c`)

The callers of the writer do not have a tree: they make calls. `Builds` says which sequences of
calls build one well-nested value, and what its text is; `json_raw` adds a text of its own.

* `Call.keeps`: what every primitive step keeps, every call keeps;
* `calls_write`.
-/
namespace AdventOS.Json
open List

/-! ## Calls -/

/-- libjson.c:170-172 -/
def jsonStr (w : Writer) (s : Bytes) : Writer := jsonStrN w (cString s)

/-- libjson.c:196-199 -/
def jsonUint (w : Writer) (v : UInt32) : Writer := putDec (preEmit w) v.toNat false

/-- libjson.c:212-215 -/
def jsonRaw (w : Writer) (s : Bytes) : Writer := putN (preEmit w) s

/-- The calls that write a value at once. -/
inductive Leaf
  | null
  | bool (b : Bool)
  | int (n : { n : Int // Fits n })
  | uint (v : UInt32)
  | str (s : Bytes)
  | strN (s : Bytes)
  | raw (s : Bytes)

def Leaf.run (w : Writer) : Leaf → Writer
  | .null => jsonNull w
  | .bool b => jsonBool w b
  | .int n => jsonInt w n
  | .uint v => jsonUint w v
  | .str s => jsonStr w s
  | .strN s => jsonStrN w s
  | .raw s => jsonRaw w s

def Leaf.text : Leaf → Bytes
  | .null => kwNull
  | .bool b => if b then kwTrue else kwFalse
  | .int n => renderInt n
  | .uint v => (decDigits v.toNat).map digitByte
  | .str s => renderStr (cString s)
  | .strN s => renderStr s
  | .raw s => s

inductive Call
  | leaf (l : Leaf)
  | key (k : Bytes)
  | objBegin
  | objEnd
  | arrBegin
  | arrEnd

def Call.run (w : Writer) : Call → Writer
  | .leaf l => l.run w
  | .key k => jsonKey w k
  | .objBegin => jsonObjBegin w
  | .objEnd => jsonObjEnd w
  | .arrBegin => jsonArrBegin w
  | .arrEnd => jsonArrEnd w

def runCalls (w : Writer) (cs : List Call) : Writer := cs.foldl Call.run w

inductive Part
  | value
  | items (first : Bool)
  | members (first : Bool)

/-- The calls build a value, or the rest of the children of an open container, with this text. -/
inductive Builds : Part → List Call → Bytes → Prop
  | leaf (l : Leaf) : Builds .value [.leaf l] l.text
  | arr {cs : List Call} {t : Bytes} : Builds (.items true) cs t →
      Builds .value (.arrBegin :: (cs ++ [.arrEnd])) (lbracket :: (t ++ [rbracket]))
  | obj {cs : List Call} {t : Bytes} : Builds (.members true) cs t →
      Builds .value (.objBegin :: (cs ++ [.objEnd])) (lbrace :: (t ++ [rbrace]))
  | noItems (first : Bool) : Builds (.items first) [] []
  | item (first : Bool) {cs ds : List Call} {t u : Bytes} : Builds .value cs t →
      Builds (.items false) ds u → Builds (.items first) (cs ++ ds) (sep first ++ (t ++ u))
  | noMembers (first : Bool) : Builds (.members first) [] []
  | member (first : Bool) (k : Bytes) {cs ds : List Call} {t u : Bytes} : Builds .value cs t →
      Builds (.members false) ds u → Builds (.members first) (.key k :: (cs ++ ds))
        (sep first ++ (renderStr (cString k) ++ colon :: t ++ u))

/-! ## What every call keeps -/

variable {w : Writer} {c d : UInt8} {cs ds : List Call} {t : Bytes}

/-- Kept by appending and by every change of the flags. -/
structure Stable (P : Writer → Prop) : Prop where
  put : ∀ w s, P w → P (putN w s)
  flags : ∀ w n f e, P w → P { w with depth := n, first := f, expectValue := e }
  stop : ∀ w, P w → P { w with ok := false }

variable {P : Writer → Prop}

theorem Stable.preEmit (hP : Stable P) (h : P w) : P (preEmit w) := by
  unfold Json.preEmit
  split
  · exact h
  split
  · exact h
  split
  · exact hP.flags w w.depth w.first false h
  split
  · exact hP.flags w w.depth _ w.expectValue h
  · exact hP.put w _ h

theorem Stable.putAll (hP : Stable P) {f : UInt8 → Bytes} (s : Bytes) (h : P w) :
    P (s.foldl (fun w c => putN w (f c)) w) := by
  induction s generalizing w with
  | nil => exact h
  | cons c s ih => exact ih (hP.put w _ h)

theorem Stable.putEscapedStr (hP : Stable P) (s : Bytes) (h : P w) : P (putEscapedStr w s) :=
  hP.put _ _ (hP.putAll s (hP.put w _ h))

theorem Stable.putDec (hP : Stable P) (u : Nat) (neg : Bool) (h : P w) : P (putDec w u neg) := by
  refine hP.putAll (f := fun c => [c]) _ ?_
  split
  · exact hP.put w _ h
  · exact h

theorem Stable.jsonBegin (hP : Stable P) (c : UInt8) (h : P w) : P (jsonBegin c w) := by
  unfold Json.jsonBegin
  split
  · exact hP.stop w h
  · exact hP.flags _ _ _ _ (hP.put _ _ (hP.preEmit h))

theorem Stable.jsonEnd (hP : Stable P) (c : UInt8) (h : P w) : P (jsonEnd c w) := by
  unfold Json.jsonEnd
  split
  · exact hP.stop w h
  · exact hP.put _ _ (hP.flags w _ w.first w.expectValue h)

theorem Leaf.keeps (hP : Stable P) (l : Leaf) (h : P w) : P (l.run w) := by
  have hpre := hP.preEmit h
  cases l with
  | null => exact hP.put _ _ hpre
  | bool b => cases b <;> exact hP.put _ _ hpre
  | int n =>
    unfold Leaf.run jsonInt
    dsimp only
    split <;> exact hP.putDec _ _ hpre
  | uint v => exact hP.putDec _ _ hpre
  | str s => exact hP.putEscapedStr _ hpre
  | strN s => exact hP.putEscapedStr _ hpre
  | raw s => exact hP.put _ _ hpre

theorem Call.keeps (hP : Stable P) (c : Call) (h : P w) : P (c.run w) := by
  cases c with
  | leaf l => exact l.keeps hP h
  | key k =>
    have hk := hP.put _ [colon] (hP.putEscapedStr (cString k) (hP.preEmit h))
    exact hP.flags _ _ _ true hk
  | objBegin => exact hP.jsonBegin _ h
  | objEnd => exact hP.jsonEnd _ h
  | arrBegin => exact hP.jsonBegin _ h
  | arrEnd => exact hP.jsonEnd _ h

theorem runCalls_keeps (hP : Stable P) (cs : List Call) (h : P w) : P (runCalls w cs) := by
  induction cs generalizing w with
  | nil => exact h
  | cons c cs ih => exact ih (c.keeps hP h)

theorem stable_off : Stable fun w => w.ok = false where
  put w s h := by
    unfold putN
    rw [if_pos h]
    exact h
  flags _ _ _ _ h := h
  stop _ _ := rfl

theorem runCalls_append (w : Writer) (cs ds : List Call) :
    runCalls w (cs ++ ds) = runCalls (runCalls w cs) ds := foldl_append

theorem runCalls_wasOk (h : (runCalls w cs).ok = true) : w.ok = true := by
  cases hw : w.ok with
  | false =>
    have hoff : (runCalls w cs).ok = false := runCalls_keeps stable_off cs hw
    rw [hoff] at h
    cases h
  | true => rfl

/-! ## What the calls write -/

theorem Leaf.spec (l : Leaf) (h : (l.run w).ok = true) :
    (preEmit w).ok = true ∧ l.run w = (preEmit w).append l.text := by
  cases l with
  | null => exact putN_ok h
  | bool b => cases b <;> exact putN_ok h
  | int n => exact jsonInt_ok n.2.1 n.2.2 h
  | uint v => exact putDec_ok h
  | str s => exact putEscapedStr_ok h
  | strN s => exact putEscapedStr_ok h
  | raw s => exact putN_ok h

/-- What a part of the calls does to a writer that is `ok` at the end. -/
def Spec : Part → List Call → Bytes → Prop
  | .value, cs, t => ∀ w, (w.depth = 0 → w.expectValue = false) → (runCalls w cs).ok = true →
      (preEmit w).ok = true ∧ Wrote (preEmit w) (runCalls w cs) t
  | .items first, cs, t => ∀ w, 0 < w.depth → w.expectValue = false →
      w.first (w.depth - 1) = first → (runCalls w cs).ok = true → Filled w (runCalls w cs) t
  | .members first, cs, t => ∀ w, 0 < w.depth → w.expectValue = false →
      w.first (w.depth - 1) = first → (runCalls w cs).ok = true → Filled w (runCalls w cs) t

theorem container_calls (hw : w.depth = 0 → w.expectValue = false)
    (hopen : (runCalls (jsonBegin c w) cs).ok = true)
    (hfill : ∀ v : Writer, 0 < v.depth → v.expectValue = false → v.first (v.depth - 1) = true →
      (runCalls v cs).ok = true → Filled v (runCalls v cs) t)
    (hclose : (jsonEnd d (runCalls (jsonBegin c w) cs)).ok = true) :
    (preEmit w).ok = true ∧
      Wrote (preEmit w) (jsonEnd d (runCalls (jsonBegin c w) cs)) (c :: (t ++ [d])) := by
  have hbegin := runCalls_wasOk hopen
  obtain ⟨-, -, hdepth, -, hfirst, -⟩ := jsonBegin_ok hbegin
  refine container_spec (s := fun _ => t) hw hbegin (fun hd hv => hfill _ hd hv ?_ hopen) hclose
  rw [hdepth, Nat.add_sub_cancel, hfirst]

theorem Builds.spec {p : Part} (h : Builds p cs t) : Spec p cs t := by
  induction h with
  | leaf l =>
    intro w _ hok
    obtain ⟨hpre, he⟩ := l.spec hok
    exact ⟨hpre, .of_append he⟩
  | @arr cs t _ ih =>
    intro w hw hok
    have hrun : runCalls w (.arrBegin :: (cs ++ [.arrEnd])) =
        jsonEnd rbracket (runCalls (jsonBegin lbracket w) cs) := runCalls_append _ cs _
    rw [hrun] at hok ⊢
    exact container_calls hw (jsonEnd_ok hok).1 ih hok
  | @obj cs t _ ih =>
    intro w hw hok
    have hrun : runCalls w (.objBegin :: (cs ++ [.objEnd])) =
        jsonEnd rbrace (runCalls (jsonBegin lbrace w) cs) := runCalls_append _ cs _
    rw [hrun] at hok ⊢
    exact container_calls hw (jsonEnd_ok hok).1 ih hok
  | noItems | noMembers => exact fun w _ hv _ _ => ⟨(append_nil _).symm, rfl, hv, fun _ _ => rfl⟩
  | @item first cs ds t u _ _ ih1 ih2 =>
    intro w hd hv hf hok
    rw [runCalls_append] at hok ⊢
    obtain ⟨hpre, hw1⟩ := ih1 w (fun h0 => absurd h0 (by omega)) (runCalls_wasOk hok)
    obtain ⟨hbuf, hdepth, hval, hfirst, hrest⟩ := preEmit_child hpre hd hv
    have hd1 : (runCalls w cs).depth = w.depth := hw1.depth.trans hdepth
    refine Filled.cons ?_ hd1 (fun i hi => ?_) (ih2 _ (by omega) (hw1.value.trans hval) ?_ hok)
    · rw [hw1.buf, hbuf, hf, append_assoc]
    · rw [hw1.first i (by omega), hrest i hi]
    · rw [hd1, hw1.first _ (by omega), hfirst]
  | @member first k cs ds t u _ _ ih1 ih2 =>
    intro w hd hv hf hok
    have hrun : runCalls w (.key k :: (cs ++ ds)) = runCalls (runCalls (jsonKey w k) cs) ds :=
      runCalls_append _ cs ds
    rw [hrun] at hok ⊢
    have hin := runCalls_wasOk hok
    obtain ⟨hpre, hkval, hkbuf, hkdepth, hkfirst⟩ := jsonKey_ok (runCalls_wasOk hin)
    obtain ⟨hbuf, hdepth, -, hfirst, hrest⟩ := preEmit_child hpre hd hv
    have hdk : (jsonKey w k).depth = w.depth := hkdepth.trans hdepth
    obtain ⟨hok1, hw1⟩ := ih1 (jsonKey w k) (fun h0 => absurd h0 (by omega)) hin
    rw [preEmit_value hok1 (by omega) hkval] at hw1
    have hd1 : (runCalls (jsonKey w k) cs).depth = w.depth := hw1.depth.trans hdk
    have hfw : ∀ i < w.depth, (runCalls (jsonKey w k) cs).first i = (preEmit w).first i := by
      intro i hi
      rw [hw1.first i (by dsimp only; omega)]
      rw [hkfirst]
    refine Filled.cons ?_ hd1 (fun i hi => ?_) (ih2 _ (by omega) hw1.value ?_ hok)
    · rw [hw1.buf]
      rw [hkbuf, hbuf, hf]
      simp
    · rw [hfw i (by omega), hrest i hi]
    · rw [hd1, hfw _ (by omega), hfirst]

end AdventOS.Json
