import AdventOS.Core.Replay
import AdventOS.Agentd.Reply
import AdventOS.Fs.AdventFs

/-!
# agentd's key-value store (`user/agentd.c`, `user/libuser.c`)

A value is the file `/var/kv/<namespace>/<key>`. The strings of a request are counted; the store
copies them into C strings, checks their characters, builds the path and reads or writes the file
in one call. A name in a path is at most 16 bytes long.

A run is a sequence of `kv.put`, `kv.get`, `kv.del`, `kv.stat` and `kv.list`, each called either
way. `held` is the abstract store: the value of the last put of a pair that answered `ok: true`,
if no put or delete of the same pair followed. `log` pairs the line that answers a `kv.get` of
such a pair with the line that gives the value, and `touched` is every path that a call names.

* `store_sound`: the store, where no NUL cuts a name off and the answers fit their buffers;
* `other_key_overwrites`: a put of the key `a`, NUL, `b` changes the value of the key `a`.
-/
namespace AdventOS.Agentd.Kv
open Json List
open Fs (CStr slash)

/-! ## Paths -/

/-- What is read of the copy as a C string; agentd.c:997-1002 -/
def kvCopyCstr (cap : Nat) (s : Bytes) : Option CStr :=
  if cap ≤ s.length then none else some (cString s)

def isWord (c : UInt8) : Bool :=
  (65 ≤ c && c ≤ 90) || (97 ≤ c && c ≤ 122) || (48 ≤ c && c ≤ 57) || c = 95 || c = 45

/-- libuser.c:791-802 -/
def kvValidateNs (ns : CStr) : Bool := ns ≠ [] && ns.all isWord && ns.length ≤ 32

/-- libuser.c:803-816 -/
def kvValidateKey (key : CStr) : Bool :=
  key ≠ [] && key.head? ≠ some 46 && key.all (fun c => isWord c || c = 46) && key.length ≤ 64

def kvPrefix : CStr := chars ['/', 'v', 'a', 'r', '/', 'k', 'v', '/']

/-- libuser.c:821-842; the 128 bytes are enough for every valid pair. -/
def kvPath (ns key : CStr) : Option CStr :=
  if kvValidateNs ns = false then none
  else if kvValidateKey key = false then none
  else if 128 ≤ (kvPrefix ++ ns ++ slash :: key).length then none
  else some (kvPrefix ++ ns ++ slash :: key)

/-- libuser.c:845-859 -/
def kvNsPath (ns : CStr) : Option CStr :=
  if kvValidateNs ns = false then none
  else if 128 ≤ (kvPrefix ++ ns).length then none
  else some (kvPrefix ++ ns)

/-! ## Files -/

abbrev Disk := CStr → Option Bytes

def Disk.set (d : Disk) (path : CStr) (bytes : Option Bytes) : Disk :=
  fun p => if p = path then bytes else d p

/-- What a call that changes a file meets: whether it succeeds, and what it leaves where it does
not. -/
structure Outcome where
  ok : Bool
  torn : Option Bytes

/-- No component of the path is longer than a name. -/
def namesFit (path : CStr) : Bool := (path.splitOn slash).all fun n => n.length ≤ Fs.fsNameMax

/-- `sys_fs_write`: whether it returns success, and the files. -/
def sysFsWrite (d : Disk) (path : CStr) (bytes : Bytes) (o : Outcome) : Bool × Disk :=
  if namesFit path = false then (false, d)
  else if o.ok = true then (true, d.set path (some bytes))
  else (false, d.set path o.torn)

def sysUnlink (d : Disk) (path : CStr) (o : Outcome) : Bool × Disk :=
  if (d path).isSome = false then (false, d)
  else if o.ok = true then (true, d.set path none)
  else (false, d.set path o.torn)

/-- `sys_open` and one `sys_read`; `reads` is whether the device gives the sectors. -/
def readFile (d : Disk) (path : CStr) (cap : Nat) (reads : Bool) : Option Bytes :=
  (d path).bind fun bytes => if reads = true then some (bytes.take cap) else none

/-- libuser.c:861-869 -/
def kvGet (d : Disk) (ns key : CStr) (cap : Nat) (reads : Bool) : Option Bytes :=
  (kvPath ns key).bind fun path => readFile d path cap reads

/-- libuser.c:871-886; the directory of the namespace is made, or is there. -/
def kvPut (d : Disk) (ns key : CStr) (bytes : Bytes) (o : Outcome) : Bool × Disk :=
  (kvPath ns key).elim (false, d) fun path =>
    if 65536 < bytes.length then (false, d) else sysFsWrite d path bytes o

/-- libuser.c:888-892 -/
def kvDel (d : Disk) (ns key : CStr) (o : Outcome) : Bool × Disk :=
  (kvPath ns key).elim (false, d) fun path => sysUnlink d path o

/-! ## The tools -/

def kvValueMax : Nat := 4096

def copyPair (ns key : Bytes) : Option (CStr × CStr) :=
  (kvCopyCstr 40 ns).bind fun n => (kvCopyCstr 80 key).map fun k => (n, k)

def pathOf (ns key : Bytes) : Option CStr := (copyPair ns key).bind fun p => kvPath p.1 p.2

def foundBody (value : Option Bytes) : Value :=
  .obj [(chars ['f', 'o', 'u', 'n', 'd'], .bool value.isSome),
    (chars ['v', 'a', 'l', 'u', 'e'], value.elim .null .str)]

def okBody (ok : Bool) : Value := .obj [(chars ['o', 'k'], .bool ok)]

/-- agentd.c:1113-1134 -/
def emitKvGet (d : Disk) (ns key : Bytes) (reads : Bool) : Emitted :=
  (copyPair ns key).elim (.fails (-32602)) fun p =>
    .done (foundBody (kvGet d p.1 p.2 kvValueMax reads))

/-- Whether `ok: true` is answered, the answer, and the files; agentd.c:1136-1161 -/
def emitKvPut (d : Disk) (ns key value : Bytes) (o : Outcome) : Bool × Emitted × Disk :=
  if kvValueMax < value.length then (false, .fails (-32602), d)
  else (copyPair ns key).elim (false, .fails (-32602), d) fun p =>
    let r := kvPut d p.1 p.2 value o
    (r.1, .done (okBody r.1), r.2)

/-- agentd.c:1163-1187 -/
def emitKvDel (d : Disk) (ns key : Bytes) (o : Outcome) : Emitted × Disk :=
  (copyPair ns key).elim (.fails (-32602), d) fun p =>
    let r := kvDel d p.1 p.2 o
    (.done (.obj [(chars ['o', 'k'], .bool r.1), (chars ['e', 'x', 'i', 's', 't', 'e', 'd'],
      .bool ((kvPath p.1 p.2).any fun path => (d path).isSome))]), r.2)

/-! ## Runs -/

/-- `sent` is every line that was sent, newest first. -/
structure State where
  disk : Disk
  sent : List (Option Bytes)
  held : Bytes → Bytes → Option Bytes
  log : List (Option Bytes × Option Bytes)
  touched : List (Bytes × CStr)

inductive Event
  | put (via : Via) (id : RequestId) (ns key value : Bytes) (o : Outcome)
  | get (via : Via) (id : RequestId) (ns key : Bytes) (reads : Bool)
  | del (via : Via) (id : RequestId) (ns key : Bytes) (o : Outcome)
  | stat (ns key : Bytes)
  | list (ns : Bytes)

/-- The abstract store after a put or a delete of a pair. -/
def hold (held : Bytes → Bytes → Option Bytes) (ns key : Bytes) (value : Option Bytes) :
    Bytes → Bytes → Option Bytes :=
  fun n k => if n = ns ∧ k = key then value else held n k

def pathsOf (ns key : Bytes) : List (Bytes × CStr) := (pathOf ns key).toList.map fun p => (ns, p)

def dirsOf (ns : Bytes) : List (Bytes × CStr) :=
  ((kvCopyCstr 40 ns).bind kvNsPath).toList.map fun p => (ns, p)

/-- A put also makes the directory, once it has a path. -/
def putPaths (ns key value : Bytes) : List (Bytes × CStr) :=
  if kvValueMax < value.length then []
  else (pathOf ns key).elim [] fun p => (ns, p) :: dirsOf ns

def State.step (s : State) : Event → Option State
  | .put via id ns key value o =>
    let r := emitKvPut s.disk ns key value o
    some { s with
      disk := r.2.2
      sent := via.reply id r.2.1 :: s.sent
      held := hold s.held ns key (if r.1 = true then some value else none)
      touched := putPaths ns key value ++ s.touched }
  | .get via id ns key reads =>
    let line := via.reply id (emitKvGet s.disk ns key reads)
    some { s with
      sent := line :: s.sent
      log := (s.held ns key).elim s.log fun v =>
        (line, some (render (via.response id (foundBody (some v))) ++ [10])) :: s.log
      touched := pathsOf ns key ++ s.touched }
  | .del via id ns key o =>
    let r := emitKvDel s.disk ns key o
    some { s with
      disk := r.2
      sent := via.reply id r.1 :: s.sent
      held := hold s.held ns key none
      touched := pathsOf ns key ++ s.touched }
  | .stat ns key => some { s with touched := pathsOf ns key ++ s.touched }
  | .list ns => some { s with touched := dirsOf ns ++ s.touched }

def State.boot (s : State) : Prop :=
  s.sent = [] ∧ (∀ ns key, s.held ns key = none) ∧ s.log = [] ∧ s.touched = []

def system : LTS State Event := LTS.ofFn State.boot State.step

/-- Below the directory of the namespace, or the directory. -/
def Inside (ns : Bytes) (path : CStr) : Prop :=
  slash ∉ ns ∧ (path = kvPrefix ++ ns ∨
    ∃ key, path = kvPrefix ++ ns ++ slash :: key ∧ slash ∉ key ∧ key ≠ [] ∧ key.head? ≠ some 46)

instance (s : Bytes) : Decidable (NulFree s) := inferInstanceAs (Decidable (∀ c ∈ s, c ≠ 0))

/-- A pair that reaches a path holds no NUL. -/
def Plain (ns key : Bytes) : Prop := (pathOf ns key).isSome = true → NulFree ns ∧ NulFree key

/-- A namespace that reaches a directory holds no NUL. -/
def PlainNs (ns : Bytes) : Prop := ((kvCopyCstr 40 ns).bind kvNsPath).isSome = true → NulFree ns

/-- The condition on a step; a `kv.get` of a held value also reads its file without a device
error, and its answer fits. -/
def Careful (s : State) : Event → Prop
  | .put _ _ ns key _ _ => Plain ns key
  | .get via id ns key reads => Plain ns key ∧ ∀ v, s.held ns key = some v →
    reads = true ∧ via.Fits id (foundBody (some v))
  | .del _ _ ns key _ => Plain ns key
  | .stat ns key => Plain ns key
  | .list ns => PlainNs ns

/-! ## Paths and pairs -/

theorem slash_not_word : isWord slash = false := by decide

theorem copy_plain {cap : Nat} {s : Bytes} {c : CStr} (h : kvCopyCstr cap s = some c)
    (hs : NulFree s) : c = s := by
  unfold kvCopyCstr at h
  split at h
  · cases h
  · cases h
    exact cString_self hs

theorem kvValidateNs_spec {ns : CStr} (h : ¬kvValidateNs ns = false) : slash ∉ ns := by
  intro hmem
  unfold kvValidateNs at h
  simp only [Bool.not_eq_false, Bool.and_eq_true, all_eq_true] at h
  have := h.1.2 slash hmem
  rw [slash_not_word] at this
  cases this

theorem kvValidateKey_spec {key : CStr} (h : ¬kvValidateKey key = false) :
    slash ∉ key ∧ key ≠ [] ∧ key.head? ≠ some 46 := by
  unfold kvValidateKey at h
  simp only [Bool.not_eq_false, Bool.and_eq_true, all_eq_true, decide_eq_true_eq, ne_eq] at h
  obtain ⟨⟨⟨hne, hdot⟩, hall⟩, -⟩ := h
  refine ⟨fun hmem => ?_, hne, hdot⟩
  have := hall slash hmem
  rw [slash_not_word] at this
  cases this

variable {key ns value : Bytes} {p path : CStr} {d : Disk} {o : Outcome} {s t : State} {via : Via}
  {id : RequestId}

theorem kvPath_spec {ns key : CStr} (h : kvPath ns key = some path) :
    path = kvPrefix ++ ns ++ slash :: key ∧ slash ∉ ns ∧ slash ∉ key ∧ key ≠ [] ∧
      key.head? ≠ some 46 := by
  unfold kvPath at h
  split at h
  · cases h
  · rename_i hns
    split at h
    · cases h
    · rename_i hkey
      split at h
      · cases h
      · cases h
        exact ⟨rfl, kvValidateNs_spec hns, kvValidateKey_spec hkey⟩

theorem kvNsPath_spec {ns : CStr} (h : kvNsPath ns = some path) :
    path = kvPrefix ++ ns ∧ slash ∉ ns := by
  unfold kvNsPath at h
  split at h
  · cases h
  · rename_i hns
    split at h
    · cases h
    · cases h
      exact ⟨rfl, kvValidateNs_spec hns⟩

theorem pathOf_eq_some (h : pathOf ns key = some path) :
    ∃ p, copyPair ns key = some p ∧ kvPath p.1 p.2 = some path :=
  Option.bind_eq_some_iff.mp h

theorem copyPair_plain {p : CStr × CStr} (h : copyPair ns key = some p)
    (hn : NulFree ns) (hk : NulFree key) : p = (ns, key) := by
  obtain ⟨n, hcn, h⟩ := Option.bind_eq_some_iff.mp h
  obtain ⟨k, hck, rfl⟩ := Option.map_eq_some_iff.mp h
  rw [copy_plain hcn hn, copy_plain hck hk]

theorem pathOf_spec (hp : Plain ns key) (h : pathOf ns key = some path) :
    path = kvPrefix ++ ns ++ slash :: key ∧ slash ∉ ns ∧ slash ∉ key ∧ key ≠ [] ∧
      key.head? ≠ some 46 := by
  obtain ⟨hn, hk⟩ := hp (by rw [h]; rfl)
  obtain ⟨p, hc, hpath⟩ := pathOf_eq_some h
  obtain rfl := copyPair_plain hc hn hk
  exact kvPath_spec hpath

theorem append_slash_inj {a b c d : CStr} (ha : slash ∉ a) (hc : slash ∉ c)
    (h : a ++ slash :: b = c ++ slash :: d) : a = c ∧ b = d := by
  induction a generalizing c with
  | nil =>
    cases c with
    | nil => exact ⟨rfl, (cons.inj h).2⟩
    | cons y c => exact absurd ((cons.inj h).1 ▸ mem_cons_self) hc
  | cons x a ih =>
    cases c with
    | nil => exact absurd ((cons.inj h).1 ▸ mem_cons_self) ha
    | cons y c =>
      obtain ⟨hhead, htail⟩ := cons.inj h
      obtain ⟨hac, hbd⟩ := ih (fun hm => ha (mem_cons_of_mem _ hm))
        (fun hm => hc (mem_cons_of_mem _ hm)) htail
      exact ⟨by rw [hhead, hac], hbd⟩

theorem pathOf_inj {ns' key' : Bytes} (hp : Plain ns key)
    (hp' : Plain ns' key') (h : pathOf ns key = some path) (h' : pathOf ns' key' = some path) :
    ns = ns' ∧ key = key' := by
  obtain ⟨heq, hs, -⟩ := pathOf_spec hp h
  obtain ⟨heq', hs', -⟩ := pathOf_spec hp' h'
  rw [heq, append_assoc, append_assoc] at heq'
  exact append_slash_inj hs hs' (append_cancel_left heq')

theorem paths_inside (hp : Plain ns key) : ∀ t ∈ pathsOf ns key, Inside t.1 t.2 := by
  intro t ht
  obtain ⟨path, hpath, rfl⟩ := mem_map.mp ht
  obtain ⟨heq, hs, hk⟩ := pathOf_spec hp (Option.mem_toList.mp hpath)
  exact ⟨hs, .inr ⟨key, heq, hk⟩⟩

theorem dirs_inside (hp : PlainNs ns) : ∀ t ∈ dirsOf ns, Inside t.1 t.2 := by
  intro t ht
  obtain ⟨path, hpath, rfl⟩ := mem_map.mp ht
  have hpath := Option.mem_toList.mp hpath
  have hn := hp (by rw [hpath]; rfl)
  obtain ⟨c, hc, hdir⟩ := Option.bind_eq_some_iff.mp hpath
  obtain rfl := copy_plain hc hn
  obtain ⟨heq, hs⟩ := kvNsPath_spec hdir
  exact ⟨hs, .inl heq⟩

theorem putPaths_inside (hp : Plain ns key) : ∀ t ∈ putPaths ns key value, Inside t.1 t.2 := by
  intro t ht
  unfold putPaths at ht
  split at ht
  · cases ht
  · cases hpath : pathOf ns key with
    | none =>
      rw [hpath] at ht
      cases ht
    | some path =>
      rw [hpath] at ht
      have hplain := hp (by rw [hpath]; rfl)
      obtain rfl | ht := mem_cons.mp ht
      · obtain ⟨heq, hs, hk⟩ := pathOf_spec hp hpath
        exact ⟨hs, .inr ⟨key, heq, hk⟩⟩
      · exact dirs_inside (fun _ => hplain.1) t ht

/-! ## What a put and a delete do to the files -/

theorem Disk.set_self {bytes : Option Bytes} : d.set path bytes path = bytes := if_pos rfl

theorem Disk.set_ne {bytes : Option Bytes} (h : p ≠ path) : d.set path bytes p = d p := if_neg h

theorem sysFsWrite_frame {bytes : Bytes}
    (h : p ≠ path) : (sysFsWrite d path bytes o).2 p = d p := by
  unfold sysFsWrite
  split
  · rfl
  · split
    · exact Disk.set_ne h
    · exact Disk.set_ne h

theorem sysFsWrite_ok {bytes : Bytes} (h : (sysFsWrite d path bytes o).1 = true) :
    (sysFsWrite d path bytes o).2 path = some bytes := by
  unfold sysFsWrite at h ⊢
  split at h
  · cases h
  · rename_i hn
    split at h
    · rename_i ho
      rw [if_neg hn, if_pos ho]
      exact Disk.set_self
    · cases h

theorem sysUnlink_frame (h : p ≠ path) : (sysUnlink d path o).2 p = d p := by
  unfold sysUnlink
  split
  · rfl
  · split
    · exact Disk.set_ne h
    · exact Disk.set_ne h

theorem emitKvPut_frame
    (h : pathOf ns key ≠ some p) : (emitKvPut d ns key value o).2.2 p = d p := by
  unfold emitKvPut
  split
  · rfl
  · unfold pathOf at h
    cases hc : copyPair ns key with
    | none => rfl
    | some c =>
      rw [hc] at h
      show (kvPut d c.1 c.2 value o).2 p = d p
      unfold kvPut
      change kvPath c.1 c.2 ≠ some p at h
      cases hk : kvPath c.1 c.2 with
      | none => rfl
      | some path =>
        rw [hk] at h
        split
        · rfl
        · exact sysFsWrite_frame fun he => h (congrArg some he.symm)

/-- A put that answers `ok: true` leaves its value in the file of its pair. -/
theorem emitKvPut_ok (h : (emitKvPut d ns key value o).1 = true) :
    ∃ path, pathOf ns key = some path ∧ (emitKvPut d ns key value o).2.2 path = some value ∧
      value.length ≤ kvValueMax := by
  unfold emitKvPut at h ⊢
  split at h
  · cases h
  · rename_i hlen
    rw [if_neg hlen]
    unfold pathOf
    cases hc : copyPair ns key with
    | none =>
      rw [hc] at h
      cases h
    | some c =>
      rw [hc] at h
      change (kvPut d c.1 c.2 value o).1 = true at h
      show ∃ path, kvPath c.1 c.2 = some path ∧ (kvPut d c.1 c.2 value o).2 path = some value ∧ _
      unfold kvPut at h ⊢
      cases hk : kvPath c.1 c.2 with
      | none =>
        rw [hk] at h
        cases h
      | some path =>
        rw [hk] at h
        split at h
        · cases h
        · rename_i hbig
          refine ⟨path, rfl, ?_, not_lt.mp hlen⟩
          show (ite _ _ _ : Bool × Disk).2 path = some value
          rw [if_neg hbig]
          exact sysFsWrite_ok h

theorem emitKvDel_frame (h : pathOf ns key ≠ some p) : (emitKvDel d ns key o).2 p = d p := by
  unfold emitKvDel
  unfold pathOf at h
  cases hc : copyPair ns key with
  | none => rfl
  | some c =>
    rw [hc] at h
    show (kvDel d c.1 c.2 o).2 p = d p
    unfold kvDel
    change kvPath c.1 c.2 ≠ some p at h
    cases hk : kvPath c.1 c.2 with
    | none => rfl
    | some path =>
      rw [hk] at h
      exact sysUnlink_frame fun he => h (congrArg some he.symm)

theorem emitKvGet_found {v : Bytes}
    (hpath : pathOf ns key = some path) (hd : d path = some v) (hlen : v.length ≤ kvValueMax) :
    emitKvGet d ns key true = .done (foundBody (some v)) := by
  obtain ⟨c, hc, hk⟩ := pathOf_eq_some hpath
  unfold emitKvGet
  rw [hc]
  show Emitted.done (foundBody (kvGet d c.1 c.2 kvValueMax true)) = _
  unfold kvGet readFile
  rw [hk, Option.bind_some, hd, Option.bind_some, if_pos rfl, take_of_length_le hlen]

/-! ## Every run -/

/-- A held value is in the file of its pair. -/
structure State.Inv (s : State) : Prop where
  held : ∀ ns key v, s.held ns key = some v → Plain ns key ∧ v.length ≤ kvValueMax ∧
    ∃ path, pathOf ns key = some path ∧ s.disk path = some v
  log : ∀ p ∈ s.log, p.1 = p.2
  touched : ∀ t ∈ s.touched, Inside t.1 t.2

theorem hold_self {held : Bytes → Bytes → Option Bytes} {value : Option Bytes} :
    hold held ns key value ns key = value := if_pos ⟨rfl, rfl⟩

theorem hold_ne {held : Bytes → Bytes → Option Bytes} {n k : Bytes}
    {value : Option Bytes} (h : ¬(n = ns ∧ k = key)) :
    hold held ns key value n k = held n k := if_neg h

theorem touch {a l : List (Bytes × CStr)} (ha : ∀ t ∈ a, Inside t.1 t.2)
    (hl : ∀ t ∈ l, Inside t.1 t.2) : ∀ t ∈ a ++ l, Inside t.1 t.2 := by
  intro t ht
  obtain ht | ht := mem_append.mp ht
  · exact ha t ht
  · exact hl t ht

theorem State.Inv.held_other (hi : s.Inv) {n k v : Bytes} {disk : Disk}
    (hp : Plain ns key) (hframe : ∀ p, pathOf ns key ≠ some p → disk p = s.disk p)
    (hne : ¬(n = ns ∧ k = key)) (h : s.held n k = some v) :
    Plain n k ∧ v.length ≤ kvValueMax ∧ ∃ path, pathOf n k = some path ∧ disk path = some v := by
  obtain ⟨hpn, hlen, path, hpath, hd⟩ := hi.held n k v h
  refine ⟨hpn, hlen, path, hpath, ?_⟩
  rw [hframe path fun he => hne (pathOf_inj hpn hp hpath he), hd]

theorem State.Inv.put (hi : s.Inv) (hc : Plain ns key)
    (hs : s.step (.put via id ns key value o) = some t) : t.Inv := by
  cases hs
  refine ⟨?_, hi.log, touch (putPaths_inside hc) hi.touched⟩
  intro n k v hv
  by_cases hsame : n = ns ∧ k = key
  · obtain ⟨rfl, rfl⟩ := hsame
    have hv := hold_self.symm.trans hv
    split at hv
    · rename_i hok
      cases hv
      obtain ⟨path, hpath, hd, hlen⟩ := emitKvPut_ok hok
      exact ⟨hc, hlen, path, hpath, hd⟩
    · cases hv
  · exact hi.held_other hc (fun p hp => emitKvPut_frame hp) hsame ((hold_ne hsame).symm.trans hv)

theorem State.Inv.del (hi : s.Inv)
    (hc : Plain ns key) (hs : s.step (.del via id ns key o) = some t) : t.Inv := by
  cases hs
  refine ⟨?_, hi.log, touch (paths_inside hc) hi.touched⟩
  intro n k v hv
  by_cases hsame : n = ns ∧ k = key
  · obtain ⟨rfl, rfl⟩ := hsame
    cases hold_self.symm.trans hv
  · exact hi.held_other hc (fun p hp => emitKvDel_frame hp) hsame ((hold_ne hsame).symm.trans hv)

theorem State.Inv.get (hi : s.Inv) {reads : Bool} (hc : Careful s (.get via id ns key reads))
    (hs : s.step (.get via id ns key reads) = some t) : t.Inv := by
  cases hs
  refine ⟨hi.held, ?_, touch (paths_inside hc.1) hi.touched⟩
  cases hv : s.held ns key with
  | none => exact hi.log
  | some v =>
    obtain ⟨rfl, hfits⟩ := hc.2 v hv
    obtain ⟨-, hlen, path, hpath, hd⟩ := hi.held ns key v hv
    intro p hp
    obtain rfl | hp := mem_cons.mp hp
    · rw [emitKvGet_found hpath hd hlen]
      refine reply_fits (fun n hn => ?_) (show 1 < 32 by decide) hfits
      unfold foundBody at hn
      simp only [Tree.numbers, membersNumbers, Option.elim, append_nil, not_mem_nil] at hn
    · exact hi.log p hp

theorem run_inductive : (system.restrict Careful).Inductive State.Inv where
  init s hs :=
    { held := fun ns key v hv => by rw [hs.2.1] at hv; cases hv
      log := fun p hp => by rw [hs.2.2.1] at hp; cases hp
      touched := fun t ht => by rw [hs.2.2.2] at ht; cases ht }
  step s e t hi hs := by
    obtain ⟨hc, hs⟩ := hs
    cases e with
    | put via id ns key value o => exact hi.put hc hs
    | get via id ns key reads => exact hi.get hc hs
    | del via id ns key o => exact hi.del hc hs
    | stat ns key =>
      cases hs
      exact ⟨hi.held, hi.log, touch (paths_inside hc) hi.touched⟩
    | list ns =>
      cases hs
      exact ⟨hi.held, hi.log, touch (dirs_inside hc) hi.touched⟩

/-- In every run whose steps meet the condition, each `kv.get` of a pair whose last
put answered `ok: true` is answered with exactly that value, whichever way it is called, and
every path that a call names lies under the namespace of its request. -/
theorem store_sound (s : State) (hs : (system.restrict Careful).Reachable s) :
    (∀ p ∈ s.log, p.1 = p.2) ∧ ∀ t ∈ s.touched, Inside t.1 t.2 :=
  let hi := run_inductive.reachable s hs
  ⟨hi.log, hi.touched⟩

/-! ## Two concrete runs -/

def empty : State :=
  { disk := fun _ => none, sent := [], held := fun _ _ => none, log := [], touched := [] }

def works : Outcome := { ok := true, torn := none }

theorem letters_plain : Plain [110] [97] := fun _ => by decide +kernel

def stored : State := LTS.after State.step empty (.put .method .null [110] [97] [49] works)

theorem stored_reachable : (system.restrict Careful).Reachable stored :=
  .careful (Event.put _ _ _ _ _ _) (.init ⟨rfl, fun _ _ => rfl, rfl, rfl⟩) letters_plain rfl

/-- A put of `1` and a get through `tools/call`. -/
theorem stored_sound :
    let s := LTS.after State.step stored (.get .toolsCall (.num 7) [110] [97] true)
    (∀ p ∈ s.log, p.1 = p.2) ∧ ∀ t ∈ s.touched, Inside t.1 t.2 := by
  refine store_sound _ (.careful (Event.get _ _ _ _ _) stored_reachable ⟨letters_plain, ?_⟩ rfl)
  intro v hv
  cases hv
  exact ⟨rfl, by decide +kernel⟩

/-- The key `a`, NUL, `b` is put after the key `a`, and `a` is read. -/
def overwritten : State :=
  LTS.replay State.step stored
    [.put .method .null [110] [97, 0, 98] [50] works, .get .method .null [110] [97] true]

/-- The value of the other key is answered. -/
theorem other_key_overwrites : ¬ ∀ s, system.Reachable s →
      (∀ p ∈ s.log, p.1 = p.2) ∧ ∀ t ∈ s.touched, Inside t.1 t.2 := by
  intro h
  have hr : system.Reachable overwritten := .replay _ stored_reachable.of_restrict rfl
  have hlog := (h overwritten hr).1 _ mem_cons_self
  exact absurd hlog (by decide +kernel)

end AdventOS.Agentd.Kv
