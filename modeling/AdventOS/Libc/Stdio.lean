import AdventOS.Core.Replay

/-!
# Buffered streams (`libc/file.c`)

A stream opened for writing is a growing buffer that `fclose_` stores in one write; a stream
opened for reading is the file, loaded by `fopen_`. The buffer's bytes up to `len` are the list
`data`. Beside it stands what the stream is for: `Array`, an array of bytes with a cursor, where
an item is written at the cursor (at the end of an appending stream) and a seek alone changes no
byte.

A session opens, uses and closes one stream; the file system under it changes in between as other
programs like. `log` pairs what each call gives with what the array gives: where `ftell_` says
that the cursor is, the bytes that are read, the file that `fclose_` leaves.

`fwrite_` writes at `len` wherever the cursor is, `fopen_` forgets what an appended file holds,
and `fseek_` past the end makes the file longer at once. So:

* `stream_refines`;
* `patched_header_appended`: going back to write over the first byte appends it.
-/
namespace AdventOS.Libc.Stdio
open List Option

/-! ## The array -/

/-- `item` at `k`: over what is there, past the end after a gap of zeros. -/
def writeAt (content : List UInt8) (k : Nat) (item : List UInt8) : List UInt8 :=
  content.take k ++ List.replicate (k - content.length) 0 ++ item ++
    content.drop (k + item.length)

/-- At most `n` bytes, up to and with the first newline. -/
def lineOf : Nat → List UInt8 → List UInt8
  | 0, _ => []
  | _ + 1, [] => []
  | n + 1, c :: cs => if c = 10 then [c] else c :: lineOf n cs

structure Array where
  writing : Bool
  append : Bool
  content : List UInt8
  cur : Nat
  deriving DecidableEq

namespace Array
variable (a : Array)

def write (item : List UInt8) : Array :=
  if item = [] then a
  else if a.append then
    { a with content := a.content ++ item, cur := (a.content ++ item).length }
  else { a with content := writeAt a.content a.cur item, cur := a.cur + item.length }

def read (n : Nat) : List UInt8 := if a.writing then [] else (a.content.drop a.cur).take n

def line (n : Nat) : List UInt8 := if a.writing then [] else lineOf n (a.content.drop a.cur)

def advance (n : Nat) : Array := { a with cur := a.cur + n }

end Array

/-- The offset that a seek goes to, if there is one: `SEEK_SET`, `SEEK_CUR` and `SEEK_END` are
0, 1 and 2, and an offset is a `long`. -/
def target (cur len : Nat) (offset : Int32) (whence : Int32) : Option Nat :=
  (if whence = 0 then some (0 : Int)
    else if whence = 1 then some (cur : Int)
    else if whence = 2 then some (len : Int)
    else none).bind fun base =>
      if base + offset.toInt < 0 ∨ 2 ^ 31 ≤ base + offset.toInt then none
      else some (base + offset.toInt).toNat

/-! ## The stream -/

/-- `FILE`: `mode` is whether it is open for writing, `data` the first `len` bytes of `buf`. -/
structure FILE where
  mode : Bool
  data : List UInt8
  cap : Nat
  pos : Nat
  eof : Bool
  err : Bool
  path : List UInt8
  deriving DecidableEq

def FILE.len (f : FILE) : Nat := f.data.length

def writeInitCap : Nat := 4096
def readFileCap : Nat := 4 * 1024 * 1024

/-- What `SYS_BRK` gives a process at most (task.h:273-274). -/
def userHeap : Nat := 0x40600000 - 0x40200000

/-- `realloc`: `ok` is whether the allocator finds the memory. -/
def realloc (ok : Bool) (n : Nat) : Option Nat := if ok ∧ n ≤ userHeap then some n else none

/-- A `size_t` as a `long`. -/
def toLong (n : Nat) : Int := (n : Int).bmod (2 ^ 32)

/-- The loop of `ensure_write_cap`; 33 turns are enough (`growCap_turns`). -/
def growCap (need : Nat) : Nat → Nat → Option Nat
  | 0, _ => none
  | turns + 1, newcap =>
    if need ≤ newcap then some newcap
    else if newcap * 2 % 2 ^ 32 < newcap then none
    else growCap need turns (newcap * 2 % 2 ^ 32)

/-- The new `cap`, `none` = -1; file.c:216-228 -/
def ensureWriteCap (f : FILE) (extra : Nat) (ok : Bool) : Option Nat :=
  if (f.len + extra) % 2 ^ 32 ≤ f.cap then some f.cap
  else (growCap ((f.len + extra) % 2 ^ 32) 33 (if f.cap = 0 then writeInitCap else f.cap)).bind
    (realloc ok)

/-- The stream and what is returned; file.c:230-243. `memcpy` and the new `len` are
32-bit: a sum that wraps leaves a shorter `data`. -/
def fwrite (f : FILE) (ptr : List UInt8) (sz nm : UInt32) (ok : Bool) : FILE × UInt32 :=
  if f.mode = false then (f, 0)
  else (ensureWriteCap f (sz * nm).toNat ok).elim ({ f with err := true }, 0) fun cap =>
    let data := (f.data ++ ptr.take (sz * nm).toNat).take ((f.len + (sz * nm).toNat) % 2 ^ 32)
    ({ f with data, cap, pos := data.length }, nm)

/-- The stream and whether it returns 0; file.c:262-282 -/
def fseek (f : FILE) (offset whence : Int32) (ok : Bool) : FILE × Bool :=
  (if whence = 0 then some (0 : Int)
    else if whence = 1 then some (toLong f.pos)
    else if whence = 2 then some (toLong f.len)
    else none).elim (f, false) fun base =>
      let np := (base + offset.toInt).bmod (2 ^ 32)
      if np < 0 then (f, false)
      else if f.mode = true ∧ f.len < np.toNat then
        (ensureWriteCap f (np.toNat - f.len) ok).elim (f, false) fun cap =>
          ({ f with data := f.data ++ List.replicate (np.toNat - f.len) 0, cap,
                    pos := np.toNat, eof := false }, true)
      else ({ f with pos := np.toNat, eof := false }, true)

/-- file.c:284-287 -/
def ftell (f : FILE) : Int := toLong f.pos

/-- The stream and the bytes that are copied out; file.c:199-213 -/
def fread (f : FILE) (sz nm : UInt32) : FILE × List UInt8 :=
  if f.mode = true then (f, [])
  else
    let avail := if f.pos < f.len then f.len - f.pos else 0
    let take := min (sz * nm).toNat avail
    if take = 0 then ({ f with eof := f.eof || decide (f.len ≤ f.pos) }, [])
    else ({ f with pos := f.pos + take, eof := f.eof || decide (f.len ≤ f.pos + take) },
      (f.data.drop f.pos).take take)

/-- The loop of `fgets_`: `left` is `n - 1 - i`. -/
def fgetsLoop (data : List UInt8) : Nat → Nat → List UInt8
  | 0, _ => []
  | left + 1, pos =>
    (data[pos]?).elim [] fun c => if c = 10 then [c] else c :: fgetsLoop data left (pos + 1)

/-- The stream and the bytes of the line (none with NULL); file.c:317-329 -/
def fgets (f : FILE) (n : Int32) : FILE × List UInt8 :=
  if n.toInt ≤ 0 ∨ f.mode = true then (f, [])
  else if f.len ≤ f.pos then ({ f with eof := true }, [])
  else
    let s := fgetsLoop f.data (n.toInt - 1).toNat f.pos
    ({ f with pos := f.pos + s.length }, s)

/-- The stream and the byte, none with `EOF`; file.c:331-335 -/
def fgetc (f : FILE) : FILE × List UInt8 :=
  if f.mode = true then (f, [])
  else if f.len ≤ f.pos then ({ f with eof := true }, [])
  else ({ f with pos := f.pos + 1 }, (f.data[f.pos]?).toList)

/-! ## Opening -/

/-- file.c:131-135 -/
def copyPath (src : List UInt8) : List UInt8 := src.take 127

def wantWrite (mode : List UInt8) : Bool := mode.head? = some 119 || mode.head? = some 97

def appends (mode : List UInt8) : Bool := mode.head? = some 97

/-- The read loop of `fopen_`: `chunk got` is what `sys_read` returns with `got` bytes read (at
most what is asked for), none of it a failure. A turn that goes on reads a byte at least. -/
def loadLoop (chunk : Nat → Nat) (sz : Nat) : Nat → Nat → Nat
  | 0, got => got
  | turns + 1, got =>
    if sz ≤ got then got
    else if chunk got = 0 then got
    else loadLoop chunk sz turns (got + min (chunk got) (sz - got))

/-- What the calls under `fopen_` and `realloc` do: whether memory is there, whether `sys_open`
succeeds, and what each `sys_read` returns. -/
structure Outcome where
  ok : Bool
  opened : Bool
  chunk : Nat → Nat

/-- `none` = NULL; file.c:139-181. `file` is the file at `path`, none where
`sys_fs_size` is negative. -/
def fopen (file : Option (List UInt8)) (path mode : List UInt8) (o : Outcome) : Option FILE :=
  if wantWrite mode = true then
    (realloc o.ok writeInitCap).map fun cap =>
      { mode := true, data := [], cap, pos := 0, eof := false, err := false,
        path := copyPath path }
  else file.bind fun bytes =>
    if readFileCap < bytes.length then none
    else if bytes.length = 0 then
      some { mode := false, data := [], cap := 0, pos := 0, eof := false, err := false, path := [] }
    else if o.opened = false then none
    else (realloc o.ok bytes.length).map fun cap =>
      { mode := false, data := bytes.take (loadLoop o.chunk bytes.length bytes.length 0), cap,
        pos := 0, eof := false, err := false, path := [] }

/-! ## A session -/

/-- The calls that write. -/
inductive Put
  | fwrite (ptr : List UInt8) (sz nm : UInt32)
  | fputs (s : List UInt8)
  | fputc (c : UInt8)
  deriving DecidableEq

def Put.ptr : Put → List UInt8
  | .fwrite ptr _ _ => ptr
  | .fputs s => s
  | .fputc c => [c]

def Put.sz : Put → UInt32
  | .fwrite _ sz _ => sz
  | .fputs _ => 1
  | .fputc _ => 1

def Put.nm : Put → UInt32
  | .fwrite _ _ nm => nm
  | .fputs s => UInt32.ofNat s.length
  | .fputc _ => 1

/-- The caller passes all of its items, and `fputs_` a string. -/
def Put.Valid (p : Put) : Prop := p.ptr.length = p.sz.toNat * p.nm.toNat

instance (p : Put) : Decidable p.Valid := inferInstanceAs (Decidable (_ = _))

/-- `fwrite_` itself, or through `fputs_` and `fputc_` (file.c:247-258). -/
def put (f : FILE) (p : Put) (ok : Bool) : FILE × UInt32 := fwrite f p.ptr p.sz p.nm ok

/-- What a call gives its caller. -/
inductive Seen
  | tells (pos : Int)
  | got (bytes : List UInt8)
  | stored (bytes : Option (List UInt8))
  deriving DecidableEq

/-- An open stream, with its array, the path that it was opened under, and whether a seek past
the end is the last thing that made it longer. -/
structure Handle where
  file : FILE
  spec : Array
  name : List UInt8
  gap : Bool
  deriving DecidableEq

structure Session where
  disk : List UInt8 → Option (List UInt8)
  stream : Option Handle
  log : List (Seen × Seen)

inductive Event
  | fopen (path mode : List UInt8) (o : Outcome)
  | put (p : Put) (ok : Bool)
  | fseek (offset whence : Int32) (ok : Bool)
  | ftell
  | fread (sz nm : UInt32)
  | fgets (n : Int32)
  | fgetc
  | fclose (stores : Bool)
  | outside (path : List UInt8) (bytes : Option (List UInt8))

/-- The array of a stream that is opened on a file. -/
def opened (file : Option (List UInt8)) (mode : List UInt8) : Array :=
  if wantWrite mode = true then
    let content := if appends mode then file.getD [] else []
    { writing := true, append := appends mode, content, cur := content.length }
  else { writing := false, append := false, content := file.getD [], cur := 0 }

/-- An item that the call reports as written is written. -/
def Handle.put (h : Handle) (p : Put) (ok : Bool) : Handle :=
  let r := Stdio.put h.file p ok
  if h.file.mode = true ∧ r.2 = p.nm then
    { h with file := r.1, spec := h.spec.write p.ptr, gap := h.gap && decide (p.ptr = []) }
  else { h with file := r.1 }

def Handle.fseek (h : Handle) (offset whence : Int32) (ok : Bool) : Handle :=
  let r := Stdio.fseek h.file offset whence ok
  if r.2 = true then
    { h with file := r.1
             spec := { h.spec with
               cur := (target h.spec.cur h.spec.content.length offset whence).getD h.spec.cur }
             gap := h.gap || decide (h.file.len < r.1.len) }
  else { h with file := r.1 }

def Handle.took (h : Handle) (r : FILE × List UInt8) (bytes : List UInt8) : Handle :=
  { h with file := r.1, spec := h.spec.advance bytes.length }

def write (disk : List UInt8 → Option (List UInt8)) (path : List UInt8)
    (bytes : Option (List UInt8)) : List UInt8 → Option (List UInt8) :=
  fun p => if p = path then bytes else disk p

/-- What `fclose_` leaves on the disk; file.c:183-195 -/
def fclose (disk : List UInt8 → Option (List UInt8)) (f : FILE) (stores : Bool) :
    (List UInt8 → Option (List UInt8)) × Bool :=
  if f.mode = true ∧ f.path ≠ [] then
    if stores = true then (write disk f.path (some f.data), true) else (disk, false)
  else (disk, true)

def Session.call (s : Session) (h : Handle) : Event → Option Session
  | .put p ok => if p.Valid then some { s with stream := some (h.put p ok) } else none
  | .fseek offset whence ok => some { s with stream := some (h.fseek offset whence ok) }
  | .ftell => some { s with log := (.tells (ftell h.file), .tells h.spec.cur) :: s.log }
  | .fread sz nm =>
    let r := fread h.file sz nm
    let bytes := h.spec.read (sz.toNat * nm.toNat)
    some { s with stream := some (h.took r bytes), log := (.got r.2, .got bytes) :: s.log }
  | .fgets n =>
    let r := fgets h.file n
    let bytes := h.spec.line (n.toInt - 1).toNat
    some { s with stream := some (h.took r bytes), log := (.got r.2, .got bytes) :: s.log }
  | .fgetc =>
    let r := fgetc h.file
    let bytes := h.spec.read 1
    some { s with stream := some (h.took r bytes), log := (.got r.2, .got bytes) :: s.log }
  | .fclose stores =>
    let r := fclose s.disk h.file stores
    some { disk := r.1, stream := none,
           log := if h.spec.writing = true ∧ r.2 = true then
               (.stored (r.1 h.name), .stored (some h.spec.content)) :: s.log
             else s.log }
  | _ => none

def Session.step (s : Session) : Event → Option Session
  | .outside path bytes => some { s with disk := write s.disk path bytes }
  | .fopen path mode o =>
    if s.stream.isSome then none
    else (fopen (s.disk path) path mode o).map fun f =>
      { s with stream := some { file := f, spec := opened (s.disk path) mode, name := path,
                                gap := false } }
  | e => s.stream.bind fun h => s.call h e

def Session.boot (s : Session) : Prop := s.stream = none ∧ s.log = []

/-! ## Growing the buffer -/

variable {cap turns : Nat} {ok : Bool} {f : FILE} {h : Handle} {s : Session}

theorem growCap_turns {need c : Nat} (hc : 0 < c) (hlt : c < 2 ^ 32)
    (ht : 2 ^ 32 ≤ c * 2 ^ turns) :
    growCap need (turns + 1) c = growCap need (turns + 2) c := by
  induction turns generalizing c with
  | zero => omega
  | succ turns ih =>
    rw [growCap, growCap.eq_2 need c (turns + 2)]
    by_cases hn : need ≤ c
    · rw [if_pos hn, if_pos hn]
    rw [if_neg hn, if_neg hn]
    by_cases ho : c * 2 % 2 ^ 32 < c
    · rw [if_pos ho, if_pos ho]
    rw [if_neg ho, if_neg ho]
    have h2 : c * 2 % 2 ^ 32 = c * 2 := by omega
    rw [h2]
    refine ih (by omega) (by omega) ?_
    rw [Nat.pow_succ] at ht
    calc 2 ^ 32 ≤ c * (2 ^ turns * 2) := ht
      _ = c * 2 * 2 ^ turns := by rw [Nat.mul_comm (2 ^ turns), Nat.mul_assoc]

theorem growCap_ge {need c : Nat} (h : growCap need turns c = some cap) :
    need ≤ cap := by
  induction turns generalizing c with
  | zero => cases h
  | succ turns ih =>
    rw [growCap] at h
    split at h
    · cases h; assumption
    · split at h
      · cases h
      · exact ih h

theorem realloc_le {n : Nat} (h : realloc ok n = some cap) :
    cap = n ∧ cap ≤ userHeap := by
  unfold realloc at h
  split at h
  · rename_i hn
    cases h
    exact ⟨rfl, hn.2⟩
  · cases h

theorem ensureWriteCap_room {extra : Nat}
    (hcap : f.cap ≤ userHeap) (hw : f.len + extra < 2 ^ 32)
    (h : ensureWriteCap f extra ok = some cap) : f.len + extra ≤ cap ∧ cap ≤ userHeap := by
  unfold ensureWriteCap at h
  rw [Nat.mod_eq_of_lt hw] at h
  split at h
  · cases h
    exact ⟨by assumption, hcap⟩
  · obtain ⟨c, hc, hr⟩ := bind_eq_some_iff.mp h
    obtain ⟨rfl, hle⟩ := realloc_le hr
    exact ⟨growCap_ge hc, hle⟩

/-! ## The careful session -/

/-- Calls on an open stream that meet the array: an item is written at the end (or appended), its
size and the new length are below `2^32`, no seek relies on or leaves an end that no item was
written up to. -/
def Handle.Careful (h : Handle) : Event → Prop
  | .put p _ => h.file.mode = true →
    h.file.len + p.sz.toNat * p.nm.toNat < 2 ^ 32 ∧
      (h.file.pos = h.file.len ∨ h.spec.append = true ∧ p.ptr ≠ [])
  | .fseek offset whence _ => h.file.mode = true →
    (whence = 2 → h.gap = false) ∧
      (h.spec.append = true → ∀ t, target h.file.pos h.file.len offset whence = some t →
        t ≤ h.file.len)
  | .fread sz nm => h.file.mode = false →
    sz.toNat * nm.toNat < 2 ^ 32 ∨ h.file.len - h.file.pos ≤ (sz * nm).toNat
  | .fclose _ => h.file.mode = true → h.gap = false
  | _ => True

/-- A stream is opened for writing under a name that `path` holds, for appending only where there
is nothing to keep, and for reading only where no read fails. -/
def OpensWell (file : Option (List UInt8)) (path mode : List UInt8) (o : Outcome) : Prop :=
  if wantWrite mode = true then
    path ≠ [] ∧ path.length ≤ 127 ∧ (appends mode = true → file.getD [] = [])
  else ∀ bytes, file = some bytes → ∀ got < bytes.length, o.chunk got ≠ 0

def Careful (s : Session) : Event → Prop
  | .fopen path mode o => OpensWell (s.disk path) path mode o
  | e => ∀ h, s.stream = some h → h.Careful e

def system : LTS Session Event := LTS.ofFn Session.boot Session.step

/-! ## What holds of an open stream -/

/-- The buffer is the array, with the zeros of a seek past its end. -/
structure Handle.Inv (h : Handle) : Prop where
  mode : h.file.mode = h.spec.writing
  pos : h.file.pos = h.spec.cur
  data : h.file.data = h.spec.content ++ List.replicate (h.file.len - h.spec.content.length) 0
  gap : h.gap = false → h.file.len = h.spec.content.length
  append : h.spec.append = true → h.gap = false
  reading : h.spec.writing = false → h.gap = false
  room : h.file.len ≤ h.file.cap
  heap : h.file.cap ≤ userHeap
  posLt : h.file.pos < 2 ^ 31
  path : h.file.mode = true → h.file.path = h.name ∧ h.name ≠ []

namespace Handle.Inv
variable {h : Handle} (hi : h.Inv)
include hi

theorem lenLt : h.file.len < 2 ^ 31 := by
  have := hi.room
  have := hi.heap
  unfold userHeap at this
  omega

theorem content_le : h.spec.content.length ≤ h.file.len := by
  have hd := congrArg List.length hi.data
  rw [length_append, length_replicate] at hd
  change h.file.len = _ at hd
  omega

theorem data_eq (hg : h.gap = false) : h.file.data = h.spec.content := by
  rw [hi.data, hi.gap hg, Nat.sub_self, replicate_zero, append_nil]

end Handle.Inv

theorem toLong_of_lt {n : Nat} (h : n < 2 ^ 31) : toLong n = n := by
  unfold toLong
  rw [Int.bmod_def]
  omega

theorem writeAt_end {content item : List UInt8} {k : Nat} (hk : content.length ≤ k) :
    writeAt content k item = content ++ List.replicate (k - content.length) 0 ++ item := by
  unfold writeAt
  rw [take_of_length_le hk, drop_eq_nil_of_le (by omega), append_nil]

theorem Put.want {p : Put} (hv : p.Valid) (hlt : p.sz.toNat * p.nm.toNat < 2 ^ 32) :
    (p.sz * p.nm).toNat = p.ptr.length := by
  rw [UInt32.toNat_mul, Nat.mod_eq_of_lt hlt]
  exact hv.symm

/-! ## Writing -/

theorem fwrite_reading {ptr : List UInt8} {sz nm : UInt32}
    (hm : f.mode = false) : fwrite f ptr sz nm ok = (f, 0) := by
  unfold fwrite
  rw [if_pos hm]

theorem put_cases {f : FILE} {p : Put} {ok : Bool} (hm : f.mode = true) (hv : p.Valid)
    (hw : f.len + p.sz.toNat * p.nm.toNat < 2 ^ 32) (hcap : f.cap ≤ userHeap) :
    (ensureWriteCap f p.ptr.length ok = none ∧ put f p ok = ({ f with err := true }, 0)) ∨
    ∃ cap, ensureWriteCap f p.ptr.length ok = some cap ∧
      f.len + p.ptr.length ≤ cap ∧ cap ≤ userHeap ∧
      put f p ok =
        ({ f with data := f.data ++ p.ptr, cap, pos := (f.data ++ p.ptr).length }, p.nm) := by
  have hn : (p.sz * p.nm).toNat = p.ptr.length := Put.want hv (by omega)
  rw [← hv] at hw
  unfold put fwrite
  rw [if_neg (by rw [hm]; decide), hn]
  cases hc : ensureWriteCap f p.ptr.length ok with
  | none => exact .inl ⟨rfl, rfl⟩
  | some cap =>
    obtain ⟨hroom, hheap⟩ := ensureWriteCap_room hcap hw hc
    refine .inr ⟨cap, rfl, hroom, hheap, ?_⟩
    have hdata : (f.data ++ p.ptr.take p.ptr.length).take
        ((f.len + p.ptr.length) % 2 ^ 32) = f.data ++ p.ptr := by
      rw [take_of_length_le (le_refl p.ptr.length), Nat.mod_eq_of_lt hw]
      exact take_of_length_le (by rw [length_append]; exact le_refl _)
    show (_, _) = _
    rw [hdata]

theorem Array.write_nil {a : Array} : a.write [] = a := by
  unfold Array.write
  rw [if_pos rfl]

theorem Handle.Inv.write (hi : h.Inv) {item : List UInt8} (hne : item ≠ [])
    (hend : h.file.pos = h.file.len ∨ h.spec.append = true) :
    (h.spec.write item).content = h.file.data ++ item ∧
    (h.spec.write item).cur = (h.file.data ++ item).length ∧
    (h.spec.write item).writing = h.spec.writing ∧
    (h.spec.write item).append = h.spec.append := by
  unfold Array.write
  rw [if_neg hne]
  split
  · rename_i ha
    rw [hi.data_eq (hi.append ha)]
    exact ⟨rfl, rfl, rfl, rfl⟩
  · rename_i ha
    have hpos : h.spec.cur = h.file.len := by
      rw [← hi.pos]
      exact hend.resolve_right ha
    refine ⟨?_, ?_, rfl, rfl⟩
    · rw [hpos, writeAt_end hi.content_le, ← hi.data]
    · rw [hpos, length_append]
      rfl

theorem Handle.Inv.put (hi : h.Inv) {p : Put} (hv : p.Valid)
    (hc : h.Careful (.put p ok)) : (h.put p ok).Inv := by
  cases hm : h.file.mode with
  | false =>
    unfold Handle.put Stdio.put
    rw [fwrite_reading hm, if_neg fun hr => Bool.false_ne_true (hm.symm.trans hr.1)]
    exact hi
  | true =>
    obtain ⟨hw, hend⟩ := hc hm
    unfold Handle.put
    obtain ⟨-, heq⟩ | ⟨cap, -, hroom, hheap, heq⟩ := @put_cases _ _ ok hm hv hw hi.heap
    · -- refused: only an item without bytes can be reported as written
      rw [heq]
      show (ite _ _ _ : Handle).Inv
      split
      · rename_i hr
        have hnil : p.ptr = [] := by
          have hn : p.nm = 0 := hr.2.symm
          exact length_eq_zero_iff.mp (by rw [hv, hn]; rfl)
        rw [hnil, Array.write_nil, decide_eq_true rfl, Bool.and_true]
        exact { hi with }
      · exact { hi with }
    · rw [heq]
      rw [if_pos ⟨hm, rfl⟩]
      by_cases hnil : p.ptr = []
      · have hpos : h.file.pos = h.file.len := hend.resolve_right fun ha => ha.2 hnil
        rw [hnil, Array.write_nil, decide_eq_true rfl, Bool.and_true]
        rw [hnil] at hroom
        simp only [append_nil]
        exact { hi with
          pos := hpos.symm.trans hi.pos
          room := hroom
          heap := hheap
          posLt := hi.lenLt }
      · obtain ⟨hcont, hcur, hwr, hap⟩ := hi.write hnil (hend.imp_right And.left)
        rw [decide_eq_false hnil, Bool.and_false]
        have hlen : (h.file.data ++ p.ptr).length = h.file.len + p.ptr.length :=
          length_append
        exact
          { mode := hi.mode.trans hwr.symm
            pos := hcur.symm
            data := by
              show h.file.data ++ p.ptr = (h.spec.write p.ptr).content ++
                List.replicate ((h.file.data ++ p.ptr).length -
                  (h.spec.write p.ptr).content.length) 0
              rw [hcont, Nat.sub_self, replicate_zero, append_nil]
            gap := fun _ => congrArg List.length hcont.symm
            append := fun _ => rfl
            reading := fun _ => rfl
            room := by
              show (h.file.data ++ p.ptr).length ≤ cap
              omega
            heap := hheap
            posLt := by
              show (h.file.data ++ p.ptr).length < 2 ^ 31
              unfold userHeap at hheap
              omega
            path := hi.path }

/-! ## Seeking -/

theorem target_eq {cur len : Nat} {offset whence : Int32} {base : Int}
    (hb : (if whence = 0 then some (0 : Int) else if whence = 1 then some (cur : Int)
      else if whence = 2 then some (len : Int) else none) = some base)
    (hle : 0 ≤ base) (hlt : base < 2 ^ 31) :
    if (base + offset.toInt).bmod (2 ^ 32) < 0 then target cur len offset whence = none
    else target cur len offset whence = some ((base + offset.toInt).bmod (2 ^ 32)).toNat ∧
      (base + offset.toInt).bmod (2 ^ 32) < 2 ^ 31 := by
  have h1 := offset.le_toInt
  have h2 := offset.toInt_lt
  unfold target
  rw [hb, bind_some]
  by_cases hr : base + offset.toInt < 0 ∨ 2 ^ 31 ≤ base + offset.toInt
  · have hneg : (base + offset.toInt).bmod (2 ^ 32) < 0 := by rw [Int.bmod_def]; omega
    rw [if_pos hneg, if_pos hr]
  · have hsum : (base + offset.toInt).bmod (2 ^ 32) = base + offset.toInt := by
      rw [Int.bmod_def]; omega
    rw [hsum, if_neg (by omega), if_neg hr]
    exact ⟨rfl, by omega⟩

/-- A seek that is refused changes nothing; one that is done moves the cursor to the target, and
in a stream opened for writing fills up to it. -/
theorem fseek_cases {f : FILE} {offset whence : Int32} {ok : Bool} (hpos : f.pos < 2 ^ 31)
    (hlen : f.len < 2 ^ 31) (hcap : f.cap ≤ userHeap) :
    (fseek f offset whence ok = (f, false) ∧
      ∀ t, target f.pos f.len offset whence = some t →
        f.mode = true ∧ f.len < t ∧ ensureWriteCap f (t - f.len) ok = none) ∨
    ∃ t, target f.pos f.len offset whence = some t ∧ t < 2 ^ 31 ∧
      ((f.mode = true → t ≤ f.len) ∧
          fseek f offset whence ok = ({ f with pos := t, eof := false }, true) ∨
        f.mode = true ∧ f.len < t ∧ ∃ cap, t ≤ cap ∧ cap ≤ userHeap ∧
          fseek f offset whence ok =
            ({ f with data := f.data ++ List.replicate (t - f.len) 0, cap, pos := t,
                      eof := false }, true)) := by
  unfold fseek
  rw [toLong_of_lt hpos, toLong_of_lt hlen]
  cases hb : (if whence = 0 then some (0 : Int) else if whence = 1 then some (f.pos : Int)
      else if whence = 2 then some (f.len : Int) else none) with
  | none =>
    refine .inl ⟨rfl, fun t ht => ?_⟩
    unfold target at ht
    rw [hb] at ht
    cases ht
  | some base =>
    have hbase : 0 ≤ base ∧ base < 2 ^ 31 := by
      split at hb
      · cases hb; omega
      · split at hb
        · cases hb; omega
        · split at hb
          · cases hb; omega
          · cases hb
    have ht := @target_eq _ _ offset _ _ hb hbase.1 hbase.2
    generalize hnp : (base + offset.toInt).bmod (2 ^ 32) = np at ht
    simp only [Option.elim, hnp]
    by_cases hneg : np < 0
    · rw [if_pos hneg] at ht ⊢
      refine .inl ⟨rfl, fun t h => ?_⟩
      rw [ht] at h
      cases h
    rw [if_neg hneg] at ht ⊢
    by_cases hgrow : f.mode = true ∧ f.len < np.toNat
    · rw [if_pos hgrow]
      cases hc : ensureWriteCap f (np.toNat - f.len) ok with
      | none =>
        refine .inl ⟨rfl, fun t h => ?_⟩
        rw [ht.1] at h
        cases h
        exact ⟨hgrow.1, hgrow.2, hc⟩
      | some cap =>
        obtain ⟨hroom, hheap⟩ := ensureWriteCap_room hcap (by omega) hc
        exact .inr ⟨np.toNat, ht.1, by omega,
          .inr ⟨hgrow.1, hgrow.2, cap, by omega, hheap, rfl⟩⟩
    · rw [if_neg hgrow]
      refine .inr ⟨np.toNat, ht.1, by omega, .inl ⟨fun hm => ?_, rfl⟩⟩
      by_contra hlt
      exact hgrow ⟨hm, by omega⟩

theorem Handle.Inv.target_eq {h : Handle} (hi : h.Inv) {offset whence : Int32}
    (hg : whence = 2 → h.gap = false) :
    target h.spec.cur h.spec.content.length offset whence =
      target h.file.pos h.file.len offset whence := by
  rw [← hi.pos]
  unfold target
  by_cases hw : whence = 2
  · rw [hi.gap (hg hw)]
  · simp only [if_neg hw]

theorem Handle.Inv.fseek (hi : h.Inv) {offset whence : Int32}
    (hc : h.Careful (.fseek offset whence ok)) : (h.fseek offset whence ok).Inv := by
  have hread : h.file.mode = false → h.gap = false := fun hm => hi.reading (hi.mode ▸ hm)
  have hend : whence = 2 → h.gap = false := by
    intro hw
    cases hm : h.file.mode with
    | false => exact hread hm
    | true => exact (hc hm).1 hw
  unfold Handle.fseek
  obtain ⟨heq, -⟩ | ⟨t, ht, hlt, ⟨-, heq⟩ | ⟨hm, hgt, cap, hroom, hheap, heq⟩⟩ :=
    @fseek_cases _ offset whence ok hi.posLt hi.lenLt hi.heap
  · rw [heq]
    exact hi
  · rw [heq]
    rw [if_pos rfl, hi.target_eq hend, ht]
    have hsame : decide (h.file.len < h.file.len) = false := decide_eq_false (lt_irrefl _)
    exact { hi with
      pos := rfl
      gap := fun hg => hi.gap (Bool.or_eq_false_iff.mp hg).1
      append := fun ha => Bool.or_eq_false_iff.mpr ⟨hi.append ha, hsame⟩
      reading := fun hr => Bool.or_eq_false_iff.mpr ⟨hi.reading hr, hsame⟩
      posLt := hlt }
  · rw [heq]
    rw [if_pos rfl, hi.target_eq hend, ht]
    have hlen : (h.file.data ++ List.replicate (t - h.file.len) 0).length = t := by
      rw [length_append, length_replicate]
      change h.file.len + _ = t
      omega
    have hgrows : decide (h.file.len < (h.file.data ++
        List.replicate (t - h.file.len) 0).length) = true := by
      rw [hlen]
      exact decide_eq_true hgt
    exact
      { mode := hi.mode
        pos := rfl
        data := by
          show h.file.data ++ List.replicate (t - h.file.len) 0 = h.spec.content ++
            List.replicate ((h.file.data ++ List.replicate (t - h.file.len) 0).length -
              h.spec.content.length) 0
          rw [hlen]
          conv_lhs => rw [hi.data]
          have := hi.content_le
          rw [append_assoc, ← replicate_add]
          congr 2
          omega
        gap := fun hg =>
          absurd (hgrows.symm.trans (Bool.or_eq_false_iff.mp hg).2) (by decide)
        append := fun ha => absurd ((hc hm).2 ha t ht) (by omega)
        reading := fun hr => by
          rw [hi.mode, hr] at hm
          cases hm
        room := by
          show (h.file.data ++ List.replicate (t - h.file.len) 0).length ≤ cap
          rw [hlen]
          exact hroom
        heap := hheap
        posLt := hlt
        path := hi.path }

/-! ## Reading -/

theorem fgetsLoop_eq {data : List UInt8} {left pos : Nat} :
    fgetsLoop data left pos = lineOf left (data.drop pos) := by
  induction left generalizing pos with
  | zero => rw [fgetsLoop, lineOf]
  | succ left ih =>
    rw [fgetsLoop]
    by_cases hp : pos < data.length
    · rw [List.getElem?_eq_getElem hp, drop_eq_getElem_cons hp, lineOf]
      show (if data[pos] = 10 then _ else _) = _
      rw [ih]
    · rw [List.getElem?_eq_none (by omega), drop_eq_nil_of_le (by omega)]
      rfl

theorem lineOf_length_le {n : Nat} {bytes : List UInt8} :
    (lineOf n bytes).length ≤ bytes.length := by
  induction n generalizing bytes with
  | zero => rw [lineOf]; exact Nat.zero_le _
  | succ n ih =>
    cases bytes with
    | nil => rw [lineOf]
    | cons c cs =>
      rw [lineOf]
      split
      · exact Nat.succ_le_succ (Nat.zero_le _)
      · exact Nat.succ_le_succ ih

/-- What a read hands out: bytes of the buffer, and the position moves past them. -/
structure Takes (f : FILE) (r : FILE × List UInt8) (bytes : List UInt8) : Prop where
  got : r.2 = bytes
  file : ∃ eof, r.1 = { f with pos := f.pos + bytes.length, eof }
  within : f.pos + bytes.length ≤ max f.pos f.len

theorem Takes.none {eof : Bool} : Takes f ({ f with eof }, []) [] :=
  ⟨rfl, ⟨eof, rfl⟩, le_max_left _ _⟩

theorem fread_takes {sz nm : UInt32} (hm : f.mode = false)
    (hw : sz.toNat * nm.toNat < 2 ^ 32 ∨ f.len - f.pos ≤ (sz * nm).toNat) :
    Takes f (fread f sz nm) ((f.data.drop f.pos).take (sz.toNat * nm.toNat)) := by
  have havail : (if f.pos < f.len then f.len - f.pos else 0) = f.len - f.pos := by
    split <;> omega
  have hle : (sz * nm).toNat ≤ sz.toNat * nm.toNat := by
    rw [UInt32.toNat_mul]
    exact Nat.mod_le _ _
  have hlen : ((f.data.drop f.pos).take (sz.toNat * nm.toNat)).length =
      min (sz * nm).toNat (f.len - f.pos) := by
    rw [length_take, length_drop]
    change min _ (f.len - f.pos) = _
    obtain hw | hw := hw
    · rw [UInt32.toNat_mul, Nat.mod_eq_of_lt hw]
    · omega
  have htake : (f.data.drop f.pos).take (sz.toNat * nm.toNat) =
      (f.data.drop f.pos).take (min (sz * nm).toNat (f.len - f.pos)) := by
    rw [← hlen, length_take, ← take_take, take_length]
  unfold fread
  rw [if_neg (by rw [hm]; decide), havail]
  show Takes f (ite _ _ _) _
  split
  · rename_i h0
    rw [htake, h0]
    exact Takes.none
  · refine ⟨htake.symm,
      ⟨f.eof || decide (f.len ≤ f.pos + min (sz * nm).toNat (f.len - f.pos)), ?_⟩, ?_⟩
    · rw [hlen]
    · rw [hlen]
      omega

theorem fgets_takes {n : Int32} (hm : f.mode = false) :
    Takes f (fgets f n) (lineOf (n.toInt - 1).toNat (f.data.drop f.pos)) := by
  unfold fgets
  by_cases hn : n.toInt ≤ 0
  · rw [if_pos (.inl hn), show (n.toInt - 1).toNat = 0 by omega, lineOf]
    exact Takes.none
  rw [if_neg fun h => h.elim hn fun ht => Bool.false_ne_true (hm.symm.trans ht)]
  by_cases hp : f.len ≤ f.pos
  · rw [if_pos hp, drop_eq_nil_of_le hp]
    rw [show lineOf (n.toInt - 1).toNat [] = [] from
      length_eq_zero_iff.mp (Nat.le_zero.mp lineOf_length_le)]
    exact Takes.none
  · rw [if_neg hp]
    refine ⟨fgetsLoop_eq, ⟨f.eof, ?_⟩, ?_⟩
    · rw [fgetsLoop_eq]
    · have hle := @lineOf_length_le (n.toInt - 1).toNat (f.data.drop f.pos)
      rw [length_drop] at hle
      change _ ≤ f.len - f.pos at hle
      omega

theorem fgetc_takes (hm : f.mode = false) :
    Takes f (fgetc f) ((f.data.drop f.pos).take 1) := by
  unfold fgetc
  rw [if_neg (by rw [hm]; decide)]
  by_cases hp : f.len ≤ f.pos
  · rw [if_pos hp, drop_eq_nil_of_le hp]
    exact Takes.none
  · rw [if_neg hp]
    have hlt : f.pos < f.data.length := not_le.mp hp
    rw [drop_eq_getElem_cons hlt, List.getElem?_eq_getElem hlt]
    exact ⟨rfl, ⟨f.eof, rfl⟩, le_trans (Nat.succ_le_of_lt hlt) (le_max_right _ _)⟩

theorem Handle.Inv.took (hi : h.Inv) {r : FILE × List UInt8} {bytes : List UInt8}
    (ht : Takes h.file r bytes) : (h.took r bytes).Inv := by
  obtain ⟨eof, heq⟩ := ht.file
  have hlt := hi.posLt
  have hlen := hi.lenLt
  have hin := ht.within
  unfold Handle.took
  rw [heq]
  exact { hi with
    pos := congrArg (· + bytes.length) hi.pos
    posLt := by
      show h.file.pos + bytes.length < 2 ^ 31
      omega }

/-! ## Opening and closing -/

theorem loadLoop_full {chunk : Nat → Nat} {sz got : Nat}
    (hc : ∀ got < sz, chunk got ≠ 0) (hle : got ≤ sz) (ht : sz ≤ got + turns) :
    loadLoop chunk sz turns got = sz := by
  induction turns generalizing got with
  | zero =>
    rw [loadLoop]
    omega
  | succ turns ih =>
    rw [loadLoop]
    by_cases hg : sz ≤ got
    · rw [if_pos hg]
      omega
    · have hne := hc got (by omega)
      rw [if_neg hg, if_neg hne]
      exact ih (by omega) (by omega)

theorem fopen_inv {file : Option (List UInt8)} {path mode : List UInt8} {o : Outcome}
    (hc : OpensWell file path mode o) (hf : fopen file path mode o = some f) :
    Handle.Inv { file := f, spec := opened file mode, name := path, gap := false } := by
  unfold OpensWell at hc
  unfold fopen at hf
  split at hf
  · rename_i hw
    rw [if_pos hw] at hc
    obtain ⟨hne, hle, hfresh⟩ := hc
    obtain ⟨cap, hr, rfl⟩ := map_eq_some_iff.mp hf
    obtain ⟨rfl, hheap⟩ := realloc_le hr
    have hspec : opened file mode =
        { writing := true, append := appends mode, content := [], cur := 0 } := by
      unfold opened
      rw [if_pos hw]
      cases ha : appends mode with
      | false => rfl
      | true => rw [hfresh ha]; rfl
    rw [hspec]
    exact
      { mode := rfl, pos := rfl, data := rfl, gap := fun _ => rfl, append := fun _ => rfl
        reading := fun _ => rfl, room := Nat.zero_le _, heap := hheap, posLt := Nat.two_pow_pos 31
        path := fun _ => ⟨take_of_length_le hle, hne⟩ }
  · rename_i hw
    rw [if_neg hw] at hc
    obtain ⟨bytes, hb, hf⟩ := bind_eq_some_iff.mp hf
    have hspec : opened file mode =
        { writing := false, append := false, content := bytes, cur := 0 } := by
      unfold opened
      rw [if_neg hw, hb]
      rfl
    rw [hspec]
    split at hf
    · cases hf
    split at hf
    · rename_i hnil
      cases hf
      rw [length_eq_zero_iff.mp hnil]
      exact
        { mode := rfl, pos := rfl, data := rfl, gap := fun _ => rfl, append := fun _ => rfl
          reading := fun _ => rfl, room := Nat.zero_le _, heap := Nat.zero_le _
          posLt := Nat.two_pow_pos 31, path := fun h => absurd h Bool.false_ne_true }
    split at hf
    · cases hf
    obtain ⟨cap, hr, rfl⟩ := map_eq_some_iff.mp hf
    obtain ⟨rfl, hheap⟩ := realloc_le hr
    have hfull : bytes.take (loadLoop o.chunk bytes.length bytes.length 0) = bytes := by
      rw [loadLoop_full (hc bytes hb) (Nat.zero_le _) (by omega), take_length]
    rw [hfull]
    exact
      { mode := rfl, pos := rfl
        data := by
          show bytes = bytes ++ List.replicate (bytes.length - bytes.length) 0
          rw [Nat.sub_self, replicate_zero, append_nil]
        gap := fun _ => rfl, append := fun _ => rfl, reading := fun _ => rfl, room := le_refl _
        heap := hheap, posLt := Nat.two_pow_pos 31, path := fun h => absurd h Bool.false_ne_true }

theorem Handle.Inv.fclose (hi : h.Inv) {disk : List UInt8 → Option (List UInt8)}
    {stores : Bool} (hm : h.file.mode = true) (hg : h.gap = false)
    (hr : (fclose disk h.file stores).2 = true) :
    (Stdio.fclose disk h.file stores).1 h.name = some h.spec.content := by
  obtain ⟨hpath, hne⟩ := hi.path hm
  unfold Stdio.fclose at hr ⊢
  rw [if_pos ⟨hm, hpath ▸ hne⟩] at hr ⊢
  split at hr
  · rename_i hs
    rw [if_pos hs]
    show (if h.name = h.file.path then _ else _) = _
    rw [if_pos hpath.symm, hi.data_eq hg]
  · cases hr

/-! ## The session -/

structure Session.Inv (s : Session) : Prop where
  stream : ∀ h, s.stream = some h → h.Inv
  log : ∀ p ∈ s.log, p.1 = p.2

theorem Session.Inv.logged (hi : s.Inv) {a b : Seen} (heq : a = b) :
    ∀ p ∈ (a, b) :: s.log, p.1 = p.2 := by
  intro p hp
  obtain rfl | hp := mem_cons.mp hp
  · exact heq
  · exact hi.log p hp

theorem Session.Inv.read (hi : s.Inv) (hh : h.Inv)
    {r : FILE × List UInt8} {bytes : List UInt8} (ht : Takes h.file r bytes) :
    Session.Inv { s with stream := some (h.took r bytes)
                         log := (.got r.2, .got bytes) :: s.log } where
  stream k hk := by
    cases hk
    exact hh.took ht
  log := hi.logged (congrArg Seen.got ht.got)

theorem Takes.writing : Takes f (f, []) [] := ⟨rfl, ⟨f.eof, rfl⟩, le_max_left _ _⟩

theorem Session.Inv.call {t : Session} (hi : s.Inv) (hs : s.stream = some h)
    {e : Event} (hc : h.Careful e) (he : s.call h e = some t) : t.Inv := by
  have hh := hi.stream h hs
  cases e with
  | fopen path mode o => cases he
  | outside path bytes => cases he
  | put p ok =>
    change (if p.Valid then _ else none) = _ at he
    split at he
    · rename_i hv
      cases he
      exact { stream := fun k hk => by cases hk; exact hh.put hv hc, log := hi.log }
    · cases he
  | fseek offset whence ok =>
    cases he
    exact { stream := fun k hk => by cases hk; exact hh.fseek hc, log := hi.log }
  | ftell =>
    cases he
    refine { stream := hi.stream, log := hi.logged ?_ }
    rw [ftell, toLong_of_lt hh.posLt, hh.pos]
  | fread sz nm =>
    cases he
    refine hi.read hh ?_
    unfold Array.read
    cases hm : h.file.mode with
    | false =>
      have hw : h.spec.writing = false := hh.mode.symm.trans hm
      rw [if_neg (by rw [hw]; decide), ← hh.pos, ← hh.data_eq (hh.reading hw)]
      exact fread_takes hm (hc hm)
    | true =>
      rw [if_pos (hh.mode.symm.trans hm), fread, if_pos hm]
      exact Takes.writing
  | fgets n =>
    cases he
    refine hi.read hh ?_
    unfold Array.line
    cases hm : h.file.mode with
    | false =>
      have hw : h.spec.writing = false := hh.mode.symm.trans hm
      rw [if_neg (by rw [hw]; decide), ← hh.pos, ← hh.data_eq (hh.reading hw)]
      exact fgets_takes hm
    | true =>
      rw [if_pos (hh.mode.symm.trans hm), fgets, if_pos (.inr hm)]
      exact Takes.writing
  | fgetc =>
    cases he
    refine hi.read hh ?_
    unfold Array.read
    cases hm : h.file.mode with
    | false =>
      have hw : h.spec.writing = false := hh.mode.symm.trans hm
      rw [if_neg (by rw [hw]; decide), ← hh.pos, ← hh.data_eq (hh.reading hw)]
      exact fgetc_takes hm
    | true =>
      rw [if_pos (hh.mode.symm.trans hm), fgetc, if_pos hm]
      exact Takes.writing
  | fclose stores =>
    cases he
    refine { stream := fun k hk => (by cases hk), log := ?_ }
    show ∀ p ∈ (if h.spec.writing = true ∧ (fclose s.disk h.file stores).2 = true then
      (_, _) :: s.log else s.log), p.1 = p.2
    split
    · rename_i hw
      have hm := hh.mode.trans hw.1
      exact hi.logged (congrArg Seen.stored (hh.fclose hm (hc hm) hw.2))
    · exact hi.log

theorem Session.Inv.step {t : Session} (hi : s.Inv) {e : Event} (hc : Careful s e)
    (he : s.step e = some t) : t.Inv := by
  have hcall : (∀ h, s.stream = some h → h.Careful e) →
      (s.stream.bind fun h => s.call h e) = some t → t.Inv := by
    intro hc hb
    obtain ⟨h, hs, hb⟩ := bind_eq_some_iff.mp hb
    exact hi.call hs (hc h hs) hb
  cases e with
  | outside path bytes =>
    cases he
    exact { stream := hi.stream, log := hi.log }
  | fopen path mode o =>
    change (if s.stream.isSome = true then none else _) = _ at he
    split at he
    · cases he
    · obtain ⟨f, hf, rfl⟩ := map_eq_some_iff.mp he
      exact { stream := fun h hh => by cases hh; exact fopen_inv hc hf, log := hi.log }
  | put p ok => exact hcall hc he
  | fseek offset whence ok => exact hcall hc he
  | ftell => exact hcall hc he
  | fread sz nm => exact hcall hc he
  | fgets n => exact hcall hc he
  | fgetc => exact hcall hc he
  | fclose stores => exact hcall hc he

theorem session_inductive : (system.restrict Careful).Inductive Session.Inv where
  init s hs :=
    { stream := fun h hh => by rw [hs.1] at hh; cases hh
      log := fun p hp => by rw [hs.2] at hp; cases hp }
  step _ _ _ hi hs := hi.step hs.1 hs.2

/-- In every session whose calls are careful, what each call gives is what the
array of bytes with its cursor gives: what `ftell_` tells, the bytes that are read, and the file
that `fclose_` stores. -/
theorem stream_refines (s : Session) (hs : (system.restrict Careful).Reachable s) :
    ∀ p ∈ s.log, p.1 = p.2 :=
  (session_inductive.reachable s hs).log

/-! ## Two concrete sessions -/

def blank : Session := { disk := fun _ => none, stream := none, log := [] }

theorem blank_reachable {C : Session → Event → Prop} : (system.restrict C).Reachable blank :=
  .init ⟨rfl, rfl⟩

def whole : Outcome := { ok := true, opened := true, chunk := fun _ => 1 }

def typed : Session :=
  LTS.after Session.step (LTS.after Session.step blank (.fopen [102] [119] whole))
    (.put (.fputs [97, 98]) true)

theorem typed_reachable : (system.restrict Careful).Reachable typed := by
  refine .careful (Event.put _ _) (.careful (Event.fopen _ _ _) blank_reachable ?_ rfl) ?_ rfl
  · exact ⟨by decide, by decide, fun ha => absurd ha (by decide)⟩
  · intro h hh
    obtain rfl := Option.some.inj hh
    exact fun _ => ⟨by decide, .inl rfl⟩

/-- The file that two letters were written to holds them. -/
theorem typed_refines :
    (LTS.after Session.step typed (.fclose true)).log.all (fun p => p.1 = p.2) = true := by
  refine all_eq_true.mpr fun p hp => decide_eq_true ?_
  refine stream_refines _ (.careful (Event.fclose true) typed_reachable ?_ rfl) p hp
  intro h hh
  obtain rfl := Option.some.inj hh
  exact fun _ => rfl

def patched : Session :=
  LTS.replay Session.step typed [.fseek 0 0 true, .put (.fputc 99) true, .fclose true]

/-- The file is `abc`: the letter that should stand over the first one follows them. -/
theorem patched_header_appended :
    ¬ ∀ s, system.Reachable s → ∀ p ∈ s.log, p.1 = p.2 := by
  intro h
  have hr : system.Reachable patched := .replay _ typed_reachable.of_restrict (by decide)
  have := h patched hr (.stored (some [97, 98, 99]), .stored (some [99, 98])) (by decide)
  exact absurd this (by decide)

end AdventOS.Libc.Stdio
