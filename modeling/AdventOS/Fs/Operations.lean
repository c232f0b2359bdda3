import AdventOS.Core.LTS
import AdventOS.Fs.AdventFs

/-!
# AdventFS: directories, removal, mounting and runs

The rest of an instance's operations in `kernel/fs.c` (`fs_imkdir_inst`, `fs_unlink`,
`fs_rmdir`, the bitmap loop of `load_superblock`), and the system whose steps are
calls on one instance.

`fs_unlink` and `fs_rmdir` work on the boot instance only, and so do the wrappers that
resolve a relative path from the caller's directory (`fs_mkdir`, `fs_write_all`). Every
other call comes from the VFS and resolves from the instance's root.

What other modules use:

* `foldl_bitmapSet`, `bitmapFreeRun_eq`, `bitmapAllocRun_eq`: the bitmap after a loop;
* `fsIwriteAllInst_ends`, `fsImkdirInst_ends`, `fsUnlink_ends`, `fsRmdir_ends`: the ways
  a call can end;
* `FsSuper.Adds`, `findOrCreateFileInst_cases`: what creating an entry does to the table.
-/
namespace AdventOS.Fs
open Function List

/-! ## Mounting -/

/-- The sectors of one entry, in the loop that rebuilds the bitmap.
fs.c:157-162 -/
def markFile (inst : FsInstance) (e : FsEntry) : FsInstance :=
  if e.type ≠ .file then inst
  else if e.size = 0 then inst
  else (List.range (sectorsOf e.size)).foldl
    (fun i s => bitmapSet i (e.startSector + UInt32.ofNat s).toNat) inst

/-- The bitmap as `load_superblock` makes it from the table. fs.c:153-163 -/
def rebuildBitmap (inst : FsInstance) : FsInstance :=
  (List.range inst.super.fileCount).foldl (fun i f => markFile i (inst.super.files f))
    ((List.range fsSuperSectors).foldl (fun i s => bitmapSet i s)
      { inst with bitmap := fun _ => false })

/-! ## Directories and removal -/

/-- fs.c:458-477 (the index of the new entry, or -1). -/
def fsImkdirInst (env : Env) (inst : FsInstance) (isRoot : Bool) (t : Task) (path : CStr)
    (fromRoot : Bool) : Int × FsInstance :=
  if !inst.initialized then (-1, inst)
  else
    match splitPathInst inst isRoot t path fromRoot with
    | none => (-1, inst)
    | some (parent, base) =>
      match findInDirInst inst.super parent base with
      | some _ => (-1, inst)
      | none =>
        match allocSlotInst inst.super with
        | none => (-1, inst)
        | some (i, sup) =>
          let e := { sup.files i with
            name := base ++ List.replicate (fsNameMax - base.length) 0
            type := .dir
            parentDir := parent }
          match fsWriteSuperInst env 0 { inst with super := sup.setFile i e } with
          | (rc, inst) => (if rc = 0 then i else -1, inst)

def zeroEntry : FsEntry where
  name := List.replicate fsNameMax 0
  startSector := 0
  size := 0
  type := .free
  parentDir := 0
  uid := 0
  gid := 0
  mode := 0

/-- `refs` is `fs_entry_open_refs`: how many descriptors of any task are open on an entry.
fs.c:642-671 -/
def fsUnlink (env : Env) (inst : FsInstance) (t : Task) (refs : Nat → Nat) (path : CStr) :
    Int × FsInstance :=
  if !inst.initialized then (-1, inst)
  else
    match fsIopenInst inst t path true with
    | none => (-1, inst)
    | some idx =>
      let e := inst.super.files idx
      if e.type ≠ .file then (-1, inst)
      else if fsCheckPerm inst t idx fsPermW ≤ 0 then (-1, inst)
      else if refs idx > 0 then (-1, inst)
      else
        let inst := if e.size > 0 then bitmapFreeRun inst e.startSector (sectorsOf e.size) else inst
        fsWriteSuperInst env 0 { inst with super := inst.super.setFile idx zeroEntry }

/-- An entry other than `idx` lies in directory `idx`. fs.c:699-706 -/
def hasChild (sup : FsSuper) (idx : Nat) : Bool :=
  (List.range sup.fileCount).any fun i =>
    i != idx && (sup.files i).type != .free && (sup.files i).parentDir == UInt8.ofNat idx

/-- fs.c:688-713 -/
def fsRmdir (env : Env) (inst : FsInstance) (t : Task) (path : CStr) : Int × FsInstance :=
  if !inst.initialized then (-1, inst)
  else
    match fsIopenInst inst t path true with
    | none => (-1, inst)
    | some idx =>
      if (inst.super.files idx).type ≠ .dir then (-1, inst)
      else if fsCheckPerm inst t idx fsPermW ≤ 0 then (-1, inst)
      else if hasChild inst.super idx then (-1, inst)
      else fsWriteSuperInst env 0 { inst with super := inst.super.setFile idx zeroEntry }

/-! ## Calls on one instance -/

inductive Op
  | write (env : Env) (t : Task) (path : CStr) (data : Nat → UInt8) (size : UInt32)
      (fromRoot : Bool)
  | mkdir (env : Env) (t : Task) (path : CStr) (fromRoot : Bool)
  | unlink (env : Env) (t : Task) (refs : Nat → Nat) (path : CStr)
  | rmdir (env : Env) (t : Task) (path : CStr)

/-- The calls that reach an instance that is not the boot instance. -/
def Op.viaVfs : Op → Bool
  | .write _ _ _ _ _ fromRoot => fromRoot
  | .mkdir _ _ _ fromRoot => fromRoot
  | .unlink .. => false
  | .rmdir .. => false

/-- The return value and the instance after a call. -/
def call (isRoot : Bool) (inst : FsInstance) : Op → Int × FsInstance
  | .write env t path data size fromRoot =>
    fsIwriteAllInst env inst isRoot t path data size fromRoot
  | .mkdir env t path fromRoot => fsImkdirInst env inst isRoot t path fromRoot
  | .unlink env t refs path => fsUnlink env inst t refs path
  | .rmdir env t path => fsRmdir env inst t path

/-- A call, when the instance can receive it; `isRoot` says whether it is `g_root_inst`. -/
def step (isRoot : Bool) (inst : FsInstance) (op : Op) : Option FsInstance :=
  if isRoot || op.viaVfs then some (call isRoot inst op).2 else none

/-! ## Bitmap loops -/

theorem foldl_bitmapSet (f : Nat → Nat) (l : List Nat) :
    ∀ a : FsInstance, l.foldl (fun i k => bitmapSet i (f k)) a =
      { a with bitmap := fun s => a.bitmap s || (decide (s < a.nSectors) && l.any (f · == s)) } := by
  induction l with
  | nil => intro a; simp
  | cons k l ih =>
    intro a
    rw [foldl_cons, ih]
    unfold bitmapSet
    split
    · rename_i hk
      congr 1
      funext s
      by_cases hs : s = f k
      · subst hs; simp [hk]
      · have hs' : (f k == s) = false := by simpa using Ne.symm hs
        simp [hs, hs']
    · rename_i hk
      congr 1
      funext s
      by_cases hs : f k = s
      · subst hs
        simp [hk]
      · have hs' : (f k == s) = false := by simpa using hs
        simp [hs']

theorem foldl_bitmapClear (f : Nat → Nat) (l : List Nat) :
    ∀ a : FsInstance, l.foldl (fun i k => bitmapClear i (f k)) a =
      { a with bitmap := fun s => a.bitmap s && !(decide (s < a.nSectors) && l.any (f · == s)) } := by
  induction l with
  | nil => intro a; simp
  | cons k l ih =>
    intro a
    rw [foldl_cons, ih]
    unfold bitmapClear
    split
    · rename_i hk
      congr 1
      funext s
      by_cases hs : s = f k
      · subst hs; simp [hk]
      · have hs' : (f k == s) = false := by simpa using Ne.symm hs
        simp [hs, hs']
    · rename_i hk
      congr 1
      funext s
      by_cases hs : f k = s
      · subst hs
        simp [hk]
      · have hs' : (f k == s) = false := by simpa using hs
        simp [hs']

/-- The sectors `start, start + 1, …` of a run of `n`, in 32 bits. -/
def InRun (start : UInt32) (n s : Nat) : Prop := ∃ k, k < n ∧ (start + UInt32.ofNat k).toNat = s

variable {i n : Nat} {inst : FsInstance} {lba : UInt32} {sup sup' : FsSuper} {e : FsEntry}

theorem any_run {start : UInt32} {s : Nat} :
    ((List.range n).any fun k => (start + UInt32.ofNat k).toNat == s) = true ↔ InRun start n s := by
  simp [InRun, any_eq_true]

theorem inRun_iff {a s : Nat} (h : a + n ≤ 2 ^ 32) :
    InRun (UInt32.ofNat a) n s ↔ a ≤ s ∧ s < a + n := by
  have hk : ∀ k, k < n → (UInt32.ofNat a + UInt32.ofNat k).toNat = a + k := by
    intro k hk
    rw [UInt32.toNat_add, UInt32.toNat_ofNat', UInt32.toNat_ofNat']
    omega
  constructor
  · rintro ⟨k, hlt, rfl⟩
    rw [hk k hlt]
    omega
  · intro hs
    exact ⟨s - a, by omega, by rw [hk _ (by omega)]; omega⟩

theorem bitmapFreeRun_eq (a : FsInstance) (start : UInt32) (n : Nat) :
    ∃ bm, bitmapFreeRun a start n = { a with bitmap := bm } ∧
      ∀ s, bm s = true ↔
        a.bitmap s = true ∧ ¬ (fsSuperSectors ≤ start.toNat ∧ s < a.nSectors ∧ InRun start n s) := by
  unfold bitmapFreeRun
  split
  · refine ⟨a.bitmap, rfl, fun s => ?_⟩
    have : ¬ fsSuperSectors ≤ start.toNat := by omega
    simp [this]
  · refine ⟨_, foldl_bitmapClear _ _ a, fun s => ?_⟩
    have hs : fsSuperSectors ≤ start.toNat := by omega
    rw [Bool.and_eq_true, Bool.not_eq_true', ← Bool.not_eq_true, Bool.and_eq_true, any_run,
      decide_eq_true_iff]
    simp [hs]

/-- The run the first-fit scan finds: `n` free sectors from `lo` on. `r` and `l` are where
the current run of free sectors starts and how long it is. -/
theorem scanRun_spec {lo : Nat} (hn : 0 < n) :
    ∀ (k s r l : Nat) {x : Nat}, lo ≤ s → (0 < l → lo ≤ r ∧ r + l = s) →
      (∀ j, j < l → bitmapGet inst (r + j) = false) → l < n → scanRun inst n k s r l = some x →
      lo ≤ x ∧ x + n ≤ s + k ∧ ∀ j, j < n → bitmapGet inst (x + j) = false := by
  intro k
  induction k with
  | zero => intro s r l x _ _ _ _ h; cases h
  | succ k ih =>
    intro s r l x hlo hr hfree hln h
    unfold scanRun at h
    by_cases hs : bitmapGet inst s = false
    · simp only [hs, Bool.not_false, if_true] at h
      -- the run with this sector
      have hr' : lo ≤ (if l = 0 then s else r) ∧ (if l = 0 then s else r) + (l + 1) = s + 1 := by
        split
        · omega
        · have := hr (by omega)
          omega
      have hfree' : ∀ j, j < l + 1 → bitmapGet inst ((if l = 0 then s else r) + j) = false := by
        intro j hj
        split
        · obtain rfl : j = 0 := by omega
          exact hs
        · have := hr (by omega)
          rcases Nat.lt_or_ge j l with hjl | hjl
          · exact hfree j hjl
          · rw [show r + j = s by omega]
            exact hs
      split at h
      · obtain rfl : n = l + 1 := by omega
        cases h
        exact ⟨hr'.1, by omega, hfree'⟩
      · obtain ⟨h1, h2, h3⟩ := ih (s + 1) _ (l + 1) (by omega) (fun _ => hr') hfree' (by omega) h
        exact ⟨h1, by omega, h3⟩
    · simp only [hs, Bool.not_true, Bool.false_eq_true, if_false] at h
      obtain ⟨h1, h2, h3⟩ := ih (s + 1) r 0 (by omega) (by omega) (by omega) (by omega) h
      exact ⟨h1, by omega, h3⟩

theorem bitmapAllocRun_eq {a b : FsInstance} {start : Nat} (hn : 0 < n)
    (h : bitmapAllocRun a n = some (start, b)) :
    fsSuperSectors ≤ start ∧ start + n ≤ a.nSectors ∧
      (∀ s, start ≤ s → s < start + n → a.bitmap s = false) ∧
      ∃ bm, b = { a with bitmap := bm } ∧
        ∀ s, bm s = true ↔ a.bitmap s = true ∨ (start ≤ s ∧ s < start + n) := by
  unfold bitmapAllocRun at h
  rw [if_neg (by omega)] at h
  simp only at h
  split at h
  · cases h
  · rename_i x hx
    simp only [Option.some.injEq, Prod.mk.injEq] at h
    obtain ⟨rfl, rfl⟩ := h
    obtain ⟨h1, h2, h3⟩ := scanRun_spec hn _ _ _ _ (Nat.le_refl _) (by omega) (by omega) hn hx
    have hle : x + n ≤ a.nSectors := by
      have : fsSuperSectors ≤ a.nSectors := by
        rcases Nat.lt_or_ge a.nSectors fsSuperSectors with hlt | hge
        · omega
        · exact hge
      omega
    refine ⟨h1, hle, ?_, _, foldl_bitmapSet _ _ a, ?_⟩
    · intro s hs hs'
      have := h3 (s - x) (by omega)
      rw [show x + (s - x) = s by omega, bitmapGet, if_neg (by omega)] at this
      exact this
    · intro s
      rw [Bool.or_eq_true, Bool.and_eq_true, decide_eq_true_iff, any_eq_true]
      constructor
      · rintro (hb | ⟨-, k, hk, he⟩)
        · exact .inl hb
        · simp only [mem_range, beq_iff_eq] at hk he
          exact .inr (by omega)
      · rintro (hb | ⟨hs, hs'⟩)
        · exact .inl hb
        · refine .inr ⟨by omega, s - x, by simp; omega, by simp; omega⟩

/-! ## The rebuilt bitmap -/

/-- The entry is a file and `s` is one of its sectors. -/
def FsEntry.Holds (e : FsEntry) (s : Nat) : Prop :=
  e.type = .file ∧ e.size ≠ 0 ∧ InRun e.startSector (sectorsOf e.size) s

theorem markFile_eq (a : FsInstance) (e : FsEntry) :
    ∃ bm, markFile a e = { a with bitmap := bm } ∧
      ∀ s, bm s = true ↔ a.bitmap s = true ∨ (s < a.nSectors ∧ e.Holds s) := by
  unfold markFile
  split
  · rename_i ht
    exact ⟨a.bitmap, rfl, fun s => by simp [FsEntry.Holds, ht]⟩
  split
  · rename_i ht hz
    exact ⟨a.bitmap, rfl, fun s => by simp [FsEntry.Holds, hz]⟩
  · rename_i ht hz
    refine ⟨_, foldl_bitmapSet _ _ a, fun s => ?_⟩
    rw [Bool.or_eq_true, Bool.and_eq_true, any_run, decide_eq_true_iff]
    simp only [ne_eq, Decidable.not_not] at ht
    simp [FsEntry.Holds, ht, hz]

theorem foldl_markFile (files : Nat → FsEntry) (l : List Nat) :
    ∀ a : FsInstance, ∃ bm, l.foldl (fun i f => markFile i (files f)) a = { a with bitmap := bm } ∧
      ∀ s, bm s = true ↔ a.bitmap s = true ∨ (s < a.nSectors ∧ ∃ f ∈ l, (files f).Holds s) := by
  induction l with
  | nil => intro a; exact ⟨a.bitmap, rfl, fun s => by simp⟩
  | cons f l ih =>
    intro a
    obtain ⟨bm, hm, hb⟩ := markFile_eq a (files f)
    obtain ⟨bm', hm', hb'⟩ := ih { a with bitmap := bm }
    refine ⟨bm', by rw [foldl_cons, hm, hm'], fun s => ?_⟩
    rw [hb', hb]
    grind

/-- Which sectors are marked after mounting: those of the superblock and of the files. -/
theorem rebuildBitmap_iff (inst : FsInstance) (s : Nat) :
    (rebuildBitmap inst).bitmap s = true ↔ s < inst.nSectors ∧
      (s < fsSuperSectors ∨ ∃ f, f < inst.super.fileCount ∧ (inst.super.files f).Holds s) := by
  unfold rebuildBitmap
  rw [foldl_bitmapSet]
  obtain ⟨bm, hm, hb⟩ := foldl_markFile inst.super.files (List.range inst.super.fileCount)
    { inst with bitmap := fun s => false ||
        (decide (s < inst.nSectors) && (List.range fsSuperSectors).any (· == s)) }
  rw [hm]
  simp only [hb, Bool.false_or, Bool.and_eq_true, decide_eq_true_eq, any_eq_true,
    mem_range, beq_iff_eq, exists_eq_right]
  grind

/-! ## Device writes -/

theorem writeSectors_frame (env : Env) (w : Nat) {x : UInt32} (content : Nat → Sector)
    (k : Nat) : ∀ (s : Nat) (disk : UInt32 → Sector),
      (∀ j, s ≤ j → j < s + k → x ≠ lba + UInt32.ofNat j) →
      (writeSectors env w lba content k s disk).2 x = disk x := by
  induction k with
  | zero => intro s disk _; rfl
  | succ k ih =>
    intro s disk hx
    unfold writeSectors
    split
    · rw [ih (s + 1) _ fun j h1 h2 => hx j (by omega) (by omega),
        update_of_ne (hx s (Nat.le_refl s) (by omega))]
    · rfl

theorem lba_inj {j : Nat} (hi : i < 2 ^ 32) (hj : j < 2 ^ 32)
    (h : lba + UInt32.ofNat i = lba + UInt32.ofNat j) : i = j := by
  have := congrArg UInt32.toNat (UInt32.add_right_inj lba |>.mp h)
  rwa [UInt32.toNat_ofNat_of_lt' hi, UInt32.toNat_ofNat_of_lt' hj] at this

def allOk (env : Env) (w k : Nat) : Bool := (List.range k).all fun j => env.io (w + j)

theorem writeSectors_fst (env : Env) (w : Nat) (lba : UInt32) (content : Nat → Sector) (k : Nat) :
    ∀ (s : Nat) (disk : UInt32 → Sector), (writeSectors env w lba content k s disk).1 = true ↔
      ∀ j, j < k → env.io (w + s + j) = true := by
  induction k with
  | zero => intro s disk; simp [writeSectors]
  | succ k ih =>
    intro s disk
    unfold writeSectors
    split
    · rename_i h0
      rw [ih]
      constructor
      · intro h j hj
        rcases Nat.eq_zero_or_pos j with rfl | hp
        · exact h0
        · have := h (j - 1) (by omega)
          rwa [show w + (s + 1) + (j - 1) = w + s + j by omega] at this
      · intro h j hj
        have := h (j + 1) (by omega)
        rwa [show w + s + (j + 1) = w + (s + 1) + j by omega] at this
    · rename_i h0
      simp only [Bool.false_eq_true, false_iff]
      intro h
      exact h0 (h 0 (by omega))

theorem writeSectors_content {env : Env} {w : Nat} {content : Nat → Sector} (k : Nat) :
    ∀ (s : Nat) (disk : UInt32 → Sector), s + k ≤ 2 ^ 32 →
      (writeSectors env w lba content k s disk).1 = true →
      ∀ j, s ≤ j → j < s + k →
        (writeSectors env w lba content k s disk).2 (lba + UInt32.ofNat j) = content j := by
  induction k with
  | zero => intro s disk _ _ j h1 h2; omega
  | succ k ih =>
    intro s disk hlen hok j h1 h2
    unfold writeSectors at hok ⊢
    split at hok
    · rename_i h0
      rw [if_pos h0]
      rcases Nat.eq_or_lt_of_le h1 with rfl | hlt
      · rw [writeSectors_frame _ _ _ k (s + 1) _ fun i hi hi' he => ?_, update_self]
        have := lba_inj (by omega) (by omega) he
        omega
      · exact ih (s + 1) _ (by omega) hok j (by omega) (by omega)
    · cases hok

theorem fsWriteSuperInst_eq (env : Env) (w : Nat) (inst : FsInstance) :
    ∃ disk, fsWriteSuperInst env w inst =
        (if env.heap && allOk env w fsSuperSectors then 0 else -1, { inst with disk := disk }) ∧
      ∀ x, (∀ j, j < fsSuperSectors → x ≠ inst.baseLba + UInt32.ofNat j) →
        disk x = inst.disk x := by
  unfold fsWriteSuperInst
  cases hh : env.heap with
  | false => exact ⟨inst.disk, rfl, fun _ _ => rfl⟩
  | true =>
    refine ⟨(writeSectors env w inst.baseLba
      (fun s => (inst.super.encode.drop (s * 512)).take 512) fsSuperSectors 0 inst.disk).2, ?_, ?_⟩
    · simp only [Bool.not_true, Bool.false_eq_true, if_false, Bool.true_and]
      have hfst := writeSectors_fst env w inst.baseLba
        (fun s => (inst.super.encode.drop (s * 512)).take 512) fsSuperSectors 0 inst.disk
      congr 1
      by_cases hall : allOk env w fsSuperSectors = true
      · rw [if_pos hall, if_pos (hfst.mpr (by simpa [allOk] using hall))]
      · rw [if_neg hall, if_neg fun h => hall (by simpa [allOk] using hfst.mp h)]
    · intro x hx
      exact writeSectors_frame _ _ _ fsSuperSectors 0 _ fun j _ hj => hx j (by omega)

/-! ## How a call ends -/

/-- The sectors a write of `size` bytes asks for. -/
def neededOf (size : UInt32) : Nat := if sectorsOf size = 0 then 1 else sectorsOf size

theorem neededOf_pos (size : UInt32) : 0 < neededOf size := by
  unfold neededOf
  split <;> omega

theorem sectorsOf_le_needed (size : UInt32) : sectorsOf size ≤ neededOf size := by
  unfold neededOf
  split <;> omega

/-- `start` is a free run of `n` sectors in the data area. -/
structure FreeRun (inst : FsInstance) (start n : Nat) : Prop where
  lo : fsSuperSectors ≤ start
  hi : start + n ≤ inst.nSectors
  free : ∀ s, start ≤ s → s < start + n → inst.bitmap s = false

section WriteEnds

variable (env : Env) (inst : FsInstance) (isRoot : Bool) (t : Task) (path : CStr)
  (data : Nat → UInt8) (size : UInt32) (fromRoot : Bool)

/-- The ways `fs_iwrite_all_inst` can end: nothing happened; the entry was found or made
but there is no room; the data could not be written and the run was given back; or the
entry has the new extent, and the superblock was written out or not. -/
inductive WriteEnds : Int × FsInstance → Prop
  | refused : WriteEnds (-1, inst)
  | full (i : Nat) (sup : FsSuper)
      (found : findOrCreateFileInst inst isRoot t path fromRoot = some (i, sup)) :
      WriteEnds (-1, { inst with super := sup })
  | unwritten (i : Nat) (sup : FsSuper) (start : Nat) (disk : UInt32 → Sector)
      (found : findOrCreateFileInst inst isRoot t path fromRoot = some (i, sup))
      (run : FreeRun inst start (neededOf size))
      (frame : ∀ x, (∀ k, k < neededOf size →
        x ≠ inst.baseLba + UInt32.ofNat start + UInt32.ofNat k) → disk x = inst.disk x) :
      WriteEnds (-1, { inst with super := sup, disk := disk })
  | written (i : Nat) (sup : FsSuper) (start : Nat) (bm : Nat → Bool) (disk : UInt32 → Sector)
      (found : findOrCreateFileInst inst isRoot t path fromRoot = some (i, sup))
      (run : FreeRun inst start (neededOf size))
      (io : ∀ k, k < neededOf size → env.io k = true)
      (bits : ∀ s, bm s = true ↔ (inst.bitmap s = true ∨ (start ≤ s ∧ s < start + neededOf size)) ∧
        ¬ ((sup.files i).size ≠ 0 ∧ fsSuperSectors ≤ (sup.files i).startSector.toNat ∧
          s < inst.nSectors ∧ InRun (sup.files i).startSector (sectorsOf (sup.files i).size) s))
      (frame : ∀ x, (∀ k, k < neededOf size →
          x ≠ inst.baseLba + UInt32.ofNat start + UInt32.ofNat k) →
        (∀ k, k < fsSuperSectors → x ≠ inst.baseLba + UInt32.ofNat k) → disk x = inst.disk x)
      (content : ∀ k, k < neededOf size →
        disk (inst.baseLba + UInt32.ofNat start + UInt32.ofNat k) = dataSector data size k) :
      WriteEnds (if env.heap && allOk env (neededOf size) fsSuperSectors then 0 else -1,
        { inst with
          super := sup.setFile i
            { sup.files i with startSector := UInt32.ofNat start, size := size }
          bitmap := bm
          disk := disk })

end WriteEnds

theorem not_inRun_zero (start : UInt32) (s : Nat) : ¬ InRun start 0 s := by
  rintro ⟨k, hk, -⟩
  omega

theorem freeOld_eq (a : FsInstance) (e : FsEntry) :
    ∃ bm, (if (if e.size = 0 then 0 else sectorsOf e.size) > 0 then
        bitmapFreeRun a e.startSector (if e.size = 0 then 0 else sectorsOf e.size) else a) =
        { a with bitmap := bm } ∧
      ∀ s, bm s = true ↔ a.bitmap s = true ∧ ¬ (e.size ≠ 0 ∧
        fsSuperSectors ≤ e.startSector.toNat ∧ s < a.nSectors ∧
        InRun e.startSector (sectorsOf e.size) s) := by
  by_cases hz : e.size = 0
  · exact ⟨a.bitmap, by simp [hz], fun s => by simp [hz]⟩
  · simp only [hz, if_false]
    split
    · obtain ⟨bm, he, hb⟩ := bitmapFreeRun_eq a e.startSector (sectorsOf e.size)
      exact ⟨bm, he, fun s => by rw [hb]; simp [hz]⟩
    · refine ⟨a.bitmap, rfl, fun s => ?_⟩
      have : ¬ InRun e.startSector (sectorsOf e.size) s := by
        rw [show sectorsOf e.size = 0 by omega]
        exact not_inRun_zero _ _
      simp [this]

section Write
variable {env : Env} {inst : FsInstance} {isRoot : Bool} {t : Task} {path : CStr}
  {data : Nat → UInt8} {size : UInt32} {fromRoot : Bool} {i start : Nat} {sup : FsSuper}
  {b : FsInstance}

theorem fsIwriteAllInst_noRun (hi : inst.initialized = true)
    (hf : findOrCreateFileInst inst isRoot t path fromRoot = some (i, sup))
    (halloc : bitmapAllocRun { inst with super := sup } (neededOf size) = none) :
    fsIwriteAllInst env inst isRoot t path data size fromRoot =
      (-1, { inst with super := sup }) := by
  unfold neededOf at halloc
  unfold fsIwriteAllInst
  rw [if_neg (by simp [hi]), hf]
  simp only [halloc]

theorem allocated_run (hn : inst.nSectors ≤ 2 ^ 32)
    (halloc : bitmapAllocRun { inst with super := sup } (neededOf size) = some (start, b)) :
    FreeRun inst start (neededOf size) ∧ (UInt32.ofNat start).toNat = start ∧
      (∀ s, InRun (UInt32.ofNat start) (neededOf size) s ↔
        start ≤ s ∧ s < start + neededOf size) ∧
      ∃ bm, b = { inst with super := sup, bitmap := bm } ∧
        ∀ s, bm s = true ↔ inst.bitmap s = true ∨ (start ≤ s ∧ s < start + neededOf size) := by
  obtain ⟨hlo, hhi, hfree, bm, hb, hbm⟩ := bitmapAllocRun_eq (neededOf_pos size) halloc
  have hpos := neededOf_pos size
  refine ⟨⟨hlo, hhi, hfree⟩, UInt32.toNat_ofNat_of_lt' ?_, fun s => inRun_iff (Nat.le_trans hhi hn),
    bm, hb, hbm⟩
  simp only at hhi
  exact Nat.lt_of_lt_of_le (by omega) hn

theorem fsIwriteAllInst_unwritten (data : Nat → UInt8) (hn : inst.nSectors ≤ 2 ^ 32) (hi : inst.initialized = true)
    (hf : findOrCreateFileInst inst isRoot t path fromRoot = some (i, sup))
    (halloc : bitmapAllocRun { inst with super := sup } (neededOf size) = some (start, b))
    (hio : ∃ k, k < neededOf size ∧ env.io k = false) :
    FreeRun inst start (neededOf size) ∧ ∃ disk,
      fsIwriteAllInst env inst isRoot t path data size fromRoot =
        (-1, { inst with super := sup, disk := disk }) ∧
      ∀ x, (∀ k, k < neededOf size →
        x ≠ inst.baseLba + UInt32.ofNat start + UInt32.ofNat k) → disk x = inst.disk x := by
  obtain ⟨hrun, hstart, hiff, bm, rfl, hbm⟩ := allocated_run hn halloc
  obtain ⟨⟨ok, disk⟩, hw⟩ : ∃ w, writeSectors env 0 (inst.baseLba + UInt32.ofNat start)
    (dataSector data size) (neededOf size) 0 inst.disk = w := ⟨_, rfl⟩
  have hfst := writeSectors_fst env 0 (inst.baseLba + UInt32.ofNat start) (dataSector data size)
    (neededOf size) 0 inst.disk
  rw [hw] at hfst
  obtain rfl : ok = false := by
    obtain ⟨k, hk, hbad⟩ := hio
    by_contra hok
    have hall := hfst.1 (by simpa using hok) k hk
    rw [show 0 + 0 + k = k by omega, hbad] at hall
    cases hall
  -- the run is free again
  obtain ⟨bm', he, hb'⟩ := bitmapFreeRun_eq { inst with super := sup, bitmap := bm, disk := disk }
    (UInt32.ofNat start) (neededOf size)
  have hback : bm' = inst.bitmap := by
    funext s
    rw [Bool.eq_iff_iff, hb', hbm, hiff, hstart]
    have hfree := hrun.free s
    have hhi := hrun.hi
    constructor
    · rintro ⟨h | h, hno⟩
      · exact h
      · exact absurd ⟨hrun.lo, by dsimp only; omega, h⟩ hno
    · intro hs
      refine ⟨.inl hs, ?_⟩
      rintro ⟨-, -, h1, h2⟩
      simp [hfree h1 h2] at hs
  refine ⟨hrun, disk, ?_, fun x hx => ?_⟩
  · rw [hback] at he
    unfold neededOf at halloc hw he
    unfold fsIwriteAllInst
    rw [if_neg (by simp [hi]), hf]
    simp only [halloc, hw]
    exact congrArg (Prod.mk (-1)) he
  · rw [← show _ = disk from congrArg Prod.snd hw]
    exact writeSectors_frame env 0 (dataSector data size) (neededOf size) 0 inst.disk
      fun j _ hj => hx j (by omega)

theorem fsIwriteAllInst_written (data : Nat → UInt8) (hn : inst.nSectors ≤ 2 ^ 32) (hi : inst.initialized = true)
    (hf : findOrCreateFileInst inst isRoot t path fromRoot = some (i, sup))
    (halloc : bitmapAllocRun { inst with super := sup } (neededOf size) = some (start, b))
    (hio : ∀ k, k < neededOf size → env.io k = true) :
    FreeRun inst start (neededOf size) ∧ ∃ bm disk,
      fsIwriteAllInst env inst isRoot t path data size fromRoot =
        (if env.heap && allOk env (neededOf size) fsSuperSectors then 0 else -1,
          { inst with
            super := sup.setFile i
              { sup.files i with startSector := UInt32.ofNat start, size := size }
            bitmap := bm
            disk := disk }) ∧
      (∀ s, bm s = true ↔ (inst.bitmap s = true ∨ (start ≤ s ∧ s < start + neededOf size)) ∧
        ¬ ((sup.files i).size ≠ 0 ∧ fsSuperSectors ≤ (sup.files i).startSector.toNat ∧
          s < inst.nSectors ∧ InRun (sup.files i).startSector (sectorsOf (sup.files i).size) s)) ∧
      (∀ x, (∀ k, k < neededOf size →
          x ≠ inst.baseLba + UInt32.ofNat start + UInt32.ofNat k) →
        (∀ k, k < fsSuperSectors → x ≠ inst.baseLba + UInt32.ofNat k) → disk x = inst.disk x) ∧
      ∀ k, k < neededOf size →
        disk (inst.baseLba + UInt32.ofNat start + UInt32.ofNat k) = dataSector data size k := by
  obtain ⟨hrun, hstart, hiff, bm, rfl, hbm⟩ := allocated_run hn halloc
  have hpos := neededOf_pos size
  have hhi := hrun.hi
  have hlo := hrun.lo
  obtain ⟨⟨ok, disk⟩, hw⟩ : ∃ w, writeSectors env 0 (inst.baseLba + UInt32.ofNat start)
    (dataSector data size) (neededOf size) 0 inst.disk = w := ⟨_, rfl⟩
  have hfst := writeSectors_fst env 0 (inst.baseLba + UInt32.ofNat start) (dataSector data size)
    (neededOf size) 0 inst.disk
  obtain rfl : ok = true := by
    rw [hw] at hfst
    refine hfst.2 fun k hk => ?_
    rw [show 0 + 0 + k = k by omega]
    exact hio k hk
  have hdisk : (writeSectors env 0 (inst.baseLba + UInt32.ofNat start) (dataSector data size)
    (neededOf size) 0 inst.disk).2 = disk := congrArg Prod.snd hw
  obtain ⟨bm', he, hb'⟩ := freeOld_eq { inst with
    super := sup.setFile i { sup.files i with startSector := UInt32.ofNat start, size := size }
    bitmap := bm
    disk := disk } (sup.files i)
  obtain ⟨disk', hs, hframe⟩ := fsWriteSuperInst_eq env (neededOf size) { inst with
    super := sup.setFile i { sup.files i with startSector := UInt32.ofNat start, size := size }
    bitmap := bm'
    disk := disk }
  -- the data area and the superblock do not meet
  have hsep : ∀ k, k < neededOf size → ∀ j, j < fsSuperSectors →
      inst.baseLba + UInt32.ofNat start + UInt32.ofNat k ≠ inst.baseLba + UInt32.ofNat j := by
    intro k hk j hj heq
    rw [UInt32.add_assoc, ← UInt32.ofNat_add] at heq
    have hlt : start + k < 2 ^ 32 := by omega
    have hjk := lba_inj hlt (by omega) heq
    omega
  refine ⟨hrun, bm', disk', ?_, fun s => ?_, fun x hx hx' => ?_, fun k hk => ?_⟩
  · rw [← hs, ← he]
    unfold neededOf at halloc hw
    unfold neededOf fsIwriteAllInst
    rw [if_neg (by simp [hi]), hf]
    simp only [halloc, hw]
  · rw [hb', hbm]
  · rw [hframe x hx', ← hdisk]
    exact writeSectors_frame _ _ _ (neededOf size) 0 inst.disk fun j _ hj => hx j (by omega)
  · rw [hframe _ fun j hj => hsep k hk j hj, ← hdisk]
    exact writeSectors_content (neededOf size) 0 inst.disk (by omega) (congrArg Prod.fst hw) k
      (by omega) (by omega)

end Write

theorem fsIwriteAllInst_ends (env : Env) (isRoot : Bool) (t : Task)
    (path : CStr) (data : Nat → UInt8) (size : UInt32) (fromRoot : Bool) (hn : inst.nSectors ≤ 2 ^ 32) :
    WriteEnds env inst isRoot t path data size fromRoot
      (fsIwriteAllInst env inst isRoot t path data size fromRoot) := by
  by_cases hi : inst.initialized = true
  · cases hfc : findOrCreateFileInst inst isRoot t path fromRoot with
    | none =>
      unfold fsIwriteAllInst
      rw [if_neg (by simp [hi]), hfc]
      exact .refused
    | some r =>
      obtain ⟨i, sup⟩ := r
      cases halloc : bitmapAllocRun { inst with super := sup } (neededOf size) with
      | none =>
        rw [fsIwriteAllInst_noRun hi hfc halloc]
        exact .full i sup hfc
      | some r =>
        obtain ⟨start, b⟩ := r
        by_cases hio : ∃ k, k < neededOf size ∧ env.io k = false
        · obtain ⟨hrun, disk, heq, hframe⟩ :=
            fsIwriteAllInst_unwritten data hn hi hfc halloc hio
          rw [heq]
          exact .unwritten i sup start disk hfc hrun hframe
        · have hio : ∀ k, k < neededOf size → env.io k = true := by
            intro k hk
            by_contra hbad
            exact hio ⟨k, hk, by simpa using hbad⟩
          obtain ⟨hrun, bm, disk, heq, hbits, hframe, hcontent⟩ :=
            fsIwriteAllInst_written data hn hi hfc halloc hio
          rw [heq]
          exact .written i sup start bm disk hfc hrun hio hbits hframe hcontent
  · unfold fsIwriteAllInst
    rw [if_pos (by simpa using hi)]
    exact .refused

theorem fsImkdirInst_ends (env : Env) (inst : FsInstance) (isRoot : Bool) (t : Task) (path : CStr)
    (fromRoot : Bool) :
    (fsImkdirInst env inst isRoot t path fromRoot).2 = inst ∨
    ∃ parent base i sup disk, inst.initialized = true ∧
      splitPathInst inst isRoot t path fromRoot = some (parent, base) ∧
      findInDirInst inst.super parent base = none ∧
      allocSlotInst inst.super = some (i, sup) ∧
      (fsImkdirInst env inst isRoot t path fromRoot).2 = { inst with
        super := sup.setFile i { sup.files i with
          name := base ++ List.replicate (fsNameMax - base.length) 0
          type := .dir
          parentDir := parent }
        disk := disk } ∧
      ∀ x, (∀ j, j < fsSuperSectors → x ≠ inst.baseLba + UInt32.ofNat j) →
        disk x = inst.disk x := by
  unfold fsImkdirInst
  split
  · exact .inl rfl
  rename_i hi
  split
  · exact .inl rfl
  rename_i parent base hsp
  split
  · exact .inl rfl
  rename_i hfd
  split
  · exact .inl rfl
  rename_i i sup hal
  obtain ⟨disk, hs, hframe⟩ := fsWriteSuperInst_eq env 0 { inst with
    super := sup.setFile i { sup.files i with
      name := base ++ List.replicate (fsNameMax - base.length) 0
      type := .dir
      parentDir := parent } }
  refine .inr ⟨parent, base, i, sup, disk, by simpa using hi, hsp, hfd, hal, ?_, hframe⟩
  simp only [hs]

theorem fsUnlink_ends (env : Env) (inst : FsInstance) (t : Task) (refs : Nat → Nat) (path : CStr) :
    (fsUnlink env inst t refs path).2 = inst ∨
    ∃ i bm disk, inst.super.Live i ∧ (inst.super.files i).type = .file ∧
      (fsUnlink env inst t refs path).2 = { inst with
        super := inst.super.setFile i zeroEntry
        bitmap := bm
        disk := disk } ∧
      (∀ s, bm s = true ↔ inst.bitmap s = true ∧ ¬ ((inst.super.files i).size ≠ 0 ∧
        fsSuperSectors ≤ (inst.super.files i).startSector.toNat ∧ s < inst.nSectors ∧
        InRun (inst.super.files i).startSector (sectorsOf (inst.super.files i).size) s)) ∧
      ∀ x, (∀ j, j < fsSuperSectors → x ≠ inst.baseLba + UInt32.ofNat j) →
        disk x = inst.disk x := by
  unfold fsUnlink
  split
  · exact .inl rfl
  split
  · exact .inl rfl
  rename_i i hopen
  simp only
  split
  · exact .inl rfl
  rename_i ht
  split
  · exact .inl rfl
  split
  · exact .inl rfl
  obtain ⟨bm, he, hb⟩ : ∃ bm, (if (inst.super.files i).size > 0 then
      bitmapFreeRun inst (inst.super.files i).startSector (sectorsOf (inst.super.files i).size)
      else inst) = { inst with bitmap := bm } ∧
      ∀ s, bm s = true ↔ inst.bitmap s = true ∧ ¬ ((inst.super.files i).size ≠ 0 ∧
        fsSuperSectors ≤ (inst.super.files i).startSector.toNat ∧ s < inst.nSectors ∧
        InRun (inst.super.files i).startSector (sectorsOf (inst.super.files i).size) s) := by
    split
    · rename_i hz
      have hz' : (inst.super.files i).size ≠ 0 := by
        intro hc
        simp [hc] at hz
      obtain ⟨bm, he, hb⟩ := bitmapFreeRun_eq inst (inst.super.files i).startSector
        (sectorsOf (inst.super.files i).size)
      exact ⟨bm, he, fun s => by rw [hb]; simp [hz']⟩
    · rename_i hz
      have hz' : (inst.super.files i).size = 0 := by
        have : ¬ 0 < (inst.super.files i).size.toNat := fun hc => hz (UInt32.lt_iff_toNat_lt.mpr hc)
        exact UInt32.toNat_inj.mp (by simpa using this)
      exact ⟨inst.bitmap, rfl, fun s => by simp [hz']⟩
  obtain ⟨disk, hs, hframe⟩ := fsWriteSuperInst_eq env 0 { inst with
    super := inst.super.setFile i zeroEntry
    bitmap := bm }
  refine .inr ⟨i, bm, disk, (fsIopenInst_live hopen).2, by simpa using ht, ?_, hb, hframe⟩
  rw [he, hs]

theorem fsRmdir_ends (env : Env) (inst : FsInstance) (t : Task) (path : CStr) :
    (fsRmdir env inst t path).2 = inst ∨
    ∃ i disk, inst.super.Live i ∧ (inst.super.files i).type = .dir ∧
      hasChild inst.super i = false ∧
      (fsRmdir env inst t path).2 = { inst with
        super := inst.super.setFile i zeroEntry
        disk := disk } ∧
      ∀ x, (∀ j, j < fsSuperSectors → x ≠ inst.baseLba + UInt32.ofNat j) →
        disk x = inst.disk x := by
  unfold fsRmdir
  split
  · exact .inl rfl
  split
  · exact .inl rfl
  rename_i i hopen
  split
  · exact .inl rfl
  rename_i ht
  split
  · exact .inl rfl
  split
  · exact .inl rfl
  rename_i hch
  obtain ⟨disk, hs, hframe⟩ := fsWriteSuperInst_eq env 0 { inst with
    super := inst.super.setFile i zeroEntry }
  refine .inr ⟨i, disk, (fsIopenInst_live hopen).2, by simpa using ht, by simpa using hch, ?_, hframe⟩
  rw [hs]

/-! ## Tables -/

/-- `sup'` is `sup` with the entry `e` in slot `i`, which no live entry had. -/
structure FsSuper.Adds (sup : FsSuper) (i : Nat) (e : FsEntry) (sup' : FsSuper) : Prop where
  fresh : ¬ sup.Live i
  count : ∀ j, j < sup'.fileCount ↔ j < sup.fileCount ∨ j = i
  files : sup'.files = update sup.files i e

theorem allocSlotInst_adds (h : allocSlotInst sup = some (i, sup')) :
    sup.Adds i blankEntry sup' := by
  have hs := allocSlotInst_spec h
  unfold allocSlotInst at h
  split at h
  · rename_i k hk
    simp only [Option.some.injEq, Prod.mk.injEq] at h
    obtain ⟨rfl, rfl⟩ := h
    have hlt : k < sup.fileCount := by simpa using mem_of_find?_eq_some hk
    refine ⟨hs.1, fun j => ?_, rfl⟩
    rw [FsSuper.setFile_fileCount]
    constructor
    · exact .inl
    · rintro (hj | rfl)
      · exact hj
      · exact hlt
  · split at h
    · obtain ⟨rfl, rfl⟩ := h
      refine ⟨hs.1, fun j => ?_, rfl⟩
      simp only
      omega
    · cases h

theorem FsSuper.Adds.setFile {x : FsEntry}
    (h : sup.Adds i e sup') : sup.Adds i x (sup'.setFile i x) := by
  refine ⟨h.fresh, h.count, ?_⟩
  unfold FsSuper.setFile
  rw [h.files, update_idem]

def newFile (t : Task) (parent : UInt8) (base : CStr) : FsEntry :=
  { blankEntry with
    name := base ++ List.replicate (fsNameMax - base.length) 0
    type := .file
    parentDir := parent
    uid := t.uid
    gid := t.gid
    mode := 0o644 }

theorem findOrCreateFileInst_cases {isRoot : Bool} {t : Task} {path : CStr}
    {fromRoot : Bool}
    (h : findOrCreateFileInst inst isRoot t path fromRoot = some (i, sup)) :
    (fsIopenInst inst t path fromRoot = some i ∧ (inst.super.files i).type = .file ∧
      sup = inst.super) ∨
    (∃ parent base, fsIopenInst inst t path fromRoot = none ∧
      splitPathInst inst isRoot t path fromRoot = some (parent, base) ∧
      inst.super.Adds i (newFile t parent base) sup) := by
  unfold findOrCreateFileInst at h
  split at h
  · rename_i k hk
    split at h
    · rename_i hf
      obtain ⟨rfl, rfl⟩ := h
      exact .inl ⟨hk, hf, rfl⟩
    · cases h
  · rename_i hopen
    split at h
    · cases h
    · rename_i parent base hsp
      split at h
      · cases h
      · rename_i k sup0 hal
        simp only [Option.some.injEq, Prod.mk.injEq] at h
        obtain ⟨rfl, rfl⟩ := h
        have ha := allocSlotInst_adds hal
        have hb : sup0.files k = blankEntry := by rw [ha.files, update_self]
        refine .inr ⟨parent, base, hopen, hsp, ?_⟩
        rw [hb]
        exact ha.setFile

def FsSuper.Has (sup : FsSuper) (f s : Nat) : Prop := f < sup.fileCount ∧ (sup.files f).Holds s

theorem FsSuper.Adds.has_iff (h : sup.Adds i e sup')
    (he : e.size = 0) (f s : Nat) : sup'.Has f s ↔ sup.Has f s := by
  unfold FsSuper.Has
  rw [h.count, h.files]
  by_cases hf : f = i
  · subst hf
    have hold : ¬ (f < sup.fileCount ∧ (sup.files f).Holds s) := by
      rintro ⟨hlt, ht, -⟩
      exact h.fresh ⟨hlt, by simp [ht]⟩
    have hnew : ¬ e.Holds s := fun hh => hh.2.1 he
    rw [update_self]
    exact ⟨fun hh => absurd hh.2 hnew, fun hh => absurd hh hold⟩
  · simp [hf]

theorem findOrCreateFileInst_file {isRoot : Bool} {t : Task} {path : CStr}
    {fromRoot : Bool}
    (h : findOrCreateFileInst inst isRoot t path fromRoot = some (i, sup)) :
    i < sup.fileCount ∧ (sup.files i).type = .file ∧ ∀ f s, sup.Has f s ↔ inst.super.Has f s := by
  rcases findOrCreateFileInst_cases h with ⟨ho, hf, rfl⟩ | ⟨parent, base, -, -, ha⟩
  · exact ⟨(fsIopenInst_live ho).2.1, hf, fun _ _ => Iff.rfl⟩
  · refine ⟨(ha.count i).mpr (.inr rfl), ?_, ha.has_iff rfl⟩
    rw [ha.files, update_self]
    rfl

theorem FsSuper.setFile_has (f s : Nat) :
    (sup.setFile i e).Has f s ↔
      (f ≠ i ∧ sup.Has f s) ∨ (f = i ∧ i < sup.fileCount ∧ e.Holds s) := by
  unfold FsSuper.Has
  rw [FsSuper.setFile_fileCount]
  by_cases hf : f = i
  · subst hf
    simp
  · simp [hf, FsSuper.setFile_ne]

end AdventOS.Fs
