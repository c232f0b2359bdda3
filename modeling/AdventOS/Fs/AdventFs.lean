import Mathlib

/-!
# AdventFS

One filesystem instance of `kernel/fs.c`: the superblock with its table of 256 entries, the sector
bitmap and the device's sectors, with the path walk, the entry allocation and the whole-file write.
Paths and names are byte strings without their NUL. A failing device write and a failing `kmalloc`
are inputs of a call (`Env`), so a statement over every `Env` covers every failure pattern.

* `fsIopenInst_abs`, `fsIopenInst_fromRoot`: where a walk starts;
* `fsIopenInst_live`: the entry a walk finds exists;
* `fsIwriteAllInst_changed`: a write changes no live entry but the one its own walk finds, and that
  one only if it is a file and a sector is free;
* `fsIwriteAllInst_replaces`: with a free sector and a working device it does change that one.
-/
namespace AdventOS.Fs
open Function

/-- A NUL-terminated string, without the NUL. -/
abbrev CStr := List UInt8

abbrev Sector := List UInt8

/-- `/`. -/
def slash : UInt8 := 47

def fsSuperSectors : Nat := 17
def fsNameMax : Nat := 16
def fsMaxFiles : Nat := 256

/-- `FS_DIR_ROOT`: the parent of the entries at `/`. -/
def fsDirRoot : UInt8 := 0xFF

/-! ## Data model -/

/-- The type byte of an entry. A superblock read from a device may hold any
byte. -/
inductive FsType
  | free
  | file
  | dir
  | other (code : UInt8)
  deriving DecidableEq, Repr

/-- fs.h:104-115 (`name` is the 16-byte field). -/
structure FsEntry where
  name : List UInt8
  startSector : UInt32
  size : UInt32
  type : FsType
  parentDir : UInt8
  uid : UInt16
  gid : UInt16
  mode : UInt16
  deriving DecidableEq, Repr

/-- fs.h:134-141. `load_superblock` clamps the count, and
`alloc_slot_inst` grows it only below the maximum. -/
structure FsSuper where
  fileCount : Nat
  files : Nat → FsEntry
  count_le : fileCount ≤ fsMaxFiles

/-- fs.c:61-69; `disk` is what the block device holds. -/
structure FsInstance where
  initialized : Bool
  baseLba : UInt32
  nSectors : Nat
  super : FsSuper
  bitmap : Nat → Bool
  disk : UInt32 → Sector

/-- The entry exists: its slot is below the count and not free. -/
def FsSuper.Live (sup : FsSuper) (i : Nat) : Prop :=
  i < sup.fileCount ∧ (sup.files i).type ≠ .free

/-- The fields of the calling task that the filesystem reads. -/
structure Task where
  uid : UInt16
  gid : UInt16
  cwdDir : UInt8

/-- What a call meets outside the filesystem: whether its `k`-th sector write
succeeds, and whether `kmalloc` does. -/
structure Env where
  io : Nat → Bool
  heap : Bool

def FsSuper.setFile (sup : FsSuper) (i : Nat) (e : FsEntry) : FsSuper :=
  { sup with files := update sup.files i e }

@[simp] theorem FsSuper.setFile_fileCount (sup : FsSuper) (i : Nat) (e : FsEntry) :
    (sup.setFile i e).fileCount = sup.fileCount := rfl

@[simp] theorem FsSuper.setFile_same (sup : FsSuper) (i : Nat) (e : FsEntry) :
    (sup.setFile i e).files i = e := by
  simp [setFile]

variable {i j n : Nat} {inst : FsInstance} {sup : FsSuper} {t : Task} {path : CStr}
  {fromRoot isRoot : Bool} {env : Env} {data : Nat → UInt8} {size : UInt32}

theorem FsSuper.setFile_ne (sup : FsSuper) (e : FsEntry) (h : j ≠ i) :
    (sup.setFile i e).files j = sup.files j := by
  simp [setFile, h]

/-! ## Sector bitmap -/

/-- fs.c:92-95 -/
def bitmapGet (inst : FsInstance) (s : Nat) : Bool :=
  if s ≥ inst.nSectors then true else inst.bitmap s

/-- fs.c:96-98 -/
def bitmapSet (inst : FsInstance) (s : Nat) : FsInstance :=
  if s < inst.nSectors then { inst with bitmap := update inst.bitmap s true } else inst

/-- fs.c:99-101 -/
def bitmapClear (inst : FsInstance) (s : Nat) : FsInstance :=
  if s < inst.nSectors then { inst with bitmap := update inst.bitmap s false } else inst

/-- The first-fit scan of `bitmap_alloc_run`, over the next `k` sectors from
`s`. fs.c:108-119 -/
def scanRun (inst : FsInstance) (n : Nat) : (k s runStart runLen : Nat) → Option Nat
  | 0, _, _, _ => none
  | k + 1, s, runStart, runLen =>
    if !bitmapGet inst s then
      let runStart := if runLen = 0 then s else runStart
      if runLen + 1 ≥ n then some runStart
      else scanRun inst n k (s + 1) runStart (runLen + 1)
    else scanRun inst n k (s + 1) runStart 0

/-- fs.c:103-121 -/
def bitmapAllocRun (inst : FsInstance) (n : Nat) : Option (Nat × FsInstance) :=
  let n := if n = 0 then 1 else n
  match scanRun inst n (inst.nSectors - fsSuperSectors) fsSuperSectors 0 0 with
  | none => none
  | some start => some (start, (List.range n).foldl (fun i k => bitmapSet i (start + k)) inst)

/-- fs.c:123-128 -/
def bitmapFreeRun (inst : FsInstance) (start : UInt32) (n : Nat) : FsInstance :=
  if start.toNat < fsSuperSectors then inst
  else (List.range n).foldl (fun i k => bitmapClear i (start + UInt32.ofNat k).toNat) inst

/-- Marking or releasing sectors changes the bitmap only. -/
structure SameButBitmap (a b : FsInstance) : Prop where
  initialized : b.initialized = a.initialized
  baseLba : b.baseLba = a.baseLba
  super : b.super = a.super
  disk : b.disk = a.disk

theorem SameButBitmap.refl (a : FsInstance) : SameButBitmap a a := ⟨rfl, rfl, rfl, rfl⟩

theorem SameButBitmap.foldl (f : FsInstance → Nat → FsInstance)
    (hf : ∀ a k, SameButBitmap a (f a k)) (l : List Nat) :
    ∀ a, SameButBitmap a (l.foldl f a) := by
  induction l with
  | nil => exact SameButBitmap.refl
  | cons k l ih =>
    intro a
    have h1 := hf a k
    have h2 := ih (f a k)
    exact ⟨h2.1.trans h1.1, h2.2.trans h1.2, h2.3.trans h1.3, h2.4.trans h1.4⟩

theorem bitmapSet_same (a : FsInstance) (s : Nat) : SameButBitmap a (bitmapSet a s) := by
  unfold bitmapSet
  split <;> exact ⟨rfl, rfl, rfl, rfl⟩

theorem bitmapClear_same (a : FsInstance) (s : Nat) : SameButBitmap a (bitmapClear a s) := by
  unfold bitmapClear
  split <;> exact ⟨rfl, rfl, rfl, rfl⟩

theorem bitmapAllocRun_same {a b : FsInstance} {start : Nat}
    (h : bitmapAllocRun a n = some (start, b)) : SameButBitmap a b := by
  unfold bitmapAllocRun at h
  simp only at h
  split at h
  · cases h
  · obtain ⟨rfl, rfl⟩ := h
    exact .foldl _ (fun i k => bitmapSet_same i _) _ a

theorem bitmapFreeRun_same (a : FsInstance) (start : UInt32) (n : Nat) :
    SameButBitmap a (bitmapFreeRun a start n) := by
  unfold bitmapFreeRun
  split
  · exact .refl a
  · exact .foldl _ (fun i k => bitmapClear_same i _) _ a

theorem bitmapFreeRun_if_super (a : FsInstance) (start : UInt32) (n : Nat) :
    (if n > 0 then bitmapFreeRun a start n else a).super = a.super := by
  split
  · exact (bitmapFreeRun_same a start n).super
  · rfl

theorem scanRun_one {f : Nat} (hf : bitmapGet inst f = false) :
    ∀ (k s r : Nat), s ≤ f → f < s + k → (scanRun inst 1 k s r 0).isSome := by
  intro k
  induction k with
  | zero => intro s r h1 h2; omega
  | succ k ih =>
    intro s r h1 h2
    unfold scanRun
    by_cases hs : bitmapGet inst s = false
    · simp [hs]
    · have hne : s ≠ f := by
        intro he; subst he; exact hs hf
      simp only [hs, Bool.not_true, Bool.false_eq_true, if_false]
      exact ih (s + 1) r (by omega) (by omega)

theorem scanRun_free :
    ∀ (k s r l : Nat) {x : Nat}, scanRun inst n k s r l = some x →
      ∃ f, s ≤ f ∧ f < s + k ∧ bitmapGet inst f = false := by
  intro k
  induction k with
  | zero => intro s r l x h; cases h
  | succ k ih =>
    intro s r l x h
    unfold scanRun at h
    by_cases hs : bitmapGet inst s = false
    · exact ⟨s, Nat.le_refl s, by omega, hs⟩
    · simp only [hs, Bool.not_true, Bool.false_eq_true, if_false] at h
      obtain ⟨f, h1, h2, h3⟩ := ih _ _ _ h
      exact ⟨f, by omega, by omega, h3⟩

def FsInstance.HasRoom (inst : FsInstance) : Prop :=
  ∃ f, fsSuperSectors ≤ f ∧ f < inst.nSectors ∧ inst.bitmap f = false

theorem FsInstance.HasRoom.alloc_one (h : inst.HasRoom) :
    (bitmapAllocRun inst 1).isSome := by
  obtain ⟨f, h1, h2, h3⟩ := h
  have hg : bitmapGet inst f = false := by
    simp [bitmapGet, h3]; omega
  have hs := scanRun_one hg (inst.nSectors - fsSuperSectors) fsSuperSectors 0 h1 (by omega)
  unfold bitmapAllocRun
  simp only [Nat.one_ne_zero, if_false]
  split
  · rename_i hn; simp [hn] at hs
  · rfl

theorem FsInstance.hasRoom_of_alloc {a : FsInstance} {x : Nat}
    (h : bitmapAllocRun inst n = some (x, a)) : inst.HasRoom := by
  unfold bitmapAllocRun at h
  simp only at h
  split at h
  · cases h
  · rename_i hs
    obtain ⟨f, h1, h2, h3⟩ := scanRun_free _ _ _ _ hs
    have hlt : f < inst.nSectors := by omega
    refine ⟨f, h1, hlt, ?_⟩
    simpa [bitmapGet, Nat.not_le.2 hlt] using h3

/-! ## Path walk -/

/-- fs.c:261-266 -/
def nameEqSlice (ename : List UInt8) (s : CStr) : Bool :=
  s.length ≤ fsNameMax && ename.take s.length == s &&
    (s.length == fsNameMax || ename.getD s.length 0 == 0)

/-- fs.c:268-277 -/
def findInDirInst (sup : FsSuper) (parent : UInt8) (name : CStr) : Option Nat :=
  (List.range sup.fileCount).find? fun i =>
    (sup.files i).type != .free && (sup.files i).parentDir == parent &&
      nameEqSlice (sup.files i).name name

/-- The component loop of `fs_iopen_inst`; `comp` is the slice read since the
last `/`. fs.c:301-319 -/
def walk (sup : FsSuper) : (parent : UInt8) → (last : Option Nat) → (comp path : CStr) → Option Nat
  | parent, last, comp, [] =>
    if comp = [] then last else findInDirInst sup parent comp
  | parent, last, comp, c :: path =>
    if c = slash then
      if comp = [] then walk sup parent last [] path
      else
        match findInDirInst sup parent comp with
        | none => none
        | some found =>
          if (sup.files found).type = .dir then walk sup (UInt8.ofNat found) (some found) [] path
          else none
    else walk sup parent last (comp ++ [c]) path

/-- fs.c:283-320 (an empty rest walks to no entry). -/
def fsIopenInst (inst : FsInstance) (t : Task) (path : CStr) (fromRoot : Bool) : Option Nat :=
  if !inst.initialized then none
  else
    match path with
    | [] => none
    | c :: rest =>
      if c = slash then walk inst.super fsDirRoot none [] rest
      else if fromRoot then walk inst.super fsDirRoot none [] path
      else walk inst.super t.cwdDir none [] path

@[simp] theorem walk_slash (sup : FsSuper) (parent : UInt8) (last : Option Nat) (path : CStr) :
    walk sup parent last [] (slash :: path) = walk sup parent last [] path := by
  simp [walk]

@[simp] theorem walk_nil (sup : FsSuper) (parent : UInt8) (last : Option Nat) :
    walk sup parent last [] [] = last := by
  simp [walk]

theorem fsIopenInst_fromRoot (hi : inst.initialized = true) (t : Task)
    (path : CStr) : fsIopenInst inst t path true = walk inst.super fsDirRoot none [] path := by
  unfold fsIopenInst
  cases path with
  | nil => simp
  | cons c rest =>
    by_cases hc : c = slash
    · subst hc
      simp [hi]
    · simp [hi, hc]

theorem fsIopenInst_abs (hi : inst.initialized = true) (t : Task)
    (path : CStr) (fromRoot : Bool) :
    fsIopenInst inst t (slash :: path) fromRoot = walk inst.super fsDirRoot none [] path := by
  simp [fsIopenInst, hi]

theorem findInDirInst_live {parent : UInt8} {name : CStr}
    (h : findInDirInst sup parent name = some i) : sup.Live i := by
  have hm := List.mem_of_find?_eq_some h
  have hp := List.find?_some h
  simp only [Bool.and_eq_true, bne_iff_ne, ne_eq] at hp
  exact ⟨by simpa using hm, hp.1.1⟩

theorem walk_live (path : CStr) :
    ∀ (parent : UInt8) (last : Option Nat) (comp : CStr), (∀ j, last = some j → sup.Live j) →
      walk sup parent last comp path = some i → sup.Live i := by
  induction path with
  | nil =>
    intro parent last comp hl h
    unfold walk at h
    split at h
    · exact hl i h
    · exact findInDirInst_live h
  | cons c path ih =>
    intro parent last comp hl h
    unfold walk at h
    split at h
    · split at h
      · exact ih _ _ _ hl h
      · split at h
        · cases h
        · rename_i found hf
          split at h
          · refine ih _ _ _ (fun j hj => ?_) h
            cases hj
            exact findInDirInst_live hf
          · cases h
    · exact ih _ _ _ hl h

theorem fsIopenInst_live (h : fsIopenInst inst t path fromRoot = some i) :
    inst.initialized = true ∧ inst.super.Live i := by
  have hw : ∀ parent p, walk inst.super parent none [] p = some i → inst.super.Live i :=
    fun parent p => walk_live p parent none [] (by intro j hj; cases hj)
  unfold fsIopenInst at h
  split at h
  · cases h
  rename_i hi
  refine ⟨by simpa using hi, ?_⟩
  split at h
  · cases h
  split at h
  · exact hw _ _ h
  split at h
  · exact hw _ _ h
  · exact hw _ _ h

theorem fsIopenInst_cwd_root (ht : t.cwdDir = fsDirRoot)
    (path : CStr) : fsIopenInst inst t path false = fsIopenInst inst t path true := by
  unfold fsIopenInst
  cases path with
  | nil => rfl
  | cons c rest => simp [ht]

/-! ## Permissions -/

/-- `FS_PERM_W`. -/
def fsPermW : UInt16 := 2

/-- fs.c:572-586, on an existing instance and task. -/
def fsCheckPerm (inst : FsInstance) (t : Task) (idx : Nat) (want : UInt16) : Int :=
  if !inst.initialized || idx ≥ inst.super.fileCount then -1
  else if t.uid = 0 then 1
  else
    let e := inst.super.files idx
    let shift : UInt16 := if t.uid = e.uid then 6 else if t.gid = e.gid then 3 else 0
    let bits := (e.mode >>> shift) &&& 7
    if bits &&& want = want then 1 else 0

/-- The entry's mode grants the permissions `want` to the task: the triple of
its owner, its group or the others, whichever tier the task is in. -/
def FsEntry.Grants (e : FsEntry) (t : Task) (want : UInt16) : Prop :=
  let tier : UInt16 := if t.uid = e.uid then 6 else if t.gid = e.gid then 3 else 0
  ((e.mode >>> tier) &&& 7) &&& want = want

instance (e : FsEntry) (t : Task) (want : UInt16) : Decidable (e.Grants t want) :=
  inferInstanceAs (Decidable (_ = _))

/-- For a task that is not root and an entry that exists the check refuses
exactly when the entry does not grant. -/
theorem fsCheckPerm_eq_zero
    (hi : inst.initialized = true) (hlt : i < inst.super.fileCount) (hu : t.uid ≠ 0)
    (want : UInt16) :
    fsCheckPerm inst t i want = 0 ↔ ¬ (inst.super.files i).Grants t want := by
  have hge : ¬ inst.super.fileCount ≤ i := by omega
  simp [fsCheckPerm, FsEntry.Grants, hi, hge, hu]

/-! ## Entry allocation -/

/-- The first free slot below the count, if any. fs.c:393-398 -/
def freeSlot (sup : FsSuper) : Option Nat :=
  (List.range sup.fileCount).find? fun i => (sup.files i).type == .free

def blankEntry : FsEntry where
  name := List.replicate fsNameMax 0
  startSector := 0
  size := 0
  type := .free
  parentDir := fsDirRoot
  uid := 0
  gid := 0
  mode := 0

/-- fs.c:384-417 -/
def allocSlotInst (sup : FsSuper) : Option (Nat × FsSuper) :=
  match freeSlot sup with
  | some i => some (i, sup.setFile i blankEntry)
  | none =>
    if h : sup.fileCount < fsMaxFiles then
      some (sup.fileCount,
        { fileCount := sup.fileCount + 1
          files := update sup.files sup.fileCount blankEntry
          count_le := h })
    else none

/-- The last component of a path: what follows its last `/`. -/
def baseName (path : CStr) : CStr := (path.reverse.takeWhile (· != slash)).reverse

/-- fs.c:419-456; `isRoot` is the test `inst == g_root_inst`. -/
def splitPathInst (inst : FsInstance) (isRoot : Bool) (t : Task) (path : CStr)
    (fromRoot : Bool) : Option (UInt8 × CStr) :=
  let base := baseName path
  let n := path.length - base.length - 1
  let parent : Option UInt8 :=
    if slash ∉ path then
      if fromRoot || !isRoot then some fsDirRoot else some t.cwdDir
    else if n = 0 then some fsDirRoot
    else if n ≥ 128 then none
    else
      match fsIopenInst inst t (path.take n) fromRoot with
      | none => none
      | some p => if (inst.super.files p).type = .dir then some (UInt8.ofNat p) else none
  match parent with
  | none => none
  | some p => if base.length = 0 || base.length > fsNameMax then none else some (p, base)

/-- fs.c:479-504. A failure changes nothing. -/
def findOrCreateFileInst (inst : FsInstance) (isRoot : Bool) (t : Task) (path : CStr)
    (fromRoot : Bool) : Option (Nat × FsSuper) :=
  match fsIopenInst inst t path fromRoot with
  | some i => if (inst.super.files i).type = .file then some (i, inst.super) else none
  | none =>
    match splitPathInst inst isRoot t path fromRoot with
    | none => none
    | some (parent, base) =>
      match allocSlotInst inst.super with
      | none => none
      | some (i, sup) =>
        some (i, sup.setFile i
          { sup.files i with
            name := base ++ List.replicate (fsNameMax - base.length) 0
            type := .file
            parentDir := parent
            uid := t.uid
            gid := t.gid
            mode := 0o644 })

theorem allocSlotInst_spec {sup' : FsSuper}
    (h : allocSlotInst sup = some (i, sup')) :
    ¬ sup.Live i ∧ (∀ j, j ≠ i → sup'.files j = sup.files j) := by
  unfold allocSlotInst at h
  split at h
  · rename_i k hk
    obtain ⟨rfl, rfl⟩ := h
    have hfree := List.find?_some hk
    simp only [beq_iff_eq] at hfree
    exact ⟨fun hl => hl.2 hfree, fun j hj => sup.setFile_ne _ hj⟩
  · split at h
    · obtain ⟨rfl, rfl⟩ := h
      refine ⟨fun hl => Nat.lt_irrefl _ hl.1, fun j hj => ?_⟩
      simp [hj]
    · cases h

theorem findOrCreateFileInst_spec
    (h : findOrCreateFileInst inst isRoot t path fromRoot = some (i, sup)) :
    (fsIopenInst inst t path fromRoot = some i ∧ (inst.super.files i).type = .file ∧
      sup = inst.super) ∨
    (¬ inst.super.Live i ∧ ∀ j, j ≠ i → sup.files j = inst.super.files j) := by
  unfold findOrCreateFileInst at h
  split at h
  · rename_i k hk
    split at h
    · rename_i hf
      obtain ⟨rfl, rfl⟩ := h
      exact .inl ⟨hk, hf, rfl⟩
    · cases h
  · right
    split at h
    · cases h
    · split at h
      · cases h
      · rename_i k sup' hk
        obtain ⟨rfl, rfl⟩ := h
        obtain ⟨hl, hs⟩ := allocSlotInst_spec hk
        refine ⟨hl, fun j hj => ?_⟩
        rw [FsSuper.setFile_ne _ _ hj, hs j hj]

/-! ## Whole-file write -/

/-- The `w` low bytes of `x`, least significant first. -/
def leBytes : (w x : Nat) → List UInt8
  | 0, _ => []
  | w + 1, x => UInt8.ofNat x :: leBytes w (x / 256)

def FsType.code : FsType → UInt8
  | .free => 0
  | .file => 1
  | .dir => 2
  | .other c => c

/-- An entry's 32 bytes on the device. fs.h:104-115 -/
def FsEntry.encode (e : FsEntry) : List UInt8 :=
  e.name ++ leBytes 4 e.startSector.toNat ++ leBytes 4 e.size.toNat ++
    [e.type.code, e.parentDir] ++ leBytes 2 e.uid.toNat ++ leBytes 2 e.gid.toNat ++
    leBytes 2 e.mode.toNat

/-- `ADVENTFS`. -/
def fsMagic : List UInt8 := [65, 68, 86, 69, 78, 84, 70, 83]

/-- fs.h:134-141 -/
def FsSuper.encode (sup : FsSuper) : List UInt8 :=
  fsMagic ++ leBytes 4 sup.fileCount ++ List.replicate 500 0 ++
    (List.range fsMaxFiles).flatMap fun i => (sup.files i).encode

/-- A loop of sector writes, the `s`-th of which puts `content s` at
`lba + s` and is the call's write number `w + s`; it stops at the first that
fails. -/
def writeSectors (env : Env) (w : Nat) (lba : UInt32) (content : Nat → Sector) :
    (k s : Nat) → (UInt32 → Sector) → Bool × (UInt32 → Sector)
  | 0, _, disk => (true, disk)
  | k + 1, s, disk =>
    if env.io (w + s) then
      writeSectors env w lba content k (s + 1)
        (update disk (lba + UInt32.ofNat s) (content s))
    else (false, disk)

/-- fs.c:212-240; `w` sector writes came before in this call. -/
def fsWriteSuperInst (env : Env) (w : Nat) (inst : FsInstance) : Int × FsInstance :=
  if !env.heap then (-1, inst)
  else
    let sb := inst.super.encode
    let (ok, disk) := writeSectors env w inst.baseLba
      (fun s => (sb.drop (s * 512)).take 512) fsSuperSectors 0 inst.disk
    (if ok then 0 else -1, { inst with disk := disk })

/-- The `s`-th sector of the file, zero-padded. fs.c:526-530 -/
def dataSector (data : Nat → UInt8) (size : UInt32) (s : Nat) : Sector :=
  let off : UInt32 := UInt32.ofNat (s * 512)
  let take : UInt32 := if off + 512 ≤ size then 512 else size - off
  (List.range 512).map fun i => if i < take.toNat then data (off.toNat + i) else 0

/-- Sectors that `size` bytes take: `(size + 511) / 512` in 32 bits. -/
def sectorsOf (size : UInt32) : Nat := ((size + 511) / 512).toNat

/-- fs.c:506-543, on an existing path. -/
def fsIwriteAllInst (env : Env) (inst : FsInstance) (isRoot : Bool) (t : Task) (path : CStr)
    (data : Nat → UInt8) (size : UInt32) (fromRoot : Bool) : Int × FsInstance :=
  if !inst.initialized then (-1, inst)
  else
    match findOrCreateFileInst inst isRoot t path fromRoot with
    | none => (-1, inst)
    | some (idx, sup) =>
      let inst := { inst with super := sup }
      let e := inst.super.files idx
      let oldN := if e.size = 0 then 0 else sectorsOf e.size
      let needed := if sectorsOf size = 0 then 1 else sectorsOf size
      match bitmapAllocRun inst needed with
      | none => (-1, inst)
      | some (newStart, inst) =>
        match writeSectors env 0 (inst.baseLba + UInt32.ofNat newStart) (dataSector data size)
            needed 0 inst.disk with
        | (false, disk) =>
          (-1, bitmapFreeRun { inst with disk := disk } (UInt32.ofNat newStart) needed)
        | (true, disk) =>
          let e' := { e with startSector := UInt32.ofNat newStart, size := size }
          let inst := { inst with disk := disk, super := inst.super.setFile idx e' }
          let inst := if oldN > 0 then bitmapFreeRun inst e.startSector oldN else inst
          fsWriteSuperInst env needed inst

theorem fsWriteSuperInst_super (env : Env) (w : Nat) (inst : FsInstance) :
    (fsWriteSuperInst env w inst).2.super = inst.super := by
  unfold fsWriteSuperInst
  split <;> rfl

theorem writeSectors_ok (henv : ∀ k, env.io k = true) (w : Nat) (lba : UInt32)
    (content : Nat → Sector) (k : Nat) :
    ∀ s disk, (writeSectors env w lba content k s disk).1 = true := by
  induction k with
  | zero => intro s disk; rfl
  | succ k ih =>
    intro s disk
    unfold writeSectors
    rw [if_pos (henv _)]
    exact ih _ _

/-- The entries after a write: those of the lookup, or these with the extent of
the entry it found replaced. -/
theorem fsIwriteAllInst_super (env : Env) (inst : FsInstance) (isRoot : Bool) (t : Task)
    (path : CStr) (data : Nat → UInt8) (size : UInt32) (fromRoot : Bool) :
    (fsIwriteAllInst env inst isRoot t path data size fromRoot).2.super = inst.super ∨
    ∃ i sup, findOrCreateFileInst inst isRoot t path fromRoot = some (i, sup) ∧
      ∀ j, j ≠ i →
        (fsIwriteAllInst env inst isRoot t path data size fromRoot).2.super.files j =
          sup.files j := by
  unfold fsIwriteAllInst
  split
  · exact .inl rfl
  split
  · exact .inl rfl
  rename_i i sup hfc
  refine .inr ⟨i, sup, hfc, fun j hj => ?_⟩
  simp only
  split
  · rfl
  rename_i start a halloc
  have ha := (bitmapAllocRun_same halloc).super
  split
  · rw [(bitmapFreeRun_same _ _ _).super, ha]
  · rw [fsWriteSuperInst_super, bitmapFreeRun_if_super, FsSuper.setFile_ne _ _ hj, ha]

/-- A write leaves every live entry alone but the one its own walk finds, and
that one too unless it is a file. -/
theorem fsIwriteAllInst_frame (hl : inst.super.Live j)
    (hj : ¬ (fsIopenInst inst t path fromRoot = some j ∧ (inst.super.files j).type = .file)) :
    (fsIwriteAllInst env inst isRoot t path data size fromRoot).2.super.files j =
      inst.super.files j := by
  obtain h | ⟨i, sup, hfc, h⟩ := fsIwriteAllInst_super env inst isRoot t path data size fromRoot
  · rw [h]
  · obtain ⟨ho, hf, rfl⟩ | ⟨hni, hs⟩ := findOrCreateFileInst_spec hfc
    · have hne : j ≠ i := by
        intro he; subst he; exact hj ⟨ho, hf⟩
      exact h j hne
    · have hne : j ≠ i := by
        intro he; subst he; exact hni hl
      rw [h j hne, hs j hne]

theorem fsIwriteAllInst_full (hl : inst.super.Live j) (hfull : ¬ inst.HasRoom) :
    (fsIwriteAllInst env inst isRoot t path data size fromRoot).2.super.files j =
      inst.super.files j := by
  unfold fsIwriteAllInst
  split
  · rfl
  split
  · rfl
  rename_i i sup hfc
  simp only
  split
  · obtain ⟨-, -, rfl⟩ | ⟨hni, hs⟩ := findOrCreateFileInst_spec hfc
    · rfl
    · have hne : j ≠ i := by
        intro he; subst he; exact hni hl
      exact hs j hne
  · rename_i halloc
    exact absurd (FsInstance.hasRoom_of_alloc halloc) hfull

theorem fsIwriteAllInst_changed (hl : inst.super.Live j)
    (hne : (fsIwriteAllInst env inst isRoot t path data size fromRoot).2.super.files j ≠
      inst.super.files j) :
    inst.initialized = true ∧ fsIopenInst inst t path fromRoot = some j ∧
      (inst.super.files j).type = .file ∧ inst.HasRoom := by
  have hfound : fsIopenInst inst t path fromRoot = some j ∧ (inst.super.files j).type = .file := by
    by_contra h
    exact hne (fsIwriteAllInst_frame hl h)
  have hroom : inst.HasRoom := by
    by_contra h
    exact hne (fsIwriteAllInst_full hl h)
  exact ⟨(fsIopenInst_live hfound.1).1, hfound.1, hfound.2, hroom⟩

/-- With a free sector and a device that works, writing at most one sector's
worth of bytes to an existing file gives it the new size. -/
theorem fsIwriteAllInst_replaces (henv : ∀ k, env.io k = true) (hinit : inst.initialized = true)
    (ho : fsIopenInst inst t path fromRoot = some i) (hf : (inst.super.files i).type = .file)
    (hroom : inst.HasRoom) (hsize : sectorsOf size = 1) :
    ((fsIwriteAllInst env inst isRoot t path data size fromRoot).2.super.files i).size = size := by
  have hfc : findOrCreateFileInst inst isRoot t path fromRoot = some (i, inst.super) := by
    simp [findOrCreateFileInst, ho, hf]
  obtain ⟨⟨start, a⟩, hs⟩ := Option.isSome_iff_exists.1 hroom.alloc_one
  have halloc : bitmapAllocRun { inst with super := inst.super } 1 = some (start, a) := hs
  have hw := writeSectors_ok henv 0 (a.baseLba + UInt32.ofNat start) (dataSector data size) 1 0
    a.disk
  unfold fsIwriteAllInst
  rw [if_neg (by simp [hinit])]
  simp only [hfc, hsize, Nat.one_ne_zero, if_false, halloc]
  split
  · rename_i hd; rw [hd] at hw; cases hw
  · rw [fsWriteSuperInst_super, bitmapFreeRun_if_super, FsSuper.setFile_same]

end AdventOS.Fs
