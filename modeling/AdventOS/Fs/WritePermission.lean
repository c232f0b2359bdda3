import AdventOS.Fs.Vfs

/-!
# Write permission of SYS_FS_WRITE

The syscall looks the path up with `fs_open` and asks `fs_check_perm` about
what it finds; the write then looks the path up again, through `vfs_write_all`.
The two lookups agree for an absolute path, whatever is mounted, and for a task
whose current directory is the root. For a relative path `fs_open` starts at
the task's current directory and the write starts at the root, so they may name
two different entries.

* `CheckCovers`: the check is about the entry the write replaces, or the write
  replaces none;
* `write_authorised_iff`: the syscall respects the permissions of every existing
  entry exactly then.
-/
namespace AdventOS.Fs

/-- The path copied from user memory: at most 127 bytes, up to the NUL.
syscall.c:1889-1892 -/
def copyPath (uname : Nat → UInt8) : CStr := ((List.range 127).map uname).takeWhile (· != 0)

/-- fs.c:727-730 -/
def Kernel.fsOpen (k : Kernel) (t : Task) (path : CStr) : Option Nat :=
  match k.root with
  | none => none
  | some r => fsIopenInst (k.insts r) t path false

def Kernel.fsCheckPerm (k : Kernel) (t : Task) (idx : Nat) (want : UInt16) : Int :=
  match k.root with
  | none => -1
  | some r => Fs.fsCheckPerm (k.insts r) t idx want

/-- The check of the syscall refuses. syscall.c:1897-1898 -/
def Kernel.Denies (k : Kernel) (t : Task) (path : CStr) : Prop :=
  ∃ i, k.fsOpen t path = some i ∧ k.fsCheckPerm t i fsPermW = 0

/-- syscall.c:1880-1904 -/
def sysFsWrite (env : VfsEnv) (k : Kernel) (t : Task) (uname data : Nat → UInt8) (n : UInt32) :
    Int × Kernel :=
  let path := copyPath uname
  match k.fsOpen t path with
  | some existing =>
    if k.fsCheckPerm t existing fsPermW = 0 then (-1, k)
    else vfsWriteAll env k t path data n
  | none => vfsWriteAll env k t path data n

/-! ## The property -/

/-- The content of an entry was replaced: its size or its sectors changed. -/
def Replaced (before after : FsEntry) : Prop :=
  after.size ≠ before.size ∨ after.startSector ≠ before.startSector

/-- Whatever is written and whatever the device does, an existing entry of the
boot filesystem is replaced only if it grants write permission to the caller,
and a call that the check denies changes nothing. -/
def WriteAuthorised (k : Kernel) (t : Task) (uname : Nat → UInt8) : Prop :=
  ∀ (env : VfsEnv) (data : Nat → UInt8) (n : UInt32),
    (∀ r i, k.root = some r → (k.insts r).super.Live i → Replaced ((k.insts r).super.files i)
        (((sysFsWrite env k t uname data n).2.insts r).super.files i) →
      ((k.insts r).super.files i).Grants t fsPermW) ∧
    (k.Denies t (copyPath uname) → (sysFsWrite env k t uname data n).2 = k)

/-- A relative path, looked up from the root as the write does it, names a file
that does not grant write permission. -/
def RootPathForbidden (inst : FsInstance) (t : Task) (path : CStr) : Prop :=
  ∃ i, fsIopenInst inst t path true = some i ∧ (inst.super.files i).type = .file ∧
    ¬ (inst.super.files i).Grants t fsPermW

/-- When the check is enough: the two lookups start at the same directory; or
the check refuses what it found; or the write cannot replace anything the
caller may not write, because there is no boot filesystem at `/`, because what
it finds from the root is not a forbidden file, or because the disk is full. -/
def CheckCovers (k : Kernel) (t : Task) (path : CStr) : Prop :=
  path.head? = some slash ∨ t.cwdDir = fsDirRoot ∨ k.Denies t path ∨ findRootfs k.mounts = none ∨
    ∀ r, k.root = some r → ¬ RootPathForbidden (k.insts r) t path ∨ ¬ (k.insts r).HasRoom

/-! ## Lemmas -/

theorem Replaced.irrefl {e : FsEntry} (h : Replaced e e) : False := h.elim (· rfl) (· rfl)

variable {env : VfsEnv} {k : Kernel} {t : Task} {data uname : Nat → UInt8} {n : UInt32}
  {path : CStr} {r : Nat}

theorem sysFsWrite_denied (h : k.Denies t (copyPath uname)) :
    (sysFsWrite env k t uname data n).2 = k := by
  obtain ⟨i, ho, hc⟩ := h
  simp [sysFsWrite, ho, hc]

theorem sysFsWrite_allowed (h : ¬ k.Denies t (copyPath uname)) :
    sysFsWrite env k t uname data n = vfsWriteAll env k t (copyPath uname) data n := by
  unfold sysFsWrite
  simp only
  split
  · rename_i i ho
    rw [if_neg]
    intro hc
    exact h ⟨i, ho, hc⟩
  · rfl

/-- A changed live entry of the boot filesystem is the file that the path names
from the root, and the disk had room. -/
theorem vfsWriteAll_replaced {i : Nat} (hr : k.root = some r) (hl : (k.insts r).super.Live i)
    (hrep : Replaced ((k.insts r).super.files i)
      (((vfsWriteAll env k t path data n).2.insts r).super.files i)) :
    fsIopenInst (k.insts r) t path true = some i ∧
      ((k.insts r).super.files i).type = .file ∧ (k.insts r).HasRoom := by
  have hne : ((vfsWriteAll env k t path data n).2.insts r).super.files i ≠
      (k.insts r).super.files i := by
    intro he
    rw [he] at hrep
    exact hrep.irrefl
  obtain h | ⟨rel, h, hwalk⟩ := vfsWriteAll_root hr env t path data n
  · rw [h] at hne
    exact absurd rfl hne
  · rw [h] at hne
    obtain ⟨hinit, ho, hf, hroom⟩ := fsIwriteAllInst_changed hl hne
    refine ⟨?_, hf, hroom⟩
    rw [fsIopenInst_fromRoot hinit, ← hwalk, ← fsIopenInst_fromRoot hinit t]
    exact ho

/-- Where the two lookups agree, a call that is not denied may write what the
path names. -/
theorem grants_of_same_lookup {i : Nat}
    (hu : t.uid ≠ 0) (hr : k.root = some r) (hd : ¬ k.Denies t path)
    (hsame : fsIopenInst (k.insts r) t path false = fsIopenInst (k.insts r) t path true)
    (ho : fsIopenInst (k.insts r) t path true = some i) :
    ((k.insts r).super.files i).Grants t fsPermW := by
  obtain ⟨hinit, hl⟩ := fsIopenInst_live ho
  by_contra hg
  refine hd ⟨i, ?_, ?_⟩
  · simp [Kernel.fsOpen, hr, hsame, ho]
  · simp only [Kernel.fsCheckPerm, hr]
    exact (fsCheckPerm_eq_zero hinit hl.1 hu fsPermW).2 hg

theorem vfsWriteAll_unmounted (hm : findRootfs k.mounts = none)
    (hrel : path.head? ≠ some slash) : vfsWriteAll env k t path data n = (-1, k) := by
  simp [vfsWriteAll, hrel, hm]

theorem lookup_abs {inst : FsInstance} (h : path.head? = some slash) :
    fsIopenInst inst t path false = fsIopenInst inst t path true := by
  cases path with
  | nil => rfl
  | cons c rest =>
    have hc : c = slash := by simpa using h
    simp [fsIopenInst, hc]

theorem exists_other_size (old : UInt32) : ∃ n : UInt32, n ≠ old ∧ sectorsOf n = 1 := by
  by_cases h : old = 1
  · exact ⟨2, by subst h; decide, by decide⟩
  · exact ⟨1, fun he => h he.symm, by decide⟩

/-- A relative path that the check lets through reaches, from the root, a file
that forbids it: some write replaces that file. -/
theorem replaces_forbidden (hr : k.root = some r) (hrel : (copyPath uname).head? ≠ some slash)
    (hd : ¬ k.Denies t (copyPath uname)) (hm : findRootfs k.mounts ≠ none)
    (hf : RootPathForbidden (k.insts r) t (copyPath uname)) (hroom : (k.insts r).HasRoom) :
    ¬ WriteAuthorised k t uname := by
  intro hw
  obtain ⟨i, ho, hfile, hg⟩ := hf
  obtain ⟨hinit, hl⟩ := fsIopenInst_live ho
  obtain ⟨n, hn, hsec⟩ := exists_other_size ((k.insts r).super.files i).size
  obtain ⟨m, hm⟩ := Option.ne_none_iff_exists'.1 hm
  obtain ⟨hmem, hp⟩ := findRootfs_spec hm
  have hops := (k.built.root_iff m hmem).slash_iff.1 hp
  let env : VfsEnv := { io := fun _ => true, heap := true, v9pRc := 0 }
  have hsize : ((fsIwriteAllInst env.toEnv (k.insts r) true t (copyPath uname) (fun _ => 0) n
      true).2.super.files i).size = n :=
    fsIwriteAllInst_replaces (fun _ => rfl) hinit ho hfile hroom hsec
  refine hg ((hw env (fun _ => 0) n).1 r i hr hl (.inl ?_))
  rw [sysFsWrite_allowed hd]
  unfold vfsWriteAll
  rw [if_pos hrel, hm]
  simp only [hops]
  rw [opsWriteAll_root hr, hsize]
  exact hn

/-- For a caller that is not root, SYS_FS_WRITE respects the
write permission of every existing entry of the boot filesystem exactly when
the check covers the path. -/
theorem write_authorised_iff (k : Kernel) (t : Task) (hu : t.uid ≠ 0) (uname : Nat → UInt8) :
    WriteAuthorised k t uname ↔ CheckCovers k t (copyPath uname) := by
  constructor
  · intro hw
    by_contra hc
    simp only [CheckCovers, not_or, not_forall, not_not] at hc
    obtain ⟨habs, -, hd, hm, r, hr, hf, hroom⟩ := hc
    exact replaces_forbidden hr habs hd hm hf hroom hw
  · intro hc env data n
    refine ⟨fun r i hr hl hrep => ?_, sysFsWrite_denied⟩
    have hd : ¬ k.Denies t (copyPath uname) := by
      intro h
      rw [sysFsWrite_denied h] at hrep
      exact hrep.irrefl
    rw [sysFsWrite_allowed hd] at hrep
    obtain ⟨ho, hf, hroom⟩ := vfsWriteAll_replaced hr hl hrep
    obtain habs | hcwd | hden | hm | hcov := hc
    · exact grants_of_same_lookup hu hr hd (lookup_abs habs) ho
    · exact grants_of_same_lookup hu hr hd (fsIopenInst_cwd_root hcwd _) ho
    · exact absurd hden hd
    · by_cases habs : (copyPath uname).head? = some slash
      · exact grants_of_same_lookup hu hr hd (lookup_abs habs) ho
      · rw [vfsWriteAll_unmounted hm habs] at hrep
        exact absurd hrep Replaced.irrefl
    · by_contra hg
      rcases hcov r hr with h | h
      · exact h ⟨i, ho, hf, hg⟩
      · exact h hroom

/-! ## One boot disk -/

/-- A directory `d` and, beside it at the root, a file `f` that belongs to root
with mode 0644; one data sector is free. -/
def demoInst : FsInstance where
  initialized := true
  baseLba := 384
  nSectors := 18
  super :=
    { fileCount := 2
      files := fun i =>
        if i = 0 then { blankEntry with name := 100 :: List.replicate 15 0, type := .dir }
        else { blankEntry with name := 102 :: List.replicate 15 0, type := .file, mode := 0o644 }
      count_le := by decide }
  bitmap := fun s => s < fsSuperSectors
  disk := fun _ => List.replicate 512 0

def demoKernel : Kernel where
  insts := fun _ => demoInst
  root := some 0
  mounts := [some ⟨[slash], .advent none⟩, none, none, none]
  built := .mount .rootfs .init (by intro i h; cases h) rfl

/-- An ordinary user whose current directory is `d`. -/
def demoTask : Task := { uid := 1000, gid := 1000, cwdDir := 0 }

def userString (s : CStr) : Nat → UInt8 := fun i => s.getD i 0

/-- The absolute path of the file: the call is denied and changes nothing. -/
theorem write_authorised_absolute :
    demoTask.uid ≠ 0 ∧ WriteAuthorised demoKernel demoTask (userString [slash, 102]) :=
  have hu : demoTask.uid ≠ 0 := by decide
  ⟨hu, (write_authorised_iff demoKernel demoTask hu _).2 (.inl (by decide))⟩

/-- From `d` the relative path `f` names nothing, so nothing is checked, and the
write replaces the file of that name at the root. -/
theorem relative_write_bypasses_check :
    ¬ ∀ (k : Kernel) (t : Task) (uname : Nat → UInt8), t.uid ≠ 0 → WriteAuthorised k t uname := by
  intro h
  have hpath : copyPath (userString [102]) = [102] := by decide
  have hroot : demoKernel.root = some 0 := rfl
  have hw : WriteAuthorised demoKernel demoTask (userString [102]) := h _ _ _ (by decide)
  refine replaces_forbidden hroot ?_ ?_ ?_ ?_ ?_ hw
  · rw [hpath]; decide
  · rw [hpath]
    intro ⟨i, ho, _⟩
    have hnone : demoKernel.fsOpen demoTask [102] = none := by decide
    rw [hnone] at ho
    cases ho
  · decide
  · rw [hpath]
    exact ⟨1, by decide, by decide, by decide⟩
  · exact ⟨17, by decide, by decide, by decide⟩

end AdventOS.Fs
