import AdventOS.Fs.DirTree
import AdventOS.Fs.WritePermission
import AdventOS.Kernel.Mmap

/-!
# References to file-table slots

Descriptors, memory mappings and current directories name slots of a filesystem's table by number.
The table hands a freed slot out again, and no number tells the new entry from the old one.
`fs_unlink` looks at the descriptors and not at the mappings; `fs_rmdir` looks at none of the three.

The model runs the calls of any number of tasks on the table of mounts of `Vfs`, with the
descriptors, the mappings (`Kernel.Mmap`) and the current directory of each task. `births` counts
how often a slot came into use, and `made` remembers what each reference was made for. The number
of slot 255 is `FS_DIR_ROOT`, so a descriptor of the root directory and a file there look alike.

* `Sys.Sound`: what a task reaches through a reference is what the reference was made for;
* `Sys.Cond`: the calls that the kernel should refuse and does not are left out;
* `references_sound`;
* `mapping_outlives_file`: with a mapping left over, a file is replaced by another one below it.
-/
namespace AdventOS.Fs.References
open Function Option
open AdventOS.Kernel.Mmap (TaskMmap mmapRegister findExact taskMmapMax userMmapStart userMmapMax)

def taskMax : Nat := 32

def taskMaxFds : Nat := 24

def fsPermR : UInt16 := 4

/-! ## Tasks -/

/-- A descriptor. Every kind but `FD_FS` is `other`: what backs it has no slot in a file table. -/
inductive Fd
  | free
  | fs (objIdx : Nat) (fsData : Option Nat)
  | other
  deriving DecidableEq, Repr

/-- The fields of a task that refer to files. -/
structure Files where
  cred : Task
  maxFds : Nat
  fds : Nat → Fd
  mm : AdventOS.Kernel.Mmap.Task

/-- syscall.c:45-51 -/
def countLiveFds (f : Files) : Nat := (List.range taskMaxFds).countP fun n => f.fds n != .free

/-- syscall.c:56-64 -/
def allocFd (f : Files) : Option Nat :=
  if f.maxFds ≠ 0 ∧ f.maxFds ≤ countLiveFds f then none
  else (List.range' 3 (taskMaxFds - 3)).find? fun n => f.fds n == .free

def Files.setFd (f : Files) (n : Nat) (fd : Fd) : Files :=
  { f with fds := update f.fds n fd }

def Files.setCwd (f : Files) (dir : UInt8) : Files :=
  { f with cred := { f.cred with cwdDir := dir } }

/-! ## Opening -/

/-- What a path names below a mount. -/
inductive Found
  | dirRoot
  | entry (i : Nat)
  deriving DecidableEq, Repr

def Found.objIdx : Found → Nat
  | .dirRoot => fsDirRoot.toNat
  | .entry i => i

/-- What `vfs_open` fills in: an AdventFS inode, or one of another filesystem. -/
inductive Inode
  | fs (found : Found) (fsData : Option Nat)
  | other
  deriving DecidableEq, Repr

def Inode.fd : Inode → Fd
  | .fs found fsData => .fs found.objIdx fsData
  | .other => .other

/-- fs.c:753-773 -/
def rootfsOpen (k : Kernel) (t : Task) (fsData : Option Nat) (rel : CStr) : Option Inode :=
  let inst := fsData <|> k.root
  if rel = [] then some (.fs .dirRoot inst)
  else
    match inst with
    | none => none
    | some r => (fsIopenInst (k.insts r) t rel true).map fun i => .fs (.entry i) inst

/-- `elsewhere` says whether procfs or the 9p host has the path. -/
def opsOpen (k : Kernel) (t : Task) (elsewhere : Bool) (ops : FsOps) (rel : CStr) : Option Inode :=
  match ops with
  | .advent fsData => rootfsOpen k t fsData rel
  | .procfs => if elsewhere then some .other else none
  | .v9p => if elsewhere then some .other else none

/-- The operations that serve a path, and what they are given of it.
vfs.c:106-111, 120-123 and the same lines of the other calls. -/
def dispatch (k : Kernel) (path : CStr) : Option (FsOps × CStr) :=
  if path.head? ≠ some slash then (findRootfs k.mounts).map fun r => (r.ops, path)
  else (resolve k.mounts path).map fun x => (x.1.ops, x.2)

/-- vfs.c:102-124 -/
def vfsOpen (k : Kernel) (t : Task) (elsewhere : Bool) (path : CStr) : Option Inode :=
  if path = [slash] then (findRootfs k.mounts).bind fun r => opsOpen k t elsewhere r.ops []
  else (dispatch k path).bind fun x => opsOpen k t elsewhere x.1 x.2

def isTtyAcm (path : CStr) : Bool :=
  path.take 11 == ascii ['/', 'd', 'e', 'v', '/', 't', 't', 'y', 'A', 'C', 'M'] &&
    path.length == 12 && 48 ≤ path.getD 11 0 && path.getD 11 0 ≤ 57

/-- The check before a descriptor is installed. syscall.c:400-403 -/
def readDenied (k : Kernel) (t : Task) : Inode → Bool
  | .fs found _ => k.fsCheckPerm t found.objIdx fsPermR == 0
  | .other => false

/-- The descriptor and what it stands for; `elsewhere` also says whether the USB port is there
and whether tmpfs has the name. syscall.c:356-423 -/
def sysOpen (k : Kernel) (f : Files) (elsewhere : Bool) (path : CStr) : Option (Nat × Inode) :=
  match allocFd f with
  | none => none
  | some n =>
    if isTtyAcm path then if elsewhere then some (n, .other) else none
    else
      match vfsOpen k f.cred elsewhere path with
      | some ino => if readDenied k f.cred ino then none else some (n, ino)
      | none => if elsewhere then some (n, .other) else none

/-! ## Directories and removal -/

/-- fs.c:806-810 for AdventFS; procfs has none. -/
def opsMkdir (env : VfsEnv) (k : Kernel) (t : Task) (ops : FsOps) (rel : CStr) : Int × Kernel :=
  match ops with
  | .procfs => (-1, k)
  | .v9p => (env.v9pRc, k)
  | .advent fsData =>
    match fsData <|> k.root with
    | none => (-1, k)
    | some i =>
      let (rc, inst) := fsImkdirInst env.toEnv (k.insts i) (k.root == some i) t rel true
      (rc, k.setInst i inst)

/-- vfs.c:187-200 -/
def vfsMkdir (env : VfsEnv) (k : Kernel) (t : Task) (path : CStr) : Int × Kernel :=
  match dispatch k path with
  | none => (-1, k)
  | some x => opsMkdir env k t x.1 x.2

/-- The paths that SYS_UNLINK and SYS_RMDIR hand to the 9p driver.
syscall.c:821-823, 848-850 -/
def on9p (path : CStr) : Bool :=
  path.take 7 == ascii ['/', 'm', 'n', 't', '/', '9', 'p'] &&
    (path.length == 7 || path.getD 7 0 == slash)

/-! ## What references name -/

/-- What a reference is made for: the root directory of an instance, or an entry. `birth` is how
often the slot had come into use by then. -/
inductive Target
  | root (inst : Option Nat)
  | entry (inst i birth : Nat) (name : List UInt8) (type : FsType) (parentDir : UInt8)
  deriving DecidableEq, Repr

/-- Where a task keeps a reference. -/
inductive Via
  | fd (n : Nat)
  | mmap (n : Nat)
  | cwd
  deriving DecidableEq, Repr

structure Holder where
  task : Nat
  via : Via
  deriving DecidableEq, Repr

/-- What the kernel has in hand when it follows a reference. -/
inductive Ref
  | root (inst : Option Nat)
  | slot (inst : Option Nat) (i : Nat)
  deriving DecidableEq, Repr

/-- The reference of a task, when there is one. Descriptors are read on their own instance
(syscall.c:486), page faults on the boot instance (mmap.c:132), and relative paths
start in the boot instance (fs.c:726). -/
def Files.ref (f : Files) (root : Option Nat) : Via → Option Ref
  | .fd n =>
    if n < taskMaxFds then
      match f.fds n with
      | .fs i fsData => some (.slot (fsData <|> root) i)
      | _ => none
    else none
  | .mmap n =>
    if n < taskMmapMax ∧ (f.mm.mmaps n).inUse = true then some (.slot root (f.mm.mmaps n).fsIdx)
    else none
  | .cwd => some (if f.cred.cwdDir = fsDirRoot then .root root else .slot root f.cred.cwdDir.toNat)

structure Sys where
  kernel : Kernel
  tasks : Nat → Option Files
  births : Nat → Nat → Nat
  made : Holder → Target

def Sys.ref (s : Sys) (h : Holder) : Option Ref :=
  if h.task < taskMax then (s.tasks h.task).bind fun f => f.ref s.kernel.root h.via else none

instance (sup : FsSuper) (i : Nat) : Decidable (sup.Live i) :=
  inferInstanceAs (Decidable (_ ∧ _))

/-- The entry that slot `i` of instance `r` has now. -/
def Sys.entryAt (s : Sys) (r i : Nat) : Target :=
  let e := (s.kernel.insts r).super.files i
  .entry r i (s.births r i) e.name e.type e.parentDir

/-- What following a reference leads to. With no entry in slot 255 the number is that of the root
directory; any other slot that is not in use leads nowhere. -/
def Sys.reach (s : Sys) : Ref → Option Target
  | .root inst => some (.root inst)
  | .slot (some r) i =>
    if (s.kernel.insts r).super.Live i then some (s.entryAt r i)
    else if i = fsDirRoot.toNat then some (.root (some r)) else none
  | .slot none i => if i = fsDirRoot.toNat then some (.root none) else none

def Sys.Sound (s : Sys) : Prop := ∀ h x, s.ref h = some x → s.reach x = some (s.made h)

/-! ## Calls -/

/-- Descriptor `n` of task `p` is open on an AdventFS slot `idx`. -/
def Sys.openOn (s : Sys) (idx p n : Nat) : Bool :=
  match s.tasks p with
  | none => false
  | some f =>
    match f.fds n with
    | .fs i _ => i == idx
    | _ => false

/-- fs.c:607-624 -/
def Sys.fsEntryOpenRefs (s : Sys) (idx : Nat) : Nat :=
  ((List.range taskMax).flatMap fun p => (List.range taskMaxFds).filter (s.openOn idx p)).length

def Sys.setKernel (s : Sys) (k : Kernel) : Sys :=
  { s with
    kernel := k
    births := fun r i =>
      if (k.insts r).super.Live i ∧ ¬ (s.kernel.insts r).super.Live i then s.births r i + 1
      else s.births r i }

def Sys.setFiles (s : Sys) (p : Nat) (f : Option Files) (made : Holder → Target) : Sys :=
  { s with tasks := update s.tasks p f, made := made }

def Sys.targetOf (s : Sys) : Inode → Target
  | .fs (.entry i) (some r) => s.entryAt r i
  | .fs _ inst => .root inst
  | .other => .root none

inductive Op
  | opens (p : Nat) (uname : Nat → UInt8) (elsewhere : Bool)
  | closes (p n : Nat)
  | dup2 (p oldfd newfd : Nat)
  | mmap (p n off len : Nat)
  | munmap (p addr len : Nat)
  | chdir (p : Nat) (upath : Nat → UInt8)
  | unlink (env : Env) (p : Nat) (upath : Nat → UInt8)
  | rmdir (env : Env) (p : Nat) (upath : Nat → UInt8)
  | write (env : VfsEnv) (p : Nat) (uname data : Nat → UInt8) (n : UInt32)
  | mkdir (env : VfsEnv) (p : Nat) (upath : Nat → UInt8)
  | fork (p q : Nat)
  | exec (p : Nat)
  | exit (p : Nat)

def Op.task : Op → Nat
  | .opens p _ _ => p
  | .closes p _ => p
  | .dup2 p _ _ => p
  | .mmap p _ _ _ => p
  | .munmap p _ _ => p
  | .chdir p _ => p
  | .unlink _ p _ => p
  | .rmdir _ p _ => p
  | .write _ p _ _ _ => p
  | .mkdir _ p _ => p
  | .fork p _ => p
  | .exec p => p
  | .exit p => p

/-- The descriptor that SYS_MMAP maps. syscall.c:1744-1747 -/
def mapped (f : Files) (n : Nat) : Option (Nat × Option Nat) :=
  if n < taskMaxFds then
    match f.fds n with
    | .fs i fsData => some (i, fsData)
    | _ => none
  else none

/-- The mapping of slot `n`, gone. mirrors the end of mmap.c:37-69 -/
def Files.unmap (f : Files) (n : Nat) : Files :=
  { f with mm := { f.mm with
      mmaps := update f.mm.mmaps n { f.mm.mmaps n with inUse := false } } }

/-- task.c:1001-1002 -/
def Files.unmapAll (f : Files) : Files :=
  { f with mm := { f.mm with
      mmaps := fun n => { f.mm.mmaps n with inUse := false }
      mmapBrk := userMmapStart } }

/-- The directory that SYS_CHDIR moves to. syscall.c:1776-1785 -/
def chdirTo (k : Kernel) (t : Task) (path : CStr) : Option Found :=
  if path = [slash] then some .dirRoot
  else
    match k.root with
    | none => none
    | some r =>
      match k.fsOpen t path with
      | none => none
      | some i => if ((k.insts r).super.files i).type = .dir then some (.entry i) else none

/-- A call of task `p`, whose fields are `f`. The ghost `made` follows: a new descriptor and a
new current directory are made for what the path names, a mapping for what its descriptor was made
for, and copies for the same as the original. -/
def Sys.perform (s : Sys) (p : Nat) (f : Files) : Op → Sys
  | .opens _ uname elsewhere =>
    match sysOpen s.kernel f elsewhere (copyPath uname) with
    | none => s
    | some x => s.setFiles p (some (f.setFd x.1 x.2.fd))
        (update s.made ⟨p, .fd x.1⟩ (s.targetOf x.2))
  | .closes _ n =>
    if 3 ≤ n ∧ n < taskMaxFds then s.setFiles p (some (f.setFd n .free)) s.made else s
  | .dup2 _ oldfd newfd =>
    if oldfd < taskMaxFds ∧ newfd < taskMaxFds ∧ f.fds oldfd ≠ .free then
      s.setFiles p (some (f.setFd newfd (f.fds oldfd)))
        (update s.made ⟨p, .fd newfd⟩ (s.made ⟨p, .fd oldfd⟩))
    else s
  | .mmap _ n off len =>
    match mapped f n with
    | none => s
    | some x =>
      match AdventOS.Kernel.Mmap.freeSlot f.mm with
      | none => s
      | some slot => s.setFiles p (some { f with mm := (mmapRegister f.mm x.1 off len).1 })
          (update s.made ⟨p, .mmap slot⟩ (s.made ⟨p, .fd n⟩))
  | .munmap _ addr len =>
    match findExact f.mm addr len with
    | none => s
    | some slot => s.setFiles p (some (f.unmap slot)) s.made
  | .chdir _ upath =>
    match chdirTo s.kernel f.cred (copyPath upath) with
    | none => s
    | some found => s.setFiles p (some (f.setCwd (UInt8.ofNat found.objIdx)))
        (update s.made ⟨p, .cwd⟩ (s.targetOf (.fs found s.kernel.root)))
  | .unlink env _ upath =>
    match s.kernel.root with
    | none => s
    | some r =>
      if on9p (copyPath upath) then s
      else s.setKernel (s.kernel.setInst r
        (fsUnlink env (s.kernel.insts r) f.cred s.fsEntryOpenRefs (copyPath upath)).2)
  | .rmdir env _ upath =>
    match s.kernel.root with
    | none => s
    | some r =>
      if on9p (copyPath upath) then s
      else s.setKernel (s.kernel.setInst r
        (fsRmdir env (s.kernel.insts r) f.cred (copyPath upath)).2)
  | .write env _ uname data n => s.setKernel (sysFsWrite env s.kernel f.cred uname data n).2
  | .mkdir env _ upath => s.setKernel (vfsMkdir env s.kernel f.cred (copyPath upath)).2
  | .fork _ q =>
    if q < taskMax ∧ s.tasks q = none then
      s.setFiles q (some f) fun h => if h.task = q then s.made ⟨p, h.via⟩ else s.made h
    else s
  | .exec _ => s.setFiles p (some f.unmapAll) s.made
  | .exit _ => s.setFiles p none s.made

/-- A call by a task that exists. -/
def Sys.step (s : Sys) (op : Op) : Option Sys :=
  if op.task < taskMax then (s.tasks op.task).map fun f => s.perform op.task f op else none

/-- Any tasks, on any filesystems, before the first file is opened. -/
structure Sys.Start (s : Sys) : Prop where
  fds : ∀ p f n, s.tasks p = some f → ∀ i fsData, f.fds n ≠ .fs i fsData
  mmaps : ∀ p f n, s.tasks p = some f → (f.mm.mmaps n).inUse = false
  cwd : ∀ p f, s.tasks p = some f → f.cred.cwdDir = fsDirRoot
  made : ∀ p, s.made ⟨p, .cwd⟩ = .root s.kernel.root

def system : LTS Sys Op := .ofFn Sys.Start Sys.step

/-! ## The calls that keep references sound -/

/-- A create at `rel` would take slot `i` of the table into use. -/
def Takes (inst : FsInstance) (isRoot : Bool) (t : Task) (rel : CStr) (i : Nat) : Prop :=
  ∃ parent base, splitPathInst inst isRoot t rel true = some (parent, base) ∧
    findInDirInst inst.super parent base = none ∧ (allocSlotInst inst.super).map Prod.fst = some i

/-- A create through the VFS takes slot 255 of an instance into use only when no descriptor and no
mapping of that instance's root directory is held. -/
def Sys.RootFree (s : Sys) (t : Task) (path : CStr) : Prop :=
  ∀ fsData rel r, dispatch s.kernel path = some (.advent fsData, rel) →
    (fsData <|> s.kernel.root) = some r →
      Takes (s.kernel.insts r) (s.kernel.root == some r) t rel fsDirRoot.toNat →
        ∀ h, s.ref h ≠ some (.slot (some r) fsDirRoot.toNat)

/-- What the kernel leaves to its callers. A file that is removed is not mapped; a directory that
is removed is nobody's current directory and neither open nor mapped; mappings are of files of the
boot instance; and slot 255 is not confused with the root directory. -/
def Sys.Cond (s : Sys) : Op → Prop
  | .opens p uname elsewhere => ∀ f r, s.tasks p = some f → allocFd f ≠ none →
      isTtyAcm (copyPath uname) = false →
        vfsOpen s.kernel f.cred elsewhere (copyPath uname) = some (.fs .dirRoot (some r)) →
          readDenied s.kernel f.cred (.fs .dirRoot (some r)) = false →
            ¬ (s.kernel.insts r).super.Live fsDirRoot.toNat
  | .mmap p n _ len => ∀ f i fsData, s.tasks p = some f → mapped f n = some (i, fsData) →
      len = 0 ∨ userMmapMax < (f.mm.mmapBrk + AdventOS.Kernel.Elf.alignUp len) % 2 ^ 32 ∨
        AdventOS.Kernel.Mmap.freeSlot f.mm = none ∨ (fsData <|> s.kernel.root) = s.kernel.root
  | .chdir p upath => ∀ f r i, s.tasks p = some f → copyPath upath ≠ [slash] →
      s.kernel.root = some r → s.kernel.fsOpen f.cred (copyPath upath) = some i →
        ((s.kernel.insts r).super.files i).type = .dir → i ≠ fsDirRoot.toNat
  | .unlink _ p upath => ∀ f r i, s.tasks p = some f → on9p (copyPath upath) = false →
      s.kernel.root = some r →
        fsIopenInst (s.kernel.insts r) f.cred (copyPath upath) true = some i →
          ((s.kernel.insts r).super.files i).type = .file →
            0 < fsCheckPerm (s.kernel.insts r) f.cred i fsPermW → s.fsEntryOpenRefs i = 0 →
              ∀ q n, s.ref ⟨q, .mmap n⟩ ≠ some (.slot (some r) i)
  | .rmdir _ p upath => ∀ f r i, s.tasks p = some f → on9p (copyPath upath) = false →
      s.kernel.root = some r →
        fsIopenInst (s.kernel.insts r) f.cred (copyPath upath) true = some i →
          ((s.kernel.insts r).super.files i).type = .dir →
            0 < fsCheckPerm (s.kernel.insts r) f.cred i fsPermW →
              hasChild (s.kernel.insts r).super i = false →
                ∀ h, s.ref h ≠ some (.slot (some r) i)
  | .write _ p uname _ _ => ∀ f, s.tasks p = some f → ¬ s.kernel.Denies f.cred (copyPath uname) →
      s.RootFree f.cred (copyPath uname)
  | .mkdir _ p upath => ∀ f, s.tasks p = some f → s.RootFree f.cred (copyPath upath)
  | _ => True

/-! ## References of one task -/

section Files
variable {f : Files} {root : Option Nat} {v : Via} {x : Ref} {n slot : Nat}

theorem setFd_ref_ne {fd : Fd} (h : v ≠ .fd n) : (f.setFd n fd).ref root v = f.ref root v := by
  cases v with
  | fd m =>
    have hne : m ≠ n := fun he => h (by rw [he])
    simp only [Files.ref, Files.setFd, update_of_ne hne]
  | mmap m => rfl
  | cwd => rfl

theorem fd_ref_iff : f.ref root (.fd n) = some x ↔
    n < taskMaxFds ∧ ∃ i fsData, f.fds n = .fs i fsData ∧ x = .slot (fsData <|> root) i := by
  constructor
  · intro h
    simp only [Files.ref] at h
    split at h
    · rename_i hn
      split at h
      · rename_i i fsData hfd
        cases h
        exact ⟨hn, i, fsData, hfd, rfl⟩
      · cases h
    · cases h
  · rintro ⟨hn, i, fsData, hfd, rfl⟩
    simp only [Files.ref, if_pos hn, hfd]

theorem mmap_ref_iff : f.ref root (.mmap n) = some x ↔
    n < taskMmapMax ∧ (f.mm.mmaps n).inUse = true ∧ x = .slot root (f.mm.mmaps n).fsIdx := by
  constructor
  · intro h
    simp only [Files.ref] at h
    split at h
    · rename_i hn
      cases h
      exact ⟨hn.1, hn.2, rfl⟩
    · cases h
  · rintro ⟨hn, hu, rfl⟩
    simp only [Files.ref, if_pos (And.intro hn hu)]

theorem setFd_ref_self {fd : Fd} (h : (f.setFd n fd).ref root (.fd n) = some x) :
    n < taskMaxFds ∧ ∃ i fsData, fd = .fs i fsData ∧ x = .slot (fsData <|> root) i := by
  obtain ⟨hn, i, fsData, hfd, hx⟩ := fd_ref_iff.1 h
  refine ⟨hn, i, fsData, ?_, hx⟩
  rw [← hfd]
  exact (update_self n fd f.fds).symm

theorem setCwd_ref_ne {dir : UInt8} (h : v ≠ .cwd) :
    (f.setCwd dir).ref root v = f.ref root v := by
  cases v with
  | fd m => rfl
  | mmap m => rfl
  | cwd => exact absurd rfl h

theorem ref_of_fewer {g : Files} (hc : g.cred = f.cred) (hfds : g.fds = f.fds)
    (hm : ∀ n, (g.mm.mmaps n).inUse = true → g.mm.mmaps n = f.mm.mmaps n)
    (h : g.ref root v = some x) : f.ref root v = some x := by
  cases v with
  | fd n =>
    rw [fd_ref_iff] at h ⊢
    rw [← hfds]
    exact h
  | mmap n =>
    rw [mmap_ref_iff] at h ⊢
    obtain ⟨hn, hu, hx⟩ := h
    rw [← hm n hu]
    exact ⟨hn, hu, hx⟩
  | cwd =>
    simp only [Files.ref] at h ⊢
    rw [← hc]
    exact h

theorem unmap_ref (h : (f.unmap slot).ref root v = some x) : f.ref root v = some x := by
  refine ref_of_fewer (g := f.unmap slot) rfl rfl (fun n hu => ?_) h
  by_cases hn : n = slot
  · subst hn
    simp [Files.unmap] at hu
  · simp [Files.unmap, hn]

open AdventOS.Kernel.Mmap in
open AdventOS.Kernel.Mmap in
theorem unmapAll_ref (h : f.unmapAll.ref root v = some x) : f.ref root v = some x :=
  ref_of_fewer (g := f.unmapAll) rfl rfl (fun n hu => by simp [Files.unmapAll] at hu) h

theorem mmap_ref {i off len : Nat} (hslot : AdventOS.Kernel.Mmap.freeSlot f.mm = some slot)
    (h : Files.ref { f with mm := (mmapRegister f.mm i off len).1 } root v = some x) :
    (v ≠ .mmap slot ∧ f.ref root v = some x) ∨
      (v = .mmap slot ∧ x = .slot root i ∧ len ≠ 0 ∧
        ¬ userMmapMax < (f.mm.mmapBrk + AdventOS.Kernel.Elf.alignUp len) % 2 ^ 32) := by
  obtain ⟨hlt, hfree⟩ := AdventOS.Kernel.Mmap.freeSlot_spec hslot
  have hold : v = .mmap slot → f.ref root v = none := by
    rintro rfl
    simp [Files.ref, hfree]
  unfold mmapRegister at h
  by_cases hlen : len = 0
  · rw [if_pos hlen] at h
    refine .inl ⟨fun hv => ?_, h⟩
    have hnone := hold hv
    rw [show f.ref root v = some x from h] at hnone
    cases hnone
  rw [if_neg hlen] at h
  by_cases hmax : userMmapMax < (f.mm.mmapBrk + AdventOS.Kernel.Elf.alignUp len) % 2 ^ 32
  · rw [if_pos hmax] at h
    refine .inl ⟨fun hv => ?_, h⟩
    have hnone := hold hv
    rw [show f.ref root v = some x from h] at hnone
    cases hnone
  rw [if_neg hmax, hslot] at h
  by_cases hv : v = .mmap slot
  · subst hv
    obtain ⟨-, -, hx⟩ := mmap_ref_iff.1 h
    refine .inr ⟨rfl, ?_, hlen, hmax⟩
    rw [hx]
    simp
  · refine .inl ⟨hv, ?_⟩
    cases v with
    | fd n => exact h
    | cwd => exact h
    | mmap n =>
      have hne : n ≠ slot := fun he => hv (by rw [he])
      rw [mmap_ref_iff] at h ⊢
      simpa [hne] using h

end Files

/-! ## The invariant -/

def Target.IsDir : Target → Prop
  | .root _ => True
  | .entry _ _ _ _ type _ => type = .dir

/-- Besides soundness, current directories are directories. -/
structure Sys.Inv (s : Sys) : Prop where
  sound : s.Sound
  cwd : ∀ p, (s.made ⟨p, .cwd⟩).IsDir

section Inv
variable {s : Sys} {p n i r : Nat} {f : Files} {x : Ref} {h : Holder}

theorem ref_iff : s.ref h = some x ↔
    h.task < taskMax ∧ ∃ f, s.tasks h.task = some f ∧ f.ref s.kernel.root h.via = some x := by
  unfold Sys.ref
  split
  · rename_i hlt
    simp [hlt, bind_eq_some_iff]
  · rename_i hlt
    simp [hlt]

theorem Sys.Inv.own (hs : s.Inv) (hp : p < taskMax) (hf : s.tasks p = some f) {v : Via}
    (hx : f.ref s.kernel.root v = some x) : s.reach x = some (s.made ⟨p, v⟩) :=
  hs.sound ⟨p, v⟩ x (ref_iff.2 ⟨hp, f, hf, hx⟩)

theorem Sys.Inv.setFiles (hs : s.Inv) {g : Option Files} {made : Holder → Target}
    (hother : ∀ h, h.task ≠ p → made h = s.made h)
    (hnew : ∀ f v x, g = some f → f.ref s.kernel.root v = some x →
      s.reach x = some (made ⟨p, v⟩))
    (hcwd : (made ⟨p, .cwd⟩).IsDir) : (s.setFiles p g made).Inv := by
  constructor
  · intro h x hx
    obtain ⟨hlt, f, hf, hfx⟩ := ref_iff.1 hx
    change update s.tasks p g h.task = some f at hf
    change s.reach x = some (made h)
    by_cases hh : h.task = p
    · rw [hh, update_self] at hf
      obtain ⟨q, v⟩ := h
      obtain rfl : q = p := hh
      exact hnew f v x hf hfx
    · rw [update_of_ne hh] at hf
      rw [hother h hh]
      exact hs.sound h x (ref_iff.2 ⟨hlt, f, hf, hfx⟩)
  · intro q
    by_cases hq : q = p
    · rw [hq]
      exact hcwd
    · change (made ⟨q, .cwd⟩).IsDir
      rw [hother _ hq]
      exact hs.cwd q

theorem Sys.Inv.setRef (hs : s.Inv) (hp : p < taskMax) (hf : s.tasks p = some f) {g : Files}
    {w : Via} {t : Target}
    (hold : ∀ v x, v ≠ w → g.ref s.kernel.root v = some x → f.ref s.kernel.root v = some x)
    (hnew : ∀ x, g.ref s.kernel.root w = some x → s.reach x = some t)
    (hcwd : w = .cwd → t.IsDir) :
    (s.setFiles p (some g) (update s.made ⟨p, w⟩ t)).Inv := by
  refine hs.setFiles (fun h hh => ?_) ?_ ?_
  · exact update_of_ne (fun he => hh (by rw [he])) _ _
  · intro g' v x hg hx
    cases hg
    by_cases hv : v = w
    · subst hv
      rw [update_self]
      exact hnew x hx
    · rw [update_of_ne (fun he => hv (by cases he; rfl))]
      exact hs.own hp hf (hold v x hv hx)
  · by_cases hw : w = .cwd
    · subst hw
      rw [update_self]
      exact hcwd rfl
    · rw [update_of_ne (fun he => hw (by cases he; rfl))]
      exact hs.cwd p

theorem Sys.Inv.drop (hs : s.Inv) (hp : p < taskMax) (hf : s.tasks p = some f) {g : Files}
    (hold : ∀ v x, g.ref s.kernel.root v = some x → f.ref s.kernel.root v = some x) :
    (s.setFiles p (some g) s.made).Inv := by
  refine hs.setFiles (fun _ _ => rfl) (fun g' v x hg hx => ?_) (hs.cwd p)
  cases hg
  exact hs.own hp hf (hold v x hx)

/-! ## Slots that stay -/

/-- Slot `i` is used as before, and by the same entry. -/
structure Kept (old new : FsSuper) (i : Nat) : Prop where
  live : new.Live i ↔ old.Live i
  name : old.Live i → (new.files i).name = (old.files i).name
  type : old.Live i → (new.files i).type = (old.files i).type
  parentDir : old.Live i → (new.files i).parentDir = (old.files i).parentDir

theorem Kept.refl (sup : FsSuper) (i : Nat) : Kept sup sup i :=
  ⟨Iff.rfl, fun _ => rfl, fun _ => rfl, fun _ => rfl⟩

theorem Kept.setFile_ne {sup : FsSuper} {e : FsEntry} {j : Nat} (h : i ≠ j) :
    Kept sup (sup.setFile j e) i := by
  have hfile := sup.setFile_ne e h
  refine ⟨?_, fun _ => by rw [hfile], fun _ => by rw [hfile], fun _ => by rw [hfile]⟩
  unfold FsSuper.Live
  rw [FsSuper.setFile_fileCount, hfile]

theorem Kept.adds {sup sup' : FsSuper} {e : FsEntry} {j : Nat} (ha : sup.Adds j e sup')
    (h : i ≠ j) : Kept sup sup' i := by
  have hfile : sup'.files i = sup.files i := by rw [ha.files, update_of_ne h]
  refine ⟨?_, fun _ => by rw [hfile], fun _ => by rw [hfile], fun _ => by rw [hfile]⟩
  unfold FsSuper.Live
  rw [ha.count, hfile]
  simp [h]

theorem reach_setKernel {k : Kernel}
    (hk : ∀ r i, x = .slot (some r) i → Kept (s.kernel.insts r).super (k.insts r).super i) :
    (s.setKernel k).reach x = s.reach x := by
  cases x with
  | root inst => rfl
  | slot inst i =>
    cases inst with
    | none => rfl
    | some r =>
      have hkept := hk r i rfl
      by_cases hl : (s.kernel.insts r).super.Live i
      · have hl' : (k.insts r).super.Live i := hkept.live.2 hl
        refine (if_pos hl').trans (Eq.trans ?_ (if_pos hl).symm)
        simp only [Sys.setKernel, Sys.entryAt, hkept.name hl, hkept.type hl, hkept.parentDir hl]
        rw [if_neg fun hc => hc.2 hl]
      · have hl' : ¬ (k.insts r).super.Live i := fun hc => hl (hkept.live.1 hc)
        exact (if_neg hl').trans (if_neg hl).symm

theorem Sys.Inv.setKernel (hs : s.Inv) {k : Kernel} (hroot : k.root = s.kernel.root)
    (hk : ∀ h r i, s.ref h = some (.slot (some r) i) →
      Kept (s.kernel.insts r).super (k.insts r).super i) : (s.setKernel k).Inv := by
  refine ⟨fun h x hx => ?_, hs.cwd⟩
  have hx : s.ref h = some x := by
    rw [ref_iff] at hx ⊢
    change h.task < taskMax ∧ ∃ f, s.tasks h.task = some f ∧ f.ref k.root h.via = some x at hx
    rw [hroot] at hx
    exact hx
  rw [reach_setKernel fun r i he => hk h r i (by rw [← he]; exact hx)]
  exact hs.sound h x hx

theorem Sys.Inv.setInst (hs : s.Inv) {inst : FsInstance}
    (hk : ∀ h i, s.ref h = some (.slot (some r) i) →
      Kept (s.kernel.insts r).super inst.super i) :
    (s.setKernel (s.kernel.setInst r inst)).Inv := by
  refine hs.setKernel rfl fun h q i hx => ?_
  by_cases hq : q = r
  · subst hq
    have hinst : (s.kernel.setInst q inst).insts q = inst := update_self ..
    rw [hinst]
    exact hk h i hx
  · have hinst : (s.kernel.setInst r inst).insts q = s.kernel.insts q := update_of_ne hq ..
    rw [hinst]
    exact .refl _ _

end Inv

/-! ## What calls do to slots -/

section Tables
variable {env : Env} {inst : FsInstance} {isRoot : Bool} {t : Task} {path rel : CStr}

theorem fsUnlink_super (env : Env) (inst : FsInstance) (t : Task) (refs : Nat → Nat)
    (path : CStr) :
    (fsUnlink env inst t refs path).2.super = inst.super ∨
    ∃ i, fsIopenInst inst t path true = some i ∧ (inst.super.files i).type = .file ∧
      0 < fsCheckPerm inst t i fsPermW ∧ refs i = 0 ∧
      (fsUnlink env inst t refs path).2.super = inst.super.setFile i zeroEntry := by
  unfold fsUnlink
  split
  · exact .inl rfl
  split
  · exact .inl rfl
  rename_i i hopen
  dsimp only
  split
  · exact .inl rfl
  rename_i ht
  split
  · exact .inl rfl
  split
  · exact .inl rfl
  refine .inr ⟨i, hopen, by simpa using ht, by omega, by omega, ?_⟩
  rw [fsWriteSuperInst_super]
  split
  · rw [(bitmapFreeRun_same ..).super]
  · rfl

theorem fsRmdir_super (env : Env) (inst : FsInstance) (t : Task) (path : CStr) :
    (fsRmdir env inst t path).2.super = inst.super ∨
    ∃ i, fsIopenInst inst t path true = some i ∧ (inst.super.files i).type = .dir ∧
      0 < fsCheckPerm inst t i fsPermW ∧ hasChild inst.super i = false ∧
      (fsRmdir env inst t path).2.super = inst.super.setFile i zeroEntry := by
  unfold fsRmdir
  split
  · exact .inl rfl
  split
  · exact .inl rfl
  rename_i i hopen
  split
  · exact .inl rfl
  rename_i ht
  split
  · exact .inl rfl
  split
  · exact .inl rfl
  rename_i hchild
  refine .inr ⟨i, hopen, by simpa using ht, by omega, by simpa using hchild, ?_⟩
  rw [fsWriteSuperInst_super]

/-- A create leaves a slot as it was, or takes it into use. -/
def Creates (inst : FsInstance) (isRoot : Bool) (t : Task) (rel : CStr) (sup : FsSuper) : Prop :=
  ∀ i, Kept inst.super sup i ∨ (Takes inst isRoot t rel i ∧ ¬ inst.super.Live i)

theorem Creates.refl (inst : FsInstance) (isRoot : Bool) (t : Task) (rel : CStr) :
    Creates inst isRoot t rel inst.super := fun _ => .inl (.refl _ _)

theorem Creates.adds {parent : UInt8} {base : CStr} {i : Nat} {e : FsEntry} {sup₀ sup : FsSuper}
    (hsp : splitPathInst inst isRoot t rel true = some (parent, base))
    (hnew : findInDirInst inst.super parent base = none)
    (hal : allocSlotInst inst.super = some (i, sup₀)) (ha : inst.super.Adds i e sup) :
    Creates inst isRoot t rel sup := by
  intro j
  by_cases hj : j = i
  · subst hj
    exact .inr ⟨⟨parent, base, hsp, hnew, by rw [hal]; rfl⟩, ha.fresh⟩
  · exact .inl (.adds ha hj)

theorem mkdir_creates (env : Env) (inst : FsInstance) (isRoot : Bool) (t : Task) (rel : CStr) :
    Creates inst isRoot t rel (fsImkdirInst env inst isRoot t rel true).2.super := by
  rcases fsImkdirInst_ends env inst isRoot t rel true with
    heq | ⟨parent, base, i, sup, disk, -, hsp, hnew, hal, heq, -⟩
  · rw [heq]
    exact .refl _ _ _ _
  · rw [heq]
    exact .adds hsp hnew hal (allocSlotInst_adds hal).setFile

theorem findOrCreateFileInst_creates {i : Nat} {sup : FsSuper} (hi : inst.initialized = true)
    (h : findOrCreateFileInst inst isRoot t rel true = some (i, sup)) :
    Creates inst isRoot t rel sup := by
  rcases findOrCreateFileInst_cases h with ⟨-, -, rfl⟩ | ⟨parent, base, hopen, hsp, ha⟩
  · exact .refl _ _ _ _
  · have hnew := splitPathInst_absent hi (.inr rfl) hsp hopen
    unfold findOrCreateFileInst at h
    simp only [hopen, hsp] at h
    split at h
    · cases h
    · rename_i k sup₀ hal
      cases h
      exact .adds hsp hnew hal ha

theorem Creates.shape {sup sup' : FsSuper} (h : Creates inst isRoot t rel sup)
    (hs : SameShape sup sup') : Creates inst isRoot t rel sup' := by
  intro i
  rcases h i with hk | ht
  · left
    exact
      { live := (hs.live_iff i).trans hk.live
        name := fun hl => (hs.name i).trans (hk.name hl)
        type := fun hl => (hs.type i).trans (hk.type hl)
        parentDir := fun hl => (hs.parentDir i).trans (hk.parentDir hl) }
  · exact .inr ht

theorem write_creates (env : Env) (inst : FsInstance) (isRoot : Bool) (t : Task) (rel : CStr)
    (data : Nat → UInt8) (size : UInt32) :
    Creates inst isRoot t rel (fsIwriteAllInst env inst isRoot t rel data size true).2.super := by
  unfold fsIwriteAllInst
  split
  · exact .refl _ _ _ _
  rename_i hi
  split
  · exact .refl _ _ _ _
  rename_i i sup hfc
  have hfound := findOrCreateFileInst_creates (by simpa using hi) hfc
  dsimp only
  split
  · exact hfound
  rename_i start a halloc
  have ha := (bitmapAllocRun_same halloc).super
  split
  · rw [(bitmapFreeRun_same ..).super, ha]
    exact hfound
  · rw [fsWriteSuperInst_super, bitmapFreeRun_if_super, ha]
    exact hfound.shape (.setExtent ..)

/-- A create through the VFS changes no filesystem, or takes a slot of the one that serves the
path. -/
def VfsCreates (k : Kernel) (t : Task) (path : CStr) (k' : Kernel) : Prop :=
  k' = k ∨ ∃ fsData rel r inst, dispatch k path = some (.advent fsData, rel) ∧
    (fsData <|> k.root) = some r ∧ k' = k.setInst r inst ∧
      Creates (k.insts r) (k.root == some r) t rel inst.super

theorem vfsMkdir_creates (env : VfsEnv) (k : Kernel) (t : Task) (path : CStr) :
    VfsCreates k t path (vfsMkdir env k t path).2 := by
  unfold vfsMkdir
  split
  · exact .inl rfl
  rename_i x hx
  obtain ⟨ops, rel⟩ := x
  cases ops with
  | procfs => exact .inl rfl
  | v9p => exact .inl rfl
  | advent fsData =>
    dsimp only [opsMkdir]
    split
    · exact .inl rfl
    · rename_i r hr
      exact .inr ⟨fsData, rel, r, _, hx, hr, rfl, mkdir_creates _ _ _ _ _⟩

theorem opsWriteAll_creates (env : VfsEnv) {k : Kernel} (t : Task) {ops : FsOps}
    (hx : dispatch k path = some (ops, rel)) (data : Nat → UInt8) (n : UInt32) :
    VfsCreates k t path (opsWriteAll env k t ops rel data n).2 := by
  cases ops with
  | procfs => exact .inl rfl
  | v9p => exact .inl rfl
  | advent fsData =>
    dsimp only [opsWriteAll]
    split
    · exact .inl rfl
    · rename_i r hr
      exact .inr ⟨fsData, rel, r, _, hx, hr, rfl, write_creates _ _ _ _ _ _ _⟩

theorem vfsWriteAll_creates (env : VfsEnv) (k : Kernel) (t : Task) (path : CStr)
    (data : Nat → UInt8) (n : UInt32) :
    VfsCreates k t path (vfsWriteAll env k t path data n).2 := by
  unfold vfsWriteAll
  split
  · rename_i habs
    split
    · exact .inl rfl
    · rename_i m hm
      refine opsWriteAll_creates env t ?_ data n
      unfold dispatch
      rw [if_pos habs, hm]
      rfl
  · rename_i habs
    split
    · exact .inl rfl
    · rename_i m rel hm
      refine opsWriteAll_creates env t ?_ data n
      unfold dispatch
      rw [if_neg habs, hm]
      rfl

end Tables

/-! ## Steps -/

section Steps
variable {s : Sys} {p n i r : Nat} {f : Files} {x : Ref}

variable {path : CStr} {k : Kernel} {elsewhere : Bool} {upath : Nat → UInt8}

theorem Sys.Inv.create (hs : s.Inv) {t : Task}
    (hk : VfsCreates s.kernel t path k) (hfree : s.RootFree t path) : (s.setKernel k).Inv := by
  rcases hk with rfl | ⟨fsData, rel, r, inst, hx, hr, rfl, hc⟩
  · exact hs.setKernel rfl fun _ _ _ _ => .refl _ _
  · refine hs.setInst fun h i hi => ?_
    rcases hc i with hkept | ⟨htakes, hfresh⟩
    · exact hkept
    -- a reference to a slot not in use is one to the root directory
    have hreach := hs.sound h _ hi
    simp only [Sys.reach, if_neg hfresh] at hreach
    split at hreach
    · rename_i h255
      subst h255
      exact absurd hi (hfree fsData rel r hx hr htakes h)
    · cases hreach

theorem fsEntryOpenRefs_pos (hp : p < taskMax) (hn : n < taskMaxFds)
    (h : s.openOn i p n = true) : s.fsEntryOpenRefs i ≠ 0 := by
  refine Nat.ne_of_gt (List.length_pos_of_mem (a := n) ?_)
  exact List.mem_flatMap.2 ⟨p, List.mem_range.2 hp, List.mem_filter.2 ⟨List.mem_range.2 hn, h⟩⟩

theorem Sys.Inv.unreferenced (hs : s.Inv) (hlive : (s.kernel.insts r).super.Live i)
    (ht : ((s.kernel.insts r).super.files i).type = .file) (hrefs : s.fsEntryOpenRefs i = 0)
    (hmaps : ∀ q n, s.ref ⟨q, .mmap n⟩ ≠ some (.slot (some r) i)) (h : Holder) :
    s.ref h ≠ some (.slot (some r) i) := by
  intro hx
  obtain ⟨q, v⟩ := h
  cases v with
  | mmap n => exact hmaps q n hx
  | fd n =>
    obtain ⟨hq, f, hf, hfx⟩ := ref_iff.1 hx
    obtain ⟨hn, j, fsData, hfd, hj⟩ := fd_ref_iff.1 hfx
    obtain ⟨-, rfl⟩ := Ref.slot.inj hj
    refine fsEntryOpenRefs_pos hq hn ?_ hrefs
    simp [Sys.openOn, hf, hfd]
  | cwd =>
    have hreach := hs.sound _ _ hx
    simp only [Sys.reach, if_pos hlive, Option.some.injEq] at hreach
    have hdir := hs.cwd q
    rw [← hreach] at hdir
    change ((s.kernel.insts r).super.files i).type = .dir at hdir
    rw [ht] at hdir
    cases hdir

/-- What a path names: the root directory of an instance, or an entry that exists. -/
theorem vfsOpen_found {t : Task} {found : Found}
    {inst : Option Nat} (h : vfsOpen k t elsewhere path = some (.fs found inst)) :
    (inst <|> k.root) = inst ∧ (found = .dirRoot ∨
      ∃ r i, inst = some r ∧ found = .entry i ∧ (k.insts r).super.Live i) := by
  have hops : ∀ ops rel, opsOpen k t elsewhere ops rel = some (.fs found inst) →
      (inst <|> k.root) = inst ∧ (found = .dirRoot ∨
        ∃ r i, inst = some r ∧ found = .entry i ∧ (k.insts r).super.Live i) := by
    intro ops rel hopen
    cases ops with
    | procfs =>
      unfold opsOpen at hopen
      dsimp only at hopen
      split at hopen <;> cases hopen
    | v9p =>
      unfold opsOpen at hopen
      dsimp only at hopen
      split at hopen <;> cases hopen
    | advent fsData =>
      unfold opsOpen rootfsOpen at hopen
      dsimp only at hopen
      have hroot : ((fsData <|> k.root) <|> k.root) = (fsData <|> k.root) := by
        cases fsData <;> cases k.root <;> rfl
      split at hopen
      · cases hopen
        exact ⟨hroot, .inl rfl⟩
      · split at hopen
        · cases hopen
        · rename_i r hr
          obtain ⟨i, hi, heq⟩ := map_eq_some_iff.1 hopen
          cases heq
          exact ⟨hroot, .inr ⟨r, i, hr, rfl, (fsIopenInst_live hi).2⟩⟩
  unfold vfsOpen at h
  split at h
  · obtain ⟨m, -, hm⟩ := bind_eq_some_iff.1 h
    exact hops _ _ hm
  · obtain ⟨m, -, hm⟩ := bind_eq_some_iff.1 h
    exact hops _ _ hm

theorem sysOpen_spec {ino : Inode}
    (h : sysOpen k f elsewhere path = some (n, ino)) : allocFd f = some n ∧
      (ino = .other ∨ (isTtyAcm path = false ∧ vfsOpen k f.cred elsewhere path = some ino ∧
        readDenied k f.cred ino = false)) := by
  unfold sysOpen at h
  split at h
  · cases h
  rename_i m hm
  have helse : (if elsewhere then some (m, Inode.other) else none) = some (n, ino) →
      m = n ∧ ino = .other := by
    intro he
    split at he
    · cases he
      exact ⟨rfl, rfl⟩
    · cases he
  split at h
  · obtain ⟨rfl, rfl⟩ := helse h
    exact ⟨hm, .inl rfl⟩
  rename_i htty
  split at h
  · rename_i ino' hopen
    split at h
    · cases h
    · rename_i hdenied
      cases h
      exact ⟨hm, .inr ⟨by simpa using htty, hopen, by simpa using hdenied⟩⟩
  · obtain ⟨rfl, rfl⟩ := helse h
    exact ⟨hm, .inl rfl⟩

theorem Sys.Inv.opens (hs : s.Inv) (hp : p < taskMax) (hf : s.tasks p = some f)
    {uname : Nat → UInt8} (hc : s.Cond (.opens p uname elsewhere)) :
    (s.perform p f (.opens p uname elsewhere)).Inv := by
  unfold Sys.perform
  dsimp only
  split
  · exact hs
  rename_i y hy
  obtain ⟨n, ino⟩ := y
  obtain ⟨hn, hino⟩ := sysOpen_spec hy
  refine hs.setRef hp hf ?_ ?_ (by intro hw; cases hw)
  · intro v x hv hx
    rw [← setFd_ref_ne hv]
    exact hx
  intro x hx
  obtain ⟨-, i, fsData, hfd, rfl⟩ := setFd_ref_self hx
  cases ino with
  | other => cases hfd
  | fs found inst =>
    cases hfd
    obtain ⟨htty, hopen, hread⟩ := hino.resolve_left (by intro he; cases he)
    obtain ⟨hroot, hfound⟩ := vfsOpen_found hopen
    rw [hroot]
    rcases hfound with rfl | ⟨r, i, rfl, rfl, hlive⟩
    · cases fsData with
      | none => rfl
      | some r =>
        have hfree := hc f r hf (by rw [hn]; simp) htty hopen hread
        refine (if_neg hfree).trans (if_pos rfl)
    · exact if_pos hlive

theorem Sys.Inv.chdir (hs : s.Inv) (hp : p < taskMax) (hf : s.tasks p = some f)
    (hc : s.Cond (.chdir p upath)) :
    (s.perform p f (.chdir p upath)).Inv := by
  unfold Sys.perform
  dsimp only
  split
  · exact hs
  rename_i found hfound
  unfold chdirTo at hfound
  have hold : ∀ v x, v ≠ Via.cwd →
      (f.setCwd (UInt8.ofNat found.objIdx)).ref s.kernel.root v = some x →
        f.ref s.kernel.root v = some x := by
    intro v x hv hx
    rw [← setCwd_ref_ne hv]
    exact hx
  split at hfound
  · cases hfound
    refine hs.setRef hp hf hold ?_ fun _ => trivial
    intro x hx
    cases hx
    rfl
  rename_i hpath
  split at hfound
  · cases hfound
  rename_i r hr
  split at hfound
  · cases hfound
  rename_i i hopen
  split at hfound
  · rename_i hdir
    cases hfound
    have hne := hc f r i hf hpath hr hopen hdir
    have hlive : (s.kernel.insts r).super.Live i := by
      unfold Kernel.fsOpen at hopen
      rw [hr] at hopen
      exact (fsIopenInst_live hopen).2
    have hlt : i < 256 := Nat.lt_of_lt_of_le hlive.1 (s.kernel.insts r).super.count_le
    have hto : (UInt8.ofNat i).toNat = i := UInt8.toNat_ofNat_of_lt' hlt
    refine hs.setRef hp hf hold ?_ fun _ => ?_
    · intro x hx
      have hcwd : UInt8.ofNat i ≠ fsDirRoot := by
        intro he
        apply hne
        rw [← hto, he]
      simp only [Files.ref, Files.setCwd, Found.objIdx, if_neg hcwd, hto, Option.some.injEq] at hx
      rw [← hx, hr]
      exact if_pos hlive
    · rw [hr]
      exact hdir
  · cases hfound

theorem Sys.Inv.mmap (hs : s.Inv) (hp : p < taskMax) (hf : s.tasks p = some f) {off len : Nat}
    (hc : s.Cond (.mmap p n off len)) : (s.perform p f (.mmap p n off len)).Inv := by
  unfold Sys.perform
  dsimp only
  split
  · exact hs
  rename_i y hy
  obtain ⟨i, fsData⟩ := y
  split
  · exact hs
  rename_i slot hslot
  have hfd : f.ref s.kernel.root (.fd n) = some (.slot (fsData <|> s.kernel.root) i) := by
    unfold mapped at hy
    split at hy
    · rename_i hn
      split at hy
      · rename_i hfd
        cases hy
        exact fd_ref_iff.2 ⟨hn, _, _, hfd, rfl⟩
      · cases hy
    · cases hy
  refine hs.setRef hp hf ?_ ?_ (by intro hw; cases hw)
  · intro v x hv hx
    rcases mmap_ref hslot hx with ⟨-, hx⟩ | ⟨he, -⟩
    · exact hx
    · exact absurd he hv
  · intro x hx
    rcases mmap_ref hslot hx with ⟨he, -⟩ | ⟨-, rfl, hlen, hmax⟩
    · exact absurd rfl he
    · have hroot := hc f i fsData hf hy
      have hslot : AdventOS.Kernel.Mmap.freeSlot f.mm ≠ none := by
        rw [hslot]
        simp
      have hroot := ((hroot.resolve_left hlen).resolve_left hmax).resolve_left hslot
      rw [hroot] at hfd
      exact hs.own hp hf hfd

theorem Sys.Inv.unlink (hs : s.Inv) (hf : s.tasks p = some f) {env : Env}
    (hc : s.Cond (.unlink env p upath)) : (s.perform p f (.unlink env p upath)).Inv := by
  unfold Sys.perform
  dsimp only
  split
  · exact hs
  rename_i r hr
  split
  · exact hs
  rename_i h9
  refine hs.setInst fun h i hi => ?_
  rcases fsUnlink_super env (s.kernel.insts r) f.cred s.fsEntryOpenRefs (copyPath upath) with
    hsame | ⟨j, hopen, ht, hperm, hrefs, hsup⟩
  · rw [hsame]
    exact .refl _ _
  · rw [hsup]
    refine .setFile_ne ?_
    rintro rfl
    have hmaps := hc f r i hf (by simpa using h9) hr hopen ht hperm hrefs
    exact hs.unreferenced (fsIopenInst_live hopen).2 ht hrefs hmaps h hi

theorem Sys.Inv.rmdir (hs : s.Inv) (hf : s.tasks p = some f) {env : Env}
    (hc : s.Cond (.rmdir env p upath)) : (s.perform p f (.rmdir env p upath)).Inv := by
  unfold Sys.perform
  dsimp only
  split
  · exact hs
  rename_i r hr
  split
  · exact hs
  rename_i h9
  refine hs.setInst fun h i hi => ?_
  rcases fsRmdir_super env (s.kernel.insts r) f.cred (copyPath upath) with
    hsame | ⟨j, hopen, ht, hperm, hchild, hsup⟩
  · rw [hsame]
    exact .refl _ _
  · rw [hsup]
    refine .setFile_ne ?_
    rintro rfl
    exact hc f r i hf (by simpa using h9) hr hopen ht hperm hchild h hi

theorem Sys.Inv.write (hs : s.Inv) (hf : s.tasks p = some f) {env : VfsEnv}
    {uname data : Nat → UInt8} {size : UInt32} (hc : s.Cond (.write env p uname data size)) :
    (s.perform p f (.write env p uname data size)).Inv := by
  unfold Sys.perform
  dsimp only
  by_cases hd : s.kernel.Denies f.cred (copyPath uname)
  · rw [sysFsWrite_denied hd]
    exact hs.setKernel rfl fun _ _ _ _ => .refl _ _
  · rw [sysFsWrite_allowed hd]
    exact hs.create (vfsWriteAll_creates ..) (hc f hf hd)

theorem Sys.Inv.fork (hs : s.Inv) (hp : p < taskMax) (hf : s.tasks p = some f) (q : Nat) :
    (s.perform p f (.fork p q)).Inv := by
  unfold Sys.perform
  dsimp only
  split
  · refine hs.setFiles (fun h hh => if_neg hh) ?_ ?_
    · intro g v x hg hx
      cases hg
      rw [if_pos rfl]
      exact hs.own hp hf hx
    · rw [if_pos rfl]
      exact hs.cwd p
  · exact hs

theorem Sys.Inv.step {s' : Sys} {op : Op} (hs : s.Inv) (hc : s.Cond op)
    (hstep : s.step op = some s') : s'.Inv := by
  unfold Sys.step at hstep
  split at hstep
  on_goal 2 => cases hstep
  rename_i hp
  obtain ⟨f, hf, rfl⟩ := map_eq_some_iff.1 hstep
  cases op with
  | opens p uname elsewhere => exact hs.opens hp hf hc
  | closes p n =>
    unfold Sys.perform
    dsimp only
    split
    · refine hs.drop hp hf fun v x hx => ?_
      by_cases hv : v = .fd n
      · subst hv
        obtain ⟨-, i, fsData, hfd, -⟩ := setFd_ref_self hx
        cases hfd
      · rw [← setFd_ref_ne hv]
        exact hx
    · exact hs
  | dup2 p oldfd newfd =>
    unfold Sys.perform
    dsimp only
    split
    · rename_i hfds
      refine hs.setRef hp hf ?_ ?_ (by intro hw; cases hw)
      · intro v x hv hx
        rw [← setFd_ref_ne hv]
        exact hx
      · intro x hx
        obtain ⟨-, i, fsData, hfd, rfl⟩ := setFd_ref_self hx
        exact hs.own hp hf (fd_ref_iff.2 ⟨hfds.1, i, fsData, hfd, rfl⟩)
    · exact hs
  | mmap p n off len => exact hs.mmap hp hf hc
  | munmap p addr len =>
    unfold Sys.perform
    dsimp only
    split
    · exact hs
    · exact hs.drop hp hf fun v x hx => unmap_ref hx
  | chdir p upath => exact hs.chdir hp hf hc
  | unlink env p upath => exact hs.unlink hf hc
  | rmdir env p upath => exact hs.rmdir hf hc
  | write env p uname data size => exact hs.write hf hc
  | mkdir env p upath => exact hs.create (vfsMkdir_creates ..) (hc f hf)
  | fork p q => exact hs.fork hp hf q
  | exec p => exact hs.drop hp hf fun v x hx => unmapAll_ref hx
  | exit p => exact hs.setFiles (fun _ _ => rfl) (fun g v x hg => by cases hg) (hs.cwd p)

theorem Sys.Start.inv (h : s.Start) : s.Inv := by
  refine ⟨fun h' x hx => ?_, fun p => ?_⟩
  · obtain ⟨-, f, hf, hfx⟩ := ref_iff.1 hx
    obtain ⟨p, v⟩ := h'
    cases v with
    | fd n =>
      obtain ⟨-, i, fsData, hfd, -⟩ := fd_ref_iff.1 hfx
      exact absurd hfd (h.fds p f n hf i fsData)
    | mmap n =>
      obtain ⟨-, hu, -⟩ := mmap_ref_iff.1 hfx
      have hfree := h.mmaps p f n hf
      rw [hu] at hfree
      cases hfree
    | cwd =>
      simp only [Files.ref, if_pos (h.cwd p f hf), Option.some.injEq] at hfx
      rw [← hfx, h.made]
      rfl
  · rw [h.made]
    trivial

end Steps

/-- In every run of calls by any tasks in which a file that is removed is not mapped,
a directory that is removed is not referred to, mappings are of files of the boot instance and slot
255 is not confused with the root directory, every descriptor, every mapping and every current
directory leads to what it was made for: the slot is in use, by the same entry. -/
theorem references_sound {s : Sys} (h : (system.restrict Sys.Cond).Reachable s) : s.Sound := by
  have hind : (system.restrict Sys.Cond).Inductive Sys.Inv :=
    { init := fun _ h => h.inv
      step := fun _ _ _ hs hstep => hs.step hstep.1 hstep.2 }
  exact (hind.reachable s h).sound

/-! ## Two runs -/

/-- The superuser, alone, with the files of `demoKernel`: a directory `d` and a file `f`. -/
def demoFiles : Files where
  cred := ⟨0, 0, fsDirRoot⟩
  maxFds := 0
  fds := fun n => if n < 3 then .other else .free
  mm := ⟨0, fun _ => ⟨false, 0, 0, 0, 0, 0⟩, userMmapStart, 0, 0, 0⟩

def demo : Sys where
  kernel := demoKernel
  tasks := fun p => if p = 0 then some demoFiles else none
  births := fun _ _ => 0
  made := fun _ => .root (some 0)

theorem demo_start : demo.Start := by
  have hf : ∀ p f, demo.tasks p = some f → f = demoFiles := by
    intro p f hp
    change (if p = 0 then some demoFiles else none) = some f at hp
    split at hp
    · cases hp
      rfl
    · cases hp
  constructor
  · intro p f n hp i fsData
    rw [hf p f hp]
    change (if n < 3 then Fd.other else Fd.free) ≠ _
    split <;> simp
  · intro p f n hp
    rw [hf p f hp]
    rfl
  · intro p f hp
    rw [hf p f hp]
    rfl
  · intro p
    rfl

def openF : Op := .opens 0 (userString [slash, 102]) false

def unlinkF : Op := .unlink noFailures 0 (userString [slash, 102])

def opened : Sys := (demo.step openF).getD demo

def kept : Sys := (opened.step unlinkF).getD demo

/-- `open("/f")`, then `unlink("/f")`, which is refused. -/
theorem opened_file_stays : kept.Sound := by
  apply references_sound
  have h0 : (system.restrict Sys.Cond).Reachable demo := .init demo_start
  have h1 : (system.restrict Sys.Cond).Reachable opened := by
    refine h0.step (l := openF) ⟨?_, rfl⟩
    intro f r _ _ _ _ _ hl
    exact absurd (show 255 < 2 from hl.1) (by decide)
  refine h1.step (l := unlinkF) ⟨?_, rfl⟩
  intro f r i hf _ hr hopen _ _ hrefs
  have hfound : fsIopenInst demoInst demoFiles.cred [slash, 102] true = some 1 := by decide
  obtain rfl : 1 = i := by
    cases hf
    cases hr
    exact Option.some.inj (hfound.symm.trans hopen)
  -- the descriptor is counted
  exact absurd hrefs (by decide +kernel)

/-- `open("/f")`, `mmap`, `close`, `unlink("/f")` and a write of `/g`. -/
def remap : List Op :=
  [openF, .mmap 0 3 0 1, .closes 0 3, unlinkF,
    .write ⟨noFailures, 0⟩ 0 (userString [slash, 103]) (fun _ => 7) 1]

/-- The mapping of `f` is one of `g`. -/
theorem mapping_outlives_file : ¬ ∀ s, system.Reachable s → s.Sound := by
  intro hall
  have hrun : (LTS.exec Sys.step demo remap).map (fun s =>
      (s.ref ⟨0, .mmap 0⟩, decide (s.reach (.slot (some 0) 1) = some (s.made ⟨0, .mmap 0⟩)))) =
        some (some (.slot (some 0) 1), false) := by
    decide +kernel
  obtain ⟨s, hs, heq⟩ := map_eq_some_iff.1 hrun
  have hsound := hall s ⟨demo, remap, demo_start, LTS.run_of_exec hs⟩
  have hreach := hsound ⟨0, .mmap 0⟩ _ (congrArg Prod.fst heq)
  have hne := congrArg Prod.snd heq
  simp [hreach] at hne

end AdventOS.Fs.References
