import AdventOS.Fs.AdventFs

/-!
# Mount table and path dispatch

`kernel/vfs.c`: the table of four mounts, the longest-prefix choice of a mount
and the whole-file write through it. A `Kernel` carries the proof that its
table was built by the boot code's own `vfs_mount` calls, so a state in which
the boot disk is also reachable below another mount point cannot be stated.

* `Built.root_iff`: the boot disk's operations are mounted at `/` and nowhere
  else, and no other mount is bound to its instance;
* `vfsWriteAll_root`: whatever the path, a write reaches the boot instance only
  through a relative path that walks to where the whole path walks from `/`.
-/
namespace AdventOS.Fs

/-- The operation tables of the kernel. `advent none` is `g_root_ops`, whose
`fs_data` is NULL and stands for `g_root_inst`; `advent (some i)` is the table
that `fs_make_ops_for` binds to instance `i`. -/
inductive FsOps
  | advent (fsData : Option Nat)
  | procfs
  | v9p
  deriving DecidableEq, Repr

/-- vfs.c:13-18 -/
structure Mount where
  mountPoint : CStr
  ops : FsOps
  deriving DecidableEq, Repr

abbrev MountTable := List (Option Mount)

def vfsMaxMounts : Nat := 4

/-! ## Mounting -/

/-- vfs.c:30-56. The copy of the mount point keeps 15 bytes. -/
def vfsMount (tbl : MountTable) (mountPoint : CStr) (ops : FsOps) : Option MountTable :=
  if tbl.any fun s => s.any (·.mountPoint == mountPoint) then none
  else
    match tbl.findIdx? Option.isNone with
    | none => none
    | some i => some (tbl.set i (some ⟨mountPoint.take 15, ops⟩))

def ascii (s : List Char) : CStr := s.map fun c => UInt8.ofNat c.toNat

/-- The drives that the boot code mounts when it finds them. -/
inductive Drive
  | usb
  | sata
  | scsi
  | nvme

/-- kernel.c:421-424 -/
def Drive.mountPoint : Drive → CStr
  | .usb => ascii ['/', 'm', 'n', 't', '/', 'u', 's', 'b']
  | .sata => ascii ['/', 'm', 'n', 't', '/', 's', 'a', 't', 'a']
  | .scsi => ascii ['/', 'm', 'n', 't', '/', 's', 'c', 's', 'i']
  | .nvme => ascii ['/', 'm', 'n', 't', '/', 'n', 'v', 'm', 'e']

/-- The `vfs_mount` calls of the kernel. -/
inductive BootMount
  | rootfs
  | procfs
  | drive (d : Drive) (inst : Nat)
  | v9p

/-- kernel.c:255-256, 274, 421-424 -/
def BootMount.mountPoint : BootMount → CStr
  | .rootfs => [slash]
  | .procfs => ascii ['/', 'p', 'r', 'o', 'c']
  | .drive d _ => d.mountPoint
  | .v9p => ascii ['/', 'm', 'n', 't', '/', '9', 'p']

def BootMount.ops : BootMount → FsOps
  | .rootfs => .advent none
  | .procfs => .procfs
  | .drive _ i => .advent (some i)
  | .v9p => .v9p

/-- The tables that successful `vfs_mount` calls build. A drive's instance
comes from `fs_create_instance`, which takes a slot not in use, so it is never
the boot disk's. -/
inductive Built (root : Option Nat) : MountTable → Prop
  | init : Built root (List.replicate vfsMaxMounts none)
  | mount {tbl tbl' : MountTable} (b : BootMount) : Built root tbl →
      (∀ i, b.ops = .advent (some i) → root ≠ some i) →
      vfsMount tbl b.mountPoint b.ops = some tbl' → Built root tbl'

/-- What a table built at boot says about a mount. -/
structure Mount.Boot (root : Option Nat) (m : Mount) : Prop where
  slash_iff : m.mountPoint = [slash] ↔ m.ops = .advent none
  not_root : ∀ i, m.ops = .advent (some i) → root ≠ some i

theorem BootMount.boot (b : BootMount) {root : Option Nat}
    (h : ∀ i, b.ops = .advent (some i) → root ≠ some i) :
    Mount.Boot root ⟨b.mountPoint.take 15, b.ops⟩ := by
  refine ⟨?_, h⟩
  cases b with
  | rootfs => decide
  | procfs => decide
  | drive d i => cases d <;> simp [BootMount.mountPoint, BootMount.ops, Drive.mountPoint, ascii]
  | v9p => decide

variable {tbl : MountTable} {rel : CStr} {k : Kernel} {r : Nat}

theorem Built.root_iff {root : Option Nat} (h : Built root tbl) :
    ∀ m, some m ∈ tbl → m.Boot root := by
  induction h with
  | init => intro m hm; simp [vfsMaxMounts] at hm
  | mount b _ hb hmount ih =>
    intro m hm
    unfold vfsMount at hmount
    split at hmount
    · cases hmount
    split at hmount
    · cases hmount
    · cases hmount
      rcases List.mem_or_eq_of_mem_set hm with hm | hm
      · exact ih m hm
      · cases hm
        exact b.boot hb

/-! ## Dispatch -/

/-- vfs.c:61-68 -/
def findRootfs (tbl : MountTable) : Option Mount :=
  tbl.findSome? fun s => s.filter (·.mountPoint == [slash])

/-- One turn of the scan in `resolve`. vfs.c:80-90 -/
def better (path : CStr) (best : Option Mount × Nat) (slot : Option Mount) : Option Mount × Nat :=
  match slot with
  | none => best
  | some m =>
    let mlen := m.mountPoint.length
    if mlen ≤ best.2 then best
    else if !m.mountPoint.isPrefixOf path then best
    else
      match path.drop mlen with
      | [] => (some m, mlen)
      | follow :: _ => if follow = slash then (some m, mlen) else best

/-- `if (*rel == '/') rel++`. -/
def stripSlash : CStr → CStr
  | [] => []
  | c :: rest => if c = slash then rest else c :: rest

/-- vfs.c:74-100, on an absolute path. -/
def resolve (tbl : MountTable) (path : CStr) : Option (Mount × CStr) :=
  let best := tbl.foldl (better path) (findRootfs tbl, 1)
  match best.1 with
  | none => none
  | some m => some (m, stripSlash (path.drop best.2))

/-- The filesystem state of the kernel. -/
structure Kernel where
  insts : Nat → FsInstance
  root : Option Nat
  mounts : MountTable
  built : Built root mounts

/-- `v9pRc` is what the host answers when the path is on the 9p share. -/
structure VfsEnv extends Env where
  v9pRc : Int

def Kernel.setInst (k : Kernel) (i : Nat) (inst : FsInstance) : Kernel :=
  { k with insts := Function.update k.insts i inst }

/-- The `write_all` slot of an operation table. fs.c:812-817 for
AdventFS; procfs has none. -/
def opsWriteAll (env : VfsEnv) (k : Kernel) (t : Task) (ops : FsOps) (rel : CStr)
    (data : Nat → UInt8) (n : UInt32) : Int × Kernel :=
  match ops with
  | .procfs => (-1, k)
  | .v9p => (env.v9pRc, k)
  | .advent fsData =>
    match fsData <|> k.root with
    | none => (-1, k)
    | some i =>
      let (rc, inst) := fsIwriteAllInst env.toEnv (k.insts i) (k.root == some i) t rel data n true
      (rc, k.setInst i inst)

/-- vfs.c:202-215 -/
def vfsWriteAll (env : VfsEnv) (k : Kernel) (t : Task) (path : CStr) (data : Nat → UInt8)
    (n : UInt32) : Int × Kernel :=
  if path.head? ≠ some slash then
    match findRootfs k.mounts with
    | none => (-1, k)
    | some r => opsWriteAll env k t r.ops path data n
  else
    match resolve k.mounts path with
    | none => (-1, k)
    | some (m, rel) => opsWriteAll env k t m.ops rel data n

theorem findRootfs_spec {m : Mount} (h : findRootfs tbl = some m) :
    some m ∈ tbl ∧ m.mountPoint = [slash] := by
  obtain ⟨s, hs, hm⟩ := List.exists_of_findSome?_eq_some h
  simp only [Option.filter_eq_some_iff, beq_iff_eq] at hm
  obtain ⟨rfl, hp⟩ := hm
  exact ⟨hs, hp⟩

/-- The scan keeps the mount at `/` with length 1, or has moved on to a mount
of the table whose point is longer. -/
def BestOk (tbl : MountTable) (best : Option Mount × Nat) : Prop :=
  best = (findRootfs tbl, 1) ∨
    ∃ m, best = (some m, m.mountPoint.length) ∧ some m ∈ tbl ∧ 1 < m.mountPoint.length

theorem better_ok (path : CStr) {best : Option Mount × Nat}
    {slot : Option Mount} (hb : BestOk tbl best) (hs : slot ∈ tbl) :
    BestOk tbl (better path best slot) := by
  have hlen : 1 ≤ best.2 := by
    obtain rfl | ⟨m, rfl, -, h⟩ := hb
    · exact le_refl 1
    · exact le_of_lt h
  unfold better
  split
  · exact hb
  rename_i m
  simp only
  split
  · exact hb
  have hm : BestOk tbl (some m, m.mountPoint.length) := .inr ⟨m, rfl, hs, by omega⟩
  split
  · exact hb
  split
  · exact hm
  · split
    · exact hm
    · exact hb

theorem foldl_better_ok (tbl : MountTable) (path : CStr) (l : List (Option Mount)) :
    ∀ best, BestOk tbl best → (∀ s ∈ l, s ∈ tbl) → BestOk tbl (l.foldl (better path) best) := by
  induction l with
  | nil => intro best hb _; exact hb
  | cons s l ih =>
    intro best hb hl
    exact ih _ (better_ok path hb (hl s (by simp))) fun s' hs' => hl s' (by simp [hs'])

/-- The mount chosen is the one at `/`, with the path less its slash, or one
whose point is longer than `/`. -/
theorem resolve_cases {path : CStr} {m : Mount} (h : resolve tbl path = some (m, rel)) :
    some m ∈ tbl ∧ (rel = stripSlash (path.drop 1) ∨ m.mountPoint ≠ [slash]) := by
  unfold resolve at h
  have hok := foldl_better_ok tbl path tbl _ (.inl rfl) fun s hs => hs
  simp only at h
  split at h
  · cases h
  · rename_i m' hm'
    obtain ⟨rfl, rfl⟩ := h
    obtain he | ⟨b, he, hmem, hlt⟩ := hok
    · rw [he] at hm' ⊢
      exact ⟨(findRootfs_spec hm').1, .inl rfl⟩
    · rw [he] at hm'
      cases hm'
      refine ⟨hmem, .inr fun hp => ?_⟩
      simp [hp] at hlt

theorem walk_stripSlash (sup : FsSuper) (parent : UInt8) (last : Option Nat) (path : CStr) :
    walk sup parent last [] (stripSlash path) = walk sup parent last [] path := by
  cases path with
  | nil => rfl
  | cons c rest =>
    by_cases hc : c = slash
    · subst hc
      simp [stripSlash]
    · simp [stripSlash, hc]

theorem opsWriteAll_other {env : VfsEnv} {t : Task} {ops : FsOps}
    {data : Nat → UInt8} {n : UInt32} (hr : k.root = some r) (h0 : ops ≠ .advent none)
    (hi : ∀ i, ops = .advent (some i) → k.root ≠ some i) :
    (opsWriteAll env k t ops rel data n).2.insts r = k.insts r := by
  cases ops with
  | procfs => rfl
  | v9p => rfl
  | advent fsData =>
    cases fsData with
    | none => exact absurd rfl h0
    | some i =>
      have hne : r ≠ i := by
        intro he; subst he; exact hi r rfl hr
      simp [opsWriteAll, Kernel.setInst, hne]

theorem opsWriteAll_root {env : VfsEnv} {t : Task}
    {data : Nat → UInt8} {n : UInt32} (hr : k.root = some r) :
    (opsWriteAll env k t (.advent none) rel data n).2.insts r =
      (fsIwriteAllInst env.toEnv (k.insts r) true t rel data n true).2 := by
  simp [opsWriteAll, Kernel.setInst, hr]

/-- Whatever the path, a write leaves the boot instance alone or is a write to
it of a relative path that walks, from the root, to where the path does. -/
theorem vfsWriteAll_root (hr : k.root = some r) (env : VfsEnv) (t : Task)
    (path : CStr) (data : Nat → UInt8) (n : UInt32) :
    (vfsWriteAll env k t path data n).2.insts r = k.insts r ∨
    ∃ rel, (vfsWriteAll env k t path data n).2.insts r =
        (fsIwriteAllInst env.toEnv (k.insts r) true t rel data n true).2 ∧
      ∀ sup, walk sup fsDirRoot none [] rel = walk sup fsDirRoot none [] path := by
  unfold vfsWriteAll
  split
  · split
    · exact .inl rfl
    · rename_i m hm
      obtain ⟨hmem, hp⟩ := findRootfs_spec hm
      have hops := (k.built.root_iff m hmem).slash_iff.1 hp
      rw [hops, opsWriteAll_root hr]
      exact .inr ⟨path, rfl, fun sup => rfl⟩
  · rename_i habs
    split
    · exact .inl rfl
    · rename_i m rel hres
      obtain ⟨hmem, hcase⟩ := resolve_cases hres
      have hboot := k.built.root_iff m hmem
      by_cases h0 : m.ops = .advent none
      · right
        have hp := hboot.slash_iff.2 h0
        have hrel : rel = stripSlash (path.drop 1) := hcase.resolve_right (absurd hp)
        refine ⟨rel, by rw [h0, opsWriteAll_root hr], fun sup => ?_⟩
        rw [hrel, walk_stripSlash]
        cases path with
        | nil => rfl
        | cons c rest =>
          have hc : c = slash := by simpa using habs
          subst hc
          simp
      · exact .inl (opsWriteAll_other hr h0 hboot.not_root)

end AdventOS.Fs
