import AdventOS.Fs.Extents
import AdventOS.Kernel.AddressSpace

/-!
# Loading an executable (`kernel/elf.c`, `kernel/dyld.c`)

`elf_load` maps the `PT_LOAD` segments, libc and a stack into a new directory. It checks
neither that `vaddr + memsz` stays below 4 GiB, nor that a page is mapped already, nor that a
page table belongs to the kernel.

* `elfLoad`: the loader, over any `fs_read`;
* `plan`: the pages it maps for a file, in order, up to where the file makes it stop;
* `elfLoad_meets`;
* `elfLoad_drops_bytes`: two segments that share a page.
-/
namespace AdventOS.Kernel.Elf
open Pmm Paging List

/-! ## The file -/

def userStackVa : Nat := 0x40100000

def userMinVa : Nat := 0x40000000

def libcVa : Nat := 0x70000000

/-- `fs_read(fs_idx, offset, buf, n)`: the bytes it puts into `buf`, and what it returns. -/
abbrev FsRead := Nat → Nat → List UInt8 × Int

def u8 (bs : List UInt8) (o : Nat) : Nat := (bs.getD o 0).toNat

def u16 (bs : List UInt8) (o : Nat) : Nat := u8 bs o + 256 * u8 bs (o + 1)

def u32 (bs : List UInt8) (o : Nat) : Nat := u16 bs o + 65536 * u16 bs (o + 2)

/-- `struct elf32_ehdr`, the fields that are read. -/
structure Ehdr where
  ident : Nat → Nat
  type : Nat
  machine : Nat
  entry : Nat
  phoff : Nat
  phentsize : Nat
  phnum : Nat

def ehdrSize : Nat := 52

def parseEhdr (bs : List UInt8) : Ehdr where
  ident := u8 bs
  type := u16 bs 16
  machine := u16 bs 18
  entry := u32 bs 24
  phoff := u32 bs 28
  phentsize := u16 bs 42
  phnum := u16 bs 44

/-- `struct elf32_phdr`, the fields that are read. -/
structure Phdr where
  type : Nat
  offset : Nat
  vaddr : Nat
  filesz : Nat
  memsz : Nat
  flags : Nat

def phdrSize : Nat := 32

def parsePhdr (bs : List UInt8) : Phdr where
  type := u32 bs 0
  offset := u32 bs 4
  vaddr := u32 bs 8
  filesz := u32 bs 16
  memsz := u32 bs 20
  flags := u32 bs 24

def ptLoad : Nat := 1

/-- elf.c:12-22 -/
def validateEhdr (h : Ehdr) : Int :=
  if h.ident 0 ≠ 0x7F ∨ h.ident 1 ≠ 69 ∨ h.ident 2 ≠ 76 ∨ h.ident 3 ≠ 70 then -1
  else if h.ident 4 ≠ 1 then -2
  else if h.ident 5 ≠ 1 then -3
  else if h.machine ≠ 3 then -4
  else if h.type ≠ 2 then -5
  else if h.phnum = 0 then -6
  else if h.phentsize < phdrSize then -7
  else 0

/-- elf.c:24, for pages. -/
def alignDown (v : Nat) : Nat := v / 4096 * 4096

/-- elf.c:25, for pages. -/
def alignUp (v : Nat) : Nat := (v + 4095) % 2 ^ 32 / 4096 * 4096

def asInt (n : Nat) : Int := if n < 2 ^ 31 then n else n - 2 ^ 32

/-! ## Segments -/

/-- elf.c:94-102: where to read the bytes of the page at `va` in the file, how
many, and where in the page they go. `none`: the page is past the file's bytes. -/
def fileCopy (ph : Phdr) (va : Nat) : Option (Nat × Nat × Nat) :=
  let fileStart := ph.vaddr
  let fileEnd := (ph.vaddr + ph.filesz) % 2 ^ 32
  let vaNext := (va + 4096) % 2 ^ 32
  if va < fileEnd ∧ vaNext > fileStart then
    let copyVaStart := if va > fileStart then va else fileStart
    let copyVaEnd := if vaNext < fileEnd then vaNext else fileEnd
    let copyLen := (copyVaEnd + 2 ^ 32 - copyVaStart) % 2 ^ 32
    some ((ph.offset + (copyVaStart - ph.vaddr)) % 2 ^ 32, copyLen, copyVaStart - va)
  else none

/-- elf.c:72-73 -/
def pteFlags (ph : Phdr) : Nat := if ph.flags.testBit 1 then pteUser ||| pteWritable else pteUser

/-- The body of the loop in elf.c:75-114; 0 to go on. -/
def loadPage (k : Globals) (rd : FsRead) (ph : Phdr) (pd va : Nat) (σ : Machine) : Machine × Int :=
  match σ.alloc.2 with
  | none => (pagingDestroyUserPd k σ.alloc.1 pd, -104)
  | some page =>
    let r := pagingMapIn (σ.alloc.1.zero page) pd va (page * 4096) (pteFlags ph)
    if r.2 = false then (pagingDestroyUserPd k (r.1.free page) pd, -105)
    else
      match fileCopy ph va with
      | none => (r.1, 0)
      | some c =>
        let out := rd c.1 c.2.1
        let σ := { r.1 with mem := r.1.mem.write page c.2.2 out.1 }
        if out.2 ≠ asInt c.2.1 then (pagingDestroyUserPd k σ pd, -106) else (σ, 0)

/-- The loop in elf.c:75-114 from `va` on: `va < va_end` holds `n` times. -/
def loadPages (k : Globals) (rd : FsRead) (ph : Phdr) (pd : Nat) : (n va : Nat) → Machine →
    Machine × Int
  | 0, _, σ => (σ, 0)
  | n + 1, va, σ =>
    let r := loadPage k rd ph pd va σ
    if r.2 ≠ 0 then r else loadPages k rd ph pd n (va + 4096) r.1

def pageCount (ph : Phdr) : Nat :=
  (alignUp ((ph.vaddr + ph.memsz) % 2 ^ 32) - alignDown ph.vaddr) / 4096

/-- Program header `i`; `none` for a short read. elf.c:46-48 -/
def readPhdr (rd : FsRead) (eh : Ehdr) (i : Nat) : Option Phdr :=
  let out := rd ((eh.phoff + i * eh.phentsize) % 2 ^ 32) phdrSize
  if out.2 ≠ phdrSize then none else some (parsePhdr out.1)

/-- The loop of elf.c:45-115, `n` headers from `i` on. -/
def loadHeaders (k : Globals) (rd : FsRead) (eh : Ehdr) (pd : Nat) : (n i : Nat) → Machine →
    Machine × Int
  | 0, _, σ => (σ, 0)
  | n + 1, i, σ =>
    match readPhdr rd eh i with
    | none => (pagingDestroyUserPd k σ pd, -101)
    | some ph =>
      if ph.type ≠ ptLoad then loadHeaders k rd eh pd n (i + 1) σ
      else if ph.memsz = 0 then loadHeaders k rd eh pd n (i + 1) σ
      else if ph.vaddr < userMinVa then (pagingDestroyUserPd k σ pd, -102)
      else if ph.filesz > ph.memsz then (pagingDestroyUserPd k σ pd, -103)
      else
        let r := loadPages k rd ph pd (pageCount ph) (alignDown ph.vaddr) σ
        if r.2 ≠ 0 then r else loadHeaders k rd eh pd n (i + 1) r.1

/-! ## libc and the stack -/

/-- The image that `dyld_init` has cached: at most a megabyte. -/
structure Image where
  bytes : List UInt8
  size_le : bytes.length ≤ 2 ^ 20

/-- `g_pages` -/
def Image.pages (image : Image) : Nat := (image.bytes.length + 4095) / 4096

/-- The loop of dyld.c:80-99, `n` pages from `i` on. -/
def mapImage (image : Image) (pd : Nat) : (n i : Nat) → Machine → Machine × Bool
  | 0, _, σ => (σ, true)
  | n + 1, i, σ =>
    match σ.alloc.2 with
    | none => (σ.alloc.1, false)
    | some page =>
      let off := i * 4096
      let copy := if off + 4096 > image.bytes.length then image.bytes.length - off else 4096
      let m := σ.alloc.1.mem.write page 0 ((image.bytes.drop off).take copy)
      let m := if copy < 4096 then m.write page copy (List.replicate (4096 - copy) 0) else m
      let r := pagingMapIn { σ.alloc.1 with mem := m } pd (libcVa + off) (page * 4096)
        (pteUser ||| pteWritable)
      if r.2 = false then (r.1.free page, false) else mapImage image pd n (i + 1) r.1

/-- dyld.c:70-101 -/
def dyldMapLibc (libc : Option Image) (pd : Nat) (σ : Machine) : Machine × Bool :=
  match libc with
  | none => (σ, true)
  | some image => mapImage image pd image.pages 0 σ

def userStackPages : Nat := 16

/-- elf.c:145 -/
def stackVaLo : Nat := userStackVa + 4096 - userStackPages * 4096

/-- The loop of elf.c:147-162, `n` pages from `i` on; `top` is `first_stack_page`. -/
def mapStack (k : Globals) (pd : Nat) : (n i top : Nat) → Machine → Machine × Int × Nat
  | 0, _, top, σ => (σ, 0, top)
  | n + 1, i, top, σ =>
    match σ.alloc.2 with
    | none => (pagingDestroyUserPd k σ.alloc.1 pd, -300, top)
    | some p =>
      let r := pagingMapIn (σ.alloc.1.zero p) pd (stackVaLo + i * 4096) (p * 4096)
        (pteUser ||| pteWritable)
      if r.2 = false then (pagingDestroyUserPd k (r.1.free p) pd, -301, top)
      else mapStack k pd n (i + 1) (if i = userStackPages - 1 then p else top) r.1

/-! ## The loader -/

structure ElfLoadResult where
  entry : Nat
  cr3 : Nat
  userEsp : Nat
  stackPhys : Nat
  stackSize : Nat

/-- elf.c:27-170: the code returned and, when it is 0, what `out` holds. -/
def elfLoad (k : Globals) (rd : FsRead) (libc : Option Image) (σ : Machine) :
    Machine × Int × Option ElfLoadResult :=
  let out := rd 0 ehdrSize
  if out.2 ≠ ehdrSize then (σ, -100, none)
  else
    let eh := parseEhdr out.1
    if validateEhdr eh ≠ 0 then (σ, validateEhdr eh, none)
    else
      let c := pagingCreateUserPd k σ
      match c.2 with
      | none => (c.1, -200, none)
      | some pd =>
        let r := loadHeaders k rd eh pd eh.phnum 0 c.1
        if r.2 ≠ 0 then (r.1, r.2, none)
        else
          let r := dyldMapLibc libc pd r.1
          if r.2 = false then (pagingDestroyUserPd k r.1 pd, -107, none)
          else
            let r := mapStack k pd userStackPages 0 0 r.1
            if r.2.1 ≠ 0 then (r.1, r.2.1, none)
            else
              (r.1, 0, some
                { entry := eh.entry, cr3 := pd * 4096, userEsp := userStackVa + 4096,
                  stackPhys := r.2.2 * 4096, stackSize := 4096 })

/-! ## What a file makes the loader map -/

/-- A file as `fs_read` gives it: no more bytes than asked for, and when the count returned is
the one asked for, they are the file's. -/
structure Reads (file : List UInt8) (rd : FsRead) : Prop where
  length_lt : file.length < 2 ^ 32
  length_le : ∀ off n, n ≤ 4096 → (rd off n).1.length ≤ n
  bytes : ∀ off n, off < 2 ^ 32 → 0 < n → n ≤ 4096 → (rd off n).2 = n →
    (rd off n).1 = (file.drop off).take n ∧ off + n ≤ file.length

/-- `fs_read` of a file that is stored without faults. -/
def fileRead (file : List UInt8) : FsRead := fun off n =>
  ((file.drop off).take n, ((file.drop off).take n).length)

theorem fileRead_reads {file : List UInt8} (h : file.length < 2 ^ 32) :
    Reads file (fileRead file) := by
  refine ⟨h, fun off n _ => ?_, fun off n _ hpos _ hall => ?_⟩
  · unfold fileRead
    rw [length_take]
    omega
  · unfold fileRead at hall ⊢
    rw [length_take, length_drop] at hall
    exact ⟨rfl, by omega⟩

/-- `fs_read` of entry `idx` of an AdventFS instance; -1 is an error. -/
def fsRead (io : Nat → Bool) (inst : Fs.FsInstance) (idx : Nat) : FsRead := fun off n =>
  match Fs.fsIreadInst io inst idx (UInt32.ofNat off) (UInt32.ofNat n) with
  | some bs => (bs, bs.length)
  | none => ([], -1)

theorem fsIread_part {io : Nat → Bool} {inst : Fs.FsInstance} {idx : Nat} {f : Fs.FileBytes}
    (hinit : inst.initialized = true) (hi : idx < inst.super.fileCount)
    (ht : (inst.super.files idx).type = .file) (hsize : (inst.super.files idx).size = f.size)
    (hs : f.size.toNat + 4096 ≤ 2 ^ 32)
    (hst : Fs.StoredAt inst (inst.super.files idx).startSector f) {off n : Nat} (hn : n ≤ 4096)
    {bs : List UInt8}
    (hbs : Fs.fsIreadInst io inst idx (UInt32.ofNat off) (UInt32.ofNat n) = some bs) :
    bs = (f.bytes.drop (off % 2 ^ 32)).take n := by
  have hlen : f.bytes.length = f.size.toNat := by simp [Fs.FileBytes.bytes]
  have hoff : (UInt32.ofNat off).toNat = off % 2 ^ 32 := UInt32.toNat_ofNat'
  have hn' : (UInt32.ofNat n).toNat = n := by
    rw [UInt32.toNat_ofNat']
    omega
  by_cases hin : off % 2 ^ 32 + n < 2 ^ 32
  · have h := (Fs.fsIreadInst_eq hinit hi ht hsize (by omega) hst (by omega)).1 bs hbs
    rw [h, hoff, hn']
  · have hge : .ofNat off ≥ (inst.super.files idx).size := by
      rw [hsize, ge_iff_le, UInt32.le_iff_toNat_le, hoff]
      omega
    unfold Fs.fsIreadInst at hbs
    simp only [hinit, Bool.not_true, Bool.false_eq_true, if_false, Nat.not_le.2 hi, ht,
      ge_iff_le, ne_eq, not_true_eq_false] at hbs
    rw [if_pos hge] at hbs
    rw [← Option.some.inj hbs, drop_eq_nil_of_le (by omega), take_nil]

theorem fsRead_reads {io : Nat → Bool} {inst : Fs.FsInstance} {idx : Nat} {f : Fs.FileBytes}
    (hinit : inst.initialized = true) (hi : idx < inst.super.fileCount)
    (ht : (inst.super.files idx).type = .file) (hsize : (inst.super.files idx).size = f.size)
    (hs : f.size.toNat + 4096 ≤ 2 ^ 32)
    (hst : Fs.StoredAt inst (inst.super.files idx).startSector f) :
    Reads f.bytes (fsRead io inst idx) := by
  have hlen : f.bytes.length = f.size.toNat := by simp [Fs.FileBytes.bytes]
  refine ⟨by omega, fun off n hn => ?_, fun off n hoff hpos hn hall => ?_⟩
  · unfold fsRead
    cases hres : Fs.fsIreadInst io inst idx (.ofNat off) (.ofNat n) with
    | none => exact Nat.zero_le n
    | some bs =>
      rw [fsIread_part hinit hi ht hsize hs hst hn hres, length_take]
      omega
  · unfold fsRead at hall ⊢
    cases hres : Fs.fsIreadInst io inst idx (.ofNat off) (.ofNat n) with
    | none =>
      rw [hres] at hall
      simp at hall
    | some bs =>
      rw [hres] at hall
      have hbs := fsIread_part hinit hi ht hsize hs hst hn hres
      rw [Nat.mod_eq_of_lt hoff] at hbs
      dsimp only at hall ⊢
      rw [hbs, length_take, length_drop] at hall
      exact ⟨hbs, by omega⟩

/-- The pages of a segment from `va` on, as far as the file has their bytes, then `rest`. -/
def pagesPlan (rd : FsRead) (ph : Phdr) (rest : List (Option Nat)) :
    (n va : Nat) → List (Option Nat)
  | 0, _ => rest
  | n + 1, va => some (va / 4096) :: match fileCopy ph va with
    | none => pagesPlan rd ph rest n (va + 4096)
    | some c =>
      if (rd c.1 c.2.1).2 ≠ asInt c.2.1 then [] else pagesPlan rd ph rest n (va + 4096)

/-- `vaddr + memsz`, rounded up, is past the last address. -/
def Wraps (ph : Phdr) : Prop := 2 ^ 32 - 4096 < ph.vaddr + ph.memsz

instance (ph : Phdr) : Decidable (Wraps ph) := by
  unfold Wraps
  infer_instance

/-- The pages of the headers from `i` on, up to one that is refused; `none` for a segment that
wraps. -/
def headersPlan (rd : FsRead) (eh : Ehdr) (rest : List (Option Nat)) :
    (n i : Nat) → List (Option Nat)
  | 0, _ => rest
  | n + 1, i =>
    match readPhdr rd eh i with
    | none => []
    | some ph =>
      if ph.type ≠ ptLoad then headersPlan rd eh rest n (i + 1)
      else if ph.memsz = 0 then headersPlan rd eh rest n (i + 1)
      else if ph.vaddr < userMinVa then []
      else if ph.filesz > ph.memsz then []
      else if Wraps ph then [none]
      else pagesPlan rd ph (headersPlan rd eh rest n (i + 1)) (pageCount ph) (alignDown ph.vaddr)

def libcPages : Option Image → List (Option Nat)
  | none => []
  | some image => (List.range' (libcVa / 4096) image.pages).map some

def stackPages : List (Option Nat) := (List.range' (stackVaLo / 4096) userStackPages).map some

/-- The pages that loading the file maps, in order, up to where the file makes it stop. -/
def plan (rd : FsRead) (libc : Option Image) : List (Option Nat) :=
  if (rd 0 ehdrSize).2 ≠ ehdrSize then []
  else if validateEhdr (parseEhdr (rd 0 ehdrSize).1) ≠ 0 then []
  else headersPlan rd (parseEhdr (rd 0 ehdrSize).1) (libcPages libc ++ stackPages)
    (parseEhdr (rd 0 ehdrSize).1).phnum 0

/-- How many frames page `p` takes after those of `R`: itself, and a table. -/
def cost (kernel : Nat → Bool) (R : List Nat) (p : Nat) : Nat :=
  if kernel (p / 1024) || R.any fun q => q / 1024 = p / 1024 then 1 else 2

/-- Until `n` frames are used up, every page is new and none is the kernel's to map. -/
def Safe (kernel : Nat → Bool) : (n : Nat) → (R : List Nat) → List (Option Nat) → Prop
  | _, _, [] => True
  | _, _, none :: _ => False
  | n, R, some p :: rest => n < cost kernel R p ∨
    kernel (p / 1024) = false ∧ p ∉ R ∧ Safe kernel (n - cost kernel R p) (p :: R) rest

instance Safe.decide (kernel : Nat → Bool) :
    (n : Nat) → (R : List Nat) → (l : List (Option Nat)) → Decidable (Safe kernel n R l)
  | _, _, [] => .isTrue trivial
  | _, _, none :: _ => .isFalse id
  | n, R, some p :: rest =>
    let _ := Safe.decide kernel (n - cost kernel R p) (p :: R) rest
    inferInstanceAs (Decidable (n < cost kernel R p ∨ kernel (p / 1024) = false ∧ p ∉ R ∧
      Safe kernel (n - cost kernel R p) (p :: R) rest))

/-! ## What loading has to do -/

/-- The byte that a user program reads at `v`; `none` is a page fault. -/
def userByte (m : Frames) (pd v : Nat) : Option UInt8 :=
  let pde := m.word pd (pdIndex v)
  let pte := m.word (frame pde) (ptIndex v)
  if present pde && user pde && present pte && user pte then some (m (frame pte) (v % 4096))
  else none

/-- The byte of a segment at `v`. -/
def segByte (file : List UInt8) (ph : Phdr) (v : Nat) : UInt8 :=
  if ph.vaddr ≤ v ∧ v < ph.vaddr + ph.filesz then file.getD (ph.offset + (v - ph.vaddr)) 0 else 0

def fileEhdr (file : List UInt8) : Ehdr := parseEhdr (file.take ehdrSize)

def filePhdr (file : List UInt8) (i : Nat) : Phdr :=
  parsePhdr ((file.drop (((fileEhdr file).phoff + i * (fileEhdr file).phentsize) % 2 ^ 32)).take
    phdrSize)

def Phdr.Covers (ph : Phdr) (p : Nat) : Prop :=
  ∃ v, ph.vaddr ≤ v ∧ v < ph.vaddr + ph.memsz ∧ v < 2 ^ 32 ∧ v / 4096 = p

/-- A failure restores the allocator, an image has every byte of every segment and no page for
two of them, libc and the stack, and no frame that was in use before is written. -/
structure ElfMeets (k : Globals) (file : List UInt8) (rd : FsRead) (libc : Option Image)
    (σ : Machine) : Prop where
  fails : (elfLoad k rd libc σ).2.1 ≠ 0 → (elfLoad k rd libc σ).1.pages = σ.pages
  image : (elfLoad k rd libc σ).2.1 = 0 → ∃ out, (elfLoad k rd libc σ).2.2 = some out ∧
    ∀ i < (fileEhdr file).phnum, (filePhdr file i).type = ptLoad → ∀ v,
      (filePhdr file i).vaddr ≤ v → v < (filePhdr file i).vaddr + (filePhdr file i).memsz →
        v < 2 ^ 32 → userByte (elfLoad k rd libc σ).1.mem (frame out.cr3) v =
          some (segByte file (filePhdr file i) v)
  segments : (elfLoad k rd libc σ).2.1 = 0 → ∀ i j, i < j → j < (fileEhdr file).phnum →
    (filePhdr file i).type = ptLoad → (filePhdr file j).type = ptLoad →
      ∀ p, (filePhdr file i).Covers p → ¬ (filePhdr file j).Covers p
  others : (elfLoad k rd libc σ).2.1 = 0 → ∀ i < (fileEhdr file).phnum,
    (filePhdr file i).type = ptLoad → ∀ p, (filePhdr file i).Covers p →
      some p ∉ libcPages libc ++ stackPages
  kernel : ∀ f, ¬ IsFree σ.pages f → (elfLoad k rd libc σ).1.mem f = σ.mem f

end AdventOS.Kernel.Elf
