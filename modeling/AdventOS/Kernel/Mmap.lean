import AdventOS.Core.LTS
import AdventOS.Kernel.Ledger

/-!
# File mappings of a task (`kernel/mmap.c`)

A mapping is a range of addresses, handed out by moving `mmap_brk` up, and a slice of a file. Its
pages come into being at page faults, in the task's own directory. `mmap_unregister` looks for
them in the kernel's directory instead, so a page that was faulted in stays mapped and its frame
stays taken. Lengths, addresses and offsets are rounded and added modulo 2^32 without a check.

`faulted` records the pages that faults installed, with their frames and mappings, until
`mmap_unregister` takes them back.

* `mmapRegister`, `mmapUnregister`, `mmapHandleFault`: the three operations;
* `Cond`: nothing wraps, and what is unregistered has no page in it;
* `mmap_accounts`: what holds as long as every step is of that kind;
* `mmap_leaks`: register, touch, unregister.
-/
namespace AdventOS.Kernel.Mmap
open Pmm Paging Elf Function List

def userMmapStart : Nat := 0x50000000

def userMmapMax : Nat := 0x60000000

def taskMmapMax : Nat := 8

def sigsegv : Nat := 11

/-- `struct task_mmap`. task.h:172-179 -/
structure TaskMmap where
  inUse : Bool
  vaStart : Nat
  vaEnd : Nat
  fsIdx : Nat
  fileOffset : Nat
  fileLength : Nat
  deriving DecidableEq, Repr

/-- The fields of a task that `mmap.c` uses. -/
structure Task where
  cr3 : Nat
  mmaps : Nat → TaskMmap
  mmapBrk : Nat
  curRss : Nat
  maxRss : Nat
  sigPending : Nat

/-- A page that a fault installed. -/
structure Fault where
  page : Nat
  frame : Nat
  region : TaskMmap

def Fault.slot (x : Fault) : Nat × Nat := (x.page, x.frame)

structure Sys where
  machine : Machine
  task : Task
  faulted : List Fault

/-- The directory of the task, as a frame. -/
def Sys.pd (s : Sys) : Nat := frame s.task.cr3

/-! ## Registering -/

def freeSlot (t : Task) : Option Nat := (List.range taskMmapMax).find? fun i => !(t.mmaps i).inUse

/-- The task and the address, 0 for a failure. mmap.c:12-35 -/
def mmapRegister (t : Task) (fsIdx fileOffset length : Nat) : Task × Nat :=
  if length = 0 then (t, 0)
  else
    let aligned := alignUp length
    if userMmapMax < (t.mmapBrk + aligned) % 2 ^ 32 then (t, 0)
    else
      match freeSlot t with
      | none => (t, 0)
      | some slot =>
        ({ t with
            mmapBrk := (t.mmapBrk + aligned) % 2 ^ 32
            mmaps := update t.mmaps slot
              { inUse := true, vaStart := t.mmapBrk, vaEnd := (t.mmapBrk + aligned) % 2 ^ 32,
                fsIdx := fsIdx, fileOffset := fileOffset, fileLength := length } }, t.mmapBrk)

/-! ## Unregistering -/

/-- In the kernel's directory, whatever directory is loaded. paging.c:112-120 -/
def pagingTranslate (k : Globals) (m : Frames) (virt : Nat) : Nat :=
  let pde := m.word k.gPd (pdIndex virt)
  let pte := m.word (frame pde) (ptIndex virt)
  if present pde && present pte then frame pte * 4096 + virt % 4096 else 0

/-- paging.c:101-110 -/
def pagingUnmap (k : Globals) (σ : Machine) (virt : Nat) : Machine :=
  let pde := σ.mem.word k.gPd (pdIndex virt)
  if present pde then σ.setWord (frame pde) (ptIndex virt) 0 else σ

/-- The loop of mmap.c:57-64, `n` pages from `va` on. -/
def unmapPages (k : Globals) : (n va : Nat) → Sys → Sys
  | 0, _, s => s
  | n + 1, va, s =>
    let phys := pagingTranslate k s.machine.mem va
    if phys ≠ 0 then
      let σ := pagingUnmap k s.machine va
      unmapPages k n (va + 4096)
        { machine := { σ with pages := freePage σ.pages phys }
          task := { s.task with curRss := s.task.curRss - 1 }
          faulted := s.faulted.filter fun x => x.page ≠ va / 4096 }
    else unmapPages k n (va + 4096) s

/-- The slot that `mmap_unregister` finds. -/
def findExact (t : Task) (vaStart length : Nat) : Option Nat :=
  (List.range taskMmapMax).find? fun i => (t.mmaps i).inUse && (t.mmaps i).vaStart == vaStart &&
    (t.mmaps i).vaEnd == (vaStart + alignUp length) % 2 ^ 32

/-- mmap.c:37-69 -/
def mmapUnregister (k : Globals) (s : Sys) (vaStart length : Nat) : Sys × Int :=
  match findExact s.task vaStart length with
  | none => (s, -1)
  | some i =>
    let m := s.task.mmaps i
    let s := unmapPages k ((m.vaEnd - m.vaStart + 4095) / 4096) m.vaStart s
    ({ s with task := { s.task with
        mmaps := update s.task.mmaps i { s.task.mmaps i with inUse := false } } }, 0)

/-! ## Faults -/

/-- mmap.c:71-79 -/
def findRegion (t : Task) (va : Nat) : Option TaskMmap :=
  ((List.range taskMmapMax).find? fun i =>
    (t.mmaps i).inUse && (t.mmaps i).vaStart ≤ va && va < (t.mmaps i).vaEnd).map t.mmaps

/-- `va_page - m->va_start` -/
def pageOff (m : TaskMmap) (vaPage : Nat) : Nat := (vaPage + 2 ^ 32 - m.vaStart) % 2 ^ 32

/-- The bytes for a page, read into its frame. mmap.c:127-139 -/
def fillPage (rd : Nat → FsRead) (m : TaskMmap) (vaPage page : Nat) (σ : Machine) :
    Machine × Bool :=
  let pageOff := pageOff m vaPage
  if pageOff < m.fileLength then
    let take := if m.fileLength - pageOff > 4096 then 4096 else m.fileLength - pageOff
    let r := rd m.fsIdx ((m.fileOffset + pageOff) % 2 ^ 32) take
    ({ σ with mem := σ.mem.write page 0 r.1 }, decide (0 ≤ r.2))
  else (σ, true)

/-- The limit of the task is reached. -/
def atLimit (t : Task) : Bool := t.maxRss ≠ 0 && t.maxRss ≤ t.curRss

/-- mmap.c:81-154 -/
def mmapHandleFault (rd : Nat → FsRead) (s : Sys) (errCode cr2 : Nat) : Sys × Int :=
  match findRegion s.task cr2 with
  | none => (s, -1)
  | some m =>
    if errCode.testBit 0 then (s, -1)
    else
      let vaPage := cr2 / 4096 * 4096
      if atLimit s.task then
        ({ s with task := { s.task with sigPending := s.task.sigPending ||| 2 ^ sigsegv } }, 0)
      else
        match s.machine.alloc.2 with
        | none => ({ s with machine := s.machine.alloc.1 }, -1)
        | some page =>
          let r := fillPage rd m vaPage page (s.machine.alloc.1.zero page)
          if r.2 = false then ({ s with machine := r.1.free page }, -1)
          else
            let r := pagingMapIn r.1 s.pd vaPage (page * 4096) (pteUser ||| pteWritable)
            if r.2 = false then ({ s with machine := r.1.free page }, -1)
            else
              ({ machine := r.1
                 task := { s.task with curRss := (s.task.curRss + 1) % 2 ^ 32 }
                 faulted := ⟨vaPage / 4096, page, m⟩ :: s.faulted }, 0)

/-! ## The system -/

def mapped (m : Frames) (pd v : Nat) : Bool :=
  present (m.word pd (pdIndex v)) && present (entryOf m pd (v / 4096))

def errCode (s : Sys) (cr2 : Nat) (write : Bool) : Nat :=
  4 + (if write then 2 else 0) + if mapped s.machine.mem s.pd cr2 then 1 else 0

inductive Op
  | register (fsIdx fileOffset length : Nat)
  | unregister (vaStart length : Nat)
  | fault (cr2 : Nat) (write : Bool)

/-- The task calls, or touches an address. -/
def Sys.step (k : Globals) (rd : Nat → FsRead) (s : Sys) : Op → Option Sys
  | .register fsIdx fileOffset length =>
    if fileOffset < 2 ^ 32 ∧ length < 2 ^ 32 then
      some { s with task := (mmapRegister s.task fsIdx fileOffset length).1 }
    else none
  | .unregister vaStart length =>
    if vaStart < 2 ^ 32 ∧ length < 2 ^ 32 then some (mmapUnregister k s vaStart length).1 else none
  | .fault cr2 write =>
    if cr2 < 2 ^ 32 then some (mmapHandleFault rd s (errCode s cr2 write) cr2).1 else none

/-- A file as `fs_read` gives it to a mapping: what is returned without an error are its bytes. -/
structure Serves (file : List UInt8) (rd : FsRead) : Prop where
  length_le : ∀ off n, n ≤ 4096 → (rd off n).1.length ≤ n
  bytes : ∀ off n, off < 2 ^ 32 → n ≤ 4096 → 0 ≤ (rd off n).2 →
    (rd off n).1 = (file.drop off).take n

/-- The task as `exec` starts it: the directory has the pages `R`, nothing is mapped yet, and the
kernel's own directory has no table in the window. -/
structure Start (k : Globals) (σ₀ : Machine) (R : List Nat) (s : Sys) : Prop where
  booted : Booted k σ₀
  window : ∀ i, pdIndex userMmapStart ≤ i → i < pdIndex userMmapMax → shared k σ₀ i = false
  dir : Mapped k σ₀ s.machine s.pd R
  mmapBrk : s.task.mmapBrk = userMmapStart
  unused : ∀ i, i < taskMmapMax → (s.task.mmaps i).inUse = false
  rss : s.task.curRss ≤ 2 ^ 20
  faulted : s.faulted = []

def mmapLTS (k : Globals) (rd : Nat → FsRead) (start : Sys) : LTS Sys Op :=
  LTS.ofFn (· = start) (Sys.step k rd)

/-! ## What is promised -/

/-- The byte of a mapping at `v`: the file's, up to the length asked for. -/
def mapByte (files : Nat → List UInt8) (m : TaskMmap) (v : Nat) : UInt8 :=
  if v - m.vaStart < m.fileLength then (files m.fsIdx).getD (m.fileOffset + (v - m.vaStart)) 0
  else 0

/-- The frames that the task's directory has in the pages of a mapping. -/
def regionFrames (m : Frames) (pd : Nat) (r : TaskMmap) : List Nat :=
  (List.range' (r.vaStart / 4096) (r.vaEnd / 4096 - r.vaStart / 4096)).filterMap fun p =>
    if mapped m pd (p * 4096) then some (frame (entryOf m pd p)) else none

/-- Nothing wraps, and a mapping that is taken back has no frames. -/
def Cond (s : Sys) : Op → Prop
  | .register _ _ length => length = 0 ∨ freeSlot s.task = none ∨
      s.task.mmapBrk + (length + 4095) / 4096 * 4096 < 2 ^ 32
  | .unregister vaStart length => ∀ i, findExact s.task vaStart length = some i →
      regionFrames s.machine.mem s.pd (s.task.mmaps i) = []
  | .fault cr2 _ => mapped s.machine.mem s.pd cr2 = true ∨ atLimit s.task = true ∨
      s.machine.alloc.2 = none ∨ ∀ m, findRegion s.task cr2 = some m →
        pageOff m (cr2 / 4096 * 4096) < m.fileLength →
          m.fileOffset + pageOff m (cr2 / 4096 * 4096) < 2 ^ 32

structure Sound (k : Globals) (files : Nat → List UInt8) (start s : Sys) : Prop where
  disjoint : ∀ i j, i < taskMmapMax → j < taskMmapMax → i ≠ j → (s.task.mmaps i).inUse = true →
    (s.task.mmaps j).inUse = true → (s.task.mmaps i).vaEnd ≤ (s.task.mmaps j).vaStart ∨
      (s.task.mmaps j).vaEnd ≤ (s.task.mmaps i).vaStart
  window : ∀ i, i < taskMmapMax → (s.task.mmaps i).inUse = true →
    userMmapStart ≤ (s.task.mmaps i).vaStart ∧ (s.task.mmaps i).vaEnd ≤ userMmapMax ∧
      (s.task.mmaps i).vaStart + (s.task.mmaps i).fileLength ≤ (s.task.mmaps i).vaEnd
  registers : ∀ fsIdx fileOffset length, (mmapRegister s.task fsIdx fileOffset length).2 ≠ 0 →
    ∃ i, i < taskMmapMax ∧ (s.task.mmaps i).inUse = false ∧
      ∃ m, (mmapRegister s.task fsIdx fileOffset length).1.mmaps i = m ∧ m.inUse = true ∧
        m.vaStart = (mmapRegister s.task fsIdx fileOffset length).2 ∧ m.fsIdx = fsIdx ∧
          m.fileOffset = fileOffset ∧ m.fileLength = length
  /-- what a fault brought in is the slice of the file -/
  bytes : ∀ x ∈ s.faulted, ∀ o, o < 4096 →
    userByte s.machine.mem s.pd (x.page * 4096 + o) =
      some (mapByte files x.region (x.page * 4096 + o))
  /-- a page that has not been taken back belongs to a mapping -/
  owned : ∀ x ∈ s.faulted, ∃ i, i < taskMmapMax ∧ s.task.mmaps i = x.region ∧
    x.region.inUse = true ∧ x.region.vaStart ≤ x.page * 4096 ∧
      x.page * 4096 + 4096 ≤ x.region.vaEnd
  unregisters : ∀ vaStart length, Cond s (.unregister vaStart length) →
    (mmapUnregister k s vaStart length).2 = 0 →
      ∃ i, i < taskMmapMax ∧ (s.task.mmaps i).inUse = true ∧ (s.task.mmaps i).vaStart = vaStart ∧
        (mmapUnregister k s vaStart length).1.machine.pages = freeAll s.machine.pages
          (regionFrames s.machine.mem s.pd (s.task.mmaps i)) ∧
        ∀ v, vaStart ≤ v → v < (s.task.mmaps i).vaEnd → userByte
          (mmapUnregister k s vaStart length).1.machine.mem
            (mmapUnregister k s vaStart length).1.pd v = none
  /-- the count is that of the frames mapped through faults, which are distinct -/
  rss : s.task.curRss = start.task.curRss + s.faulted.length
  frames : (s.faulted.map Fault.frame).Nodup ∧ ∀ x ∈ s.faulted,
    present (s.machine.mem.word s.pd (x.page / 1024)) = true ∧
      k.ram (entryOf s.machine.mem s.pd x.page) = true ∧
        Paging.frame (entryOf s.machine.mem s.pd x.page) = x.frame

/-! ## The table of mappings -/

/-- A mapping in use lies below `mmap_brk` and has room for its length. -/
structure Valid (t : Task) (m : TaskMmap) : Prop where
  lo : userMmapStart ≤ m.vaStart
  hi : m.vaEnd ≤ t.mmapBrk
  start : m.vaStart % 4096 = 0
  stop : m.vaEnd % 4096 = 0
  length : m.vaStart + m.fileLength ≤ m.vaEnd
  pos : 0 < m.fileLength

structure Table (t : Task) : Prop where
  lo : userMmapStart ≤ t.mmapBrk
  hi : t.mmapBrk ≤ userMmapMax
  brk : t.mmapBrk % 4096 = 0
  valid : ∀ i, i < taskMmapMax → (t.mmaps i).inUse = true → Valid t (t.mmaps i)
  disjoint : ∀ i j, i < taskMmapMax → j < taskMmapMax → i ≠ j → (t.mmaps i).inUse = true →
    (t.mmaps j).inUse = true →
      (t.mmaps i).vaEnd ≤ (t.mmaps j).vaStart ∨ (t.mmaps j).vaEnd ≤ (t.mmaps i).vaStart

section Tables
variable {t : Task} {m : TaskMmap} {fsIdx fileOffset length v : Nat}

theorem freeSlot_spec {i : Nat} (h : freeSlot t = some i) :
    i < taskMmapMax ∧ (t.mmaps i).inUse = false := by
  have hmem := mem_of_find?_eq_some h
  have hfree := List.find?_some h
  exact ⟨mem_range.1 hmem, by simpa using hfree⟩

theorem findRegion_spec (h : findRegion t v = some m) :
    ∃ i, i < taskMmapMax ∧ t.mmaps i = m ∧ m.inUse = true ∧ m.vaStart ≤ v ∧ v < m.vaEnd := by
  obtain ⟨i, hi, rfl⟩ := Option.map_eq_some_iff.1 h
  have hmem := mem_of_find?_eq_some hi
  have hin := List.find?_some hi
  simp only [Bool.and_eq_true, decide_eq_true_eq] at hin
  exact ⟨i, mem_range.1 hmem, rfl, hin.1.1, hin.1.2, hin.2⟩

theorem findExact_spec {i vaStart : Nat} (h : findExact t vaStart length = some i) :
    i < taskMmapMax ∧ (t.mmaps i).inUse = true ∧ (t.mmaps i).vaStart = vaStart := by
  have hmem := mem_of_find?_eq_some h
  have hin := List.find?_some h
  simp only [Bool.and_eq_true, beq_iff_eq] at hin
  exact ⟨mem_range.1 hmem, hin.1.1, hin.1.2⟩

theorem mmapRegister_cases (fsIdx fileOffset : Nat) (ht : Table t)
    (hcond : length = 0 ∨ freeSlot t = none ∨
      t.mmapBrk + (length + 4095) / 4096 * 4096 < 2 ^ 32) :
    mmapRegister t fsIdx fileOffset length = (t, 0) ∨
      ∃ slot stop, freeSlot t = some slot ∧ stop = t.mmapBrk + (length + 4095) / 4096 * 4096 ∧
        stop ≤ userMmapMax ∧ 0 < length ∧ mmapRegister t fsIdx fileOffset length =
          ({ t with
              mmapBrk := stop
              mmaps := update t.mmaps slot
                ⟨true, t.mmapBrk, stop, fsIdx, fileOffset, length⟩ }, t.mmapBrk) := by
  unfold mmapRegister
  by_cases h0 : length = 0
  · exact .inl (if_pos h0)
  rw [if_neg h0]
  dsimp only
  cases hslot : freeSlot t with
  | none =>
    refine .inl ?_
    split
    · rfl
    · rfl
  | some slot =>
    have hcond : t.mmapBrk + (length + 4095) / 4096 * 4096 < 2 ^ 32 := by
      rcases hcond with h | h | h
      · exact absurd h h0
      · rw [hslot] at h
        cases h
      · exact h
    have hlo := ht.lo
    have halign : alignUp length = (length + 4095) / 4096 * 4096 := by
      unfold alignUp
      rw [Nat.mod_eq_of_lt (by omega)]
    rw [halign, Nat.mod_eq_of_lt hcond]
    split
    · exact .inl rfl
    · exact .inr ⟨slot, _, rfl, rfl, by omega, by omega, rfl⟩

theorem Table.register (fsIdx fileOffset : Nat) (ht : Table t)
    (hcond : length = 0 ∨ freeSlot t = none ∨
      t.mmapBrk + (length + 4095) / 4096 * 4096 < 2 ^ 32) :
    Table (mmapRegister t fsIdx fileOffset length).1 := by
  rcases mmapRegister_cases fsIdx fileOffset ht hcond with
    h | ⟨slot, stop, hslot, hstop, hmax, hpos, h⟩
  · rw [h]
    exact ht
  rw [h]
  obtain ⟨hlt, hfree⟩ := freeSlot_spec hslot
  have hlo := ht.lo
  have hbrk := ht.brk
  -- every other mapping ends below the old break
  have hother : ∀ i, i ≠ slot → update t.mmaps slot
      ⟨true, t.mmapBrk, stop, fsIdx, fileOffset, length⟩ i = t.mmaps i :=
    fun i hi => update_of_ne hi _ _
  have hself : update t.mmaps slot
      ⟨true, t.mmapBrk, stop, fsIdx, fileOffset, length⟩ slot =
        ⟨true, t.mmapBrk, stop, fsIdx, fileOffset, length⟩ := update_self ..
  refine ⟨by dsimp only; omega, hmax, by dsimp only; omega, fun i hi hu => ?_,
    fun i j hi hj hij hui huj => ?_⟩
  · dsimp only at hu ⊢
    by_cases his : i = slot
    · rw [his, hself]
      refine ⟨hlo, Nat.le_refl stop, hbrk, ?_, ?_, hpos⟩
      · dsimp only
        omega
      · dsimp only
        omega
    · rw [hother i his] at hu ⊢
      have hv := ht.valid i hi hu
      refine ⟨hv.lo, ?_, hv.start, hv.stop, hv.length, hv.pos⟩
      have hle := hv.hi
      dsimp only
      omega
  · dsimp only at hui huj ⊢
    by_cases his : i = slot
    · have hjs : j ≠ slot := fun hjs => hij (his.trans hjs.symm)
      rw [hother j hjs] at huj
      rw [his, hself, hother j hjs]
      exact .inr (ht.valid j hj huj).hi
    · rw [hother i his] at hui ⊢
      by_cases hjs : j = slot
      · rw [hjs, hself]
        exact .inl (ht.valid i hi hui).hi
      · rw [hother j hjs] at huj ⊢
        exact ht.disjoint i j hi hj hij hui huj

theorem Table.congr (ht : Table t) {t' : Task} (hm : t'.mmaps = t.mmaps)
    (hb : t'.mmapBrk = t.mmapBrk) : Table t' := by
  refine ⟨hb ▸ ht.lo, hb ▸ ht.hi, hb ▸ ht.brk, fun i hi hu => ?_, hm ▸ ht.disjoint⟩
  rw [hm] at hu ⊢
  have hv := ht.valid i hi hu
  exact ⟨hv.lo, hb ▸ hv.hi, hv.start, hv.stop, hv.length, hv.pos⟩

theorem Table.release (ht : Table t) (i : Nat) : Table { t with
    mmaps := update t.mmaps i { t.mmaps i with inUse := false } } := by
  have hsame : ∀ j, (update t.mmaps i { t.mmaps i with inUse := false } j).inUse = true →
      j ≠ i ∧ update t.mmaps i { t.mmaps i with inUse := false } j = t.mmaps j := by
    intro j hu
    have hne : j ≠ i := by
      intro heq
      rw [heq, update_self] at hu
      cases hu
    exact ⟨hne, update_of_ne hne _ _⟩
  refine ⟨ht.lo, ht.hi, ht.brk, fun j hj hu => ?_, fun j j' hj hj' hne hu hu' => ?_⟩
  · obtain ⟨-, heq⟩ := hsame j hu
    dsimp only at hu ⊢
    rw [heq] at hu ⊢
    have hv := ht.valid j hj hu
    exact ⟨hv.lo, hv.hi, hv.start, hv.stop, hv.length, hv.pos⟩
  · obtain ⟨-, heq⟩ := hsame j hu
    obtain ⟨-, heq'⟩ := hsame j' hu'
    dsimp only at hu hu' ⊢
    rw [heq] at hu ⊢
    rw [heq'] at hu' ⊢
    exact ht.disjoint j j' hj hj' hne hu hu'

end Tables

/-! ## A page of a mapping -/

section Faults
variable {k : Globals} {σ₀ : Machine} {start s s' : Sys} {R : List Nat} {rd : Nat → FsRead}
  {files : Nat → List UInt8} {m : TaskMmap} {t : Task} {p v cr2 page : Nat}

variable {f : Frames} {length pd vaStart : Nat} {R₀ : List Nat} {r : Sys × Int}

theorem mapped_iff (hv : v < 2 ^ 32) : mapped f pd v = true ↔
    present (f.word pd (v / 4096 / 1024)) = true ∧ present (entryOf f pd (v / 4096)) = true := by
  unfold mapped pdIndex
  rw [Bool.and_eq_true, show v / 0x400000 % 1024 = v / 4096 / 1024 by omega]

theorem userByte_none (hv : v < 2 ^ 32) (h : mapped f pd v = false) :
    userByte f pd v = none := by
  unfold userByte
  rw [if_neg]
  intro hin
  simp only [Bool.and_eq_true] at hin
  have hm : mapped f pd v = true := by
    rw [mapped_iff hv]
    have hpd : pdIndex v = v / 4096 / 1024 := by
      unfold pdIndex
      omega
    have hpt : ptIndex v = v / 4096 % 1024 := by
      unfold ptIndex
      omega
    rw [hpd, hpt] at hin
    exact ⟨hin.1.1.1, hin.1.2⟩
  rw [h] at hm
  cases hm

theorem Valid.pageOf (hv : Valid t m) (ht : Table t) (h1 : m.vaStart ≤ cr2) (h2 : cr2 < m.vaEnd)
    (hp : p = cr2 / 4096) : m.vaStart ≤ p * 4096 ∧ p * 4096 + 4096 ≤ m.vaEnd ∧
      userMmapStart / 4096 ≤ p ∧ p < userMmapMax / 4096 ∧
        pageOff m (p * 4096) = p * 4096 - m.vaStart := by
  have hlo := hv.lo
  have hhi := hv.hi
  have hmax := ht.hi
  have h3 := hv.start
  have h4 := hv.stop
  unfold userMmapMax at hmax ⊢
  have hle : m.vaStart ≤ p * 4096 := by omega
  refine ⟨hle, by omega, by omega, by omega, ?_⟩
  unfold pageOff
  rw [show p * 4096 + 2 ^ 32 - m.vaStart = p * 4096 - m.vaStart + 2 ^ 32 by omega,
    Nat.add_mod_right, Nat.mod_eq_of_lt (by omega)]

theorem slice_getD {file : List UInt8} {off o i take : Nat}
    (htake : take = min 4096 (length - o)) (hi : i < 4096) :
    ((file.drop (off + o)).take take).getD i 0 =
      if o + i < length then file.getD (off + (o + i)) 0 else 0 := by
  by_cases hin : i < take
  · rw [if_pos (by omega), getD_eq_getElem?_getD, List.getElem?_take_of_lt hin,
      List.getElem?_drop, getD_eq_getElem?_getD, Nat.add_assoc]
  · rw [if_neg (by omega), getD_eq_default]
    exact Nat.le_trans (length_take_le _ _) (Nat.le_of_not_lt hin)

theorem write_zero {bs : List UInt8} (hzero : ∀ x, f page x = 0)
    (hlen : bs.length ≤ 4096) :
    f.write page 0 bs = update f page fun x => bs.getD x 0 := by
  rw [Frames.write_eq_update (Nat.le_trans (Nat.le_of_eq (Nat.zero_add _)) hlen)]
  congr 1
  funext x
  rw [hzero]
  by_cases hx : x < bs.length
  · rw [if_pos ⟨Nat.zero_le x, Nat.lt_of_lt_of_eq hx (Nat.zero_add _).symm⟩, Nat.sub_zero]
  · rw [if_neg, getD_eq_default _ _ (Nat.le_of_not_lt hx)]
    intro h
    exact hx (Nat.lt_of_lt_of_eq h.2 (Nat.zero_add _))

theorem fillPage_spec (hr : ∀ idx, Serves (files idx) (rd idx)) {σ : Machine}
    (hzero : ∀ x, σ.mem page x = 0) {o : Nat} (ho : o = pageOff m v)
    (hoff : o < m.fileLength → m.fileOffset + o < 2 ^ 32) {r : Machine × Bool}
    (heq : r = fillPage rd m v page σ) :
    ∃ x, r.1 = { σ with mem := update σ.mem page x } ∧
      (r.2 = true → ∀ i, i < 4096 → x i =
        if o + i < m.fileLength then (files m.fsIdx).getD (m.fileOffset + (o + i)) 0 else 0) := by
  unfold fillPage at heq
  rw [← ho] at heq
  dsimp only at heq
  by_cases hlt : o < m.fileLength
  · rw [if_pos hlt, Nat.mod_eq_of_lt (hoff hlt)] at heq
    obtain ⟨take, htake⟩ : ∃ take, take =
      if m.fileLength - o > 4096 then 4096 else m.fileLength - o := ⟨_, rfl⟩
    have hmin : take = min 4096 (m.fileLength - o) := by
      rw [htake]
      split
      · omega
      · omega
    rw [← htake] at heq
    have hle : take ≤ 4096 := by omega
    have hlen := (hr m.fsIdx).length_le (m.fileOffset + o) take hle
    rw [write_zero hzero (Nat.le_trans hlen hle)] at heq
    rw [heq]
    refine ⟨_, rfl, fun hok i hi => ?_⟩
    rw [(hr m.fsIdx).bytes _ _ (hoff hlt) hle (of_decide_eq_true hok)]
    exact slice_getD hmin hi
  · rw [if_neg hlt] at heq
    rw [heq]
    refine ⟨σ.mem page, ?_, fun _ i _ => ?_⟩
    · rw [update_eq_self]
    · rw [if_neg (by omega), hzero]

/-! ## What every step keeps -/

structure Inv (k : Globals) (σ₀ : Machine) (files : Nat → List UInt8) (start s : Sys)
    (R : List Nat) : Prop where
  ledger : Ledger k σ₀ s.machine s.pd R (s.faulted.map Fault.slot) start.task.curRss s.task.curRss
  table : Table s.task
  bytes : ∀ x ∈ s.faulted, ∀ o, o < 4096 →
    pageBytes s.machine s.pd x.page o = mapByte files x.region (x.page * 4096 + o)
  owned : ∀ x ∈ s.faulted, ∃ i, i < taskMmapMax ∧ s.task.mmaps i = x.region ∧
    x.region.inUse = true ∧ x.region.vaStart ≤ x.page * 4096 ∧
      x.page * 4096 + 4096 ≤ x.region.vaEnd

theorem Inv.mem (h : Inv k σ₀ files start s R) {x : Fault} (hx : x ∈ s.faulted) : x.page ∈ R :=
  (h.ledger.slots x.slot (mem_map_of_mem hx)).1

theorem Inv.machine (h : Inv k σ₀ files start s R) {σ' : Machine}
    (hl : Ledger k σ₀ σ' s.pd R (s.faulted.map Fault.slot) start.task.curRss s.task.curRss)
    (hkept : Kept s.machine σ' s.pd R R) : Inv k σ₀ files start { s with machine := σ' } R := by
  refine ⟨hl, h.table, fun x hx o ho => ?_, h.owned⟩
  rw [← h.bytes x hx o ho]
  exact congrFun (hkept x.page (h.mem hx)).2 o

theorem errCode_testBit (s : Sys) (cr2 : Nat) (write : Bool) :
    (errCode s cr2 write).testBit 0 = mapped s.machine.mem s.pd cr2 := by
  unfold errCode
  cases write with
  | true =>
    cases mapped s.machine.mem s.pd cr2 with
    | true => rfl
    | false => rfl
  | false =>
    cases mapped s.machine.mem s.pd cr2 with
    | true => rfl
    | false => rfl

theorem Start.own (hs : Start k σ₀ R start) (h1 : userMmapStart / 4096 ≤ p)
    (h2 : p < userMmapMax / 4096) :
    8 ≤ p / 1024 ∧ p / 1024 < 1024 ∧ shared k σ₀ (p / 1024) = false := by
  have hlo : pdIndex userMmapStart = 320 := rfl
  have hhi : pdIndex userMmapMax = 384 := rfl
  unfold userMmapStart at h1
  unfold userMmapMax at h2
  exact ⟨by omega, by omega, hs.window _ (by omega) (by omega)⟩

theorem mmapHandleFault_spec (hs : Start k σ₀ R₀ start)
    (h : Inv k σ₀ files start s R) (hr : ∀ idx, Serves (files idx) (rd idx)) {write : Bool}
    (hcr2 : cr2 < 2 ^ 32) (hcond : Cond s (.fault cr2 write))
    (heq : r = mmapHandleFault rd s (errCode s cr2 write) cr2) :
    ∃ R', Inv k σ₀ files start r.1 R' := by
  have hb := hs.booted
  unfold mmapHandleFault at heq
  cases hfind : findRegion s.task cr2 with
  | none =>
    rw [hfind] at heq
    rw [heq]
    exact ⟨R, h⟩
  | some m =>
    rw [hfind] at heq
    dsimp only at heq
    rw [errCode_testBit] at heq
    by_cases hmap : mapped s.machine.mem s.pd cr2 = true
    · rw [if_pos hmap] at heq
      rw [heq]
      exact ⟨R, h⟩
    rw [if_neg hmap] at heq
    by_cases hlim : atLimit s.task = true
    · rw [if_pos hlim] at heq
      rw [heq]
      exact ⟨R, h.ledger, h.table.congr rfl rfl, h.bytes, h.owned⟩
    rw [if_neg hlim] at heq
    cases halloc : s.machine.alloc.2 with
    | none =>
      rw [halloc] at heq
      rw [(alloc_none halloc).1] at heq
      rw [heq]
      exact ⟨R, h⟩
    | some page =>
      rw [halloc] at heq
      dsimp only at heq
      obtain ⟨p, hp⟩ : ∃ p, p = cr2 / 4096 := ⟨_, rfl⟩
      obtain ⟨i, hi, hmi, hu, h1, h2⟩ := findRegion_spec hfind
      have hv : Valid s.task m := hmi ▸ h.table.valid i hi (hmi ▸ hu)
      obtain ⟨hle, hend, hlo, hhi, hoff⟩ := hv.pageOf h.table h1 h2 hp
      obtain ⟨h8, hpi, hk⟩ := hs.own hlo hhi
      have hwrap : pageOff m (p * 4096) < m.fileLength →
          m.fileOffset + pageOff m (p * 4096) < 2 ^ 32 := by
        rcases hcond with hc | hc | hc | hc
        · exact absurd hc hmap
        · exact absurd hc hlim
        · rw [halloc] at hc
          cases hc
        · rw [hp]
          exact hc m hfind
      rw [← hp] at heq
      obtain ⟨f, hf⟩ : ∃ f, f = fillPage rd m (p * 4096) page (s.machine.alloc.1.zero page) :=
        ⟨_, rfl⟩
      rw [← hf] at heq
      have hzero : ∀ x, (s.machine.alloc.1.zero page).mem page x = 0 :=
        fun x => congrFun (update_self page _ s.machine.mem) x
      obtain ⟨x, hx, hbytes⟩ := fillPage_spec hr hzero rfl hwrap hf
      have hx : f.1 = { s.machine.alloc.1 with mem := update s.machine.mem page x } := by
        rw [hx]
        congr 1
        exact update_idem ..
      by_cases hread : f.2 = false
      · rw [if_pos hread] at heq
        rw [heq]
        obtain ⟨hl, hkept⟩ := h.ledger.discard hb halloc hx
        exact ⟨R, h.machine hl hkept⟩
      rw [if_neg hread] at heq
      have hbytes := hbytes (by simpa using hread)
      have hR : p ∉ R := by
        intro hR
        obtain ⟨-, -, hp1, -, hram, -⟩ := h.ledger.mapped.slot hb hR
        unfold Globals.ram at hram
        simp only [Bool.and_eq_true] at hram
        refine hmap ((mapped_iff hcr2).2 ?_)
        rw [← hp]
        exact ⟨hp1, hram.1⟩
      obtain ⟨o, ho⟩ : ∃ o, o = pagingMapIn f.1 s.pd (p * 4096) (page * 4096)
        (pteUser ||| pteWritable) := ⟨_, rfl⟩
      have hsafe : Safe (shared k σ₀) (freeCount s.machine.pages) R [some p] :=
        .inr ⟨hk, hR, trivial⟩
      obtain ⟨hfail, hok⟩ := h.ledger.install hb hs.rss halloc h8 hpi hsafe hx (.inr rfl) ho
      rw [← ho] at heq
      cases hres : o.2 with
      | false =>
        rw [hres, if_pos rfl] at heq
        rw [heq]
        obtain ⟨hl, hkept⟩ := hfail hres
        exact ⟨R, h.machine hl hkept⟩
      | true =>
        obtain ⟨hl, hkept, hpage, -⟩ := hok hres
        rw [hres, if_neg (by simp), Nat.mul_div_cancel _ (by decide)] at heq
        rw [heq]
        refine ⟨p :: R, hl, h.table.congr rfl rfl, fun y hy n hn => ?_, fun y hy => ?_⟩
        · change pageBytes o.1 s.pd y.page n = _
          cases mem_cons.1 hy with
          | inl hy =>
            rw [hy]
            rw [hpage, hbytes n hn, hoff]
            unfold mapByte
            rw [show p * 4096 + n - m.vaStart = p * 4096 - m.vaStart + n by omega]
          | inr hy =>
            rw [← h.bytes y hy n hn]
            exact congrFun (hkept y.page (h.mem hy)).2 n
        · cases mem_cons.1 hy with
          | inl hy =>
            rw [hy]
            exact ⟨i, hi, hmi, hu, hle, hend⟩
          | inr hy => exact h.owned y hy

/-! ## Taking a mapping back -/

theorem unmapPages_none {n va : Nat}
    (h : ∀ i, i < n → present (s.machine.mem.word k.gPd (pdIndex (va + i * 4096))) = false) :
    unmapPages k n va s = s := by
  induction n generalizing va with
  | zero => rfl
  | succ n ih =>
    have h0 := h 0 (Nat.succ_pos n)
    rw [Nat.zero_mul, Nat.add_zero] at h0
    have hphys : pagingTranslate k s.machine.mem va = 0 := by
      unfold pagingTranslate
      dsimp only
      rw [h0, Bool.false_and, if_neg (by simp)]
    unfold unmapPages
    rw [if_neg (not_not.2 hphys)]
    refine ih fun i hi => ?_
    have hnext := h (i + 1) (Nat.succ_lt_succ hi)
    rwa [Nat.add_one_mul, Nat.add_comm (i * 4096), ← Nat.add_assoc] at hnext

theorem Inv.no_table (hs : Start k σ₀ R₀ start) (h : Inv k σ₀ files start s R)
    (h1 : userMmapStart ≤ v) (h2 : v < userMmapMax) :
    present (s.machine.mem.word k.gPd (pdIndex v)) = false := by
  unfold userMmapStart at h1
  unfold userMmapMax at h2
  obtain ⟨T, D, hbuild, -⟩ := h.ledger.mapped
  have hpd : pdIndex v = v / 4096 / 1024 := by
    unfold pdIndex
    omega
  have hlo : pdIndex userMmapStart = 320 := rfl
  have hhi : pdIndex userMmapMax = 384 := rfl
  have hk := hs.window (pdIndex v) (by omega) (by omega)
  unfold shared at hk
  rw [hbuild.grown.word_of_used hs.booted.gPd]
  have h256 : 256 ≤ pdIndex v := by omega
  simpa [h256] using hk

theorem mmapUnregister_cases (hs : Start k σ₀ R₀ start)
    (h : Inv k σ₀ files start s R)
    (heq : r = mmapUnregister k s vaStart length) :
    findExact s.task vaStart length = none ∧ r = (s, -1) ∨
      ∃ i, findExact s.task vaStart length = some i ∧ r = ({ s with task := { s.task with
        mmaps := update s.task.mmaps i { s.task.mmaps i with inUse := false } } }, 0) := by
  unfold mmapUnregister at heq
  cases hfind : findExact s.task vaStart length with
  | none =>
    rw [hfind] at heq
    exact .inl ⟨rfl, heq⟩
  | some i =>
    refine .inr ⟨i, rfl, ?_⟩
    rw [hfind] at heq
    dsimp only at heq
    obtain ⟨hi, hu, -⟩ := findExact_spec hfind
    have hv := h.table.valid i hi hu
    have hlo := hv.lo
    have hhi := hv.hi
    have hmax := h.table.hi
    have h3 := hv.start
    have h4 := hv.stop
    rwa [unmapPages_none] at heq
    intro j hj
    refine h.no_table hs ?_ ?_
    · omega
    · omega

theorem regionFrames_nil (hnil : regionFrames f pd m = [])
    (h1 : m.vaStart / 4096 ≤ p) (h2 : p < m.vaEnd / 4096) : mapped f pd (p * 4096) = false := by
  have hp := (filterMap_eq_nil_iff.1 hnil) p (mem_range'_1.2 (by omega))
  by_contra hm
  rw [if_pos (by simpa using hm)] at hp
  cases hp

theorem Inv.mapped_page (h : Inv k σ₀ files start s R) (hb : Booted k σ₀) {x : Fault}
    (hx : x ∈ s.faulted) : mapped s.machine.mem s.pd (x.page * 4096) = true := by
  obtain ⟨-, hi, hp, -, hram, -⟩ := h.ledger.mapped.slot hb (h.mem hx)
  unfold Globals.ram at hram
  simp only [Bool.and_eq_true] at hram
  rw [mapped_iff (by omega), Nat.mul_div_cancel _ (by decide)]
  exact ⟨hp, hram.1⟩

theorem Inv.unregister (hs : Start k σ₀ R₀ start)
    (h : Inv k σ₀ files start s R)
    (hcond : Cond s (.unregister vaStart length))
    (heq : r = mmapUnregister k s vaStart length) : Inv k σ₀ files start r.1 R := by
  rcases mmapUnregister_cases hs h heq with ⟨-, heq⟩ | ⟨i, hfind, heq⟩
  · rw [heq]
    exact h
  rw [heq]
  refine ⟨h.ledger, h.table.release i, h.bytes, fun x hx => ?_⟩
  obtain ⟨j, hj, hm, hu, h1, h2⟩ := h.owned x hx
  have hne : j ≠ i := by
    intro hji
    have hpage := h.mapped_page hs.booted hx
    have hnone := regionFrames_nil (p := x.page) (hcond i hfind) (by
      rw [← hji, hm]
      omega) (by
      rw [← hji, hm]
      omega)
    rw [hnone] at hpage
    cases hpage
  exact ⟨j, hj, (update_of_ne hne _ _).trans hm, hu, h1, h2⟩

/-! ## Runs -/

theorem Inv.register (h : Inv k σ₀ files start s R) {fsIdx fileOffset : Nat}
    (hcond : Cond s (.register fsIdx fileOffset length)) :
    Inv k σ₀ files start
      { s with task := (mmapRegister s.task fsIdx fileOffset length).1 } R := by
  have htable := h.table.register fsIdx fileOffset hcond
  rcases mmapRegister_cases fsIdx fileOffset h.table hcond with
    heq | ⟨slot, stop, hslot, -, -, -, heq⟩
  · rw [heq]
    exact h
  rw [heq] at htable ⊢
  refine ⟨h.ledger, htable, h.bytes, fun x hx => ?_⟩
  obtain ⟨j, hj, hm, hu, h1, h2⟩ := h.owned x hx
  have hne : j ≠ slot := by
    intro hjs
    have hfree := (freeSlot_spec hslot).2
    rw [← hjs, hm, hu] at hfree
    cases hfree
  exact ⟨j, hj, (update_of_ne hne _ _).trans hm, hu, h1, h2⟩

theorem Start.inv (hs : Start k σ₀ R start) : Inv k σ₀ files start start R := by
  refine ⟨⟨hs.dir, ?_, ?_, ?_⟩, ⟨?_, ?_, ?_, fun i hi hu => ?_, fun i j hi _ _ hu => ?_⟩, ?_, ?_⟩
  · rw [hs.faulted]
    intro x hx
    cases hx
  · rw [hs.faulted]
    exact nodup_nil
  · rw [hs.faulted]
    rfl
  · rw [hs.mmapBrk]
  · rw [hs.mmapBrk]
    decide
  · rw [hs.mmapBrk]
    rfl
  · rw [hs.unused i hi] at hu
    cases hu
  · rw [hs.unused i hi] at hu
    cases hu
  · rw [hs.faulted]
    intro x hx
    cases hx
  · rw [hs.faulted]
    intro x hx
    cases hx

theorem inv_inductive (hs : Start k σ₀ R start) (hr : ∀ idx, Serves (files idx) (rd idx)) :
    ((mmapLTS k rd start).restrict Cond).Inductive fun s => ∃ R, Inv k σ₀ files start s R where
  init s hinit := by
    have hinit : s = start := hinit
    rw [hinit]
    exact ⟨R, hs.inv⟩
  step s l s' h hstep := by
    obtain ⟨hcond, hstep⟩ := hstep
    obtain ⟨R', h⟩ := h
    cases l with
    | register fsIdx fileOffset length =>
      have hstep : (if fileOffset < 2 ^ 32 ∧ length < 2 ^ 32 then _ else none) = some s' := hstep
      split at hstep
      · rw [← Option.some.inj hstep]
        exact ⟨R', h.register hcond⟩
      · cases hstep
    | unregister vaStart length =>
      have hstep : (if vaStart < 2 ^ 32 ∧ length < 2 ^ 32 then _ else none) = some s' := hstep
      split at hstep
      · rw [← Option.some.inj hstep]
        exact ⟨R', h.unregister hs hcond rfl⟩
      · cases hstep
    | fault cr2 write =>
      have hstep : (if cr2 < 2 ^ 32 then _ else none) = some s' := hstep
      split at hstep
      · rename_i hcr2
        rw [← Option.some.inj hstep]
        obtain ⟨r, heq⟩ : ∃ r, r = mmapHandleFault rd s (errCode s cr2 write) cr2 := ⟨_, rfl⟩
        rw [← heq]
        exact mmapHandleFault_spec hs h hr hcr2 hcond heq
      · cases hstep

theorem mmapRegister_writes {fsIdx fileOffset : Nat} {r : Task × Nat}
    (heq : r = mmapRegister t fsIdx fileOffset length) (hne : r.2 ≠ 0) :
    ∃ i, i < taskMmapMax ∧ (t.mmaps i).inUse = false ∧ ∃ m, r.1.mmaps i = m ∧ m.inUse = true ∧
      m.vaStart = r.2 ∧ m.fsIdx = fsIdx ∧ m.fileOffset = fileOffset ∧ m.fileLength = length := by
  unfold mmapRegister at heq
  dsimp only at heq
  split at heq
  · rw [heq] at hne
    exact absurd rfl hne
  split at heq
  · rw [heq] at hne
    exact absurd rfl hne
  cases hslot : freeSlot t with
  | none =>
    rw [hslot] at heq
    rw [heq] at hne
    exact absurd rfl hne
  | some slot =>
    rw [hslot] at heq
    obtain ⟨hi, hfree⟩ := freeSlot_spec hslot
    rw [heq]
    exact ⟨slot, hi, hfree, _, update_self .., rfl, rfl, rfl, rfl, rfl⟩

theorem mmapUnregister_takes (hs : Start k σ₀ R₀ start)
    (h : Inv k σ₀ files start s R)
    (hcond : Cond s (.unregister vaStart length))
    (heq : r = mmapUnregister k s vaStart length) (hok : r.2 = 0) :
    ∃ i, i < taskMmapMax ∧ (s.task.mmaps i).inUse = true ∧ (s.task.mmaps i).vaStart = vaStart ∧
      r.1.machine.pages = freeAll s.machine.pages
        (regionFrames s.machine.mem s.pd (s.task.mmaps i)) ∧
      ∀ v, vaStart ≤ v → v < (s.task.mmaps i).vaEnd →
        userByte r.1.machine.mem r.1.pd v = none := by
  rcases mmapUnregister_cases hs h heq with ⟨-, heq⟩ | ⟨i, hfind, heq⟩
  · rw [heq] at hok
    cases hok
  rw [heq]
  obtain ⟨hi, hu, hva⟩ := findExact_spec hfind
  refine ⟨i, hi, hu, hva, ?_, fun v h1 h2 => ?_⟩
  · rw [hcond i hfind]
    rfl
  · have hv := h.table.valid i hi hu
    obtain ⟨hle, hend, -, hmax, -⟩ := hv.pageOf h.table (hva.symm ▸ h1) h2 rfl
    unfold userMmapMax at hmax
    have hnone := regionFrames_nil (p := v / 4096) (hcond i hfind) (by omega) (by omega)
    have hlt : v < 2 ^ 32 := by omega
    refine userByte_none hlt ?_
    have hsame : mapped s.machine.mem s.pd v = mapped s.machine.mem s.pd (v / 4096 * 4096) := by
      rw [Bool.eq_iff_iff, mapped_iff hlt, mapped_iff (by omega), Nat.mul_div_cancel _ (by decide)]
    exact hsame.trans hnone

/-- As long as nothing wraps and no mapping with a page in it is taken back, the
mappings, their pages and the count are right. -/
theorem mmap_accounts (k : Globals) (σ₀ : Machine) (R : List Nat) (files : Nat → List UInt8)
    (rd : Nat → FsRead) (start : Sys) (hs : Start k σ₀ R start)
    (hr : ∀ idx, Serves (files idx) (rd idx)) (s : Sys)
    (h : ((mmapLTS k rd start).restrict Cond).Reachable s) : Sound k files start s := by
  obtain ⟨R', h⟩ := (inv_inductive hs hr).reachable s h
  have hb := hs.booted
  refine ⟨h.table.disjoint, fun i hi hu => ?_, fun fsIdx fileOffset length hne =>
    mmapRegister_writes rfl hne, fun x hx o ho => ?_, h.owned, fun vaStart length hcond hok => ?_,
    ?_, ?_, fun x hx => ?_⟩
  · have hv := h.table.valid i hi hu
    exact ⟨hv.lo, Nat.le_trans hv.hi h.table.hi, hv.length⟩
  · obtain ⟨-, hi, -⟩ := h.ledger.mapped.slot hb (h.mem hx)
    have hpage : (x.page * 4096 + o) / 4096 = x.page := by omega
    rw [h.ledger.mapped.userByte (by omega) (hpage.symm ▸ h.mem hx), hpage, ← h.bytes x hx o ho,
      show (x.page * 4096 + o) % 4096 = o by omega]
  · exact mmapUnregister_takes hs h hcond rfl hok
  · rw [h.ledger.rss, length_map]
  · have hnd := h.ledger.frames_nodup hb
    rwa [map_map] at hnd
  · exact h.ledger.slot hb (x := x.slot) (mem_map_of_mem hx)

end Faults

/-! ## Files -/

theorem fileRead_serves (file : List UInt8) : Serves file (fileRead file) := by
  refine ⟨fun off n _ => ?_, fun off n _ _ _ => rfl⟩
  exact length_take_le _ _

theorem fsRead_serves {io : Nat → Bool} {inst : Fs.FsInstance} {idx : Nat} {f : Fs.FileBytes}
    (hinit : inst.initialized = true) (hi : idx < inst.super.fileCount)
    (ht : (inst.super.files idx).type = .file) (hsize : (inst.super.files idx).size = f.size)
    (hs : f.size.toNat + 4096 ≤ 2 ^ 32)
    (hst : Fs.StoredAt inst (inst.super.files idx).startSector f) :
    Serves f.bytes (fsRead io inst idx) := by
  refine ⟨(fsRead_reads hinit hi ht hsize hs hst).length_le, fun off n hoff hn hok => ?_⟩
  unfold fsRead at hok ⊢
  cases hres : Fs.fsIreadInst io inst idx (UInt32.ofNat off) (UInt32.ofNat n) with
  | none =>
    rw [hres] at hok
    exact absurd hok (by decide)
  | some bs =>
    rw [fsIread_part hinit hi ht hsize hs hst hn hres, Nat.mod_eq_of_lt hoff]

/-! ## A task with an empty directory -/

def noMmap : TaskMmap := ⟨false, 0, 0, 0, 0, 0⟩

def bareTask : Task :=
  { cr3 := 0x2000, mmaps := fun _ => noMmap, mmapBrk := userMmapStart, curRss := 0, maxRss := 0,
    sigPending := 0 }

def bareStart : Sys := ⟨(pagingCreateUserPd bareGlobals bareMachine).1, bareTask, []⟩

theorem bareStart_pd : bareStart.pd = 2 := rfl

theorem bareStart_start : Start bareGlobals bareMachine [] bareStart := by
  have hcreate : (pagingCreateUserPd bareGlobals bareMachine).2 = some 2 := by decide +kernel
  have hm := (create_mapped bareMachine_booted hcreate).1
  refine ⟨bareMachine_booted, fun i _ _ => ?_, ?_, rfl, fun _ _ => rfl, Nat.zero_le _, rfl⟩
  · unfold shared
    rw [show bareMachine.mem.word bareGlobals.gPd i = 0 from rfl, present_zero, Bool.and_false]
  · rw [bareStart_pd]
    unfold bareStart
    dsimp only
    exact hm

/-- Two pages registered, the second touched. -/
theorem mmap_accounts_touch : ∃ s : Sys, s.faulted.map Fault.page = [0x50001] ∧
    Sound bareGlobals (fun _ => [7, 8, 9]) bareStart s := by
  obtain ⟨s₁, hs₁⟩ : ∃ s₁, s₁ = { bareStart with task := (mmapRegister bareTask 0 0 5000).1 } :=
    ⟨_, rfl⟩
  obtain ⟨r, hr⟩ : ∃ r, r = mmapHandleFault (fun _ => fileRead [7, 8, 9]) s₁
    (errCode s₁ 0x50001000 false) 0x50001000 := ⟨_, rfl⟩
  have hfind : findRegion s₁.task 0x50001000 =
      some ⟨true, 0x50000000, 0x50002000, 0, 0, 5000⟩ := by
    rw [hs₁]
    rfl
  have hpages : r.1.faulted.map Fault.page = [0x50001] := by
    rw [hr, hs₁]
    decide +kernel
  refine ⟨r.1, hpages, mmap_accounts _ _ _ _ _ _ bareStart_start
    (fun _ => fileRead_serves [7, 8, 9]) _ ⟨bareStart, [.register 0 0 5000,
      .fault 0x50001000 false], rfl, .cons (t := s₁) ⟨.inr (.inr ?_), ?_⟩ (.single ⟨?_, ?_⟩)⟩⟩
  · decide
  · rw [hs₁]
    rfl
  · refine .inr (.inr (.inr fun m hm _ => ?_))
    rw [hfind] at hm
    rw [← Option.some.inj hm]
    decide
  · rw [hr]
    rfl

/-- A page that was touched outlives its mapping. -/
theorem mmap_leaks : ¬ ∀ (k : Globals) (σ₀ : Machine) (R : List Nat) (files : Nat → List UInt8)
    (rd : Nat → FsRead) (start : Sys), Start k σ₀ R start → (∀ idx, Serves (files idx) (rd idx)) →
      ∀ s, (mmapLTS k rd start).Reachable s → Sound k files start s := by
  intro h
  have hrun : (LTS.exec (Sys.step bareGlobals fun _ => fileRead [7, 8, 9]) bareStart
      [.register 0 0 3, .fault 0x50000000 false, .unregister 0x50000000 3]).map
        (fun s => (s.faulted.length, (List.range 8).all fun i => !(s.task.mmaps i).inUse)) =
          some (1, true) := by
    decide +kernel
  obtain ⟨s, hs, heq⟩ := Option.map_eq_some_iff.1 hrun
  have hsound := h _ _ _ _ _ _ bareStart_start (fun _ => fileRead_serves [7, 8, 9]) s
    ⟨bareStart, _, rfl, LTS.run_of_exec hs⟩
  obtain ⟨x, hx⟩ : ∃ x, x ∈ s.faulted := by
    refine exists_mem_of_length_pos ?_
    rw [show s.faulted.length = 1 from congrArg Prod.fst heq]
    decide
  obtain ⟨i, hi, hm, hu, -⟩ := hsound.owned x hx
  have hall := all_eq_true.1 (congrArg Prod.snd heq) i (mem_range.2 hi)
  rw [hm, hu] at hall
  cases hall

end AdventOS.Kernel.Mmap
