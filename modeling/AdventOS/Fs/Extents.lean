import AdventOS.Fs.AllocationMap

/-!
# Extents and contents

Where files lie on the device and what a read returns, along every run of writes, mkdirs,
unlinks and rmdirs on an instance. `FsRun` carries, for each slot, the bytes of the last
`fs_iwrite_all_inst` on it that returned 0.

* `files_disjoint_and_read_back`.
* `failed_write_changes_file`: otherwise the call returns -1 with the new bytes in place;
* `fsIread_reads_iff`: when one read of a live file gives the bytes asked for.
-/
namespace AdventOS.Fs
open Function List

/-! ## Reading -/

/-- The loop of `fs_iread_inst`: `total` bytes were read, `n` are left, and the next device
read is number `k`. Each round takes a byte at least, so `fuel = n` rounds are enough.
fs.c:338-351 -/
def readLoop (io : Nat → Bool) (inst : FsInstance) (start offset : UInt32) :
    (fuel k : Nat) → (total n : UInt32) → Option (List UInt8)
  | 0, _, _, _ => some []
  | fuel + 1, k, total, n =>
    if n = 0 then some []
    else
      let absOff := offset + total
      let lba := inst.baseLba + start + absOff / 512
      let offIn := absOff % 512
      if io k then
        let take := if 512 - offIn > n then n else 512 - offIn
        match readLoop io inst start offset fuel (k + 1) (total + take) (n - take) with
        | none => none
        | some rest => some (((inst.disk lba).drop offIn.toNat).take take.toNat ++ rest)
      else none

/-- `none` is the return value -1. fs.c:324-353 -/
def fsIreadInst (io : Nat → Bool) (inst : FsInstance) (idx : Nat) (offset n : UInt32) :
    Option (List UInt8) :=
  if !inst.initialized then none
  else if idx ≥ inst.super.fileCount then none
  else
    let e := inst.super.files idx
    if e.type ≠ .file then none
    else if offset ≥ e.size then some []
    else
      let n := if offset + n > e.size then e.size - offset else n
      readLoop io inst e.startSector offset n.toNat 0 0 n

/-- `data 0, …, data (size - 1)`. -/
structure FileBytes where
  data : Nat → UInt8
  size : UInt32

def FileBytes.bytes (f : FileBytes) : List UInt8 := (List.range f.size.toNat).map f.data

/-- The sectors from `start` on hold the file. -/
def StoredAt (inst : FsInstance) (start : UInt32) (f : FileBytes) : Prop :=
  ∀ k, k < sectorsOf f.size →
    inst.disk (inst.baseLba + start + UInt32.ofNat k) = dataSector f.data f.size k

variable {size : UInt32} {f i s : Nat} {inst inst' : FsInstance} {sup : FsSuper} {bm : Nat → Bool}
  {disk : UInt32 → Sector} {fromRoot isRoot : Bool} {t : Task} {path : CStr} {w : FsRun}
  {env : Env}

theorem sectorsOf_eq (h : size.toNat + 511 < 2 ^ 32) :
    sectorsOf size = (size.toNat + 511) / 512 := by
  unfold sectorsOf
  rw [UInt32.toNat_div, UInt32.toNat_add]
  have h1 : (511 : UInt32).toNat = 511 := rfl
  have h2 : (512 : UInt32).toNat = 512 := rfl
  rw [h1, h2, Nat.mod_eq_of_lt h]

def sectorByte (inst : FsInstance) (start a : UInt32) : UInt8 :=
  (inst.disk (inst.baseLba + start + a / 512)).getD (a % 512).toNat 0

theorem sectorByte_add (inst : FsInstance) (start : UInt32) {a : UInt32} {j : Nat} (h : a.toNat % 512 + j < 512) :
    (a + UInt32.ofNat j) / 512 = a / 512 ∧
    sectorByte inst start (a + UInt32.ofNat j) =
      (inst.disk (inst.baseLba + start + a / 512)).getD (a.toNat % 512 + j) 0 := by
  have h512 : (512 : UInt32).toNat = 512 := rfl
  have hsum : (a + UInt32.ofNat j).toNat = a.toNat + j := by
    have := UInt32.toNat_lt a
    rw [UInt32.toNat_add, UInt32.toNat_ofNat_of_lt' (show j < UInt32.size by
      show j < 4294967296; omega)]
    omega
  have hdiv : (a + UInt32.ofNat j) / 512 = a / 512 := by
    apply UInt32.toNat_inj.mp
    rw [UInt32.toNat_div, UInt32.toNat_div, hsum, h512]
    omega
  refine ⟨hdiv, ?_⟩
  unfold sectorByte
  rw [hdiv, UInt32.toNat_mod, hsum, h512]
  congr 1
  omega

theorem sectorByte_stored {start : UInt32} {f : FileBytes} (hs : f.size.toNat + 511 < 2 ^ 32)
    (hst : StoredAt inst start f) {k : Nat} (hk : k < f.size.toNat) :
    (inst.disk (inst.baseLba + start + UInt32.ofNat k / 512)).length = 512 ∧
    sectorByte inst start (UInt32.ofNat k) = f.data k := by
  have h512 : (512 : UInt32).toNat = 512 := rfl
  have hk' : (UInt32.ofNat k).toNat = k := UInt32.toNat_ofNat_of_lt' (show k < 4294967296 by omega)
  have hdiv : UInt32.ofNat k / 512 = UInt32.ofNat (k / 512) := by
    apply UInt32.toNat_inj.mp
    rw [UInt32.toNat_div, hk', h512, UInt32.toNat_ofNat_of_lt']
    show k / 512 < 4294967296
    omega
  have hsec : inst.disk (inst.baseLba + start + UInt32.ofNat k / 512) =
      dataSector f.data f.size (k / 512) := by
    rw [hdiv]
    exact hst _ (by rw [sectorsOf_eq hs]; omega)
  have hoff : (UInt32.ofNat (k / 512 * 512)).toNat = k / 512 * 512 :=
    UInt32.toNat_ofNat_of_lt' (show _ < 4294967296 by omega)
  have htake : k % 512 < (if UInt32.ofNat (k / 512 * 512) + 512 ≤ f.size then 512
      else f.size - UInt32.ofNat (k / 512 * 512)).toNat := by
    split
    · rw [h512]
      omega
    · rw [UInt32.toNat_sub_of_le _ _ (UInt32.le_iff_toNat_le.mpr (by omega)), hoff]
      omega
  unfold sectorByte
  rw [hsec, UInt32.toNat_mod, hk', h512]
  unfold dataSector
  refine ⟨by rw [length_map, length_range], ?_⟩
  rw [getD_eq_getElem?_getD, getElem?_map, getElem?_range (by omega), Option.map_some,
    Option.getD_some, if_pos htake, hoff]
  congr 1
  omega

theorem slice_eq {l : List UInt8} {r t : Nat} (h : r + t ≤ l.length) :
    (l.drop r).take t = (List.range t).map fun j => l.getD (r + j) 0 := by
  apply ext_getElem
  · rw [length_take, length_drop, length_map, length_range]
    omega
  · intro j h1 h2
    rw [length_map, length_range] at h2
    rw [getElem_take, getElem_drop, getElem_map, getElem_range, getD_eq_getElem _ _ (by omega)]

theorem map_range_split {α : Type} (g : Nat → α) {a n : Nat} (h : a ≤ n) :
    (List.range n).map g = (List.range a).map g ++ (List.range (n - a)).map fun j => g (a + j) := by
  conv_lhs => rw [show n = a + (n - a) by omega, range_add, map_append, map_map]
  rfl

theorem take_toNat (a n : UInt32) :
    (if 512 - a % 512 > n then n else 512 - a % 512).toNat = min n.toNat (512 - a.toNat % 512) := by
  have h512 : (512 : UInt32).toNat = 512 := rfl
  have hroom : (512 - a % 512).toNat = 512 - a.toNat % 512 := by
    rw [UInt32.toNat_sub_of_le, UInt32.toNat_mod, h512]
    rw [UInt32.le_iff_toNat_le, UInt32.toNat_mod, h512]
    omega
  rw [← hroom]
  split
  · rename_i hgt
    have := UInt32.lt_iff_toNat_lt.mp hgt
    omega
  · rename_i hgt
    have : ¬ n.toNat < (512 - a % 512).toNat := fun hc => hgt (UInt32.lt_iff_toNat_lt.mpr hc)
    omega

/-- Whatever wraps, `n` bytes come out, and byte `j` is the one at `offset + total + j`. -/
theorem readLoop_eq (inst : FsInstance) (io : Nat → Bool) (start offset : UInt32) :
    ∀ (fuel k : Nat) (total n : UInt32), n.toNat ≤ fuel →
      (∀ j < n.toNat, (inst.disk (inst.baseLba + start +
        (offset + total + UInt32.ofNat j) / 512)).length = 512) →
      (∀ out, readLoop io inst start offset fuel k total n = some out →
        out = (List.range n.toNat).map fun j =>
          sectorByte inst start (offset + total + UInt32.ofNat j)) ∧
      ((∀ k, io k = true) → (readLoop io inst start offset fuel k total n).isSome) := by
  intro fuel
  induction fuel with
  | zero =>
    intro k total n hn _
    have h0 : n.toNat = 0 := by omega
    refine ⟨fun out ho => ?_, fun _ => rfl⟩
    cases ho
    simp [h0]
  | succ fuel ih =>
    intro k total n hn hlen
    unfold readLoop
    by_cases hz : n = 0
    · subst hz
      refine ⟨fun out ho => ?_, fun _ => by simp⟩
      simp only [if_true, Option.some.injEq] at ho
      subst ho
      simp
    · have hpos : 0 < n.toNat := Nat.pos_of_ne_zero fun h => hz (UInt32.toNat_inj.mp h)
      have htake := take_toNat (offset + total) n
      simp only [hz, if_false]
      generalize (if 512 - (offset + total) % 512 > n then n else 512 - (offset + total) % 512) =
        take at htake ⊢
      have hsub : (n - take).toNat = n.toNat - take.toNat := by
        apply UInt32.toNat_sub_of_le
        rw [UInt32.le_iff_toNat_le]
        omega
      have hnext : ∀ j, offset + (total + take) + UInt32.ofNat j =
          offset + total + UInt32.ofNat (take.toNat + j) := by
        intro j
        rw [UInt32.ofNat_add, UInt32.ofNat_toNat]
        ac_rfl
      obtain ⟨ih1, ih2⟩ := ih (k + 1) (total + take) (n - take) (by omega) fun j hj => by
        rw [hnext]
        exact hlen _ (by omega)
      -- a round stays in one sector
      have hsec : ((inst.disk (inst.baseLba + start + (offset + total) / 512)).drop
          ((offset + total) % 512).toNat).take take.toNat =
          (List.range take.toNat).map fun j =>
            sectorByte inst start (offset + total + UInt32.ofNat j) := by
        have h0 := hlen 0 hpos
        rw [(sectorByte_add inst start (by omega)).1] at h0
        rw [UInt32.toNat_mod, show (512 : UInt32).toNat = 512 from rfl, slice_eq (by omega)]
        exact map_congr_left fun j hj =>
          (sectorByte_add inst start (by rw [mem_range] at hj; omega)).2.symm
      by_cases hio : io k = true
      · simp only [hio, if_true]
        refine ⟨fun out ho => ?_, fun hall => ?_⟩
        · cases hr : readLoop io inst start offset fuel (k + 1) (total + take) (n - take) with
          | none => simp [hr] at ho
          | some rest =>
            simp only [hr, Option.some.injEq] at ho
            rw [← ho, hsec, ih1 rest hr, hsub, map_range_split _ (by omega : take.toNat ≤ n.toNat)]
            simp only [hnext]
        · obtain ⟨rest, hr⟩ := Option.isSome_iff_exists.mp (ih2 hall)
          simp [hr]
      · simp only [hio]
        exact ⟨fun out ho => by simp at ho, fun hall => absurd (hall k) hio⟩

/-- The length that the loop starts with. -/
def readLen (size offset n : UInt32) : UInt32 :=
  if offset ≥ size then 0 else if offset + n > size then size - offset else n

theorem readLen_toNat (size : UInt32) {offset n : UInt32}
    (h : size.toNat ≤ offset.toNat ∨ offset.toNat + n.toNat < 2 ^ 32) :
    (readLen size offset n).toNat = min n.toNat (size.toNat - offset.toNat) := by
  unfold readLen
  simp only [ge_iff_le, gt_iff_lt, UInt32.le_iff_toNat_le, UInt32.lt_iff_toNat_lt,
    UInt32.toNat_add]
  split
  · rw [UInt32.toNat_zero]
    omega
  · rw [Nat.mod_eq_of_lt (by omega)]
    split
    · rw [UInt32.toNat_sub_of_le _ _ (UInt32.le_iff_toNat_le.mpr (by omega))]
      omega
    · omega

theorem fsIreadInst_loop {io : Nat → Bool} {offset n : UInt32}
    (hinit : inst.initialized = true) (hi : i < inst.super.fileCount)
    (ht : (inst.super.files i).type = .file) :
    fsIreadInst io inst i offset n =
      readLoop io inst (inst.super.files i).startSector offset
        (readLen (inst.super.files i).size offset n).toNat 0 0
        (readLen (inst.super.files i).size offset n) := by
  unfold fsIreadInst readLen
  simp only [hinit, Bool.not_true, Bool.false_eq_true, if_false, Nat.not_le.mpr hi, ge_iff_le, ht,
    ne_eq, not_true_eq_false]
  split
  · rfl
  · rfl

/-- Reading a stored file: the bytes from `offset` on, at most `n` of them. -/
theorem fsIreadInst_eq {io : Nat → Bool} {offset n : UInt32}
    {f : FileBytes} (hinit : inst.initialized = true) (hi : i < inst.super.fileCount)
    (ht : (inst.super.files i).type = .file) (hsize : (inst.super.files i).size = f.size)
    (hs : f.size.toNat + 511 < 2 ^ 32) (hst : StoredAt inst (inst.super.files i).startSector f)
    (hn : offset.toNat + n.toNat < 2 ^ 32) :
    (∀ out, fsIreadInst io inst i offset n = some out →
      out = (f.bytes.drop offset.toNat).take n.toNat) ∧
    ((∀ k, io k = true) → (fsIreadInst io inst i offset n).isSome) := by
  have hm := readLen_toNat f.size (.inr hn)
  have hat : ∀ j, offset + 0 + UInt32.ofNat j = UInt32.ofNat (offset.toNat + j) := by
    intro j
    rw [UInt32.ofNat_add, UInt32.ofNat_toNat, UInt32.add_zero]
  rw [fsIreadInst_loop hinit hi ht, hsize]
  obtain ⟨h1, h2⟩ := readLoop_eq inst io (inst.super.files i).startSector offset
    _ 0 0 (readLen f.size offset n) le_rfl fun j hj => by
      rw [hat]
      exact (sectorByte_stored hs hst (by omega)).1
  refine ⟨fun out ho => ?_, h2⟩
  rw [h1 out ho, hm]
  apply ext_getElem
  · simp [FileBytes.bytes]
  · intro j hj _
    rw [length_map, length_range] at hj
    simp only [FileBytes.bytes, getElem_map, getElem_range, getElem_take, getElem_drop, hat]
    exact (sectorByte_stored hs hst (by omega)).2

/-! ## Reads of any range -/

/-- The sectors that the loop reads. fs.c:338-351 -/
def readLbas (inst : FsInstance) (start offset : UInt32) :
    (fuel : Nat) → (total n : UInt32) → List UInt32
  | 0, _, _ => []
  | fuel + 1, total, n =>
    if n = 0 then []
    else
      let absOff := offset + total
      let take := if 512 - absOff % 512 > n then n else 512 - absOff % 512
      (inst.baseLba + start + absOff / 512) :: readLbas inst start offset fuel (total + take) (n - take)

theorem readLbas_mem {start offset lba : UInt32} :
    ∀ (fuel : Nat) (total n : UInt32), lba ∈ readLbas inst start offset fuel total n →
      ∃ j < n.toNat, lba = inst.baseLba + start + (offset + total + UInt32.ofNat j) / 512 := by
  intro fuel
  induction fuel with
  | zero =>
    intro total n h
    cases h
  | succ fuel ih =>
    intro total n h
    unfold readLbas at h
    by_cases hz : n = 0
    · rw [if_pos hz] at h
      cases h
    · have hpos : 0 < n.toNat := Nat.pos_of_ne_zero fun h => hz (UInt32.toNat_inj.mp h)
      have htake := take_toNat (offset + total) n
      simp only [hz, if_false] at h
      generalize (if 512 - (offset + total) % 512 > n then n else 512 - (offset + total) % 512) =
        take at htake h
      have hsub : (n - take).toNat = n.toNat - take.toNat :=
        UInt32.toNat_sub_of_le _ _ (UInt32.le_iff_toNat_le.mpr (by omega))
      obtain rfl | h := mem_cons.mp h
      · exact ⟨0, hpos, by rw [show UInt32.ofNat 0 = 0 from rfl, UInt32.add_zero]⟩
      · obtain ⟨j, hj, rfl⟩ := ih _ _ h
        refine ⟨take.toNat + j, by omega, ?_⟩
        rw [UInt32.ofNat_add, UInt32.ofNat_toNat]
        ac_rfl

/-- The return value, `(int)total` or -1, and the bytes copied. fs.c:328-352 -/
def fsIread (io : Nat → Bool) (inst : FsInstance) (idx : Nat) (offset n : UInt32) :
    Int32 × List UInt8 :=
  match fsIreadInst io inst idx offset n with
  | none => (-1, [])
  | some out => (Int32.ofNat out.length, out)

/-- How many bytes of a file a read is to give. -/
def readCount (size offset n : UInt32) : Nat :=
  if offset < size then min n.toNat (size.toNat - offset.toNat) else 0

/-- A read gives the file's bytes from `offset` on and reads sectors of the file only. -/
structure ReadsRange (io : Nat → Bool) (inst : FsInstance) (idx : Nat) (offset n : UInt32) :
    Prop where
  ret : (fsIread io inst idx offset n).1.toInt = readCount (inst.super.files idx).size offset n
  bytes : (fsIread io inst idx offset n).2 =
    (List.range (readCount (inst.super.files idx).size offset n)).map fun j =>
      sectorByte inst (inst.super.files idx).startSector (UInt32.ofNat (offset.toNat + j))
  extent : ∀ lba ∈ readLbas inst (inst.super.files idx).startSector offset
    (readLen (inst.super.files idx).size offset n).toNat 0
    (readLen (inst.super.files idx).size offset n),
    ∃ q, 512 * q < (inst.super.files idx).size.toNat ∧
      lba = inst.baseLba + (inst.super.files idx).startSector + UInt32.ofNat q

theorem readLen_wraps {offset n : UInt32} (ho : offset.toNat < size.toNat)
    (h : 2 ^ 32 ≤ offset.toNat + n.toNat) : readLen size offset n = n := by
  have h1 := UInt32.toNat_lt n
  have h2 := UInt32.toNat_lt size
  unfold readLen
  rw [if_neg (by rw [ge_iff_le, UInt32.le_iff_toNat_le]; omega), if_neg]
  rw [gt_iff_lt, UInt32.lt_iff_toNat_lt, UInt32.toNat_add]
  omega

/-- Sectors have 512 bytes and none fails to be read. -/
structure Readable (io : Nat → Bool) (inst : FsInstance) (i : Nat) : Prop where
  initialized : inst.initialized = true
  used : i < inst.super.fileCount
  file : (inst.super.files i).type = .file
  sector : ∀ lba, (inst.disk lba).length = 512
  io : ∀ k, io k = true

theorem fsIread_eq {io : Nat → Bool} {offset n : UInt32} (h : Readable io inst i) :
    fsIread io inst i offset n =
      (Int32.ofNat (readLen (inst.super.files i).size offset n).toNat,
        (List.range (readLen (inst.super.files i).size offset n).toNat).map fun j =>
          sectorByte inst (inst.super.files i).startSector (UInt32.ofNat (offset.toNat + j))) := by
  obtain ⟨h1, h2⟩ := readLoop_eq inst io (inst.super.files i).startSector offset
    _ 0 0 (readLen (inst.super.files i).size offset n) le_rfl fun _ _ => h.sector _
  obtain ⟨out, hout⟩ := Option.isSome_iff_exists.mp (h2 h.io)
  unfold fsIread
  rw [fsIreadInst_loop h.initialized h.used h.file, hout, h1 out hout]
  simp only [length_map, length_range, UInt32.ofNat_add, UInt32.ofNat_toNat, UInt32.add_zero]

/-- A read that no block read fails gives the bytes of the file from `offset` on, at
most `n` of them, exactly when `offset` is behind the end, or `offset + n` does not wrap and the
count fits an `int`. -/
theorem fsIread_reads_iff {io : Nat → Bool} (h : Readable io inst i) (offset n : UInt32) :
    ReadsRange io inst i offset n ↔ (inst.super.files i).size ≤ offset ∨
      offset.toNat + n.toNat < 2 ^ 32 ∧ readCount (inst.super.files i).size offset n < 2 ^ 31 := by
  have hlt := UInt32.toNat_lt (inst.super.files i).size
  have hcount : readCount (inst.super.files i).size offset n =
      min n.toNat ((inst.super.files i).size.toNat - offset.toNat) := by
    unfold readCount
    simp only [UInt32.lt_iff_toNat_lt]
    split <;> omega
  constructor
  · intro hr
    rw [UInt32.le_iff_toNat_le]
    by_contra hnot
    obtain ⟨hoff, hnot⟩ := not_or.mp hnot
    have hret := hr.ret
    rw [fsIread_eq h, Int32.toInt_ofNat', Int.bmod_def] at hret
    by_cases hwrap : offset.toNat + n.toNat < 2 ^ 32
    · rw [readLen_toNat _ (.inr hwrap), ← hcount] at hret
      have hbig : ¬ readCount (inst.super.files i).size offset n < 2 ^ 31 := fun hc => hnot ⟨hwrap, hc⟩
      have hle : readCount (inst.super.files i).size offset n < 2 ^ 32 := by omega
      simp only [Int32.size] at hret
      split at hret <;> omega
    · rw [readLen_wraps (by omega) (by omega), hcount] at hret
      have := UInt32.toNat_lt n
      simp only [Int32.size] at hret
      split at hret <;> omega
  · intro hc
    have hm : (readLen (inst.super.files i).size offset n).toNat =
        readCount (inst.super.files i).size offset n := by
      rw [hcount]
      exact readLen_toNat _ (hc.imp UInt32.le_iff_toNat_le.mp And.left)
    have hfits : readCount (inst.super.files i).size offset n < 2 ^ 31 := by
      obtain hc | hc := hc
      · rw [UInt32.le_iff_toNat_le] at hc
        omega
      · exact hc.2
    refine ⟨?_, ?_, fun lba hlba => ?_⟩
    · rw [fsIread_eq h, hm, Int32.toInt_ofNat', Int.bmod_def]
      simp only [Int32.size]
      split <;> omega
    · rw [fsIread_eq h, hm]
    · obtain ⟨j, hj, rfl⟩ := readLbas_mem _ _ _ hlba
      have hj' : (UInt32.ofNat (offset.toNat + j)).toNat = offset.toNat + j :=
        UInt32.toNat_ofNat_of_lt' (show _ < 4294967296 by omega)
      refine ⟨(offset.toNat + j) / 512, by omega, ?_⟩
      rw [UInt32.add_zero, ← UInt32.ofNat_toNat (x := offset), ← UInt32.ofNat_add,
        UInt32.ofNat_toNat]
      congr 1
      apply UInt32.toNat_inj.mp
      rw [UInt32.toNat_div, hj', UInt32.toNat_ofNat_of_lt' (show _ < 4294967296 by omega)]
      rfl

def twoBytes : FsInstance := { freshImage with
  super := ⟨1, fun _ => { blankEntry with startSector := 17, size := 2, type := .file }, by decide⟩
  disk := fun _ => List.replicate 512 7 }

theorem twoBytes_readable : Readable (fun _ => true) twoBytes 0 :=
  ⟨rfl, by decide, rfl, fun _ => List.length_replicate, fun _ => rfl⟩

theorem fsIread_reads_second : ReadsRange (fun _ => true) twoBytes 0 1 1 :=
  (fsIread_reads_iff twoBytes_readable 1 1).mpr (.inr ⟨by decide, by decide⟩)

/-- `1 + 0xFFFFFFFF` wraps to 0, so the length stays what it is and -1 is returned. -/
theorem wrapping_read_runs_on : ¬ ReadsRange (fun _ => true) twoBytes 0 1 0xFFFFFFFF := by
  intro h
  have hret := h.ret
  rw [fsIread_eq twoBytes_readable] at hret
  cases hret

/-! ## Runs -/

/-- A live file with bytes. -/
def FsSuper.Filled (sup : FsSuper) (f : Nat) : Prop :=
  f < sup.fileCount ∧ (sup.files f).type = .file ∧ (sup.files f).size ≠ 0

/-- Files lie in the data area, on sectors that are marked and that no other file has. -/
structure Placed (inst : FsInstance) : Prop where
  le : inst.nSectors ≤ 8192
  extent : ∀ f, inst.super.Filled f →
    fsSuperSectors ≤ (inst.super.files f).startSector.toNat ∧
    (inst.super.files f).startSector.toNat + sectorsOf (inst.super.files f).size ≤ inst.nSectors ∧
    (inst.super.files f).size.toNat < 512 * inst.nSectors
  marked : ∀ f s, inst.super.Has f s → inst.bitmap s = true
  disjoint : ∀ f g s, inst.super.Has f s → inst.super.Has g s → f = g

/-- Slot `f` is a file with content `b`. -/
structure Keeps (inst : FsInstance) (f : Nat) (b : FileBytes) : Prop where
  size : (inst.super.files f).size = b.size
  stored : StoredAt inst (inst.super.files f).startSector b

structure FsRun where
  inst : FsInstance
  /-- ghost: the bytes of the last write to the slot's file that returned 0 -/
  content : Nat → Option FileBytes

def FsInstance.IsFile (inst : FsInstance) (f : Nat) : Prop :=
  f < inst.super.fileCount ∧ (inst.super.files f).type = .file

/-- Every file lies where it should and has its bytes, as in an image that `mkfs` made. -/
def Intact (w : FsRun) : Prop :=
  w.inst.initialized = true ∧ Placed w.inst ∧
    ∀ f b, w.inst.IsFile f → w.content f = some b → Keeps w.inst f b

/-- The content after a call: the new bytes when a write returned 0, none when it made the
file and failed. -/
def nextContent (isRoot : Bool) (w : FsRun) : Op → Nat → Option FileBytes
  | .write env t path data size fromRoot =>
    match findOrCreateFileInst w.inst isRoot t path fromRoot with
    | none => w.content
    | some (i, _) =>
      if (fsIwriteAllInst env w.inst isRoot t path data size fromRoot).1 = 0 then
        update w.content i (some ⟨data, size⟩)
      else if (fsIopenInst w.inst t path fromRoot).isNone then update w.content i none
      else w.content
  | _ => w.content

def runStep (isRoot : Bool) (w : FsRun) (op : Op) : Option FsRun :=
  (step isRoot w.inst op).map fun inst => ⟨inst, nextContent isRoot w op⟩

def runs (isRoot : Bool) : LTS FsRun Op := .ofFn Intact (runStep isRoot)

/-- The size is below the device's. -/
def FitsDevice (inst : FsInstance) : Op → Prop
  | .write _ _ _ _ size _ => size.toNat < 512 * inst.nSectors
  | _ => True

/-- A write to an existing file for which there is room gets all its data out, but not the
superblock. -/
def StrandsWrite (isRoot : Bool) (inst : FsInstance) : Op → Prop
  | .write env t path _ size fromRoot =>
    (fsIopenInst inst t path fromRoot).isSome ∧
      (findOrCreateFileInst inst isRoot t path fromRoot).isSome ∧
      (∃ start, FreeRun inst start (neededOf size)) ∧ (∀ k, k < neededOf size → env.io k = true) ∧
      (env.heap && allOk env (neededOf size) fsSuperSectors) = false
  | _ => False

def Committing (isRoot : Bool) (w : FsRun) (op : Op) : Prop :=
  FitsDevice w.inst op ∧ ¬ StrandsWrite isRoot w.inst op

/-! ## Placement -/

theorem Placed.has_iff (h : Placed inst) (hf : inst.super.Filled f)
    (s : Nat) : inst.super.Has f s ↔ (inst.super.files f).startSector.toNat ≤ s ∧
      s < (inst.super.files f).startSector.toNat + sectorsOf (inst.super.files f).size := by
  obtain ⟨-, h2, -⟩ := h.extent f hf
  have hle := h.le
  obtain ⟨hlt, ht, hz⟩ := hf
  have hiff := inRun_iff (s := s) (a := (inst.super.files f).startSector.toNat)
    (n := sectorsOf (inst.super.files f).size) (by omega)
  rw [UInt32.ofNat_toNat] at hiff
  unfold FsSuper.Has FsEntry.Holds
  rw [hiff]
  simp [hlt, ht, hz]

theorem FsSuper.Has.filled (h : sup.Has f s) : sup.Filled f :=
  ⟨h.1, h.2.1, h.2.2.1⟩

theorem Placed.same (h : Placed inst) (hn : inst'.nSectors = inst.nSectors)
    (hb : inst'.bitmap = inst.bitmap)
    (hfill : ∀ f, inst'.super.Filled f → inst.super.Filled f ∧
      inst'.super.files f = inst.super.files f) : Placed inst' := by
  have hhas : ∀ f s, inst'.super.Has f s → inst.super.Has f s := by
    intro f s hf
    obtain ⟨hfi, he⟩ := hfill f hf.filled
    exact ⟨hfi.1, he ▸ hf.2⟩
  refine ⟨hn ▸ h.le, ?_, ?_, ?_⟩
  · intro f hf
    obtain ⟨hfi, he⟩ := hfill f hf
    rw [he, hn]
    exact h.extent f hfi
  · intro f s hf
    rw [hb]
    exact h.marked f s (hhas f s hf)
  · intro f g s hf hg
    exact h.disjoint f g s (hhas f s hf) (hhas g s hg)

theorem Placed.moved {start : Nat}
    (h : Placed { inst with super := sup })
    (hi : i < sup.fileCount) (ht : (sup.files i).type = .file)
    (hfit : size.toNat < 512 * inst.nSectors) (hrun : FreeRun inst start (neededOf size))
    (hbits : ∀ s, bm s = true ↔ (inst.bitmap s = true ∨ (start ≤ s ∧ s < start + neededOf size)) ∧
      ¬ ((sup.files i).size ≠ 0 ∧ fsSuperSectors ≤ (sup.files i).startSector.toNat ∧
        s < inst.nSectors ∧ InRun (sup.files i).startSector (sectorsOf (sup.files i).size) s)) :
    Placed { inst with
      super := sup.setFile i { sup.files i with startSector := UInt32.ofNat start, size := size }
      bitmap := bm
      disk := disk } := by
  obtain ⟨hle, hext, hmark, hdis⟩ := h
  simp only at hle hext hmark hdis
  obtain ⟨hlo, hhi, hfree⟩ := hrun
  have hneed : size ≠ 0 → neededOf size = sectorsOf size := by
    intro hz
    have hpos : 0 < size.toNat := by
      rcases Nat.eq_zero_or_pos size.toNat with h0 | h0
      · exact absurd (UInt32.toNat_inj.mp h0) hz
      · exact h0
    have : sectorsOf size = (size.toNat + 511) / 512 := sectorsOf_eq (by omega)
    unfold neededOf
    rw [if_neg (by omega)]
  have hstart : (UInt32.ofNat start).toNat = start := by
    rw [UInt32.toNat_ofNat_of_lt']
    exact Nat.lt_of_le_of_lt (by omega : start ≤ 8192) (by decide)
  have hnew : ∀ f s, (sup.setFile i { sup.files i with
      startSector := UInt32.ofNat start, size := size }).Has f s →
      (f ≠ i ∧ sup.Has f s) ∨ (f = i ∧ start ≤ s ∧ s < start + neededOf size) := by
    intro f s hf
    rw [FsSuper.setFile_has] at hf
    rcases hf with hf | ⟨rfl, -, -, hz, hr⟩
    · exact .inl hf
    · rw [← hneed hz] at hr
      exact .inr ⟨rfl, (inRun_iff (by omega)).mp hr⟩
  have hclash : ∀ f s, sup.Has f s → start ≤ s → s < start + neededOf size → False := by
    intro f s hf h1 h2
    have hb := hmark f s hf
    rw [hfree s h1 h2] at hb
    cases hb
  have hold : ∀ s, (sup.files i).size ≠ 0 →
      InRun (sup.files i).startSector (sectorsOf (sup.files i).size) s → sup.Has i s :=
    fun s hz hr => ⟨hi, ht, hz, hr⟩
  refine ⟨hle, ?_, ?_, ?_⟩
  · intro f hf
    obtain ⟨hflt, hft, hfz⟩ := hf
    by_cases hfi : f = i
    · subst hfi
      simp only [FsSuper.setFile_same] at hfz ⊢
      rw [hstart, ← hneed hfz]
      exact ⟨hlo, hhi, hfit⟩
    · simp only [FsSuper.setFile_ne _ _ hfi] at hft hfz ⊢
      exact hext f ⟨hflt, hft, hfz⟩
  · intro f s hf
    rw [hbits]
    rcases hnew f s hf with ⟨hfi, hf⟩ | ⟨rfl, h1, h2⟩
    · refine ⟨.inl (hmark f s hf), ?_⟩
      rintro ⟨hz, -, -, hr⟩
      exact hfi (hdis f i s hf (hold s hz hr))
    · refine ⟨.inr ⟨h1, h2⟩, ?_⟩
      rintro ⟨hz, -, -, hr⟩
      exact hclash f s (hold s hz hr) h1 h2
  · intro f g s hf hg
    rcases hnew f s hf with ⟨-, hf'⟩ | ⟨hfi, h1, h2⟩ <;>
      rcases hnew g s hg with ⟨-, hg'⟩ | ⟨hgi, h3, h4⟩
    · exact hdis f g s hf' hg'
    · exact (hclash f s hf' h3 h4).elim
    · exact (hclash g s hg' h1 h2).elim
    · exact hfi.trans hgi.symm

theorem Placed.removed
    (h : Placed inst) (hlt : i < inst.super.fileCount) (ht : (inst.super.files i).type = .file)
    (hbits : ∀ s, bm s = true ↔ inst.bitmap s = true ∧ ¬ ((inst.super.files i).size ≠ 0 ∧
      fsSuperSectors ≤ (inst.super.files i).startSector.toNat ∧ s < inst.nSectors ∧
      InRun (inst.super.files i).startSector (sectorsOf (inst.super.files i).size) s)) :
    Placed { inst with
      super := inst.super.setFile i zeroEntry
      bitmap := bm
      disk := disk } := by
  have hnew : ∀ f s, (inst.super.setFile i zeroEntry).Has f s → f ≠ i ∧ inst.super.Has f s := by
    intro f s hf
    rw [FsSuper.setFile_has] at hf
    rcases hf with hf | ⟨-, -, hz, -⟩
    · exact hf
    · cases hz
  refine ⟨h.le, ?_, ?_, ?_⟩
  · intro f hf
    obtain ⟨hflt, hft, hfz⟩ := hf
    by_cases hfi : f = i
    · subst hfi
      simp only [FsSuper.setFile_same, zeroEntry] at hft
      cases hft
    · simp only [FsSuper.setFile_ne _ _ hfi] at hft hfz ⊢
      exact h.extent f ⟨hflt, hft, hfz⟩
  · intro f s hf
    obtain ⟨hfi, hf⟩ := hnew f s hf
    rw [hbits]
    refine ⟨h.marked f s hf, ?_⟩
    rintro ⟨hz, -, -, hr⟩
    exact hfi (h.disjoint f i s hf ⟨hlt, ht, hz, hr⟩)
  · intro f g s hf hg
    exact h.disjoint f g s (hnew f s hf).2 (hnew g s hg).2

theorem Placed.added {e : FsEntry}
    (h : Placed inst) (ha : inst.super.Adds i e sup) (he : e.size = 0) :
    Placed { inst with super := sup, disk := disk } := by
  refine h.same rfl rfl ?_
  rintro f ⟨hflt, hft, hfz⟩
  simp only [ha.files, ha.count] at hflt hft hfz ⊢
  by_cases hfi : f = i
  · subst hfi
    simp only [update_self] at hfz
    exact absurd he hfz
  · simp only [update_of_ne hfi] at hft hfz ⊢
    exact ⟨⟨hflt.resolve_right hfi, hft, hfz⟩, trivial⟩

theorem Placed.found (h : Placed inst) (disk : UInt32 → Sector)
    (hf : findOrCreateFileInst inst isRoot t path fromRoot = some (i, sup)) :
    Placed { inst with super := sup, disk := disk } := by
  rcases findOrCreateFileInst_cases hf with ⟨-, -, rfl⟩ | ⟨parent, base, -, -, ha⟩
  · exact h.same rfl rfl fun _ hfi => ⟨hfi, rfl⟩
  · exact h.added ha rfl

/-! ## Contents -/

theorem Keeps.frame {b : FileBytes} (hk : Keeps inst f b)
    (hf : inst.IsFile f) (he : inst'.super.files f = inst.super.files f)
    (hbase : inst'.baseLba = inst.baseLba)
    (hdisk : ∀ s, inst.super.Has f s →
      inst'.disk (inst.baseLba + UInt32.ofNat s) = inst.disk (inst.baseLba + UInt32.ofNat s)) :
    Keeps inst' f b := by
  refine ⟨by rw [he]; exact hk.size, ?_⟩
  intro k hlt
  have hz : (inst.super.files f).size ≠ 0 := by
    intro hz
    rw [← hk.size, hz, sectorsOf_zero] at hlt
    omega
  rw [he, hbase, ← hk.stored k hlt]
  rw [← hk.size] at hlt
  have hin : InRun (inst.super.files f).startSector (sectorsOf (inst.super.files f).size)
      ((inst.super.files f).startSector + UInt32.ofNat k).toNat := ⟨k, hlt, rfl⟩
  have := hdisk _ ⟨hf.1, hf.2, hz, hin⟩
  rwa [UInt32.ofNat_toNat, ← UInt32.add_assoc] at this

theorem Placed.not_super (h : Placed inst)
    (hf : inst.super.Has f s) (j : Nat) (hj : j < fsSuperSectors) :
    inst.baseLba + UInt32.ofNat s ≠ inst.baseLba + UInt32.ofNat j := by
  have hin := (h.has_iff hf.filled s).mp hf
  obtain ⟨h1, h2, -⟩ := h.extent f hf.filled
  have hle := h.le
  have hj' : j < 17 := hj
  have h1' : 17 ≤ (inst.super.files f).startSector.toNat := h1
  intro he
  have := lba_inj (by omega) (by omega) he
  omega

theorem Placed.not_run (h : Placed inst) {start n : Nat}
    (hf : inst.super.Has f s) (hrun : FreeRun inst start n) (k : Nat) (hk : k < n) :
    inst.baseLba + UInt32.ofNat s ≠ inst.baseLba + UInt32.ofNat start + UInt32.ofNat k := by
  have hin := (h.has_iff hf.filled s).mp hf
  obtain ⟨-, h2, -⟩ := h.extent f hf.filled
  have hle := h.le
  have hhi := hrun.hi
  intro he
  rw [UInt32.add_assoc, ← UInt32.ofNat_add] at he
  have hs : s = start + k := lba_inj (by omega) (by omega) he
  have hb := h.marked f s hf
  rw [hs, hrun.free (start + k) (by omega) (by omega)] at hb
  cases hb

theorem nextContent_failed (isRoot : Bool) (w : FsRun) (env : Env) (t : Task) (path : CStr)
    (data : Nat → UInt8) (size : UInt32) (fromRoot : Bool)
    (hrc : (fsIwriteAllInst env w.inst isRoot t path data size fromRoot).1 ≠ 0) :
    ∀ f b, nextContent isRoot w (.write env t path data size fromRoot) f = some b →
      w.content f = some b ∧
      ∀ i sup, findOrCreateFileInst w.inst isRoot t path fromRoot = some (i, sup) →
        fsIopenInst w.inst t path fromRoot = none → f ≠ i := by
  intro f b hf
  unfold nextContent at hf
  cases hfc : findOrCreateFileInst w.inst isRoot t path fromRoot with
  | none =>
    simp only [hfc] at hf
    exact ⟨hf, fun i sup h => by cases h⟩
  | some p =>
    obtain ⟨i, sup⟩ := p
    simp only [hfc, if_neg hrc] at hf
    split at hf
    · rw [update_apply] at hf
      split at hf
      · cases hf
      · rename_i hne
        refine ⟨hf, fun i' sup' h _ => ?_⟩
        simp only [Option.some.injEq, Prod.mk.injEq] at h
        exact h.1 ▸ hne
    · rename_i hno
      refine ⟨hf, fun i' sup' _ ho => ?_⟩
      rw [ho] at hno
      exact absurd rfl hno

theorem nextContent_ok (isRoot : Bool) (w : FsRun) (env : Env) (t : Task) (path : CStr)
    (data : Nat → UInt8) (size : UInt32) (fromRoot : Bool)
    (hrc : (fsIwriteAllInst env w.inst isRoot t path data size fromRoot).1 = 0) :
    ∀ i sup, findOrCreateFileInst w.inst isRoot t path fromRoot = some (i, sup) →
      nextContent isRoot w (.write env t path data size fromRoot) =
        update w.content i (some ⟨data, size⟩) := by
  intro i sup hfc
  unfold nextContent
  simp only [hfc, if_pos hrc]

theorem found_other (hfc : findOrCreateFileInst inst isRoot t path fromRoot = some (i, sup))
    (hne : fsIopenInst inst t path fromRoot = none → f ≠ i) :
    sup.files f = inst.super.files f ∧ (f < sup.fileCount → f < inst.super.fileCount) := by
  rcases findOrCreateFileInst_cases hfc with ⟨-, -, rfl⟩ | ⟨parent, base, ho, -, ha⟩
  · exact ⟨rfl, id⟩
  · have hfi := hne ho
    refine ⟨by rw [ha.files, update_of_ne hfi], fun hlt => ?_⟩
    exact ((ha.count f).mp hlt).resolve_right hfi

theorem intact_write {data : Nat → UInt8} (h : Intact w)
    (hc : Committing isRoot w (.write env t path data size fromRoot)) :
    Intact ⟨(fsIwriteAllInst env w.inst isRoot t path data size fromRoot).2,
      nextContent isRoot w (.write env t path data size fromRoot)⟩ := by
  obtain ⟨hinit, hp, hkeep⟩ := h
  have hle : w.inst.nSectors ≤ 2 ^ 32 := Nat.le_trans hp.le (by decide)
  have hends := fsIwriteAllInst_ends env isRoot t path data size fromRoot hle
  have hfail := nextContent_failed isRoot w env t path data size fromRoot
  have hok := nextContent_ok isRoot w env t path data size fromRoot
  generalize fsIwriteAllInst env w.inst isRoot t path data size fromRoot = r at hends hfail hok ⊢
  cases hends with
  | refused =>
    refine ⟨hinit, hp, fun f b hf hb => ?_⟩
    exact hkeep f b hf (hfail (by simp) f b hb).1
  | full i sup hfc =>
    refine ⟨hinit, hp.found _ hfc, fun f b hf hb => ?_⟩
    obtain ⟨hb', hne⟩ := hfail (by simp) f b hb
    obtain ⟨he, hlt⟩ := found_other hfc (hne i sup hfc)
    have hf' : w.inst.IsFile f := ⟨hlt hf.1, he ▸ hf.2⟩
    exact (hkeep f b hf' hb').frame hf' he rfl fun _ _ => rfl
  | unwritten i sup start disk hfc hrun hframe =>
    refine ⟨hinit, hp.found _ hfc, fun f b hf hb => ?_⟩
    obtain ⟨hb', hne⟩ := hfail (by simp) f b hb
    obtain ⟨he, hlt⟩ := found_other hfc (hne i sup hfc)
    have hf' : w.inst.IsFile f := ⟨hlt hf.1, he ▸ hf.2⟩
    exact (hkeep f b hf' hb').frame hf' he rfl fun s hs => hframe _ (hp.not_run hs hrun)
  | written i sup start bm disk hfc hrun hio hbits hframe hcontent =>
    obtain ⟨hi, ht, hhas⟩ := findOrCreateFileInst_file hfc
    refine ⟨hinit, (hp.found w.inst.disk hfc).moved hi ht hc.1 hrun hbits, ?_⟩
    intro f b hf hb
    -- a file other than `i` has the entry, the sectors and the content it had
    have hother : f ≠ i → w.content f = some b → Keeps { w.inst with
        super := sup.setFile i { sup.files i with startSector := UInt32.ofNat start, size := size }
        bitmap := bm
        disk := disk } f b := by
      intro hfi hb'
      obtain ⟨he, hlt⟩ := found_other (f := f) hfc fun _ => hfi
      have he' : (sup.setFile i { sup.files i with
          startSector := UInt32.ofNat start, size := size }).files f = w.inst.super.files f := by
        rw [FsSuper.setFile_ne _ _ hfi, he]
      have hf' : w.inst.IsFile f := ⟨hlt hf.1, he' ▸ hf.2⟩
      exact (hkeep f b hf' hb').frame hf' he' rfl fun s hs =>
        hframe _ (hp.not_run hs hrun) (hp.not_super hs)
    by_cases hrc : (env.heap && allOk env (neededOf size) fsSuperSectors) = true
    · have hb' : nextContent isRoot w (.write env t path data size fromRoot) f = some b := hb
      rw [hok (by simp [hrc]) i sup hfc, update_apply] at hb'
      split at hb'
      · rename_i hfi
        subst hfi
        cases hb'
        refine ⟨by simp, fun k hk => ?_⟩
        simp only [FsSuper.setFile_same]
        exact hcontent k (Nat.lt_of_lt_of_le hk (sectorsOf_le_needed size))
      · rename_i hfi
        exact hother hfi hb'
    · obtain ⟨hb', hne⟩ := hfail (by simp [hrc]) f b hb
      have hopen : fsIopenInst w.inst t path fromRoot = none := by
        cases ho : fsIopenInst w.inst t path fromRoot with
        | none => rfl
        | some j =>
          exact absurd ⟨by rw [ho]; rfl, by rw [hfc]; rfl, ⟨start, hrun⟩, hio,
            by simpa using hrc⟩ hc.2
      exact hother (hne i sup hfc hopen) hb'

theorem intact_of_frame (h : Intact w)
    (hinit : inst'.initialized = w.inst.initialized) (hbase : inst'.baseLba = w.inst.baseLba)
    (hp : Placed inst')
    (hfile : ∀ f, inst'.IsFile f → w.inst.IsFile f ∧ inst'.super.files f = w.inst.super.files f)
    (hdisk : ∀ x, (∀ j, j < fsSuperSectors → x ≠ w.inst.baseLba + UInt32.ofNat j) →
      inst'.disk x = w.inst.disk x) : Intact ⟨inst', w.content⟩ := by
  refine ⟨hinit.trans h.1, hp, fun f b hf hb => ?_⟩
  obtain ⟨hf', he⟩ := hfile f hf
  exact (h.2.2 f b hf' hb).frame hf' he hbase fun s hs => hdisk _ (h.2.1.not_super hs)

theorem intact_mkdir (h : Intact w) :
    Intact ⟨(fsImkdirInst env w.inst isRoot t path fromRoot).2, w.content⟩ := by
  rcases fsImkdirInst_ends env w.inst isRoot t path fromRoot with he | ⟨parent, base, i, sup, disk, -, -, -, hal, he, hframe⟩
  · rw [he]
    exact h
  · rw [he]
    have ha := allocSlotInst_adds hal
    have hb : sup.files i = blankEntry := by rw [ha.files, update_self]
    refine intact_of_frame h rfl rfl (h.2.1.added ha.setFile (by rw [hb]; rfl)) ?_ hframe
    rintro f ⟨hlt, ht⟩
    simp only [FsSuper.setFile_fileCount, ha.count] at hlt ht ⊢
    by_cases hfi : f = i
    · subst hfi
      simp only [FsSuper.setFile_same] at ht
      cases ht
    · rw [FsSuper.setFile_ne _ _ hfi, ha.files, update_of_ne hfi] at ht ⊢
      exact ⟨⟨hlt.resolve_right hfi, ht⟩, rfl⟩

theorem isFile_of_removed (h : FsInstance.IsFile { inst with
      super := inst.super.setFile i zeroEntry, bitmap := bm, disk := disk } f) :
    inst.IsFile f ∧ (inst.super.setFile i zeroEntry).files f = inst.super.files f := by
  obtain ⟨hlt, ht⟩ := h
  by_cases hfi : f = i
  · subst hfi
    simp only [FsSuper.setFile_same] at ht
    cases ht
  · simp only [FsSuper.setFile_ne _ _ hfi] at ht ⊢
    exact ⟨⟨hlt, ht⟩, trivial⟩

theorem intact_unlink {refs : Nat → Nat}
    (h : Intact w) : Intact ⟨(fsUnlink env w.inst t refs path).2, w.content⟩ := by
  rcases fsUnlink_ends env w.inst t refs path
    with he | ⟨i, bm, disk, hl, ht, he, hbits, hframe⟩
  · rw [he]
    exact h
  · rw [he]
    exact intact_of_frame h rfl rfl (h.2.1.removed hl.1 ht hbits) (fun f hf => isFile_of_removed hf)
      hframe

theorem intact_rmdir (h : Intact w) :
    Intact ⟨(fsRmdir env w.inst t path).2, w.content⟩ := by
  rcases fsRmdir_ends env w.inst t path
    with he | ⟨i, disk, hl, ht, -, he, hframe⟩
  · rw [he]
    exact h
  · rw [he]
    refine intact_of_frame h rfl rfl (h.2.1.same rfl rfl ?_) (fun f hf => isFile_of_removed hf) hframe
    intro f hf
    have hrem : FsInstance.IsFile { w.inst with
        super := w.inst.super.setFile i zeroEntry, disk := disk } f := ⟨hf.1, hf.2.1⟩
    obtain ⟨hf', he'⟩ := isFile_of_removed hrem
    refine ⟨⟨hf'.1, hf'.2, ?_⟩, he'⟩
    rw [← he']
    exact hf.2.2

theorem intact_inductive (isRoot : Bool) :
    ((runs isRoot).restrict (Committing isRoot)).Inductive Intact where
  init _ h := h
  step w op w' h hs := by
    obtain ⟨hc, hst⟩ := hs
    have hst' : runStep isRoot w op = some w' := hst
    unfold runStep step at hst'
    split at hst'
    · simp only [Option.map_some, Option.some.injEq] at hst'
      subst hst'
      cases op with
      | write env t path data size fromRoot => exact intact_write h hc
      | mkdir env t path fromRoot => exact intact_mkdir h
      | unlink env t refs path => exact intact_unlink h
      | rmdir env t path => exact intact_rmdir h
    · cases hst'

/-- From an intact image, in every run of writes below the device's size,
mkdirs, unlinks and rmdirs in which no write to an existing file gets its data out but not
the superblock: the extents of files with bytes lie in the data area and are pairwise
disjoint, and a read of a file returns the bytes of the last write to it that returned 0. -/
theorem files_disjoint_and_read_back (isRoot : Bool)
    (h : ((runs isRoot).restrict (Committing isRoot)).Reachable w) :
    (∀ f, w.inst.super.Filled f →
      fsSuperSectors ≤ (w.inst.super.files f).startSector.toNat ∧
      (w.inst.super.files f).startSector.toNat + sectorsOf (w.inst.super.files f).size ≤
        w.inst.nSectors) ∧
    (∀ f g, f ≠ g → w.inst.super.Filled f → w.inst.super.Filled g →
      (w.inst.super.files f).startSector.toNat + sectorsOf (w.inst.super.files f).size ≤
        (w.inst.super.files g).startSector.toNat ∨
      (w.inst.super.files g).startSector.toNat + sectorsOf (w.inst.super.files g).size ≤
        (w.inst.super.files f).startSector.toNat) ∧
    (∀ f b io offset n, w.inst.IsFile f → w.content f = some b →
      offset.toNat + n.toNat < 2 ^ 32 →
      (∀ out, fsIreadInst io w.inst f offset n = some out →
        out = (b.bytes.drop offset.toNat).take n.toNat) ∧
      ((∀ k, io k = true) → (fsIreadInst io w.inst f offset n).isSome)) := by
  obtain ⟨hinit, hp, hkeep⟩ := (intact_inductive isRoot).reachable w h
  refine ⟨fun f hf => ?_, ?_, ?_⟩
  · obtain ⟨h1, h2, -⟩ := hp.extent f hf
    exact ⟨h1, h2⟩
  · intro f g hfg hf hg
    by_contra hno
    -- the later of the two starts would be in both
    have hlen : ∀ f, w.inst.super.Filled f → 0 < sectorsOf (w.inst.super.files f).size := by
      intro f hf
      have hb := (hp.extent f hf).2.2
      have hle := hp.le
      rw [sectorsOf_eq (by omega)]
      have : (w.inst.super.files f).size.toNat ≠ 0 := fun hz => hf.2.2 (UInt32.toNat_inj.mp hz)
      omega
    have hlf := hlen f hf
    have hlg := hlen g hg
    apply hfg
    apply hp.disjoint f g (max (w.inst.super.files f).startSector.toNat
      (w.inst.super.files g).startSector.toNat)
    · rw [hp.has_iff hf]
      omega
    · rw [hp.has_iff hg]
      omega
  · intro f b io offset n hf hb hn
    have hk := hkeep f b hf hb
    refine fsIreadInst_eq hinit hf.1 hf.2 hk.size ?_ hk.stored hn
    by_cases hz : (w.inst.super.files f).size = 0
    · rw [← hk.size, hz]
      decide
    · have hb' := (hp.extent f ⟨hf.1, hf.2, hz⟩).2.2
      have hle := hp.le
      rw [← hk.size]
      omega

/-! ## A superblock that does not get out -/

def freshRun : FsRun := ⟨freshImage, fun _ => none⟩

theorem freshRun_intact : Intact freshRun := by
  have hno : ∀ f, ¬ freshRun.inst.super.Filled f := fun f h => Nat.not_lt_zero f h.1
  refine ⟨rfl, ⟨by decide, ?_, ?_, ?_⟩, fun f b hf => absurd hf.1 (Nat.not_lt_zero f)⟩
  · intro f hf
    exact absurd hf (hno f)
  · intro f s hf
    exact absurd hf.filled (hno f)
  · intro f g s hf
    exact absurd hf.filled (hno f)

def oneByte : FsRun := ⟨(call true freshImage (writeF 65 1)).2, nextContent true freshRun (writeF 65 1)⟩

theorem oneByte_reachable : ((runs true).restrict (Committing true)).Reachable oneByte := by
  have h0 : ((runs true).restrict (Committing true)).Reachable freshRun := .init freshRun_intact
  refine h0.step (l := writeF 65 1) ⟨⟨?_, ?_⟩, rfl⟩
  · change (1 : UInt32).toNat < 512 * 20
    decide
  · rintro ⟨-, -, -, -, hs⟩
    revert hs
    decide

theorem one_byte_read_back :
    fsIreadInst (fun _ => true) oneByte.inst 0 0 1 = some [65] := by
  have hf : oneByte.inst.IsFile 0 := by
    constructor
    · decide
    · decide
  have hc : oneByte.content 0 = some ⟨fun _ => 65, 1⟩ := by rfl
  obtain ⟨hr, hs⟩ := (files_disjoint_and_read_back true oneByte_reachable).2.2 0 _ (fun _ => true) 0 1
    hf hc (by decide)
  obtain ⟨out, ho⟩ := Option.isSome_iff_exists.mp (hs fun _ => rfl)
  rw [ho, hr out ho]
  rfl

/-- Writing another byte when the superblock cannot be written out: the call returns -1, and
the file reads as the new byte. -/
def strandedWrite : Op :=
  .write ⟨fun _ => true, false⟩ rootTask [slash, 102] (fun _ => 66) 1 true

theorem failed_write_changes_file :
    ¬ ∀ isRoot w, ((runs isRoot).restrict fun w op => FitsDevice w.inst op).Reachable w →
      ∀ f b io offset n, w.inst.IsFile f → w.content f = some b → offset.toNat + n.toNat < 2 ^ 32 →
        ∀ out, fsIreadInst io w.inst f offset n = some out →
          out = (b.bytes.drop offset.toNat).take n.toNat := by
  intro hall
  have hfit : (1 : UInt32).toNat < 512 * 20 := by decide
  have hr : ((runs true).restrict fun w op => FitsDevice w.inst op).Reachable
      ⟨(call true oneByte.inst strandedWrite).2, nextContent true oneByte strandedWrite⟩ := by
    have h1 : ((runs true).restrict fun w op => FitsDevice w.inst op).Reachable oneByte :=
      oneByte_reachable.weaken fun _ _ h => h.1
    exact h1.step (l := strandedWrite) ⟨hfit, rfl⟩
  have hout := hall true _ hr 0 ⟨fun _ => 65, 1⟩ (fun _ => true) 0 1 (by constructor <;> decide) rfl
    (by decide) [66] (by decide +kernel)
  revert hout
  decide

end AdventOS.Fs
