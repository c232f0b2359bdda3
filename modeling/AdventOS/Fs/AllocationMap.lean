import AdventOS.Fs.Operations

/-!
# The allocation map

The bitmap in memory against the one `load_superblock` would rebuild from the table in
memory (`rebuildBitmap`), along every run of writes, creates, mkdirs, unlinks and rmdirs
on an instance, with device failures anywhere.

* `allocation_map_exact`.
* `empty_write_leaks_sector`: such a write marks a sector that the entry does not count,
  and nothing ever frees it.
-/
namespace AdventOS.Fs

/-- The bitmap is the one a mount would build. -/
def Exact (inst : FsInstance) : Prop := inst.bitmap = (rebuildBitmap inst).bitmap

variable {inst : FsInstance} {sup : FsSuper} {i : Nat} {disk : UInt32 → Sector}

theorem exact_iff : Exact inst ↔ ∀ s, inst.bitmap s = true ↔
    s < inst.nSectors ∧ (s < fsSuperSectors ∨ ∃ f, inst.super.Has f s) := by
  unfold Exact FsSuper.Has
  constructor
  · intro h s
    rw [h]
    exact rebuildBitmap_iff inst s
  · intro h
    funext s
    rw [Bool.eq_iff_iff, h, rebuildBitmap_iff]

/-- No visible sector of a file is in the superblock or belongs to another file. -/
structure Sound (sup : FsSuper) (n : Nat) : Prop where
  outside : ∀ f s, sup.Has f s → s < n →
    fsSuperSectors ≤ (sup.files f).startSector.toNat ∧ fsSuperSectors ≤ s
  disjoint : ∀ f g s, sup.Has f s → sup.Has g s → s < n → f = g

/-- An instance as `fs_create_instance` leaves it, from a sound image. -/
def Mounted (inst : FsInstance) : Prop :=
  inst.nSectors ≤ 8192 ∧ Exact inst ∧ Sound inst.super inst.nSectors

/-- A write whose size needs no sectors by the source's formula finds its entry, a free
sector and a device that takes the data. -/
def WritesNoSectors (isRoot : Bool) (inst : FsInstance) : Op → Prop
  | .write env t path _ size fromRoot =>
    sectorsOf size = 0 ∧ (findOrCreateFileInst inst isRoot t path fromRoot).isSome ∧
      inst.HasRoom ∧ env.io 0 = true
  | _ => False

/-- The calls of the run other than those. -/
def Counted (isRoot : Bool) (inst : FsInstance) (op : Op) : Prop := ¬ WritesNoSectors isRoot inst op

def system (isRoot : Bool) : LTS FsInstance Op := .ofFn Mounted (step isRoot)

/-! ## Each change of the table -/

theorem Mounted.same {inst' : FsInstance} (h : Mounted inst) (hn : inst'.nSectors = inst.nSectors)
    (hb : inst'.bitmap = inst.bitmap)
    (hhas : ∀ f s, inst'.super.Has f s ↔ inst.super.Has f s)
    (hstart : ∀ f s, inst.super.Has f s →
      (inst'.super.files f).startSector = (inst.super.files f).startSector) : Mounted inst' := by
  obtain ⟨hle, hex, hsound⟩ := h
  rw [exact_iff] at hex
  refine ⟨by rw [hn]; exact hle, ?_, ?_, ?_⟩
  · rw [exact_iff]
    intro s
    rw [hb, hn, hex]
    simp [hhas]
  · intro f s hf hs
    rw [hhas] at hf
    rw [hn] at hs
    rw [hstart f s hf]
    exact hsound.outside f s hf hs
  · intro f g s hf hg hs
    rw [hhas] at hf hg
    rw [hn] at hs
    exact hsound.disjoint f g s hf hg hs

theorem sectorsOf_zero : sectorsOf 0 = 0 := by decide

theorem Mounted.moved {start : Nat} {size : UInt32}
    {bm : Nat → Bool} (h : Mounted { inst with super := sup })
    (hi : i < sup.fileCount) (ht : (sup.files i).type = .file) (hsz : sectorsOf size ≠ 0)
    (hrun : FreeRun inst start (neededOf size))
    (hbits : ∀ s, bm s = true ↔ (inst.bitmap s = true ∨ (start ≤ s ∧ s < start + neededOf size)) ∧
      ¬ ((sup.files i).size ≠ 0 ∧ fsSuperSectors ≤ (sup.files i).startSector.toNat ∧
        s < inst.nSectors ∧ InRun (sup.files i).startSector (sectorsOf (sup.files i).size) s)) :
    Mounted { inst with
      super := sup.setFile i { sup.files i with startSector := .ofNat start, size := size }
      bitmap := bm
      disk := disk } := by
  obtain ⟨hle, hex, hsound⟩ := h
  rw [exact_iff] at hex
  simp only at hle hex hsound
  obtain ⟨hlo, hhi, hfree⟩ := hrun
  have hneed : neededOf size = sectorsOf size := by simp [neededOf, hsz]
  have hz : size ≠ 0 := by
    rintro rfl
    exact hsz sectorsOf_zero
  have hstart : (UInt32.ofNat start).toNat = start := by
    rw [UInt32.toNat_ofNat_of_lt']
    exact lt_of_le_of_lt (by omega : start ≤ 8192) (by decide)
  have hiff : ∀ s, InRun (.ofNat start) (sectorsOf size) s ↔
      start ≤ s ∧ s < start + neededOf size := by
    intro s
    rw [← hneed]
    exact inRun_iff (by omega)
  -- the sectors of the table, before and after
  have hold : ∀ s, sup.Has i s ↔ (sup.files i).size ≠ 0 ∧
      InRun (sup.files i).startSector (sectorsOf (sup.files i).size) s := by
    intro s
    unfold FsSuper.Has FsEntry.Holds
    simp [hi, ht]
  have hnew : ∀ f s, (sup.setFile i { sup.files i with
      startSector := .ofNat start, size := size }).Has f s ↔
      (f ≠ i ∧ sup.Has f s) ∨ (f = i ∧ start ≤ s ∧ s < start + neededOf size) := by
    intro f s
    rw [FsSuper.setFile_has]
    unfold FsEntry.Holds
    simp [ht, hiff, hi, hz]
  have hclash : ∀ f s, sup.Has f s → start ≤ s → s < start + neededOf size → False := by
    intro f s hf h1 h2
    have hb : inst.bitmap s = true := (hex s).mpr ⟨by omega, .inr ⟨f, hf⟩⟩
    rw [hfree s h1 h2] at hb
    cases hb
  refine ⟨hle, ?_, ?_, ?_⟩
  · rw [exact_iff]
    intro s
    simp only [hnew]
    rw [hbits, hex]
    constructor
    · rintro ⟨⟨hs, hs17 | ⟨f, hf⟩⟩ | ⟨h1, h2⟩, hno⟩
      · exact ⟨hs, .inl hs17⟩
      · refine ⟨hs, .inr ⟨f, .inl ⟨?_, hf⟩⟩⟩
        rintro rfl
        obtain ⟨h17, -⟩ := hsound.outside f s hf hs
        exact hno ⟨((hold s).mp hf).1, h17, hs, ((hold s).mp hf).2⟩
      · exact ⟨by omega, .inr ⟨i, .inr ⟨rfl, h1, h2⟩⟩⟩
    · rintro ⟨hs, hcase⟩
      have hno : ∀ hP : sup.Has i s → False, ¬ ((sup.files i).size ≠ 0 ∧
          fsSuperSectors ≤ (sup.files i).startSector.toNat ∧ s < inst.nSectors ∧
          InRun (sup.files i).startSector (sectorsOf (sup.files i).size) s) := by
        rintro hP ⟨hsz', -, -, hr⟩
        exact hP ((hold s).mpr ⟨hsz', hr⟩)
      rcases hcase with hs17 | ⟨f, ⟨hfi, hf⟩ | ⟨rfl, h1, h2⟩⟩
      · refine ⟨.inl ⟨hs, .inl hs17⟩, hno fun hP => ?_⟩
        have := (hsound.outside i s hP hs).2
        omega
      · refine ⟨.inl ⟨hs, .inr ⟨f, hf⟩⟩, hno fun hP => ?_⟩
        exact hfi (hsound.disjoint f i s hf hP hs)
      · refine ⟨.inr ⟨h1, h2⟩, hno fun hP => ?_⟩
        exact hclash f s hP h1 h2
  · intro f s hf hs
    rw [hnew] at hf
    rcases hf with ⟨hfi, hf⟩ | ⟨rfl, h1, h2⟩
    · rw [FsSuper.setFile_ne _ _ hfi]
      exact hsound.outside f s hf hs
    · rw [FsSuper.setFile_same]
      exact ⟨by simp only [hstart]; omega, by omega⟩
  · intro f g s hf hg hs
    rw [hnew] at hf hg
    rcases hf with ⟨hfi, hf⟩ | ⟨rfl, h1, h2⟩ <;> rcases hg with ⟨hgi, hg⟩ | ⟨rfl, h3, h4⟩
    · exact hsound.disjoint f g s hf hg hs
    · exact (hclash f s hf h3 h4).elim
    · exact (hclash g s hg h1 h2).elim
    · rfl

theorem Mounted.removed {bm : Nat → Bool}
    (h : Mounted inst) (hlt : i < inst.super.fileCount) (ht : (inst.super.files i).type = .file)
    (hbits : ∀ s, bm s = true ↔ inst.bitmap s = true ∧ ¬ ((inst.super.files i).size ≠ 0 ∧
      fsSuperSectors ≤ (inst.super.files i).startSector.toNat ∧ s < inst.nSectors ∧
      InRun (inst.super.files i).startSector (sectorsOf (inst.super.files i).size) s)) :
    Mounted { inst with
      super := inst.super.setFile i zeroEntry
      bitmap := bm
      disk := disk } := by
  obtain ⟨hle, hex, hsound⟩ := h
  rw [exact_iff] at hex
  have hold : ∀ s, inst.super.Has i s ↔ (inst.super.files i).size ≠ 0 ∧
      InRun (inst.super.files i).startSector (sectorsOf (inst.super.files i).size) s := by
    intro s
    unfold FsSuper.Has FsEntry.Holds
    simp [hlt, ht]
  have hnew : ∀ f s, (inst.super.setFile i zeroEntry).Has f s ↔ f ≠ i ∧ inst.super.Has f s := by
    intro f s
    rw [FsSuper.setFile_has]
    simp [FsEntry.Holds, zeroEntry]
  refine ⟨hle, ?_, ?_, ?_⟩
  · rw [exact_iff]
    intro s
    simp only [hnew]
    rw [hbits, hex]
    constructor
    · rintro ⟨⟨hs, hs17 | ⟨f, hf⟩⟩, hno⟩
      · exact ⟨hs, .inl hs17⟩
      · refine ⟨hs, .inr ⟨f, ?_, hf⟩⟩
        rintro rfl
        obtain ⟨h17, -⟩ := hsound.outside f s hf hs
        exact hno ⟨((hold s).mp hf).1, h17, hs, ((hold s).mp hf).2⟩
    · rintro ⟨hs, hs17 | ⟨f, hfi, hf⟩⟩
      · refine ⟨⟨hs, .inl hs17⟩, ?_⟩
        rintro ⟨hsz, -, -, hr⟩
        have := (hsound.outside i s ((hold s).mpr ⟨hsz, hr⟩) hs).2
        omega
      · refine ⟨⟨hs, .inr ⟨f, hf⟩⟩, ?_⟩
        rintro ⟨hsz, -, -, hr⟩
        exact hfi (hsound.disjoint f i s hf ((hold s).mpr ⟨hsz, hr⟩) hs)
  · intro f s hf hs
    rw [hnew] at hf
    rw [FsSuper.setFile_ne _ _ hf.1]
    exact hsound.outside f s hf.2 hs
  · intro f g s hf hg hs
    rw [hnew] at hf hg
    exact hsound.disjoint f g s hf.2 hg.2 hs

theorem Mounted.added {e : FsEntry}
    (h : Mounted inst) (ha : inst.super.Adds i e sup) (he : e.size = 0) :
    Mounted { inst with super := sup, disk := disk } := by
  refine h.same rfl rfl (ha.has_iff he) ?_
  intro f s hf
  have hne : f ≠ i := by
    rintro rfl
    exact ha.fresh ⟨hf.1, by simp [hf.2.1]⟩
  simp [ha.files, Function.update_of_ne hne]

theorem Mounted.found {isRoot : Bool} {t : Task} {path : CStr}
    {fromRoot : Bool} (h : Mounted inst) (disk : UInt32 → Sector)
    (hf : findOrCreateFileInst inst isRoot t path fromRoot = some (i, sup)) :
    Mounted { inst with super := sup, disk := disk } := by
  rcases findOrCreateFileInst_cases hf with ⟨-, -, rfl⟩ | ⟨parent, base, -, -, ha⟩
  · exact h.same rfl rfl (fun _ _ => Iff.rfl) fun _ _ _ => rfl
  · exact h.added ha rfl

/-! ## Runs -/

theorem mounted_call {isRoot : Bool} (h : Mounted inst) (op : Op)
    (hc : Counted isRoot inst op) : Mounted (call isRoot inst op).2 := by
  have hle : inst.nSectors ≤ 2 ^ 32 := le_trans h.1 (by decide)
  cases op with
  | write env t path data size fromRoot =>
    simp only [call]
    have hends := fsIwriteAllInst_ends env isRoot t path data size fromRoot hle
    generalize fsIwriteAllInst env inst isRoot t path data size fromRoot = r at hends ⊢
    cases hends with
    | refused => exact h
    | full i sup hf => exact h.found _ hf
    | unwritten i sup start disk hf => exact h.found _ hf
    | written i sup start bm disk hf hrun hio hbits hframe hcontent =>
      obtain ⟨hi, ht, -⟩ := findOrCreateFileInst_file hf
      refine (h.found inst.disk hf).moved hi ht ?_ hrun hbits
      intro hz
      apply hc
      have hpos := neededOf_pos size
      refine ⟨hz, by rw [hf]; rfl, ⟨start, hrun.lo, ?_, hrun.free start le_rfl ?_⟩, hio 0 hpos⟩
      · have := hrun.hi
        omega
      · omega
  | mkdir env t path fromRoot =>
    simp only [call]
    rcases fsImkdirInst_ends env inst isRoot t path fromRoot with he | ⟨parent, base, i, sup, disk, -, -, -, hal, he, -⟩
    · rw [he]
      exact h
    · rw [he]
      have ha := allocSlotInst_adds hal
      have hb : sup.files i = blankEntry := by rw [ha.files, Function.update_self]
      refine h.added ha.setFile ?_
      rw [hb]
      rfl
  | unlink env t refs path =>
    simp only [call]
    rcases fsUnlink_ends env inst t refs path with he | ⟨i, bm, disk, hl, ht, he, hbits, -⟩
    · rw [he]
      exact h
    · rw [he]
      exact h.removed hl.1 ht hbits
  | rmdir env t path =>
    simp only [call]
    rcases fsRmdir_ends env inst t path with he | ⟨i, disk, hl, ht, -, he, -⟩
    · rw [he]
      exact h
    · rw [he]
      have hnot : ∀ s, ¬ inst.super.Has i s := by
        rintro s ⟨-, hf, -⟩
        rw [ht] at hf
        cases hf
      have hhas : ∀ f s, (inst.super.setFile i zeroEntry).Has f s ↔ inst.super.Has f s := by
        intro f s
        rw [FsSuper.setFile_has]
        constructor
        · rintro (⟨-, hf⟩ | ⟨-, -, hz⟩)
          · exact hf
          · cases hz.1
        · intro hf
          refine .inl ⟨?_, hf⟩
          rintro rfl
          exact hnot s hf
      refine h.same rfl rfl hhas ?_
      intro f s hf
      have hne : f ≠ i := by
        rintro rfl
        exact hnot s hf
      simp [FsSuper.setFile_ne _ _ hne]

theorem mounted_inductive (isRoot : Bool) :
    ((system isRoot).restrict (Counted isRoot)).Inductive Mounted where
  init _ h := h
  step inst op inst' h hs := by
    obtain ⟨hc, hst⟩ := hs
    have hst' : step isRoot inst op = some inst' := hst
    unfold step at hst'
    split at hst'
    · cases hst'
      exact mounted_call h op hc
    · cases hst'

/-- From a sound image, in every run of writes, creates, mkdirs, unlinks and
rmdirs (whatever they return and wherever the device fails) in which no write of zero
sectors goes through, the bitmap in memory is the one a mount would rebuild from the table
in memory. -/
theorem allocation_map_exact (isRoot : Bool)
    (h : ((system isRoot).restrict (Counted isRoot)).Reachable inst) :
    inst.bitmap = (rebuildBitmap inst).bitmap :=
  ((mounted_inductive isRoot).reachable inst h).2.1

/-! ## A write of no bytes -/

def freshImage : FsInstance where
  initialized := true
  baseLba := 0
  nSectors := 20
  super := ⟨0, fun _ => blankEntry, Nat.zero_le _⟩
  bitmap s := decide (s < fsSuperSectors)
  disk _ := []

theorem freshImage_mounted : Mounted freshImage := by
  have hno : ∀ f s, ¬ freshImage.super.Has f s := fun f s h => Nat.not_lt_zero f h.1
  refine ⟨by decide, ?_, ?_, ?_⟩
  · rw [exact_iff]
    intro s
    simp only [hno, exists_false, or_false]
    change decide (s < 17) = true ↔ s < 20 ∧ s < 17
    rw [decide_eq_true_iff]
    omega
  · intro f s hf
    exact absurd hf (hno f s)
  · intro f g s hf
    exact absurd hf (hno f s)

def rootTask : Task := ⟨0, 0, fsDirRoot⟩

def noFailures : Env := ⟨fun _ => true, true⟩

def writeF (x : UInt8) (size : UInt32) : Op :=
  .write noFailures rootTask [slash, 102] (fun _ => x) size true

/-- Writing one byte keeps the map exact. -/
theorem one_byte_write_exact : (call true freshImage (writeF 7 1)).2.bitmap =
      (rebuildBitmap (call true freshImage (writeF 7 1)).2).bitmap := by
  apply allocation_map_exact true
  refine (LTS.Reachable.init freshImage_mounted).step ⟨?_, rfl⟩
  rintro ⟨hz, -⟩
  revert hz
  decide

/-- Writing no bytes to a new file marks a sector that a mount would not. -/
theorem empty_write_leaks_sector :
    ¬ ∀ isRoot inst, (system isRoot).Reachable inst → inst.bitmap = (rebuildBitmap inst).bitmap := by
  intro hall
  have hr : (system true).Reachable (call true freshImage (writeF 7 0)).2 :=
    (LTS.Reachable.init freshImage_mounted).step rfl
  have h17 := congrFun (hall true _ hr) 17
  revert h17
  decide

end AdventOS.Fs
