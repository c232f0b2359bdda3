import AdventOS.Fs.AllocationMap

/-!
# Calls that fail

A `write_all` or `mkdir` changes the table and the bitmap in memory before its last device write,
and only the run of sectors of a write is given back on an error. What a failed call leaves is
compared with what was there.

* `Untouched`: the table, the bitmap and the sectors it marks are the same;
* `WriteUndone`, `MkdirUndone`: where the call stops;
* `failed_calls_undone_iff`: a failed call leaves everything untouched exactly when it stops
  there;
* `failed_write_creates`: a new file on a full device.
-/
namespace AdventOS.Fs
open Function

/-- The table, the bitmap and the contents of the sectors in use are the same. -/
structure Untouched (inst inst' : FsInstance) : Prop where
  super : inst'.super = inst.super
  bitmap : inst'.bitmap = inst.bitmap
  content : ∀ s, fsSuperSectors ≤ s → s < inst.nSectors → inst.bitmap s = true →
    inst'.disk (inst.baseLba + UInt32.ofNat s) = inst.disk (inst.baseLba + UInt32.ofNat s)

/-- The write is refused before an entry is made; or the file exists, and there is no room, a
data sector is not written, or the bitmap hands out the extent the file has already. -/
def WriteUndone (env : Env) (inst : FsInstance) (isRoot : Bool) (t : Task) (path : CStr)
    (size : UInt32) (fromRoot : Bool) : Prop :=
  inst.initialized = false ∨ findOrCreateFileInst inst isRoot t path fromRoot = none ∨
    ∃ i, fsIopenInst inst t path fromRoot = some i ∧ (inst.super.files i).type = .file ∧
      (bitmapAllocRun inst (neededOf size) = none ∨ (∃ k, k < neededOf size ∧ env.io k = false) ∨
        sectorsOf size ≠ 0 ∧ (inst.super.files i).size = size ∧
          ∃ b, bitmapAllocRun inst (neededOf size) =
            some ((inst.super.files i).startSector.toNat, b))

def MkdirUndone (inst : FsInstance) (isRoot : Bool) (t : Task) (path : CStr) (fromRoot : Bool) :
    Prop :=
  inst.initialized = false ∨ splitPathInst inst isRoot t path fromRoot = none ∨
    ∃ parent base, splitPathInst inst isRoot t path fromRoot = some (parent, base) ∧
      (findInDirInst inst.super parent base ≠ none ∨ allocSlotInst inst.super = none)

theorem Untouched.refl (inst : FsInstance) : Untouched inst inst := ⟨rfl, rfl, fun _ _ _ _ => rfl⟩

section Failures
variable {env : Env} {inst : FsInstance} {isRoot : Bool} {t : Task} {path : CStr}
  {data : Nat → UInt8} {size : UInt32} {fromRoot : Bool}

theorem FsSuper.Adds.ne {sup sup' : FsSuper} {i : Nat} {e : FsEntry} (h : sup.Adds i e sup')
    (he : e.type ≠ .free) : sup' ≠ sup := by
  intro heq
  refine h.fresh ⟨?_, ?_⟩
  · rw [← heq]
    exact (h.count i).2 (.inr rfl)
  · rw [← heq, h.files, update_self]
    exact he

theorem FreeRun.content {start n : Nat} (h : FreeRun inst start n) (hn : inst.nSectors ≤ 2 ^ 32)
    {disk : UInt32 → Sector}
    (hframe : ∀ x, (∀ k, k < n → x ≠ inst.baseLba + UInt32.ofNat start + UInt32.ofNat k) →
      (∀ k, k < fsSuperSectors → x ≠ inst.baseLba + UInt32.ofNat k) → disk x = inst.disk x)
    {s : Nat} (hs : fsSuperSectors ≤ s) (hlt : s < inst.nSectors) (hbit : inst.bitmap s = true) :
    disk (inst.baseLba + UInt32.ofNat s) = inst.disk (inst.baseLba + UInt32.ofNat s) := by
  have hhi := h.hi
  refine hframe _ (fun k hk heq => ?_) (fun k hk heq => ?_)
  · rw [UInt32.add_assoc, ← UInt32.ofNat_add] at heq
    have hsk := lba_inj (by omega) (by omega) heq
    rw [h.free s (by omega) (by omega)] at hbit
    cases hbit
  · have hsk := lba_inj (by omega) (by omega) heq
    omega

/-- A failed write to a path that names nothing leaves an entry behind. -/
theorem fsIwriteAllInst_created {i : Nat} {sup : FsSuper} {parent : UInt8} {base : CStr}
    (hn : inst.nSectors ≤ 2 ^ 32) (hi : inst.initialized = true)
    (hf : findOrCreateFileInst inst isRoot t path fromRoot = some (i, sup))
    (ha : inst.super.Adds i (newFile t parent base) sup) :
    (fsIwriteAllInst env inst isRoot t path data size fromRoot).2.super ≠ inst.super := by
  have hnew : sup ≠ inst.super := ha.ne (by unfold newFile; simp)
  cases halloc : bitmapAllocRun { inst with super := sup } (neededOf size) with
  | none =>
    rw [fsIwriteAllInst_noRun hi hf halloc]
    exact hnew
  | some r =>
    obtain ⟨start, b⟩ := r
    by_cases hio : ∃ k, k < neededOf size ∧ env.io k = false
    · obtain ⟨-, disk, heq, -⟩ := fsIwriteAllInst_unwritten data hn hi hf halloc hio
      rw [heq]
      exact hnew
    · have hio : ∀ k, k < neededOf size → env.io k = true := by
        intro k hk
        by_contra hbad
        exact hio ⟨k, hk, by simpa using hbad⟩
      obtain ⟨-, bm, disk, heq, -⟩ := fsIwriteAllInst_written data hn hi hf halloc hio
      rw [heq]
      refine (ha.setFile (x := { sup.files i with
        startSector := .ofNat start, size := size })).ne ?_
      rw [ha.files, update_self]
      unfold newFile
      simp

/-- The extent that a file is given leaves table and bitmap as they were only when it is the one
it has. -/
theorem written_same_iff {i start : Nat} {bm : Nat → Bool} (hrun : FreeRun inst start (neededOf size))
    (hn : inst.nSectors ≤ 2 ^ 32)
    (hbits : ∀ s, bm s = true ↔ (inst.bitmap s = true ∨ (start ≤ s ∧ s < start + neededOf size)) ∧
        ¬ ((inst.super.files i).size ≠ 0 ∧
          fsSuperSectors ≤ (inst.super.files i).startSector.toNat ∧ s < inst.nSectors ∧
            InRun (inst.super.files i).startSector (sectorsOf (inst.super.files i).size) s)) :
    (inst.super.setFile i { inst.super.files i with startSector := .ofNat start, size := size } =
        inst.super ∧ bm = inst.bitmap) ↔
      sectorsOf size ≠ 0 ∧ (inst.super.files i).size = size ∧
        (inst.super.files i).startSector.toNat = start := by
  have hpos := neededOf_pos size
  have hhi := hrun.hi
  have hlo := hrun.lo
  have hstart : (UInt32.ofNat start).toNat = start := UInt32.toNat_ofNat_of_lt'
    (lt_of_lt_of_le (by omega) hn)
  constructor
  · rintro ⟨hsup, hbm⟩
    have hentry := congrFun (congrArg FsSuper.files hsup) i
    rw [FsSuper.setFile_same] at hentry
    have hs : .ofNat start = (inst.super.files i).startSector :=
      congrArg FsEntry.startSector hentry
    have hsize : size = (inst.super.files i).size := congrArg FsEntry.size hentry
    refine ⟨fun hzero => ?_, hsize.symm, by rw [← hs, hstart]⟩
    -- without a sector to give back, the new one stays marked
    have hbit := (hbits start).2 ⟨.inr ⟨le_refl start, by omega⟩, fun h => ?_⟩
    · rw [hbm, hrun.free start (le_refl start) (by omega)] at hbit
      cases hbit
    · have hin := h.2.2.2
      rw [← hsize, hzero] at hin
      exact not_inRun_zero _ _ hin
  · rintro ⟨hzero, hsize, hs⟩
    have hneeded : neededOf size = sectorsOf size := if_neg hzero
    have hstart' : .ofNat start = (inst.super.files i).startSector := by
      rw [← hs]
      exact UInt32.ofNat_toNat
    refine ⟨?_, funext fun s => ?_⟩
    · rw [hstart', ← hsize]
      unfold FsSuper.setFile
      rw [update_eq_self]
    · have hsize0 : (inst.super.files i).size ≠ 0 := by
        intro h0
        rw [← hsize, h0, sectorsOf_zero] at hzero
        exact hzero rfl
      rw [Bool.eq_iff_iff, hbits, ← hstart', hstart, hsize, ← hneeded,
        inRun_iff (le_trans hhi hn)]
      constructor
      · rintro ⟨h | h, hno⟩
        · exact h
        · exact absurd ⟨hsize ▸ hsize0, hlo, by omega, h⟩ hno
      · intro h
        refine ⟨.inl h, ?_⟩
        rintro ⟨-, -, -, h1, h2⟩
        rw [hrun.free s h1 h2] at h
        cases h

theorem write_undone_iff (hn : inst.nSectors ≤ 2 ^ 32) :
    Untouched inst (fsIwriteAllInst env inst isRoot t path data size fromRoot).2 ↔
      WriteUndone env inst isRoot t path size fromRoot := by
  by_cases hi : inst.initialized = true
  swap
  · have heq : fsIwriteAllInst env inst isRoot t path data size fromRoot = (-1, inst) := by
      unfold fsIwriteAllInst
      rw [if_pos (by simpa using hi)]
    rw [heq]
    exact ⟨fun _ => .inl (by simpa using hi), fun _ => .refl inst⟩
  cases hf : findOrCreateFileInst inst isRoot t path fromRoot with
  | none =>
    have heq : fsIwriteAllInst env inst isRoot t path data size fromRoot = (-1, inst) := by
      unfold fsIwriteAllInst
      rw [if_neg (by simp [hi]), hf]
    rw [heq]
    exact ⟨fun _ => .inr (.inl hf), fun _ => .refl inst⟩
  | some r =>
    obtain ⟨i, sup⟩ := r
    rcases findOrCreateFileInst_cases hf with ⟨hopen, ht, rfl⟩ | ⟨parent, base, hopen, -, ha⟩
    swap
    · refine ⟨fun h => absurd h.super (fsIwriteAllInst_created hn hi hf ha), fun h => ?_⟩
      rcases h with h | h | ⟨k, hk, -⟩
      · rw [hi] at h
        cases h
      · rw [hf] at h
        cases h
      · rw [hopen] at hk
        cases hk
    -- the file exists
    cases halloc : bitmapAllocRun inst (neededOf size) with
    | none =>
      rw [fsIwriteAllInst_noRun hi hf halloc]
      exact ⟨fun _ => .inr (.inr ⟨i, hopen, ht, .inl halloc⟩), fun _ => .refl inst⟩
    | some r =>
      obtain ⟨start, b⟩ := r
      by_cases hio : ∃ k, k < neededOf size ∧ env.io k = false
      · obtain ⟨hrun, disk, heq, hframe⟩ := fsIwriteAllInst_unwritten data hn hi hf halloc hio
        rw [heq]
        refine ⟨fun _ => .inr (.inr ⟨i, hopen, ht, .inr (.inl hio)⟩), fun _ => ⟨rfl, rfl, ?_⟩⟩
        exact fun s => hrun.content hn fun x hx _ => hframe x hx
      · have hall : ∀ k, k < neededOf size → env.io k = true := by
          intro k hk
          by_contra hbad
          exact hio ⟨k, hk, by simpa using hbad⟩
        obtain ⟨hrun, bm, disk, heq, hbits, hframe, -⟩ :=
          fsIwriteAllInst_written data hn hi hf halloc hall
        have hiff := written_same_iff hrun hn hbits
        rw [heq]
        constructor
        · intro h
          obtain ⟨h1, h2, h3⟩ := hiff.1 ⟨h.super, h.bitmap⟩
          exact .inr (.inr ⟨i, hopen, ht, .inr (.inr ⟨h1, h2, b, h3 ▸ halloc⟩)⟩)
        · intro h
          have hext : sectorsOf size ≠ 0 ∧ (inst.super.files i).size = size ∧
              (inst.super.files i).startSector.toNat = start := by
            rcases h with h | h | ⟨k, hk, -, h | h | ⟨h1, h2, b', h3⟩⟩
            · rw [hi] at h
              cases h
            · rw [hf] at h
              cases h
            · rw [halloc] at h
              cases h
            · exact absurd h hio
            · obtain rfl := Option.some.inj (hopen.symm.trans hk)
              rw [halloc] at h3
              exact ⟨h1, h2, (congrArg Prod.fst (Option.some.inj h3)).symm⟩
          obtain ⟨h1, h2⟩ := hiff.2 hext
          exact ⟨h1, h2, fun s => hrun.content hn hframe⟩

theorem mkdir_undone_iff : Untouched inst (fsImkdirInst env inst isRoot t path fromRoot).2 ↔
      MkdirUndone inst isRoot t path fromRoot := by
  obtain ⟨r, heq⟩ : ∃ r, r = fsImkdirInst env inst isRoot t path fromRoot := ⟨_, rfl⟩
  rw [← heq]
  unfold fsImkdirInst at heq
  by_cases hi : inst.initialized = true
  swap
  · rw [if_pos (by simpa using hi)] at heq
    rw [heq]
    exact ⟨fun _ => .inl (by simpa using hi), fun _ => .refl inst⟩
  rw [if_neg (by simp [hi])] at heq
  cases hsp : splitPathInst inst isRoot t path fromRoot with
  | none =>
    rw [hsp] at heq
    rw [heq]
    exact ⟨fun _ => .inr (.inl hsp), fun _ => .refl inst⟩
  | some pb =>
    obtain ⟨parent, base⟩ := pb
    rw [hsp] at heq
    dsimp only at heq
    cases hfind : findInDirInst inst.super parent base with
    | some j =>
      rw [hfind] at heq
      rw [heq]
      refine ⟨fun _ => .inr (.inr ⟨parent, base, hsp, .inl ?_⟩), fun _ => .refl inst⟩
      rw [hfind]
      exact Option.some_ne_none j
    | none =>
      rw [hfind] at heq
      cases hal : allocSlotInst inst.super with
      | none =>
        rw [hal] at heq
        rw [heq]
        exact ⟨fun _ => .inr (.inr ⟨parent, base, hsp, .inr hal⟩), fun _ => .refl inst⟩
      | some r =>
        obtain ⟨i, sup⟩ := r
        rw [hal] at heq
        dsimp only at heq
        have hne := ((allocSlotInst_adds hal).setFile (x := { sup.files i with
          name := base ++ List.replicate (fsNameMax - base.length) 0
          type := .dir
          parentDir := parent })).ne (by simp)
        obtain ⟨disk, hs, -⟩ := fsWriteSuperInst_eq env 0 { inst with
          super := sup.setFile i { sup.files i with
            name := base ++ List.replicate (fsNameMax - base.length) 0
            type := .dir
            parentDir := parent } }
        rw [hs] at heq
        rw [heq]
        refine ⟨fun h => absurd h.super hne, fun h => ?_⟩
        rcases h with h | h | ⟨parent', base', h, h'⟩
        · rw [hi] at h
          cases h
        · rw [hsp] at h
          cases h
        · rw [hsp] at h
          cases h
          cases h' with
          | inl h' => exact absurd hfind h'
          | inr h' =>
            rw [hal] at h'
            cases h'

end Failures

/-- Which failed calls leave the table, the bitmap and the files as they were. -/
theorem failed_calls_undone_iff (env : Env) (inst : FsInstance) (isRoot : Bool) (t : Task)
    (path : CStr) (data : Nat → UInt8) (size : UInt32) (fromRoot : Bool)
    (hn : inst.nSectors ≤ 2 ^ 32) :
    ((fsIwriteAllInst env inst isRoot t path data size fromRoot).1 ≠ 0 →
      (Untouched inst (fsIwriteAllInst env inst isRoot t path data size fromRoot).2 ↔
        WriteUndone env inst isRoot t path size fromRoot)) ∧
    ((fsImkdirInst env inst isRoot t path fromRoot).1 < 0 →
      (Untouched inst (fsImkdirInst env inst isRoot t path fromRoot).2 ↔
        MkdirUndone inst isRoot t path fromRoot)) :=
  ⟨fun _ => write_undone_iff hn, fun _ => mkdir_undone_iff⟩

/-- A freshly formatted image whose data area is full. -/
def fullImage : FsInstance := { freshImage with bitmap := fun _ => true }

/-- The new file `f` on it. -/
theorem failed_calls_undone_full :
    (fsIwriteAllInst noFailures fullImage true rootTask [102] (fun _ => 0) 1 true).1 = -1 ∧
      ((fsIwriteAllInst noFailures fullImage true rootTask [102] (fun _ => 0) 1 true).1 ≠ 0 →
        (Untouched fullImage
          (fsIwriteAllInst noFailures fullImage true rootTask [102] (fun _ => 0) 1 true).2 ↔
            WriteUndone noFailures fullImage true rootTask [102] 1 true)) :=
  ⟨by decide, (failed_calls_undone_iff noFailures fullImage true rootTask [102] (fun _ => 0) 1 true
    (by decide)).1⟩

/-- The failed write makes the entry. -/
theorem failed_write_creates : ¬ ∀ (env : Env) (inst : FsInstance) (isRoot : Bool) (t : Task)
    (path : CStr) (data : Nat → UInt8) (size : UInt32) (fromRoot : Bool),
    inst.nSectors ≤ 2 ^ 32 → (fsIwriteAllInst env inst isRoot t path data size fromRoot).1 ≠ 0 →
        Untouched inst (fsIwriteAllInst env inst isRoot t path data size fromRoot).2 := by
  intro h
  have hsame := h noFailures fullImage true rootTask [102] (fun _ => 0) 1 true (by decide)
    (by decide)
  have hcount := congrArg FsSuper.fileCount hsame.super
  revert hcount
  decide

end AdventOS.Fs
