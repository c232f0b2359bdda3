import AdventOS.Core.DList
import AdventOS.Core.LTS
import Mathlib

/-!
# The block cache (`kernel/bcache.c` over `kernel/ata.c`)

Thirty-two slots of one sector each, a write-back cache in front of the disk, with the intrusive
LRU list of `Core.DList`. The calls run one after the other (the big kernel lock), so a call is a
function of the cache, the disk and the outcomes of its transfers. `ata_read_sector` fails before
it stores anything; `ata_write_sector` can give up after the data went out, so a failed write leaves
anything in its sector (`WriteResult.failed`). The driver sends the low 28 bits of the LBA to the
drive (`sector`), while the cache compares all 32.

* `bcacheRead_good`, `bcacheWrite_good`, `bcacheSync_good`: what each call keeps;
* `inv_inductive`: the invariant along every run whose evictions write back and whose LBAs the
  driver tells apart. `Fs.WriteBack` has what follows from it.
-/
namespace AdventOS.Fs.BlockCache
open Function

/-! ## The driver -/

/-- `BCACHE_BLKSZ` bytes. -/
abbrev Block := Vector UInt8 512

/-- The address the drive sees: `ata_setup_lba28` sends four bits of the top byte
and the three lower bytes. ata.c:95-104 -/
def sector (lba : UInt32) : UInt32 := lba &&& 0x0FFFFFFF

/-- How one `ata_write_sector` ends. -/
inductive WriteResult
  | ok
  | failed (left : Block)

structure Disk where
  sectors : UInt32 → Block
  /-- ghost: the writes that succeeded, newest first -/
  log : List (UInt32 × Block)

/-- ata.c:124-148 -/
def ataWriteSector (d : Disk) (lba : UInt32) (buf : Block) : WriteResult → Bool × Disk
  | .ok => (true, ⟨update d.sectors (sector lba) buf, (lba, buf) :: d.log⟩)
  | .failed left => (false, { d with sectors := update d.sectors (sector lba) left })

/-- ata.c:106-122 -/
def ataReadSector (d : Disk) (lba : UInt32) (ok : Bool) : Option Block :=
  if ok then some (d.sectors (sector lba)) else none

/-! ## The cache -/

/-- An index into `g_entries[BCACHE_NR]`. -/
abbrev Slot := Fin 32

/-- bcache.c:15-22 (the links are in `Cache.lru`) -/
structure Entry where
  valid : Bool
  dirty : Bool
  lba : UInt32
  data : Block

/-- bcache.c:24-32 -/
structure Cache where
  entries : Slot → Entry
  lru : DList Slot
  inited : Bool
  hits : UInt32
  misses : UInt32
  logicalWrites : UInt32
  diskWrites : UInt32

/-- The statics before `bcache_init`. -/
def Cache.bss : Cache where
  entries _ := ⟨false, false, 0, Vector.replicate 512 0⟩
  lru := ⟨none, none, fun _ => none, fun _ => none⟩
  inited := false
  hits := 0
  misses := 0
  logicalWrites := 0
  diskWrites := 0

/-- The initial LRU list: slot 0 at the head, slot 31 at the tail. -/
def initLru : DList Slot where
  head := some 0
  tail := some 31
  prev i := if 0 < i then some (i - 1) else none
  next i := if i < 31 then some (i + 1) else none

/-- bcache.c:34-51 -/
def bcacheInit (c : Cache) : Cache where
  entries i := ⟨false, false, 0, (c.entries i).data⟩
  lru := initLru
  inited := true
  hits := 0
  misses := 0
  logicalWrites := 0
  diskWrites := 0

def ensureInit (c : Cache) : Cache := if c.inited then c else bcacheInit c

def Cache.setEntry (c : Cache) (i : Slot) (e : Entry) : Cache :=
  { c with entries := update c.entries i e }

/-- bcache.c:53-68 -/
def touch (c : Cache) (e : Slot) : Cache := { c with lru := c.lru.moveToFront e }

/-- bcache.c:70-75 -/
def lookup (c : Cache) (lba : UInt32) : Option Slot :=
  (List.finRange 32).find? fun i => (c.entries i).valid && (c.entries i).lba == lba

/-- The LRU slot, written back when it is dirty, and marked invalid whether or not
the write-back succeeded. bcache.c:110-124 -/
def reserveLru (c : Cache) (d : Disk) (wb : WriteResult) : Option Slot × Cache × Disk :=
  match c.lru.tail with
  | none => (none, c, d)
  | some e =>
    let x := c.entries e
    if x.valid && x.dirty then
      match ataWriteSector d x.lba x.data wb with
      | (true, d') =>
        (some e, { c.setEntry e { x with valid := false, dirty := false } with
          diskWrites := c.diskWrites + 1 }, d')
      | (false, d') => (some e, c.setEntry e { x with valid := false, dirty := false }, d')
    else (some e, c.setEntry e { x with valid := false }, d)

/-- `none` is the return value -1. bcache.c:126-156 -/
def bcacheRead (c : Cache) (d : Disk) (lba : UInt32) (wb : WriteResult) (rd : Bool) :
    Option Block × Cache × Disk :=
  match lookup (ensureInit c) lba with
  | some e =>
    (some ((ensureInit c).entries e).data,
      { touch (ensureInit c) e with hits := (ensureInit c).hits + 1 }, d)
  | none =>
    match reserveLru (ensureInit c) d wb with
    | (none, c1, d1) => (none, c1, d1)
    | (some e, c1, d1) =>
      match ataReadSector d1 lba rd with
      | none => (none, c1, d1)
      | some buf =>
        (some buf, { touch (c1.setEntry e ⟨true, false, lba, buf⟩) e with
          misses := c1.misses + 1 }, d1)

/-- `true` is the return value 0. bcache.c:158-183 -/
def bcacheWrite (c : Cache) (d : Disk) (lba : UInt32) (buf : Block) (wb : WriteResult) :
    Bool × Cache × Disk :=
  let c0 := { ensureInit c with logicalWrites := (ensureInit c).logicalWrites + 1 }
  match lookup c0 lba with
  | some e => (true, touch (c0.setEntry e { c0.entries e with data := buf, dirty := true }) e, d)
  | none =>
    match reserveLru c0 d wb with
    | (none, c1, d1) => (false, c1, d1)
    | (some e, c1, d1) => (true, touch (c1.setEntry e ⟨true, true, lba, buf⟩) e, d1)

/-- One round of the loop of `bcache_sync`. bcache.c:191-220 -/
def syncSlot (rs : Slot → WriteResult) (st : UInt32 × Cache × Disk) (i : Slot) :
    UInt32 × Cache × Disk :=
  match st with
  | (n, c, d) =>
    let x := c.entries i
    if x.valid && x.dirty then
      let c1 := c.setEntry i { x with dirty := false }
      match ataWriteSector d x.lba x.data (rs i) with
      | (true, d') => (n + 1, { c1 with diskWrites := c1.diskWrites + 1 }, d')
      | (false, d') =>
        if (c1.entries i).valid && (c1.entries i).lba == x.lba then
          (n, c1.setEntry i { c1.entries i with dirty := true }, d')
        else (n, c1, d')
    else (n, c, d)

/-- bcache.c:185-223 -/
def bcacheSync (c : Cache) (d : Disk) (rs : Slot → WriteResult) : UInt32 × Cache × Disk :=
  (List.finRange 32).foldl (syncSlot rs) (0, c, d)

/-! ## Runs -/

/-- ghost: a write that returned 0, how long the disk's log was then, and the slot that
took it -/
structure Accepted where
  data : Block
  mark : Nat
  slot : Option Slot

/-- ghost: what was asked of the cache -/
structure History where
  /-- the disk before the first call -/
  orig : UInt32 → Block
  /-- the last accepted write of each LBA -/
  accepted : UInt32 → Option Accepted

/-- What a plain disk would hold at `lba`. -/
def History.logical (h : History) (lba : UInt32) : Block :=
  match h.accepted lba with
  | some a => a.data
  | none => h.orig (sector lba)

def History.accept (h : History) (lba : UInt32) (a : Accepted) : History :=
  { h with accepted := update h.accepted lba (some a) }

structure World where
  cache : Cache
  disk : Disk
  hist : History
  /-- ghost: when each slot was last used; before its first use a slot counts as older
  than the slots below it -/
  used : Slot → Nat
  now : Nat

inductive Call
  | read (lba : UInt32) (wb : WriteResult) (rd : Bool)
  | write (lba : UInt32) (buf : Block) (wb : WriteResult)
  | sync (rs : Slot → WriteResult)

/-- The slot of `lba` after a call that succeeded is the one just used. -/
def stamp (w : World) (c : Cache) (lba : UInt32) (ok : Bool) : Slot → Nat :=
  match lookup c lba with
  | some i => if ok then update w.used i w.now else w.used
  | none => w.used

def step (w : World) : Call → World
  | .read lba wb rd =>
    let r := bcacheRead w.cache w.disk lba wb rd
    { w with cache := r.2.1, disk := r.2.2, used := stamp w r.2.1 lba r.1.isSome, now := w.now + 1 }
  | .write lba buf wb =>
    let r := bcacheWrite w.cache w.disk lba buf wb
    { w with
      cache := r.2.1
      disk := r.2.2
      hist := if r.1 then w.hist.accept lba ⟨buf, r.2.2.log.length, lookup r.2.1 lba⟩ else w.hist
      used := stamp w r.2.1 lba r.1
      now := w.now + 1 }
  | .sync rs =>
    let r := bcacheSync w.cache w.disk rs
    { w with cache := r.2.1, disk := r.2.2, now := w.now + 1 }

/-- The disk has any content; `bcache_init` has run or the first call runs it. -/
def Start (w : World) : Prop :=
  (w.cache = Cache.bss ∨ w.cache = bcacheInit Cache.bss) ∧ w.disk.log = [] ∧
    w.hist.orig = w.disk.sectors ∧ (∀ lba, w.hist.accepted lba = none) ∧
    (∀ i, w.used i = 31 - i.val) ∧ w.now = 32

def system : LTS World Call := .ofFn Start fun w l => some (step w l)

/-- A disk write of an accepted block succeeded since it was accepted. -/
def Flushed (d : Disk) (lba : UInt32) (a : Accepted) : Prop :=
  (lba, a.data) ∈ d.log.take (d.log.length - a.mark)

/-- No transfer fails, and the LBAs are among `U`. -/
def Faultless (U : Set UInt32) (_ : World) : Call → Prop
  | .read lba wb rd => lba ∈ U ∧ wb = .ok ∧ rd = true
  | .write lba _ wb => lba ∈ U ∧ wb = .ok
  | .sync rs => ∀ i, rs i = .ok

/-- The call misses and the slot it evicts is dirty. -/
def EvictsDirty (c : Cache) (lba : UInt32) : Prop :=
  lookup (ensureInit c) lba = none ∧ ∃ e, (ensureInit c).lru.tail = some e ∧
    ((ensureInit c).entries e).valid ∧ ((ensureInit c).entries e).dirty

/-- The LBAs are among `U`, and the write-back of an eviction does not fail. Reads from
the disk and the writes of a sync may. -/
def WritesBack (U : Set UInt32) (w : World) : Call → Prop
  | .read lba wb _ => lba ∈ U ∧ (EvictsDirty w.cache lba → wb = .ok)
  | .write lba _ wb => lba ∈ U ∧ (EvictsDirty w.cache lba → wb = .ok)
  | .sync _ => True

/-! ## The invariant -/

/-- What the slots and the disk say about every LBA. -/
structure Coherent (U : Set UInt32) (es : Slot → Entry) (h : History) (d : Disk) : Prop where
  unique : ∀ i j, (es i).valid → (es j).valid → (es i).lba = (es j).lba → i = j
  inU : ∀ i, (es i).valid → (es i).lba ∈ U
  cached : ∀ i, (es i).valid → (es i).data = h.logical (es i).lba
  /-- no dirty slot: the disk is up to date -/
  stored : ∀ lba ∈ U, (∀ i, (es i).valid → (es i).dirty → (es i).lba ≠ lba) →
    d.sectors (sector lba) = h.logical lba
  untouched : ∀ n, (∀ lba ∈ U, sector lba ≠ n) → d.sectors n = h.orig n
  accepted_inU : ∀ lba a, h.accepted lba = some a → lba ∈ U ∧ a.mark ≤ d.log.length
  pending : ∀ lba a, h.accepted lba = some a → Flushed d lba a ∨
    ∃ i, a.slot = some i ∧ (es i).valid ∧ (es i).dirty ∧ (es i).lba = lba

/-- The LRU list holds every slot, the most recently used first. -/
def Ordered (lru : DList Slot) (used : Slot → Nat) : Prop :=
  ∃ l, lru.Lists l ∧ (∀ i, i ∈ l) ∧ l.Pairwise fun i j => used j < used i

structure Inv (U : Set UInt32) (w : World) : Prop where
  coherent : Coherent U w.cache.entries w.hist w.disk
  order : w.cache.inited → Ordered w.cache.lru w.used
  fresh : w.cache.inited = false → ∀ i, (w.cache.entries i).valid = false ∧ w.used i = 31 - i.val
  past : ∀ i, w.used i < w.now

/-! ## One slot or one sector at a time -/

section Coherence

variable {U : Set UInt32} {es : Slot → Entry} {h : History} {d : Disk} {i : Slot}

variable {lba : UInt32}

theorem flushed_cons {a : Accepted} {p : UInt32 × Block} {f : UInt32 → Block}
    (hm : a.mark ≤ d.log.length) :
    Flushed ⟨f, p :: d.log⟩ lba a ↔ (lba, a.data) = p ∨ Flushed d lba a := by
  unfold Flushed
  rw [List.length_cons, show d.log.length + 1 - a.mark = d.log.length - a.mark + 1 by omega,
    List.take_succ_cons, List.mem_cons]

theorem Coherent.written (hU : U.InjOn sector) (c : Coherent U es h d) (hv : (es i).valid) :
    Coherent U (update es i { es i with dirty := false }) h
      (ataWriteSector d (es i).lba (es i).data .ok).2 := by
  have hin := c.inU i hv
  refine ⟨?_, ?_, ?_, ?_, ?_, ?_, ?_⟩
  · intro j k hj hk hjk
    apply c.unique j k
    all_goals grind [update_apply]
  · intro j hj
    have := c.inU j
    grind [update_apply]
  · intro j hj
    have := c.cached j
    grind [update_apply]
  · intro lba hlba hclean
    by_cases hl : lba = (es i).lba
    · subst hl
      simp [ataWriteSector, c.cached i hv]
    · have hs : sector lba ≠ sector (es i).lba := fun hc => hl (hU hlba hin hc)
      simp only [ataWriteSector, update_of_ne hs]
      apply c.stored lba hlba
      intro j hj hjd
      by_cases hji : j = i
      · rw [hji]; exact Ne.symm hl
      · have := hclean j
        simp only [update_of_ne hji] at this
        exact this hj hjd
  · intro n hn
    simp only [ataWriteSector, update_of_ne (hn _ hin).symm]
    exact c.untouched n hn
  · intro lba a ha
    have := c.accepted_inU lba a ha
    exact ⟨this.1, Nat.le_succ_of_le this.2⟩
  · intro lba a ha
    obtain ⟨-, hm⟩ := c.accepted_inU lba a ha
    simp only [ataWriteSector, flushed_cons hm]
    rcases c.pending lba a ha with hf | ⟨j, hsl, hj, hjd, hl⟩
    · exact .inl (.inr hf)
    · by_cases hji : j = i
      · subst hji
        refine .inl (.inl ?_)
        have hc := c.cached j hj
        rw [hl] at hc
        simp only [History.logical, ha] at hc
        rw [hl, hc]
      · refine .inr ⟨j, ?_⟩
        rw [update_of_ne hji]
        exact ⟨hsl, hj, hjd, hl⟩

theorem Coherent.writeFailed (hU : U.InjOn sector) (c : Coherent U es h d) (left : Block)
    (hv : (es i).valid) (hd : (es i).dirty) :
    Coherent U es h (ataWriteSector d (es i).lba (es i).data (.failed left)).2 := by
  have hin := c.inU i hv
  refine ⟨c.unique, c.inU, c.cached, ?_, ?_, c.accepted_inU, c.pending⟩
  · intro lba hlba hclean
    have hs : sector lba ≠ sector (es i).lba := fun hc => hclean i hv hd (hU hlba hin hc).symm
    simp only [ataWriteSector, update_of_ne hs]
    exact c.stored lba hlba hclean
  · intro n hn
    simp only [ataWriteSector, update_of_ne (hn _ hin).symm]
    exact c.untouched n hn

theorem Coherent.drop (c : Coherent U es h d) {x : Entry} (hc : ¬ ((es i).valid ∧ (es i).dirty))
    (hx : x.valid = false) : Coherent U (update es i x) h d := by
  have hother : ∀ j, (update es i x j).valid → j ≠ i := by
    rintro j hj rfl
    simp [hx] at hj
  refine ⟨?_, ?_, ?_, ?_, c.untouched, c.accepted_inU, ?_⟩
  · intro j k hj hk
    have hji := hother j hj
    have hki := hother k hk
    rw [update_of_ne hji] at hj ⊢
    rw [update_of_ne hki] at hk ⊢
    exact c.unique j k hj hk
  · intro j hj
    have hji := hother j hj
    rw [update_of_ne hji] at hj ⊢
    exact c.inU j hj
  · intro j hj
    have hji := hother j hj
    rw [update_of_ne hji] at hj ⊢
    exact c.cached j hj
  · intro lba hlba hclean
    apply c.stored lba hlba
    intro j hj hjd
    have hji : j ≠ i := by
      rintro rfl
      exact hc ⟨hj, hjd⟩
    have := hclean j
    rw [update_of_ne hji] at this
    exact this hj hjd
  · intro lba a ha
    rcases c.pending lba a ha with hf | ⟨j, hsl, hj, hjd, hl⟩
    · exact .inl hf
    · have hji : j ≠ i := by
        rintro rfl
        exact hc ⟨hj, hjd⟩
      refine .inr ⟨j, ?_⟩
      rw [update_of_ne hji]
      exact ⟨hsl, hj, hjd, hl⟩

theorem Coherent.fill (c : Coherent U es h d) (hlba : lba ∈ U)
    (hv : (es i).valid = false) (hn : ∀ j, (es j).valid → (es j).lba ≠ lba) :
    Coherent U (update es i ⟨true, false, lba, d.sectors (sector lba)⟩) h d := by
  have hdata : d.sectors (sector lba) = h.logical lba :=
    c.stored lba hlba fun j hj _ => hn j hj
  refine ⟨?_, ?_, ?_, ?_, c.untouched, c.accepted_inU, ?_⟩
  · intro j k hj hk hjk
    have := c.unique j k
    have := hn j
    have := hn k
    grind [update_apply]
  · intro j hj
    have := c.inU j
    grind [update_apply]
  · intro j hj
    have := c.cached j
    grind [update_apply]
  · intro l hl hclean
    apply c.stored l hl
    intro j hj hjd
    have := hclean j
    grind [update_apply]
  · intro l a ha
    rcases c.pending l a ha with hf | ⟨j, hsl, hj, hjd, hl⟩
    · exact .inl hf
    · refine .inr ⟨j, ?_⟩
      grind [update_apply]

theorem Coherent.accept (c : Coherent U es h d) (buf : Block) (hlba : lba ∈ U)
    (hn : ∀ j, j ≠ i → (es j).valid → (es j).lba ≠ lba)
    (hi : (es i).valid → (es i).lba = lba) :
    Coherent U (update es i ⟨true, true, lba, buf⟩) (h.accept lba ⟨buf, d.log.length, some i⟩)
      d := by
  have hlog : ∀ l, l ≠ lba → (h.accept lba ⟨buf, d.log.length, some i⟩).logical l = h.logical l := by
    intro l hl
    simp [History.logical, History.accept, update_of_ne hl]
  refine ⟨?_, ?_, ?_, ?_, c.untouched, ?_, ?_⟩
  · intro j k hj hk hjk
    have := c.unique j k
    have := hn j
    have := hn k
    grind [update_apply]
  · intro j hj
    have := c.inU j
    grind [update_apply]
  · intro j hj
    by_cases hji : j = i
    · subst hji
      simp [History.logical, History.accept]
    · rw [update_of_ne hji] at hj ⊢
      rw [hlog _ (hn j hji hj), c.cached j hj]
  · intro l hl hclean
    have hne : l ≠ lba := by
      have := hclean i
      simp only [update_self] at this
      exact (this trivial trivial).symm
    rw [hlog l hne]
    apply c.stored l hl
    intro j hj hjd
    have := hclean j
    grind [update_apply]
  · intro l a ha
    have := c.accepted_inU l a
    simp only [History.accept, update_apply] at ha
    split at ha
    · rename_i hl
      subst hl
      cases ha
      exact ⟨hlba, Nat.le_refl _⟩
    · exact this ha
  · intro l a ha
    simp only [History.accept, update_apply] at ha
    split at ha
    · rename_i hl
      cases ha
      exact .inr ⟨i, rfl, by simp [hl]⟩
    · rcases c.pending l a ha with hf | ⟨j, hsl, hj, hjd, hlj⟩
      · exact .inl hf
      · refine .inr ⟨j, ?_⟩
        grind [update_apply]

end Coherence

/-! ## The LRU order -/

variable {used : Slot → Nat} {now : Nat} {c : Cache} {lba : UInt32} {e : Slot} {U : Set UInt32}
  {h : History} {d : Disk} {wb : WriteResult} {w : World}

theorem Ordered.tail {lru : DList Slot} (h : Ordered lru used) :
    ∃ e, lru.tail = some e ∧ ∀ j, j ≠ e → used e < used j := by
  obtain ⟨l, hl, hall, hp⟩ := h
  rcases List.eq_nil_or_concat l with rfl | ⟨a, e, rfl⟩
  · exact absurd (hall 0) List.not_mem_nil
  · rw [List.concat_eq_append] at hl hall hp
    refine ⟨e, by rw [hl.tail_eq]; simp, ?_⟩
    intro j hj
    have hm : j ∈ a := by
      rcases List.mem_append.mp (hall j) with hm | hm
      · exact hm
      · exact absurd (List.mem_singleton.mp hm) hj
    exact (List.pairwise_append.mp hp).2.2 j hm e (List.mem_singleton.mpr rfl)

theorem Ordered.touch {lru : DList Slot} (h : Ordered lru used)
    (hpast : ∀ i, used i < now) (e : Slot) :
    Ordered (lru.moveToFront e) (update used e now) := by
  obtain ⟨l, hl, hall, hp⟩ := h
  refine ⟨e :: l.erase e, hl.moveToFront (hall e), ?_, ?_⟩
  · intro i
    by_cases hi : i = e
    · exact hi ▸ List.mem_cons_self
    · exact List.mem_cons_of_mem _ ((List.mem_erase_of_ne hi).mpr (hall i))
  · have hne : ∀ j ∈ l.erase e, j ≠ e := fun j hj => (hl.nodup.mem_erase_iff.mp hj).1
    refine List.pairwise_cons.mpr ⟨?_, ?_⟩
    · intro j hj
      rw [update_self, update_of_ne (hne j hj)]
      exact hpast j
    · refine (hp.sublist List.erase_sublist).imp_of_mem ?_
      intro i j hi hj hij
      rw [update_of_ne (hne i hi), update_of_ne (hne j hj)]
      exact hij

theorem initLru_lists : initLru.Lists (List.finRange 32) := by
  apply DList.Lists.of_getElem (List.nodup_finRange 32) (by decide) (by decide)
  · intro i hi
    have : ∀ i : Fin 32, initLru.prev i = ((List.finRange 32).take i.val).getLast? := by decide
    simpa using this ⟨i, by simpa using hi⟩
  · intro i hi
    have : ∀ i : Fin 32, initLru.next i = (List.finRange 32)[i.val + 1]? := by decide
    simpa using this ⟨i, by simpa using hi⟩

theorem ordered_initLru (hu : ∀ i, used i = 31 - i.val) :
    Ordered initLru used := by
  refine ⟨List.finRange 32, initLru_lists, List.mem_finRange, ?_⟩
  have : (List.finRange 32).Pairwise fun i j => 31 - j.val < 31 - i.val := by decide
  simpa only [hu] using this

/-! ## The calls -/

theorem lookup_some {i : Slot} (h : lookup c lba = some i) :
    (c.entries i).valid ∧ (c.entries i).lba = lba := by
  have := List.find?_some h
  simpa using this

theorem lookup_none (h : lookup c lba = none) (j : Slot)
    (hj : (c.entries j).valid) : (c.entries j).lba ≠ lba := by
  have := List.find?_eq_none.mp h j (List.mem_finRange j)
  simpa [hj] using this

theorem lookup_of_valid {i : Slot}
    (hu : ∀ j, (c.entries j).valid → (c.entries j).lba = lba → j = i) (hv : (c.entries i).valid)
    (hl : (c.entries i).lba = lba) : lookup c lba = some i := by
  cases hf : lookup c lba with
  | none => exact absurd hl (lookup_none hf i hv)
  | some j =>
    obtain ⟨hj, hjl⟩ := lookup_some hf
    rw [hu j hj hjl]

theorem reserveLru_frame (d : Disk) (wb : WriteResult)
    (ht : c.lru.tail = some e) :
    ∃ x n d', reserveLru c d wb = (some e, { c.setEntry e x with diskWrites := n }, d') ∧
      x.valid = false ∧
      ∀ m, ((c.entries e).valid → m ≠ sector (c.entries e).lba) → d'.sectors m = d.sectors m := by
  unfold reserveLru
  simp only [ht]
  split
  · rename_i hvd
    obtain ⟨hv, hd⟩ : (c.entries e).valid ∧ (c.entries e).dirty := by simpa using hvd
    cases wb with
    | ok =>
      refine ⟨_, _, _, rfl, rfl, ?_⟩
      intro m hm
      simp only [update_of_ne (hm hv)]
    | failed left =>
      refine ⟨_, c.diskWrites, _, rfl, rfl, ?_⟩
      intro m hm
      simp only [update_of_ne (hm hv)]
  · exact ⟨_, c.diskWrites, _, rfl, rfl, fun _ _ => rfl⟩

theorem reserveLru_coherent
    (hU : U.InjOn sector) (hc : Coherent U c.entries h d) (ht : c.lru.tail = some e)
    (hwb : (c.entries e).valid ∧ (c.entries e).dirty → wb = .ok) :
    ∃ x n d', reserveLru c d wb = (some e, { c.setEntry e x with diskWrites := n }, d') ∧
      x.valid = false ∧ Coherent U (update c.entries e x) h d' := by
  unfold reserveLru
  simp only [ht]
  split
  · rename_i hvd
    obtain ⟨hv, hd⟩ : (c.entries e).valid ∧ (c.entries e).dirty := by simpa using hvd
    rw [hwb ⟨hv, hd⟩]
    refine ⟨_, _, _, rfl, rfl, ?_⟩
    have hw := (hc.written hU hv).drop (i := e) (x := { c.entries e with valid := false, dirty := false })
      (by simp) rfl
    rwa [update_idem] at hw
  · rename_i hvd
    refine ⟨_, c.diskWrites, _, rfl, rfl, ?_⟩
    exact hc.drop (by simpa using hvd) rfl

/-- The invariant of an initialised cache. -/
structure Good (U : Set UInt32) (c : Cache) (h : History) (d : Disk) (used : Slot → Nat) : Prop where
  coherent : Coherent U c.entries h d
  order : Ordered c.lru used
  inited : c.inited = true

theorem Good.inv (h : Good U w.cache w.hist w.disk w.used)
    (hp : ∀ i, w.used i < w.now) : Inv U w :=
  ⟨h.coherent, fun _ => h.order, fun hc => by simp [h.inited] at hc, hp⟩

theorem Coherent.of_invalid {es es' : Slot → Entry}
    (c : Coherent U es h d) (hes : ∀ i, (es i).valid = false) (hes' : ∀ i, (es' i).valid = false) :
    Coherent U es' h d := by
  refine ⟨?_, ?_, ?_, ?_, c.untouched, c.accepted_inU, ?_⟩
  · intro i j hi
    simp [hes' i] at hi
  · intro i hi
    simp [hes' i] at hi
  · intro i hi
    simp [hes' i] at hi
  · intro lba hlba _
    exact c.stored lba hlba fun i hi => by simp [hes i] at hi
  · intro lba a ha
    rcases c.pending lba a ha with hf | ⟨j, -, hj, -⟩
    · exact .inl hf
    · simp [hes j] at hj

theorem good_ensureInit (h : Inv U w) :
    Good U (ensureInit w.cache) w.hist w.disk w.used := by
  unfold ensureInit
  split
  · rename_i hi
    exact ⟨h.coherent, h.order hi, hi⟩
  · rename_i hi
    have hf := h.fresh (by simpa using hi)
    exact ⟨h.coherent.of_invalid (fun i => (hf i).1) fun i => rfl,
      ordered_initLru fun i => (hf i).2, rfl⟩

theorem Good.install {y : Entry} (hco : Coherent U (update c.entries e y) h d)
    (ho : Ordered c.lru used) (hi : c.inited = true) (hp : ∀ i, used i < now) (hy : y.valid) :
    Good U (touch (c.setEntry e y) e) h d (update used e now) ∧
      lookup (touch (c.setEntry e y) e) y.lba = some e := by
  refine ⟨⟨hco, ho.touch hp e, hi⟩, ?_⟩
  have hself : (update c.entries e y) e = y := update_self ..
  apply lookup_of_valid
  · intro j hj hjl
    apply hco.unique j e hj (by rw [hself]; exact hy)
    rw [hself]
    exact hjl
  · simpa [touch, Cache.setEntry] using hy
  · simp [touch, Cache.setEntry]

theorem bcacheRead_good (hU : U.InjOn sector)
    (rd : Bool) (h : Inv U w) (hl : lba ∈ U)
    (hwb : EvictsDirty w.cache lba → wb = .ok) :
    (∃ c' d', bcacheRead w.cache w.disk lba wb rd = (none, c', d') ∧ Good U c' w.hist d' w.used) ∨
    (∃ out c' d' e, bcacheRead w.cache w.disk lba wb rd = (some out, c', d') ∧
      lookup c' lba = some e ∧ Good U c' w.hist d' (update w.used e w.now)) := by
  have hg := good_ensureInit h
  unfold bcacheRead
  unfold EvictsDirty at hwb
  generalize ensureInit w.cache = c at hg hwb ⊢
  cases hlk : lookup c lba with
  | some e =>
    -- a hit: only the order of the slots changes
    exact .inr ⟨_, _, _, e, rfl, hlk, hg.coherent, hg.order.touch h.past e, hg.inited⟩
  | none =>
    obtain ⟨e, ht, -⟩ := hg.order.tail
    obtain ⟨x, n, d', hr, hx, hco⟩ :=
      reserveLru_coherent hU hg.coherent ht fun hd => hwb ⟨hlk, e, ht, hd⟩
    simp only [hr]
    cases rd with
    | false => exact .inl ⟨_, _, rfl, hco, hg.order, hg.inited⟩
    | true =>
      have hx' : (update c.entries e x e).valid = false := by simpa using hx
      have hn : ∀ j, (update c.entries e x j).valid →
          (update c.entries e x j).lba ≠ lba := by
        intro j hj
        have := lookup_none hlk j
        grind [update_apply]
      obtain ⟨hgood, hlk'⟩ := Good.install (c := { c.setEntry e x with diskWrites := n })
        (hco.fill hl hx' hn) hg.order hg.inited h.past rfl
      exact .inr ⟨_, _, _, e, rfl, hlk', hgood.coherent, hgood.order, hgood.inited⟩

theorem bcacheWrite_good (hU : U.InjOn sector)
    (buf : Block) (wb : WriteResult) (h : Inv U w) (hl : lba ∈ U)
    (hwb : EvictsDirty w.cache lba → wb = .ok) :
    ∃ c' d' e, bcacheWrite w.cache w.disk lba buf wb = (true, c', d') ∧ lookup c' lba = some e ∧
      Good U c' (w.hist.accept lba ⟨buf, d'.log.length, some e⟩) d' (update w.used e w.now) := by
  have hg := good_ensureInit h
  unfold bcacheWrite
  unfold EvictsDirty at hwb
  generalize ensureInit w.cache = c at hg hwb ⊢
  have hlkc : lookup { c with logicalWrites := c.logicalWrites + 1 } lba = lookup c lba := rfl
  simp only [hlkc]
  cases hlk : lookup c lba with
  | some e =>
    obtain ⟨hv, hlba⟩ := lookup_some hlk
    have hy : (⟨(c.entries e).valid, true, (c.entries e).lba, buf⟩ : Entry) =
        ⟨true, true, lba, buf⟩ := by
      rw [hv, hlba]
    have hn : ∀ j, j ≠ e → (c.entries j).valid → (c.entries j).lba ≠ lba := by
      intro j hj hjv hjl
      exact hj (hg.coherent.unique j e hjv hv (hjl.trans hlba.symm))
    obtain ⟨hgood, hlk'⟩ := Good.install (c := { c with logicalWrites := c.logicalWrites + 1 })
      (hg.coherent.accept buf hl hn fun _ => hlba) hg.order hg.inited h.past rfl
    simp only [hy]
    exact ⟨_, _, e, rfl, hlk', hgood⟩
  | none =>
    obtain ⟨e, ht, -⟩ := hg.order.tail
    obtain ⟨x, n, d', hr, hx, hco⟩ :=
      reserveLru_coherent (c := { c with logicalWrites := c.logicalWrites + 1 }) hU hg.coherent ht
        fun hd => hwb ⟨hlk, e, ht, hd⟩
    have hn : ∀ j, j ≠ e → (update c.entries e x j).valid →
        (update c.entries e x j).lba ≠ lba := by
      intro j hj hjv
      rw [update_of_ne hj] at hjv ⊢
      exact lookup_none hlk j hjv
    have hv : (update c.entries e x e).valid →
        (update c.entries e x e).lba = lba := by
      simp [hx]
    obtain ⟨hgood, hlk'⟩ := Good.install
      (c := { { c with logicalWrites := c.logicalWrites + 1 }.setEntry e x with diskWrites := n })
      (hco.accept buf hl hn hv) hg.order hg.inited h.past rfl
    simp only [hr]
    exact ⟨_, _, e, rfl, hlk', hgood⟩

/-- What a slot holds is unchanged by a sync; only its dirty flag may be. -/
structure Synced (c c' : Cache) : Prop where
  lru : c'.lru = c.lru
  inited : c'.inited = c.inited
  valid : ∀ j, (c'.entries j).valid = (c.entries j).valid
  clean : ∀ j, ¬ (c.entries j).dirty → ¬ (c'.entries j).dirty

theorem syncSlot_good (hU : U.InjOn sector) (rs : Slot → WriteResult) (n : UInt32)
    (hc : Coherent U c.entries h d) (i : Slot) :
    Synced c (syncSlot rs (n, c, d) i).2.1 ∧
      Coherent U (syncSlot rs (n, c, d) i).2.1.entries h (syncSlot rs (n, c, d) i).2.2 ∧
      (rs i = .ok → ¬ (((syncSlot rs (n, c, d) i).2.1.entries i).valid ∧
        ((syncSlot rs (n, c, d) i).2.1.entries i).dirty)) := by
  unfold syncSlot
  simp only
  split
  · rename_i hvd
    obtain ⟨hv, hd⟩ : (c.entries i).valid ∧ (c.entries i).dirty := by simpa using hvd
    cases hr : rs i with
    | ok =>
      refine ⟨⟨rfl, rfl, ?_, ?_⟩, hc.written hU hv, ?_⟩
      · intro j
        simp only [ataWriteSector, Cache.setEntry, update_apply]
        split
        · rename_i hj; rw [hj]
        · rfl
      · intro j hj
        simp only [ataWriteSector, Cache.setEntry, update_apply]
        split
        · simp
        · exact hj
      · intro _
        simp [ataWriteSector, Cache.setEntry]
    | failed left =>
      -- the flag is put back: the entry is what it was
      have hback : update (update c.entries i
          ⟨true, false, (c.entries i).lba, (c.entries i).data⟩) i
          ⟨true, true, (c.entries i).lba, (c.entries i).data⟩ = c.entries := by
        have he : (⟨true, true, (c.entries i).lba, (c.entries i).data⟩ : Entry) = c.entries i := by
          cases hx : c.entries i
          simp_all
        rw [update_idem, he, update_eq_self]
      have hw := hc.writeFailed hU left hv hd
      simp only [ataWriteSector, Cache.setEntry, update_self, hv, beq_self_eq_true,
        Bool.and_self, if_true, hback] at hw ⊢
      exact ⟨⟨rfl, rfl, fun _ => rfl, fun _ h => h⟩, hw, fun hk => by cases hk⟩
  · rename_i hvd
    refine ⟨⟨rfl, rfl, fun _ => rfl, fun _ h => h⟩, hc, fun _ => by simpa using hvd⟩

theorem Synced.trans {a b : Cache} (h : Synced a b) (h' : Synced b c) : Synced a c :=
  ⟨h'.lru.trans h.lru, h'.inited.trans h.inited, fun j => (h'.valid j).trans (h.valid j),
    fun j hj => h'.clean j (h.clean j hj)⟩

theorem syncSlots_good (hU : U.InjOn sector) (rs : Slot → WriteResult)
    (l : List Slot) : ∀ {n : UInt32} {c : Cache} {d : Disk}, Coherent U c.entries h d →
    Synced c (l.foldl (syncSlot rs) (n, c, d)).2.1 ∧
      Coherent U (l.foldl (syncSlot rs) (n, c, d)).2.1.entries h
        (l.foldl (syncSlot rs) (n, c, d)).2.2 ∧
      ((∀ i, rs i = .ok) → ∀ i ∈ l, ¬ (((l.foldl (syncSlot rs) (n, c, d)).2.1.entries i).valid ∧
        ((l.foldl (syncSlot rs) (n, c, d)).2.1.entries i).dirty)) := by
  induction l with
  | nil =>
    intro n c d hc
    exact ⟨⟨rfl, rfl, fun _ => rfl, fun _ h => h⟩, hc, fun _ i hi => by cases hi⟩
  | cons i l ih =>
    intro n c d hc
    obtain ⟨h1, h2, h3⟩ := syncSlot_good hU rs n hc i
    rw [List.foldl_cons]
    generalize syncSlot rs (n, c, d) i = r at h1 h2 h3 ⊢
    obtain ⟨n', c', d'⟩ := r
    obtain ⟨k1, k2, k3⟩ := ih (n := n') h2
    refine ⟨h1.trans k1, k2, ?_⟩
    intro hok j hj
    rcases List.mem_cons.mp hj with rfl | hj
    · rintro ⟨hv, hd⟩
      apply h3 (hok j)
      refine ⟨by rw [← k1.valid]; exact hv, ?_⟩
      by_contra hn
      exact k1.clean j hn hd
    · exact k3 hok j hj

theorem bcacheSync_good (hU : U.InjOn sector) (rs : Slot → WriteResult)
    (hc : Coherent U c.entries h d) :
    Synced c (bcacheSync c d rs).2.1 ∧
      Coherent U (bcacheSync c d rs).2.1.entries h (bcacheSync c d rs).2.2 := by
  unfold bcacheSync
  obtain ⟨h1, h2, -⟩ := syncSlots_good (n := 0) hU rs (List.finRange 32) hc
  exact ⟨h1, h2⟩

theorem bcacheSync_stored (hU : U.InjOn sector) (rs : Slot → WriteResult)
    (hc : Coherent U c.entries h d) (hok : ∀ i, rs i = .ok)
    (hl : lba ∈ U) :
    (bcacheSync c d rs).2.2.sectors (sector lba) = h.logical lba := by
  unfold bcacheSync
  obtain ⟨-, hco, hclean⟩ := syncSlots_good (n := 0) hU rs (List.finRange 32) hc
  apply hco.stored lba hl
  intro i hv hd _
  exact hclean hok i (List.mem_finRange i) ⟨hv, hd⟩

theorem bcacheRead_value (hU : U.InjOn sector)
    {rd : Bool} {out : Block} (h : Inv U w) (hl : lba ∈ U)
    (hr : (bcacheRead w.cache w.disk lba wb rd).1 = some out) : out = w.hist.logical lba := by
  have hg := good_ensureInit h
  unfold bcacheRead at hr
  generalize ensureInit w.cache = c at hg hr
  cases hlk : lookup c lba with
  | some e =>
    obtain ⟨hv, hlba⟩ := lookup_some hlk
    simp only [hlk, Option.some.injEq] at hr
    rw [← hr, hg.coherent.cached e hv, hlba]
  | none =>
    obtain ⟨e, ht, -⟩ := hg.order.tail
    obtain ⟨x, n, d', he, -, hsec⟩ := reserveLru_frame w.disk wb ht
    simp only [hlk, he, ataReadSector] at hr
    cases rd with
    | false => simp at hr
    | true =>
      obtain rfl : d'.sectors (sector lba) = out := by simpa using hr
      rw [hsec]
      · exact hg.coherent.stored lba hl fun j hj _ => lookup_none hlk j hj
      · intro hv hs
        exact lookup_none hlk e hv (hU hl (hg.coherent.inU e hv) hs).symm

/-! ## Whole runs -/

theorem used_lt (hp : ∀ i, used i < now) (e i : Slot) :
    update used e now i < now + 1 := by
  have := hp i
  rw [update_apply]
  split <;> omega

theorem stamp_some (h : lookup c lba = some e) :
    stamp w c lba true = update w.used e w.now := by
  simp [stamp, h]

theorem stamp_failed (w : World) (c : Cache) (lba : UInt32) : stamp w c lba false = w.used := by
  unfold stamp
  split <;> rfl

theorem inv_read (hU : U.InjOn sector)
    {rd : Bool} (h : Inv U w) (hl : lba ∈ U) (hwb : EvictsDirty w.cache lba → wb = .ok) :
    Inv U (step w (.read lba wb rd)) := by
  rcases bcacheRead_good hU rd h hl hwb with ⟨c', d', hr, hg⟩ | ⟨out, c', d', e, hr, hlk, hg⟩
  · simp only [step, hr, Option.isSome_none, stamp_failed]
    exact hg.inv fun i => Nat.lt_succ_of_lt (h.past i)
  · simp only [step, hr, Option.isSome_some, stamp_some hlk]
    exact hg.inv (used_lt h.past e)

theorem inv_write (hU : U.InjOn sector) {buf : Block}
    (h : Inv U w) (hl : lba ∈ U) (hwb : EvictsDirty w.cache lba → wb = .ok) :
    Inv U (step w (.write lba buf wb)) := by
  obtain ⟨c', d', e, hr, hlk, hg⟩ := bcacheWrite_good hU buf _ h hl hwb
  simp only [step, hr, hlk, stamp_some hlk, if_true]
  exact hg.inv (used_lt h.past e)

theorem inv_sync (hU : U.InjOn sector) {rs : Slot → WriteResult}
    (h : Inv U w) : Inv U (step w (.sync rs)) := by
  obtain ⟨hs, hco⟩ := bcacheSync_good hU rs h.coherent
  simp only [step]
  generalize bcacheSync w.cache w.disk rs = r at hs hco ⊢
  refine ⟨hco, ?_, ?_, fun i => Nat.lt_succ_of_lt (h.past i)⟩
  · intro hi
    rw [hs.lru]
    exact h.order (hs.inited ▸ hi)
  · intro hi j
    rw [hs.valid]
    exact h.fresh (hs.inited ▸ hi) j

theorem inv_start (h : Start w) : Inv U w := by
  obtain ⟨hc, hlog, horig, hacc, hused, hnow⟩ := h
  have hv : ∀ i, (w.cache.entries i).valid = false := by
    intro i
    rcases hc with hc | hc <;> rw [hc] <;> rfl
  refine ⟨⟨?_, ?_, ?_, ?_, ?_, ?_, ?_⟩, ?_, fun _ i => ⟨hv i, hused i⟩, ?_⟩
  · intro i j hi
    simp [hv i] at hi
  · intro i hi
    simp [hv i] at hi
  · intro i hi
    simp [hv i] at hi
  · intro lba _ _
    simp [History.logical, hacc, horig]
  · intro n _
    rw [horig]
  · intro lba a ha
    simp [hacc] at ha
  · intro lba a ha
    simp [hacc] at ha
  · intro hi
    rcases hc with hc | hc
    · rw [hc] at hi
      cases hi
    · rw [hc]
      exact ordered_initLru hused
  · intro i
    rw [hused, hnow]
    omega

theorem inv_inductive (hU : U.InjOn sector) :
    (system.restrict (WritesBack U)).Inductive (Inv U) where
  init _ h := inv_start h
  step w l w' hI hs := by
    obtain ⟨hc, hst⟩ := hs
    obtain rfl : step w l = w' := by simpa [system] using hst
    cases l with
    | read lba wb rd => exact inv_read hU hI hc.1 hc.2
    | write lba buf wb => exact inv_write hU hI hc.1 hc.2
    | sync rs => exact inv_sync hU hI

theorem WritesBack.of_faultless {l : Call} (h : Faultless U w l) :
    WritesBack U w l := by
  cases l with
  | read lba wb rd => exact ⟨h.1, fun _ => h.2.1⟩
  | write lba buf wb => exact ⟨h.1, fun _ => h.2⟩
  | sync rs => trivial

end AdventOS.Fs.BlockCache
