import AdventOS.Core.LTS

/-!
# The physical page allocator (`kernel/pmm.c`)

The bitmap, the two counters, and the functions over them. Pages are numbers, addresses
are below 2^32 and wrap there as `uintptr_t` does; E820 entries are 64-bit.

* `setBits_spec`, `clearBits_spec`: the two marking loops;
* `allocPage_spec`, `allocContiguous_spec`: what is handed out was free;
* `allocator_sound`;
* `used_is_not_the_bitmap`: the counter leaves out the bits past the last page.
-/
namespace AdventOS.Kernel.Pmm
open Function List Option

/-! ## The functions -/

def pmmPageSize : Nat := 4096

/-- pmm.c:17 -/
def pmmMaxPages : Nat := 65536

/-- An E820 entry; type 1 is usable. -/
structure Region where
  base : UInt64
  length : UInt64
  type : UInt32

def e820TypeUsable : UInt32 := 1

/-- pmm.c:20-22. Bit `p` of the bitmap is page `p`. -/
structure Pages where
  bitmap : Nat → Bool
  total : Nat
  used : Nat

def setBits : Pages → (p n : Nat) → Pages
  | s, _, 0 => s
  | s, p, n + 1 =>
    setBits (if s.bitmap p then s
      else { s with bitmap := update s.bitmap p true, used := s.used + 1 }) (p + 1) n

def clearBits : Pages → (p n : Nat) → Pages
  | s, _, 0 => s
  | s, p, n + 1 =>
    clearBits (if s.bitmap p
      then { s with bitmap := update s.bitmap p false, used := s.used - 1 } else s)
      (p + 1) n

/-- pmm.c:31-39 -/
def markRangeUsed (s : Pages) (start stop : Nat) : Pages :=
  let pStart := start / pmmPageSize
  let pEnd := (stop + pmmPageSize - 1) % 2 ^ 32 / pmmPageSize
  let pEnd := if pEnd > s.total then s.total else pEnd
  setBits s pStart (pEnd - pStart)

/-- pmm.c:42-49 -/
def markRangeFree (s : Pages) (start stop : Nat) : Pages :=
  let pStart := (start + pmmPageSize - 1) % 2 ^ 32 / pmmPageSize
  let pEnd := stop / pmmPageSize
  let pEnd := if pEnd > s.total then s.total else pEnd
  clearBits s pStart (pEnd - pStart)

/-- The end of an entry, as a `uint64_t`. -/
def Region.stop (e : Region) : Nat := (e.base + e.length).toNat

/-- pmm.c:58-75 -/
def totalPages (map : List Region) : Nat :=
  let maxEnd := map.foldl (fun acc e =>
    if e.type ≠ e820TypeUsable then acc else if e.stop > acc then e.stop else acc) 0
  let maxEnd := if maxEnd > 0x100000000 then 0x100000000 else maxEnd
  let actual := (maxEnd + pmmPageSize - 1) / pmmPageSize
  if actual > pmmMaxPages then pmmMaxPages else actual

/-- The body of the loop in pmm.c:82-90 -/
def freeRegion (s : Pages) (e : Region) : Pages :=
  if e.type ≠ e820TypeUsable then s
  else if e.base.toNat ≥ 0x100000000 then s
  else
    let f := if e.stop > 0x100000000 then 0x100000000 else e.stop
    markRangeFree s e.base.toNat (f % 2 ^ 32)

/-- pmm.c:53-99 -/
def pmmInit (map : List Region) (kernelStart bssEnd : Nat) : Pages :=
  let total := totalPages map
  let s := map.foldl freeRegion ⟨fun _ => true, total, total⟩
  let s := markRangeUsed s 0 pmmPageSize
  let s := markRangeUsed s 0x8000 0x9000
  markRangeUsed s kernelStart bssEnd

/-- The inner loop of pmm.c:106-115, `n` bits from `bit` on. `none`: no page in
this byte; `some none`: past the last page. -/
def scanByte (s : Pages) (byte : Nat) : (n bit : Nat) → Option (Option Nat)
  | 0, _ => none
  | n + 1, bit =>
    let page := byte * 8 + bit
    if page = 0 then scanByte s byte n (bit + 1)
    else if page ≥ s.total then some none
    else if s.bitmap page = false then some (some page)
    else scanByte s byte n (bit + 1)

/-- The outer loop, `n` bytes from `byte` on. -/
def scan (s : Pages) : (n byte : Nat) → Option Nat
  | 0, _ => none
  | n + 1, byte =>
    if (List.range 8).all fun bit => s.bitmap (byte * 8 + bit) then scan s n (byte + 1)
    else
      match scanByte s byte 8 0 with
      | some r => r
      | none => scan s n (byte + 1)

/-- pmm.c:101-120: the page, `none` for NULL. -/
def allocPage (s : Pages) : Pages × Option Nat :=
  match scan s ((s.total + 7) / 8) 0 with
  | none => (s, none)
  | some page =>
    ({ s with bitmap := update s.bitmap page true, used := s.used + 1 }, some page)

/-- pmm.c:27. Past the bitmap the bits of the memory `behind` it are read. -/
def bitGet (bitmap behind : Nat → Bool) (p : Nat) : Bool :=
  if p < pmmMaxPages then bitmap p else behind p

/-- The loop of pmm.c:130: how many of the `n` pages from `start` on are clear up to
the first one that is not. Indices wrap. -/
def clearRun (bitmap behind : Nat → Bool) (start : Nat) : (n : Nat) → Nat
  | 0 => 0
  | n + 1 =>
    if bitGet bitmap behind (start % 2 ^ 32) then 0
    else clearRun bitmap behind (start + 1) n + 1

/-- The loop of pmm.c:128-138. `none`: the loop does not end; `some none`: NULL. -/
def searchRun (s : Pages) (behind : Nat → Bool) (n : Nat) : (fuel start : Nat) → Option (Option Nat)
  | 0, _ => none
  | fuel + 1, start =>
    if (start + n) % 2 ^ 32 ≤ s.total then
      let k := clearRun s.bitmap behind start n
      if k = n then some (some start)
      else searchRun s behind n fuel ((start + k + 1) % 2 ^ 32)
    else some none

/-- pmm.c:132, `n` bits from `p`. -/
def setRun : (bitmap : Nat → Bool) → (p n : Nat) → Nat → Bool
  | bitmap, _, 0 => bitmap
  | bitmap, p, n + 1 => setRun (update bitmap p true) (p + 1) n

/-- pmm.c:122-141. `start` takes at most 2^32 values. -/
def allocContiguous (s : Pages) (behind : Nat → Bool) (n : Nat) : Option (Pages × Option Nat) :=
  if n = 0 then some (s, none)
  else if n = 1 then some (allocPage s)
  else
    (searchRun s behind n (2 ^ 32 + 1) 1).map fun r =>
      match r with
      | none => (s, none)
      | some start =>
        ({ s with bitmap := setRun s.bitmap start n, used := s.used + n }, some start)

/-- pmm.c:143-153 -/
def freePage (s : Pages) (addr : Nat) : Pages :=
  if addr % pmmPageSize ≠ 0 then s
  else
    let p := addr / pmmPageSize
    if p < s.total ∧ s.bitmap p then
      { s with bitmap := update s.bitmap p false, used := s.used - 1 }
    else s

/-- The loop of pmm.c:160-164 -/
def freeRun : Pages → (p n : Nat) → Pages
  | s, _, 0 => s
  | s, p, n + 1 =>
    if p ≥ s.total then s
    else
      freeRun (if s.bitmap p
        then { s with bitmap := update s.bitmap p false, used := s.used - 1 } else s)
        (p + 1) n

/-- pmm.c:155-166 -/
def freeContiguous (s : Pages) (addr n : Nat) : Pages :=
  if addr % pmmPageSize ≠ 0 then s else freeRun s (addr / pmmPageSize) n

/-! ## Counting bits -/

def count (s : Pages) : Nat := Nat.count (fun p => s.bitmap p = true) s.total

/-- The used counter counts the set bits of the pages in range. -/
def Counted (s : Pages) : Prop := s.used = count s

variable {n p start stop : Nat} {s : Pages} {map : List Region} {behind : Nat → Bool}

theorem count_set {f : Nat → Bool} (hp : p < n) (hf : f p = false) :
    Nat.count (fun q => update f p true q = true) n =
      Nat.count (fun q => f q = true) n + 1 := by
  induction n with
  | zero => omega
  | succ n ih =>
    rw [Nat.count_succ, Nat.count_succ]
    by_cases hn : p = n
    · have hbelow : Nat.count (fun q => update f p true q = true) n =
          Nat.count (fun q => f q = true) n := by
        refine le_antisymm (Nat.count_mono_left fun q hq h => ?_)
          (Nat.count_mono_left fun q hq h => ?_)
        · rwa [update_of_ne (by omega)] at h
        · rwa [update_of_ne (by omega)]
      rw [hbelow, ← hn, update_self, hf]
      simp
    · rw [ih (by omega), update_of_ne (by omega)]
      omega

theorem count_clear {f : Nat → Bool} (hp : p < n) (hf : f p = true) :
    Nat.count (fun q => update f p false q = true) n + 1 =
      Nat.count (fun q => f q = true) n := by
  have h := count_set (f := update f p false) hp (update_self ..)
  have hback : update f p true = f := by
    rw [← hf, update_eq_self]
  rw [update_idem, hback] at h
  exact h.symm

theorem Counted.set (h : Counted s) (hp : p < s.total)
    (hf : s.bitmap p = false) :
    Counted { s with bitmap := update s.bitmap p true, used := s.used + 1 } := by
  unfold Counted count at *
  rw [count_set hp hf, h]

theorem Counted.clear (h : Counted s) (hp : p < s.total)
    (hf : s.bitmap p = true) :
    Counted { s with bitmap := update s.bitmap p false, used := s.used - 1 } := by
  unfold Counted count at *
  dsimp only
  have := count_clear hp hf
  omega

/-! ## The loops -/

theorem setBits_spec (h : Counted s) (hn : n = 0 ∨ p + n ≤ s.total) :
    (setBits s p n).total = s.total ∧ Counted (setBits s p n) ∧
      ∀ q, (setBits s p n).bitmap q = true ↔ p ≤ q ∧ q < p + n ∨ s.bitmap q = true := by
  induction n generalizing s p with
  | zero =>
    refine ⟨rfl, h, fun q => ?_⟩
    constructor
    · exact .inr
    · intro hq
      rcases hq with hq | hq
      · omega
      · exact hq
  | succ n ih =>
    have hle : p + (n + 1) ≤ s.total := by omega
    unfold setBits
    split
    · rename_i hp
      obtain ⟨h1, h2, h3⟩ := ih h (p := p + 1) (.inr (by omega))
      refine ⟨h1, h2, fun q => ?_⟩
      rw [h3]
      by_cases hq : q = p
      · rw [hq]
        exact ⟨fun _ => .inr hp, fun _ => .inr hp⟩
      · refine or_congr_left ?_
        omega
    · rename_i hp
      obtain ⟨h1, h2, h3⟩ := ih (h.set (p := p) (by omega) (by simpa using hp)) (p := p + 1)
        (.inr (by dsimp only; omega))
      refine ⟨h1, h2, fun q => ?_⟩
      rw [h3]
      dsimp only
      by_cases hq : q = p
      · rw [hq, update_self]
        exact ⟨fun _ => .inl (by omega), fun _ => .inr rfl⟩
      · rw [update_of_ne hq]
        refine or_congr_left ?_
        omega

theorem clearBits_spec (h : Counted s) (hn : n = 0 ∨ p + n ≤ s.total) :
    (clearBits s p n).total = s.total ∧ Counted (clearBits s p n) ∧
      ∀ q, (clearBits s p n).bitmap q = false ↔ p ≤ q ∧ q < p + n ∨ s.bitmap q = false := by
  induction n generalizing s p with
  | zero =>
    refine ⟨rfl, h, fun q => ?_⟩
    constructor
    · exact .inr
    · intro hq
      rcases hq with hq | hq
      · omega
      · exact hq
  | succ n ih =>
    have hle : p + (n + 1) ≤ s.total := by omega
    unfold clearBits
    split
    · rename_i hp
      obtain ⟨h1, h2, h3⟩ := ih (h.clear (p := p) (by omega) hp) (p := p + 1)
        (.inr (by dsimp only; omega))
      refine ⟨h1, h2, fun q => ?_⟩
      rw [h3]
      dsimp only
      by_cases hq : q = p
      · rw [hq, update_self]
        exact ⟨fun _ => .inl (by omega), fun _ => .inr rfl⟩
      · rw [update_of_ne hq]
        refine or_congr_left ?_
        omega
    · rename_i hp
      obtain ⟨h1, h2, h3⟩ := ih h (p := p + 1) (.inr (by omega))
      refine ⟨h1, h2, fun q => ?_⟩
      rw [h3]
      by_cases hq : q = p
      · rw [hq]
        have hf : s.bitmap p = false := by simpa using hp
        exact ⟨fun _ => .inr hf, fun _ => .inr hf⟩
      · refine or_congr_left ?_
        omega

theorem freeRun_eq (s : Pages) (p n : Nat) : freeRun s p n = clearBits s p (min n (s.total - p)) := by
  induction n generalizing s p with
  | zero => rw [Nat.zero_min]; rfl
  | succ n ih =>
    unfold freeRun
    split
    · rw [show s.total - p = 0 by omega, Nat.min_zero]
      rfl
    · rw [ih, show min (n + 1) (s.total - p) = min n (s.total - (p + 1)) + 1 by omega]
      conv_rhs => unfold clearBits
      split <;> rfl

/-! ## Ranges -/

/-- The page lies wholly inside a usable region. -/
def Usable (map : List Region) (p : Nat) : Prop :=
  ∃ e ∈ map, e.type = e820TypeUsable ∧ e.base.toNat ≤ p * pmmPageSize ∧
    (p + 1) * pmmPageSize ≤ e.base.toNat + e.length.toNat

/-- The page does not meet the byte range. -/
def Outside (p : Nat) (r : Nat × Nat) : Prop :=
  r.2 ≤ p * pmmPageSize ∨ (p + 1) * pmmPageSize ≤ r.1

theorem markRangeUsed_spec (h : Counted s) (start : Nat)
    (hstop : stop ≤ 0xFFFFF000) :
    (markRangeUsed s start stop).total = s.total ∧ Counted (markRangeUsed s start stop) ∧
      ∀ q, (markRangeUsed s start stop).bitmap q = true ↔
        q < s.total ∧ start / pmmPageSize ≤ q ∧ q * pmmPageSize < stop ∨ s.bitmap q = true := by
  unfold markRangeUsed
  dsimp only
  have hmod : (stop + pmmPageSize - 1) % 2 ^ 32 = stop + 4095 := by
    unfold pmmPageSize
    omega
  rw [hmod]
  obtain ⟨e, he⟩ : ∃ e, e = if (stop + 4095) / pmmPageSize > s.total then s.total
      else (stop + 4095) / pmmPageSize := ⟨_, rfl⟩
  rw [← he]
  have hmin : e = min ((stop + 4095) / pmmPageSize) s.total := by
    rw [he]
    split <;> omega
  obtain ⟨h1, h2, h3⟩ := setBits_spec (p := start / pmmPageSize) (n := e - start / pmmPageSize) h
    (by omega)
  refine ⟨h1, h2, fun q => ?_⟩
  rw [h3]
  refine or_congr_left ?_
  unfold pmmPageSize at *
  omega

theorem markRangeUsed_outside (h : Counted s) {q : Nat}
    (hstop : stop ≤ 0xFFFFF000) (hq : q < s.total)
    (hclear : (markRangeUsed s start stop).bitmap q = false) :
    s.bitmap q = false ∧ Outside q (start, stop) := by
  have hspec := (markRangeUsed_spec h start hstop).2.2 q
  rw [hclear] at hspec
  have hnot := mt hspec.2 (by decide)
  refine ⟨by simpa using fun h => hnot (.inr h), ?_⟩
  unfold Outside
  unfold pmmPageSize at *
  by_contra hin
  exact hnot (.inl (by omega))

theorem markRangeFree_spec (h : Counted s) (start stop : Nat)
    (hstart : start ≤ 0xFFFFF000) :
    (markRangeFree s start stop).total = s.total ∧ Counted (markRangeFree s start stop) ∧
      ∀ q, (markRangeFree s start stop).bitmap q = false ↔
        q < s.total ∧ start ≤ q * pmmPageSize ∧ (q + 1) * pmmPageSize ≤ stop ∨
          s.bitmap q = false := by
  unfold markRangeFree
  dsimp only
  have hmod : (start + pmmPageSize - 1) % 2 ^ 32 = start + 4095 := by
    unfold pmmPageSize
    omega
  rw [hmod]
  obtain ⟨e, he⟩ : ∃ e, e = if stop / pmmPageSize > s.total then s.total
      else stop / pmmPageSize := ⟨_, rfl⟩
  rw [← he]
  have hmin : e = min (stop / pmmPageSize) s.total := by
    rw [he]
    split <;> omega
  obtain ⟨h1, h2, h3⟩ := clearBits_spec (p := (start + 4095) / pmmPageSize)
    (n := e - (start + 4095) / pmmPageSize) h (by omega)
  refine ⟨h1, h2, fun q => ?_⟩
  rw [h3]
  refine or_congr_left ?_
  unfold pmmPageSize at *
  omega

/-- The region is not one that lies inside the last page below 4 GiB, whose start
`mark_range_free` would round up to 0. -/
def RegionOk (e : Region) : Prop :=
  e.type = e820TypeUsable →
    2 ^ 32 ≤ e.base.toNat ∨ e.base.toNat ≤ 0xFFFFF000 ∨ 2 ^ 32 ≤ e.stop

theorem Region.stop_le (e : Region) : e.stop ≤ e.base.toNat + e.length.toNat := by
  unfold Region.stop
  rw [UInt64.toNat_add]
  exact Nat.mod_le _ _

theorem freeRegion_spec (h : Counted s) {e : Region} (he : RegionOk e) :
    (freeRegion s e).total = s.total ∧ Counted (freeRegion s e) ∧
      ∀ q, (freeRegion s e).bitmap q = false →
        q < s.total ∧ Usable [e] q ∨ s.bitmap q = false := by
  have hkeep : ∀ q, s.bitmap q = false → q < s.total ∧ Usable [e] q ∨ s.bitmap q = false :=
    fun q hq => .inr hq
  unfold freeRegion
  split
  · exact ⟨rfl, h, hkeep⟩
  · rename_i htype
    have htype : e.type = e820TypeUsable := by simpa using htype
    split
    · exact ⟨rfl, h, hkeep⟩
    · dsimp only
      obtain ⟨f, hf⟩ : ∃ f, f = if e.stop > 0x100000000 then 0x100000000 else e.stop := ⟨_, rfl⟩
      rw [← hf]
      by_cases hstop : e.stop < 2 ^ 32
      · have hfs : f % 2 ^ 32 = e.stop := by
          rw [hf, if_neg (by omega), Nat.mod_eq_of_lt hstop]
        obtain ⟨h1, h2, h3⟩ := markRangeFree_spec h e.base.toNat (f % 2 ^ 32)
          (by have := he htype; omega)
        refine ⟨h1, h2, fun q hq => ?_⟩
        rcases (h3 q).1 hq with ⟨hqt, hlo, hhi⟩ | hq
        · have := e.stop_le
          exact .inl ⟨hqt, e, mem_singleton_self e, htype, hlo, by omega⟩
        · exact .inr hq
      · -- an end at or past 4 GiB is clamped to 2^32, which is 0 as an address
        have hf0 : f % 2 ^ 32 = 0 := by
          rw [hf]
          split <;> omega
        rw [hf0]
        have hnone : markRangeFree s e.base.toNat 0 = s := by
          unfold markRangeFree
          dsimp only
          rw [Nat.zero_div, if_neg (by omega), Nat.zero_sub]
          rfl
        rw [hnone]
        exact ⟨rfl, h, hkeep⟩

theorem Usable.mono {map' : List Region} (hsub : ∀ e ∈ map, e ∈ map')
    (h : Usable map p) : Usable map' p := by
  obtain ⟨e, he, h⟩ := h
  exact ⟨e, hsub e he, h⟩

theorem freeRegions_spec {l : List Region} (hmap : ∀ e ∈ l, e ∈ map ∧ RegionOk e)
    (h : Counted s) (hs : ∀ q, s.bitmap q = false → q < s.total ∧ Usable map q) :
    (l.foldl freeRegion s).total = s.total ∧ Counted (l.foldl freeRegion s) ∧
      ∀ q, (l.foldl freeRegion s).bitmap q = false → q < s.total ∧ Usable map q := by
  induction l generalizing s with
  | nil => exact ⟨rfl, h, hs⟩
  | cons e l ih =>
    obtain ⟨he, hok⟩ := hmap e mem_cons_self
    obtain ⟨h1, h2, h3⟩ := freeRegion_spec h hok
    obtain ⟨g1, g2, g3⟩ := ih (fun e' he' => hmap e' (mem_cons_of_mem _ he')) h2 (by
      intro q hq
      rw [h1]
      rcases h3 q hq with ⟨hqt, hu⟩ | hq
      · exact ⟨hqt, hu.mono (by simpa using he)⟩
      · exact hs q hq)
    rw [h1] at g1 g3
    exact ⟨g1, g2, g3⟩

theorem totalPages_le (map : List Region) : totalPages map ≤ pmmMaxPages := by
  unfold totalPages
  dsimp only
  split_ifs <;> omega

/-- The ranges that `pmm_init` reserves. -/
def bootReserved (kernelStart bssEnd : Nat) : List (Nat × Nat) :=
  [(0, pmmPageSize), (0x8000, 0x9000), (kernelStart, bssEnd)]

theorem pmmInit_spec (hmap : ∀ e ∈ map, RegionOk e) (kernelStart : Nat)
    {bssEnd : Nat} (hbss : bssEnd ≤ 0xFFFFF000) :
    (pmmInit map kernelStart bssEnd).total = totalPages map ∧
      Counted (pmmInit map kernelStart bssEnd) ∧
      ∀ q, (pmmInit map kernelStart bssEnd).bitmap q = false →
        q < totalPages map ∧ Usable map q ∧ ∀ r ∈ bootReserved kernelStart bssEnd, Outside q r := by
  have hcount : Counted ⟨fun _ => true, totalPages map, totalPages map⟩ := by
    unfold Counted count
    simp
  obtain ⟨h1, h2, h3⟩ := freeRegions_spec (l := map) (fun e he => ⟨he, hmap e he⟩)
    hcount (fun q hq => nomatch hq)
  unfold pmmInit
  dsimp only at h1 h3 ⊢
  obtain ⟨s, hs⟩ : ∃ s, s = map.foldl freeRegion ⟨fun _ => true, totalPages map, totalPages map⟩ :=
    ⟨_, rfl⟩
  rw [← hs] at h1 h2 h3 ⊢
  have hle0 : pmmPageSize ≤ 0xFFFFF000 := by decide
  have hle8 : 0x9000 ≤ 0xFFFFF000 := by decide
  obtain ⟨a1, a2, -⟩ := markRangeUsed_spec h2 0 hle0
  obtain ⟨b1, b2, -⟩ := markRangeUsed_spec a2 0x8000 hle8
  obtain ⟨c1, c2, c3⟩ := markRangeUsed_spec b2 kernelStart hbss
  refine ⟨by rw [c1, b1, a1, h1], c2, fun q hq => ?_⟩
  -- a bit that is clear at the end was clear before each of the three reservations
  have hback : ∀ {s : Pages} {x y : Nat}, Counted s → y ≤ 0xFFFFF000 →
      (markRangeUsed s x y).bitmap q = false → s.bitmap q = false := by
    intro s x y hc hy hclear
    have := ((markRangeUsed_spec hc x hy).2.2 q).2
    rw [hclear] at this
    simpa using fun h => this (.inr h)
  have hq2 := hback b2 hbss hq
  have hq1 := hback a2 hle8 hq2
  have hq0 := hback h2 hle0 hq1
  obtain ⟨hqt, hu⟩ := h3 q hq0
  refine ⟨hqt, hu, ?_⟩
  intro r hr
  unfold bootReserved at hr
  simp only [mem_cons, not_mem_nil, or_false] at hr
  rcases hr with rfl | rfl | rfl
  · exact (markRangeUsed_outside h2 hle0 (by omega) hq1).2
  · exact (markRangeUsed_outside a2 hle8 (by omega) hq2).2
  · exact (markRangeUsed_outside b2 hbss (by omega) hq).2

/-! ## Finding pages -/

theorem scanByte_spec {byte bit : Nat} (h : scanByte s byte n bit = some (some p)) :
    p ≠ 0 ∧ p < s.total ∧ s.bitmap p = false := by
  induction n generalizing bit with
  | zero => cases h
  | succ n ih =>
    unfold scanByte at h
    dsimp only at h
    split at h
    · exact ih h
    · rename_i hne
      split at h
      · cases h
      · split at h
        · rename_i hclear
          cases h
          exact ⟨hne, by omega, hclear⟩
        · exact ih h

theorem scan_spec {byte : Nat} (h : scan s n byte = some p) :
    p ≠ 0 ∧ p < s.total ∧ s.bitmap p = false := by
  induction n generalizing byte with
  | zero => cases h
  | succ n ih =>
    unfold scan at h
    split at h
    · exact ih h
    · split at h
      · rename_i r hr
        rw [h] at hr
        exact scanByte_spec hr
      · exact ih h

theorem allocPage_spec (s : Pages) :
    allocPage s = (s, none) ∨
      ∃ p, p ≠ 0 ∧ p < s.total ∧ s.bitmap p = false ∧ allocPage s = (setBits s p 1, some p) := by
  unfold allocPage
  cases hscan : scan s ((s.total + 7) / 8) 0 with
  | none => exact .inl rfl
  | some p =>
    obtain ⟨h1, h2, h3⟩ := scan_spec hscan
    refine .inr ⟨p, h1, h2, h3, ?_⟩
    unfold setBits setBits
    rw [h3]
    rfl

theorem clearRun_le (bitmap behind : Nat → Bool) (start n : Nat) :
    clearRun bitmap behind start n ≤ n := by
  induction n generalizing start with
  | zero => exact Nat.le_refl 0
  | succ n ih =>
    unfold clearRun
    split
    · omega
    · exact Nat.succ_le_succ (ih _)

theorem clearRun_full {bitmap : Nat → Bool}
    (h : clearRun bitmap behind start n = n) {i : Nat} (hi : i < n)
    (hin : (start + i) % 2 ^ 32 < pmmMaxPages) : bitmap ((start + i) % 2 ^ 32) = false := by
  induction n generalizing start i with
  | zero => omega
  | succ n ih =>
    unfold clearRun at h
    split at h
    · omega
    · rename_i hclear
      cases i with
      | zero =>
        rw [Nat.add_zero] at hin ⊢
        unfold bitGet at hclear
        rw [if_pos hin] at hclear
        simpa using hclear
      | succ i =>
        rw [show start + (i + 1) = start + 1 + i by omega] at hin ⊢
        exact ih (by omega) (by omega) hin

/-- The run that is found lies below the last page and is clear. Only `n` = 2^32 - 1 makes
`start + n` wrap, and no run that long avoids both page 0 and page 8. -/
theorem searchRun_spec {fuel : Nat}
    (ht : s.total ≤ pmmMaxPages) (h0 : s.bitmap 0 = true) (h8 : s.bitmap 8 = true) (hn2 : 2 ≤ n)
    (hn : n < 2 ^ 32) (hstart : start < 2 ^ 32)
    (hinv : n = 2 ^ 32 - 1 ∨ 1 ≤ start ∧ start + n < 2 ^ 32)
    (h : searchRun s behind n fuel start = some (some p)) :
    p ≠ 0 ∧ p + n ≤ s.total ∧ ∀ i < n, s.bitmap (p + i) = false := by
  have hmax : pmmMaxPages = 65536 := rfl
  induction fuel generalizing start with
  | zero => cases h
  | succ fuel ih =>
    unfold searchRun at h
    split at h
    · rename_i hle
      dsimp only at h
      have hk := clearRun_le s.bitmap behind start n
      split at h
      · rename_i hfull
        have hp : start = p := by simpa using h
        have hclear : ∀ i < n, (start + i) % 2 ^ 32 < pmmMaxPages →
            s.bitmap ((start + i) % 2 ^ 32) = false := fun i hi hin => clearRun_full hfull hi hin
        rcases hinv with hbig | ⟨h1, hsum⟩
        · exfalso
          have hp0 : ∀ q i, (start + i) % 2 ^ 32 = q → q < pmmMaxPages → s.bitmap q = true →
              ¬i < n := by
            intro q i hq hlt hset hi
            have := hclear i hi (by omega)
            rw [hq, hset] at this
            cases this
          have := hp0 0 ((2 ^ 32 - start) % 2 ^ 32) (by omega) (by omega) h0
          have := hp0 8 ((2 ^ 32 + 8 - start) % 2 ^ 32) (by omega) (by omega) h8
          omega
        · rw [Nat.mod_eq_of_lt hsum] at hle
          rw [← hp]
          refine ⟨by omega, hle, fun i hi => ?_⟩
          have := hclear i hi (by omega)
          rwa [Nat.mod_eq_of_lt (by omega)] at this
      · refine ih (Nat.mod_lt _ (by decide)) ?_ h
        rcases hinv with hbig | ⟨h1, hsum⟩
        · exact .inl hbig
        · rw [Nat.mod_eq_of_lt hsum] at hle
          refine .inr ?_
          rw [Nat.mod_eq_of_lt (by omega)]
          omega
    · cases h

theorem setRun_eq (h : ∀ i < n, s.bitmap (p + i) = false) :
    { s with bitmap := setRun s.bitmap p n, used := s.used + n } = setBits s p n := by
  induction n generalizing s p with
  | zero => rfl
  | succ n ih =>
    unfold setRun setBits
    rw [if_neg (by simpa using h 0 (by omega)), ← ih]
    · rw [Nat.add_assoc, Nat.add_comm 1 n]
    · intro i hi
      dsimp only
      rw [update_of_ne (by omega)]
      have := h (i + 1) (by omega)
      rwa [show p + (i + 1) = p + 1 + i by omega] at this

theorem allocContiguous_spec {r : Pages × Option Nat}
    (ht : s.total ≤ pmmMaxPages) (h0 : s.bitmap 0 = true) (h8 : s.bitmap 8 = true)
    (hn : n < 2 ^ 32) (h : allocContiguous s behind n = some r) :
    r = (s, none) ∨ ∃ p, p ≠ 0 ∧ p + n ≤ s.total ∧ (∀ i < n, s.bitmap (p + i) = false) ∧
      r = (setBits s p n, some p) := by
  unfold allocContiguous at h
  split at h
  · exact .inl (by simpa using h.symm)
  · split at h
    · rename_i hne h1
      obtain rfl : allocPage s = r := by simpa using h
      rw [h1]
      rcases allocPage_spec s with hnone | ⟨p, hp0, hpt, hclear, heq⟩
      · exact .inl hnone
      · refine .inr ⟨p, hp0, by omega, fun i hi => ?_, heq⟩
        rw [show p + i = p by omega]
        exact hclear
    · obtain ⟨o, ho, hr⟩ := map_eq_some_iff.1 h
      cases o with
      | none => exact .inl hr.symm
      | some p =>
        obtain ⟨hp0, hpt, hclear⟩ := searchRun_spec ht h0 h8 (by omega) hn (by decide)
          (by omega) ho
        dsimp only at hr
        rw [setRun_eq hclear] at hr
        exact .inr ⟨p, hp0, hpt, hclear, hr.symm⟩

/-! ## Runs -/

/-- The allocator; the map it was built from, the ranges reserved since, and the pages
handed out and not freed. -/
structure Sys where
  pages : Pages
  map : List Region
  reserved : List (Nat × Nat)
  live : List Nat

inductive Label
  | alloc
  | allocContiguous (behind : Nat → Bool) (n : Nat)
  | free (addr : Nat)
  | freeContiguous (addr n : Nat)
  | reserve (start stop : Nat)

/-- The page numbers behind a returned pointer. -/
def runOf (r : Option Nat) (n : Nat) : List Nat :=
  match r with
  | none => []
  | some p => List.range' p n

def Freed (addr n p : Nat) : Prop :=
  addr % pmmPageSize = 0 ∧ addr / pmmPageSize ≤ p ∧ p < addr / pmmPageSize + n

instance (addr n p : Nat) : Decidable (Freed addr n p) := inferInstanceAs (Decidable (_ ∧ _))

def Sys.step (s : Sys) : Label → Option Sys
  | .alloc =>
    let r := allocPage s.pages
    some { s with pages := r.1, live := runOf r.2 1 ++ s.live }
  | .allocContiguous behind n =>
    if n < 2 ^ 32 then
      (allocContiguous s.pages behind n).map fun r =>
        { s with pages := r.1, live := runOf r.2 n ++ s.live }
    else none
  | .free addr =>
    some { s with
      pages := freePage s.pages addr
      live := s.live.filter fun p => ¬Freed addr 1 p }
  | .freeContiguous addr n =>
    some { s with
      pages := freeContiguous s.pages addr n
      live := s.live.filter fun p => ¬Freed addr n p }
  | .reserve start stop =>
    some { s with
      pages := markRangeUsed s.pages start stop
      reserved := (start, stop) :: s.reserved }

/-- After `pmm_init`. The kernel image ends below the last page of the address space. -/
def Sys.Init (s : Sys) : Prop :=
  ∃ map kernelStart bssEnd, bssEnd ≤ 0xFFFFF000 ∧
    s = ⟨pmmInit map kernelStart bssEnd, map, bootReserved kernelStart bssEnd, []⟩

def sys : LTS Sys Label := LTS.ofFn Sys.Init Sys.step

/-- Frees are of pages that are handed out; reservations are of pages nobody has, and end
below the last page of the address space. -/
def InUse (s : Sys) : Label → Prop
  | .free addr => addr % pmmPageSize ≠ 0 ∨ addr / pmmPageSize ∈ s.live
  | .freeContiguous addr n =>
    addr % pmmPageSize ≠ 0 ∨ ∀ i < n, addr / pmmPageSize + i ∈ s.live
  | .reserve start stop => stop ≤ 0xFFFFF000 ∧ ∀ p ∈ s.live, Outside p (start, stop)
  | _ => True

/-- A page that may be handed out. -/
def Sys.Good (s : Sys) (p : Nat) : Prop :=
  p < s.pages.total ∧ Usable s.map p ∧ ∀ r ∈ s.reserved, Outside p r

structure Sys.Inv (s : Sys) : Prop where
  bound : s.pages.total ≤ pmmMaxPages
  counted : Counted s.pages
  clear : ∀ p, s.pages.bitmap p = false → s.Good p
  live : ∀ p ∈ s.live, s.pages.bitmap p = true ∧ s.Good p
  nodup : s.live.Nodup
  boot : (0, pmmPageSize) ∈ s.reserved ∧ (0x8000, 0x9000) ∈ s.reserved

theorem Sys.Inv.boot_set {s : Sys} (h : s.Inv) :
    s.pages.bitmap 0 = true ∧ s.pages.bitmap 8 = true := by
  constructor
  · by_contra hne
    have := (h.clear 0 (by simpa using hne)).2.2 _ h.boot.1
    unfold Outside pmmPageSize at this
    omega
  · by_contra hne
    have := (h.clear 8 (by simpa using hne)).2.2 _ h.boot.2
    unfold Outside pmmPageSize at this
    omega

theorem Sys.Inv.handOut {s : Sys} (h : s.Inv) (hn : p + n ≤ s.pages.total)
    (hclear : ∀ i < n, s.pages.bitmap (p + i) = false) :
    Sys.Inv { s with pages := setBits s.pages p n, live := List.range' p n ++ s.live } := by
  obtain ⟨h1, h2, h3⟩ := setBits_spec (p := p) h.counted (.inr hn)
  have hrun : ∀ q ∈ List.range' p n, p ≤ q ∧ q < p + n ∧ s.pages.bitmap q = false := by
    intro q hq
    obtain ⟨hlo, hhi⟩ := mem_range'_1.1 hq
    have := hclear (q - p) (by omega)
    rw [show p + (q - p) = q by omega] at this
    exact ⟨hlo, hhi, this⟩
  have hgood : ∀ q, s.Good q →
      Sys.Good { s with pages := setBits s.pages p n, live := List.range' p n ++ s.live } q := by
    intro q hq
    exact ⟨by rw [h1]; exact hq.1, hq.2⟩
  refine ⟨by rw [h1]; exact h.bound, h2, ?_, ?_, ?_, h.boot⟩
  · intro q hq
    refine hgood q (h.clear q ?_)
    by_contra hne
    have := (h3 q).2 (.inr (by simpa using hne))
    rw [hq] at this
    cases this
  · intro q hq
    rcases mem_append.1 hq with hq | hq
    · obtain ⟨hlo, hhi, hc⟩ := hrun q hq
      exact ⟨(h3 q).2 (.inl ⟨hlo, hhi⟩), hgood q (h.clear q hc)⟩
    · exact ⟨(h3 q).2 (.inr (h.live q hq).1), hgood q (h.live q hq).2⟩
  · refine nodup_append.2 ⟨nodup_range', h.nodup, ?_⟩
    intro q hq r hr heq
    have hset := (h.live r hr).1
    rw [← heq, (hrun q hq).2.2] at hset
    cases hset

theorem Sys.Inv.release {s : Sys} (h : s.Inv) (hlive : ∀ i < n, p + i ∈ s.live)
    {keep : Nat → Bool} (hkeep : ∀ q, keep q = true ↔ ¬(p ≤ q ∧ q < p + n)) :
    Sys.Inv { s with pages := clearBits s.pages p n, live := s.live.filter keep } := by
  have hn : n = 0 ∨ p + n ≤ s.pages.total := by
    rcases Nat.eq_zero_or_pos n with h0 | h0
    · exact .inl h0
    · have := (h.live _ (hlive (n - 1) (by omega))).2.1
      omega
  obtain ⟨h1, h2, h3⟩ := clearBits_spec (p := p) h.counted hn
  have hgood : ∀ q, s.Good q →
      Sys.Good { s with pages := clearBits s.pages p n, live := s.live.filter keep } q := by
    intro q hq
    exact ⟨by rw [h1]; exact hq.1, hq.2⟩
  refine ⟨by rw [h1]; exact h.bound, h2, ?_, ?_, h.nodup.filter _, h.boot⟩
  · intro q hq
    rcases (h3 q).1 hq with ⟨hlo, hhi⟩ | hc
    · have := hlive (q - p) (by omega)
      rw [show p + (q - p) = q by omega] at this
      exact hgood q (h.live q this).2
    · exact hgood q (h.clear q hc)
  · intro q hq
    obtain ⟨hq, hk⟩ := mem_filter.1 hq
    refine ⟨?_, hgood q (h.live q hq).2⟩
    by_contra hne
    rcases (h3 q).1 (by simpa using hne) with hin | hc
    · exact (hkeep q).1 hk hin
    · rw [(h.live q hq).1] at hc
      cases hc

theorem Sys.Inv.reserve {s : Sys} (h : s.Inv) (hstop : stop ≤ 0xFFFFF000)
    (hout : ∀ p ∈ s.live, Outside p (start, stop)) :
    Sys.Inv { s with
      pages := markRangeUsed s.pages start stop
      reserved := (start, stop) :: s.reserved } := by
  obtain ⟨h1, h2, h3⟩ := markRangeUsed_spec h.counted start hstop
  have hgood : ∀ q, s.Good q → Outside q (start, stop) →
      Sys.Good { s with
        pages := markRangeUsed s.pages start stop
        reserved := (start, stop) :: s.reserved } q := by
    intro q hq ho
    refine ⟨by rw [h1]; exact hq.1, hq.2.1, ?_⟩
    intro r hr
    rcases mem_cons.1 hr with rfl | hr
    · exact ho
    · exact hq.2.2 r hr
  refine ⟨by rw [h1]; exact h.bound, h2, ?_, ?_, h.nodup,
    ⟨mem_cons_of_mem _ h.boot.1, mem_cons_of_mem _ h.boot.2⟩⟩
  · intro q hq
    have hold : s.pages.bitmap q = false := by
      by_contra hne
      have := (h3 q).2 (.inr (by simpa using hne))
      rw [hq] at this
      cases this
    have hg := h.clear q hold
    exact hgood q hg (markRangeUsed_outside h.counted hstop hg.1 hq).2
  · intro q hq
    exact ⟨(h3 q).2 (.inr (h.live q hq).1), hgood q (h.live q hq).2 (hout q hq)⟩

theorem step_map {s s' : Sys} {l : Label} (h : s.step l = some s') : s'.map = s.map := by
  cases l with
  | alloc =>
    cases h
    rfl
  | allocContiguous behind n =>
    dsimp only [Sys.step] at h
    split at h
    · obtain ⟨r, -, rfl⟩ := map_eq_some_iff.1 h
      rfl
    · cases h
  | free addr =>
    cases h
    rfl
  | freeContiguous addr n =>
    cases h
    rfl
  | reserve start stop =>
    cases h
    rfl

theorem Sys.Inv.step {s s' : Sys} (hinv : s.Inv) {l : Label} (hc : InUse s l)
    (h : s.step l = some s') : s'.Inv := by
  cases l with
  | alloc =>
    dsimp only [Sys.step] at h
    rcases allocPage_spec s.pages with hnone | ⟨p, -, hpt, hclear, heq⟩
    · rw [hnone] at h
      cases h
      exact hinv
    · rw [heq] at h
      cases h
      refine hinv.handOut (by omega) fun i hi => ?_
      rw [show p + i = p by omega]
      exact hclear
  | allocContiguous behind n =>
    dsimp only [Sys.step] at h
    split at h
    · rename_i hn
      obtain ⟨r, hr, hs⟩ := map_eq_some_iff.1 h
      rcases allocContiguous_spec hinv.bound hinv.boot_set.1 hinv.boot_set.2 hn hr with
        hnone | ⟨p, -, hpt, hclear, heq⟩
      · rw [← hs, hnone]
        exact hinv
      · rw [← hs, heq]
        exact hinv.handOut hpt hclear
    · cases h
  | free addr =>
    cases h
    unfold freePage
    split
    · rename_i hal
      have hkeep : s.live.filter (fun p => ¬Freed addr 1 p) = s.live := by
        refine filter_eq_self.2 fun p _ => ?_
        simpa using fun hf : Freed addr 1 p => hal hf.1
      rw [hkeep]
      exact hinv
    · rename_i hal
      have hlive : addr / pmmPageSize ∈ s.live := hc.resolve_left hal
      obtain ⟨hset, hg⟩ := hinv.live _ hlive
      rw [if_pos ⟨hg.1, hset⟩]
      have hone : clearBits s.pages (addr / pmmPageSize) 1 =
          { s.pages with
            bitmap := update s.pages.bitmap (addr / pmmPageSize) false
            used := s.pages.used - 1 } := by
        unfold clearBits clearBits
        rw [if_pos hset]
      rw [← hone]
      refine hinv.release (fun i hi => ?_) (fun q => ?_)
      · rw [show addr / pmmPageSize + i = addr / pmmPageSize by omega]
        exact hlive
      · unfold Freed
        rw [decide_eq_true_iff]
        omega
  | freeContiguous addr n =>
    cases h
    unfold freeContiguous
    split
    · rename_i hal
      have hkeep : s.live.filter (fun p => ¬Freed addr n p) = s.live := by
        refine filter_eq_self.2 fun p _ => ?_
        simpa using fun hf : Freed addr n p => hal hf.1
      rw [hkeep]
      exact hinv
    · rename_i hal
      have hlive : ∀ i < n, addr / pmmPageSize + i ∈ s.live := hc.resolve_left hal
      have hmin : min n (s.pages.total - addr / pmmPageSize) = n := by
        rcases Nat.eq_zero_or_pos n with h0 | h0
        · omega
        · have := (hinv.live _ (hlive (n - 1) (by omega))).2.1
          omega
      rw [freeRun_eq, hmin]
      refine hinv.release hlive fun q => ?_
      unfold Freed
      rw [decide_eq_true_iff]
      omega
  | reserve start stop =>
    cases h
    exact hinv.reserve hc.1 hc.2

theorem inv_inductive :
    (sys.restrict InUse).Inductive fun s => (∀ e ∈ s.map, RegionOk e) → s.Inv where
  init s h hmap := by
    obtain ⟨map, kernelStart, bssEnd, hbss, rfl⟩ := h
    obtain ⟨h1, h2, h3⟩ := pmmInit_spec hmap kernelStart hbss
    refine ⟨?_, h2, fun p hp => ?_, fun _ hp => absurd hp not_mem_nil, .nil, ?_⟩
    · rw [h1]
      exact totalPages_le map
    · have := h3 p hp
      rw [← h1] at this
      exact this
    · simp [bootReserved]
  step s l s' hinv hs hmap := by
    obtain ⟨hc, hs⟩ := hs
    rw [step_map hs] at hmap
    exact (hinv hmap).step hc hs

/-- What holds of the pages that are out, and of the counter. -/
structure Sys.Sound (s : Sys) : Prop where
  once : s.live.Nodup
  good : ∀ p ∈ s.live, p ≠ 0 ∧ Usable s.map p ∧ ∀ r ∈ s.reserved, Outside p r
  counter : s.pages.used = count s.pages

/-- For every memory map without a region inside the last page below 4 GiB,
and every run that frees only what was handed out: no page is out twice, every page that
is out lies in a usable region and outside the reserved ranges, and the used counter is
the number of set bits of the pages in range. -/
theorem allocator_sound (s : Sys) (h : (sys.restrict InUse).Reachable s)
    (hmap : ∀ e ∈ s.map, RegionOk e) : s.Sound := by
  have hinv := inv_inductive.reachable s h hmap
  refine ⟨hinv.nodup, fun p hp => ?_, hinv.counted⟩
  obtain ⟨-, hg⟩ := hinv.live p hp
  refine ⟨?_, hg.2⟩
  intro h0
  have := hg.2.2 _ hinv.boot.1
  rw [h0] at this
  unfold Outside pmmPageSize at this
  omega

instance (s : Sys) : (l : Label) → Decidable (InUse s l)
  | .alloc => .isTrue trivial
  | .allocContiguous .. => .isTrue trivial
  | .free _ => inferInstanceAs (Decidable (_ ∨ _))
  | .freeContiguous .. => inferInstanceAs (Decidable (_ ∨ _))
  | .reserve start stop =>
    inferInstanceAs (Decidable (_ ∧ ∀ p ∈ s.live,
      stop ≤ p * pmmPageSize ∨ (p + 1) * pmmPageSize ≤ start))

/-- 40 KiB of memory with the kernel in page 1. -/
def smallMap : Sys :=
  ⟨pmmInit [⟨0, 0xA000, 1⟩] 0x1000 0x2000, [⟨0, 0xA000, 1⟩], bootReserved 0x1000 0x2000, []⟩

theorem smallMap_init : sys.init smallMap := ⟨_, _, _, by decide, rfl⟩

theorem allocator_sound_small :
    (LTS.exec (LTS.guarded InUse Sys.step) smallMap
      [.alloc, .allocContiguous (fun _ => true) 3, .free 0x2000]).map
        (fun s => (s.live, s.pages.used)) = some ([3, 4, 5], 6) ∧
      ∃ s : Sys, s.live = [3, 4, 5] ∧ s.Sound := by
  have hrun : (LTS.exec (LTS.guarded InUse Sys.step) smallMap
      [.alloc, .allocContiguous (fun _ => true) 3, .free 0x2000]).map
        (fun s => (s.live, s.pages.used)) = some ([3, 4, 5], 6) := by
    decide +kernel
  have hmap : (LTS.exec (LTS.guarded InUse Sys.step) smallMap
      [.alloc, .allocContiguous (fun _ => true) 3, .free 0x2000]).map Sys.map =
        some [⟨0, 0xA000, 1⟩] := rfl
  refine ⟨hrun, ?_⟩
  obtain ⟨s, hs, he⟩ := map_eq_some_iff.1 hrun
  rw [hs] at hmap
  refine ⟨s, congrArg Prod.fst he,
    allocator_sound s ⟨smallMap, _, smallMap_init, LTS.run_restrict_of_exec hs⟩ fun e hmem _ => ?_⟩
  rw [map_some, Option.some.injEq] at hmap
  rw [hmap] at hmem
  obtain rfl : e = _ := mem_singleton.1 hmem
  exact .inr (.inl (by decide))

/-- The counter is not the number of set bits of the bitmap (the bits past the last page
are set and not counted), and a free of a reserved page is not refused: page 8 is handed
out after it. -/
theorem used_is_not_the_bitmap :
    (¬∀ s, sys.Reachable s →
      s.pages.used = Nat.count (fun p => s.pages.bitmap p = true) pmmMaxPages) ∧
    ¬∀ s, sys.Reachable s → ∀ p ∈ s.live, ∀ r ∈ s.reserved, Outside p r := by
  constructor
  · intro hall
    have hused := hall smallMap (LTS.Reachable.init smallMap_init)
    have hmono := Nat.count_monotone (fun p => smallMap.pages.bitmap p = true)
      (show 16 ≤ pmmMaxPages by decide)
    have hlow : smallMap.pages.used < Nat.count (fun p => smallMap.pages.bitmap p = true) 16 := by
      decide +kernel
    omega
  · intro hall
    have hrun : (LTS.exec Sys.step smallMap
        [.free 0x8000, .alloc, .alloc, .alloc, .alloc, .alloc, .alloc, .alloc]).map
          (fun s => (s.live, s.reserved)) =
        some ([8, 7, 6, 5, 4, 3, 2], bootReserved 0x1000 0x2000) := by
      decide +kernel
    obtain ⟨s, hs, he⟩ := map_eq_some_iff.1 hrun
    obtain ⟨hlive, hres⟩ := Prod.mk.inj he
    have := hall s ⟨smallMap, _, smallMap_init, LTS.run_of_exec hs⟩ 8 (by rw [hlive]; simp)
      (0x8000, 0x9000) (by rw [hres]; simp [bootReserved])
    unfold Outside pmmPageSize at this
    omega

end AdventOS.Kernel.Pmm
