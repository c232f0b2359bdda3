import AdventOS.Fs.BlockCache

/-!
# What the block cache promises

* `cache_refines_disk`.
* `accepted_write_kept`.

Two ways out of these runs: `sync_overwrites_alias` (LBAs that agree in their low 28 bits
share a sector behind two slots) and `eviction_loses_write` (`reserve_lru` clears the slot
even when its write-back failed).
-/
namespace AdventOS.Fs.BlockCache
open Function

/-! ## The cache is the disk -/

variable {U : Set UInt32} {w : World} {c : Cache}

theorem bcacheRead_succeeds (h : Inv U w) (lba : UInt32) :
    ∃ out, (bcacheRead w.cache w.disk lba .ok true).1 = some out := by
  have hg := good_ensureInit h
  unfold bcacheRead
  generalize ensureInit w.cache = c at hg
  cases hlk : lookup c lba with
  | some e => exact ⟨_, rfl⟩
  | none =>
    obtain ⟨e, ht, -⟩ := hg.order.tail
    obtain ⟨x, n, d', hr, -⟩ := reserveLru_frame w.disk .ok ht
    simp only [hr]
    exact ⟨_, rfl⟩

theorem inv_of_faultless (hU : U.InjOn sector)
    (h : (system.restrict (Faultless U)).Reachable w) : Inv U w :=
  (inv_inductive hU).reachable w (h.weaken fun _ _ => WritesBack.of_faultless)

/-- In every run without a failed transfer, over LBAs `U` that the driver
maps to different sectors: a read returns the last write (or the original sector), at most
one valid slot holds an LBA, the LRU list has every slot once and the slot the next miss
evicts was used before all others, and after a sync the disk is the logical content. -/
theorem cache_refines_disk (hU : U.InjOn sector) (h : (system.restrict (Faultless U)).Reachable w) :
    (∀ lba ∈ U, (bcacheRead w.cache w.disk lba .ok true).1 = some (w.hist.logical lba)) ∧
    (∀ i j, (w.cache.entries i).valid → (w.cache.entries j).valid →
      (w.cache.entries i).lba = (w.cache.entries j).lba → i = j) ∧
    (w.cache.inited → ∃ l e, w.cache.lru.Lists l ∧ l.Perm (List.finRange 32) ∧
      (∀ wb, (reserveLru w.cache w.disk wb).1 = some e) ∧ ∀ j, j ≠ e → w.used e < w.used j) ∧
    (∀ lba ∈ U, (bcacheSync w.cache w.disk fun _ => .ok).2.2.sectors (sector lba) =
      w.hist.logical lba) ∧
    (∀ n, (∀ lba ∈ U, sector lba ≠ n) →
      (bcacheSync w.cache w.disk fun _ => .ok).2.2.sectors n = w.hist.orig n) := by
  have hI := inv_of_faultless hU h
  refine ⟨?_, hI.coherent.unique, ?_, ?_, ?_⟩
  · intro lba hl
    obtain ⟨out, ho⟩ := bcacheRead_succeeds hI lba
    rw [ho, bcacheRead_value hU hI hl ho]
  · intro hi
    obtain ⟨e, ht, hold⟩ := (hI.order hi).tail
    obtain ⟨l, hl, hall, -⟩ := hI.order hi
    refine ⟨l, e, hl, ?_, ?_, hold⟩
    · rw [List.perm_ext_iff_of_nodup hl.nodup (List.nodup_finRange 32)]
      intro i
      exact ⟨fun _ => List.mem_finRange i, fun _ => hall i⟩
    · intro wb
      obtain ⟨x, n, d', hr, -⟩ := reserveLru_frame w.disk wb ht
      rw [hr]
  · intro lba hl
    exact bcacheSync_stored hU _ hI.coherent (fun _ => rfl) hl
  · intro n hn
    exact (bcacheSync_good hU _ hI.coherent).2.untouched n hn

def zeros : Block := Vector.replicate 512 0

def ones : Block := Vector.replicate 512 1

theorem ones_ne_zeros : ones ≠ zeros := by
  intro h
  have h0 : (ones.get 0 : UInt8) = zeros.get 0 := by rw [h]
  revert h0
  decide

def blank : World where
  cache := bcacheInit Cache.bss
  disk := ⟨fun _ => zeros, []⟩
  hist := ⟨fun _ => zeros, fun _ => none⟩
  used i := 31 - i.val
  now := 32

theorem start_blank : Start blank := ⟨.inr rfl, rfl, rfl, fun _ => rfl, fun _ => rfl, rfl⟩

theorem reachable_step {C : World → Call → Prop} (h : (system.restrict C).Reachable w)
    {l : Call} (hC : C w l) : (system.restrict C).Reachable (step w l) :=
  h.step ⟨hC, rfl⟩

def lba28 : Set UInt32 := { lba | lba.toNat < 2 ^ 28 }

theorem sector_of_lba28 {lba : UInt32} (h : lba ∈ lba28) : sector lba = lba := by
  have hl : lba.toNat < 2 ^ 28 := h
  apply UInt32.toNat_inj.mp
  unfold sector
  rw [UInt32.toNat_and, show (0x0FFFFFFF : UInt32).toNat = 2 ^ 28 - 1 from rfl,
    Nat.and_two_pow_sub_one_eq_mod, Nat.mod_eq_of_lt hl]

theorem injOn_lba28 : lba28.InjOn sector := by
  intro a ha b hb hab
  rw [sector_of_lba28 ha, sector_of_lba28 hb] at hab
  exact hab

/-- One write, then a read and a sync. -/
theorem write_read_sync :
    (bcacheRead (step blank (.write 5 ones .ok)).cache (step blank (.write 5 ones .ok)).disk 5
      .ok true).1 = some ones ∧
    (bcacheSync (step blank (.write 5 ones .ok)).cache (step blank (.write 5 ones .ok)).disk
      fun _ => .ok).2.2.sectors 5 = ones := by
  have h5 : (5 : UInt32) ∈ lba28 := by
    change (5 : UInt32).toNat < 2 ^ 28
    decide
  have hr : (system.restrict (Faultless lba28)).Reachable (step blank (.write 5 ones .ok)) :=
    reachable_step (.init start_blank) ⟨h5, rfl⟩
  obtain ⟨hread, -, -, hsync, -⟩ := cache_refines_disk injOn_lba28 hr
  obtain ⟨c', d', e, hw, -, -⟩ :=
    bcacheWrite_good injOn_lba28 ones .ok (inv_start start_blank) h5 fun _ => rfl
  have hlog : (step blank (.write 5 ones .ok)).hist.logical 5 = ones := by
    simp [step, hw, History.logical, History.accept]
  have hs := hsync 5 h5
  rw [sector_of_lba28 h5, hlog] at hs
  have hv := hread 5 h5
  rw [hlog] at hv
  exact ⟨hv, hs⟩

/-- LBAs that differ only above bit 27: the sync of one overwrites the other's sector. -/
theorem sync_overwrites_alias : ¬ ∀ w, (system.restrict (Faultless Set.univ)).Reachable w → ∀ lba,
      (bcacheSync w.cache w.disk fun _ => .ok).2.2.sectors (sector lba) = w.hist.logical lba := by
  intro hall
  have hU : ({0x10000000} : Set UInt32).InjOn sector := Set.injOn_singleton _ _
  have hmem : (0x10000000 : UInt32) ∈ ({0x10000000} : Set UInt32) := rfl
  have h0 := hall (step blank (.write 0x10000000 ones .ok))
    (reachable_step (.init start_blank) ⟨trivial, rfl⟩) 0
  obtain ⟨c', d', e, hw, hlk, hg⟩ :=
    bcacheWrite_good hU ones .ok (inv_start start_blank) hmem fun _ => rfl
  have h1 := bcacheSync_stored hU (fun _ => .ok) hg.coherent (fun _ => rfl) hmem
  have hlog1 : (blank.hist.accept 0x10000000 ⟨ones, d'.log.length, some e⟩).logical 0x10000000 =
      ones := by
    simp [History.logical, History.accept]
  have hlog0 : (step blank (.write 0x10000000 ones .ok)).hist.logical 0 = zeros := by
    simp only [step, hw, if_true]
    simp [History.logical, History.accept, blank]
  rw [hlog1] at h1
  rw [hlog0] at h0
  simp only [step, hw] at h0
  have hsec : sector 0 = sector 0x10000000 := by decide
  rw [hsec, h1] at h0
  exact ones_ne_zeros h0

/-! ## Failures -/

/-- In every run in which the write-back of an eviction never fails (reads from
the disk and the writes of a sync may, at any point), over LBAs the driver tells apart: a
successful read of an accepted write's LBA returns it, and until a disk write of it
succeeded the slot that took it is valid and dirty. -/
theorem accepted_write_kept (hU : U.InjOn sector)
    (h : (system.restrict (WritesBack U)).Reachable w) {lba : UInt32} {a : Accepted}
    (ha : w.hist.accepted lba = some a) :
    (∀ wb rd out, (bcacheRead w.cache w.disk lba wb rd).1 = some out → out = a.data) ∧
    (Flushed w.disk lba a ∨ ∃ i, a.slot = some i ∧ (w.cache.entries i).valid ∧
      (w.cache.entries i).dirty ∧ (w.cache.entries i).lba = lba ∧
      (w.cache.entries i).data = a.data) := by
  have hI := (inv_inductive hU).reachable w h
  have hlog : w.hist.logical lba = a.data := by simp [History.logical, ha]
  refine ⟨?_, ?_⟩
  · intro wb rd out hr
    rw [← hlog]
    exact bcacheRead_value hU hI (hI.coherent.accepted_inU lba a ha).1 hr
  · rcases hI.coherent.pending lba a ha with hf | ⟨i, hs, hv, hd, hl⟩
    · exact .inl hf
    · refine .inr ⟨i, hs, hv, hd, hl, ?_⟩
      rw [hI.coherent.cached i hv, hl, hlog]

theorem one_write_kept : ((step blank (.write 5 ones .ok)).hist.accepted 5).isSome ∧
      ∀ wb rd out, (bcacheRead (step blank (.write 5 ones .ok)).cache
        (step blank (.write 5 ones .ok)).disk 5 wb rd).1 = some out → out = ones := by
  have h5 : (5 : UInt32) ∈ lba28 := by
    change (5 : UInt32).toNat < 2 ^ 28
    decide
  have hr : (system.restrict (WritesBack lba28)).Reachable (step blank (.write 5 ones .ok)) :=
    reachable_step (.init start_blank) ⟨h5, fun _ => rfl⟩
  obtain ⟨c', d', e, hw, -, -⟩ :=
    bcacheWrite_good injOn_lba28 ones .ok (inv_start start_blank) h5 fun _ => rfl
  have ha : (step blank (.write 5 ones .ok)).hist.accepted 5 =
      some ⟨ones, d'.log.length, lookup c' 5⟩ := by
    simp [step, hw, History.accept]
  exact ⟨by rw [ha]; rfl, (accepted_write_kept injOn_lba28 hr ha).1⟩

/-! ## A failed write-back

Thirty-two writes fill the slots from 31 down; the thirty-third evicts slot 31. -/

/-- The cache after the writes to LBAs `0 … k - 1`. -/
structure Filled (k : Nat) (c : Cache) : Prop where
  inited : c.inited = true
  links : c.lru.Lists ((List.finRange 32).rotate (32 - k))
  full : ∀ i : Slot, 31 - i.val < k → c.entries i = ⟨true, true, UInt32.ofNat (31 - i.val), ones⟩
  empty : ∀ i : Slot, k ≤ 31 - i.val → (c.entries i).valid = false

theorem ensureInit_of_inited (h : c.inited = true) : ensureInit c = c := by
  simp [ensureInit, h]

theorem ofNat_lba_ne {a b : Nat} (ha : a < 2 ^ 32) (hb : b < 2 ^ 32) (h : a ≠ b) :
    UInt32.ofNat a ≠ UInt32.ofNat b := by
  intro he
  have := congrArg UInt32.toNat he
  rw [UInt32.toNat_ofNat_of_lt' ha, UInt32.toNat_ofNat_of_lt' hb] at this
  exact h this

theorem Filled.lookup_fresh {k n : Nat} (h : Filled k c) (hn : k ≤ n) (hlt : n < 2 ^ 32) :
    lookup c (UInt32.ofNat n) = none := by
  unfold lookup
  rw [List.find?_eq_none]
  intro i _
  by_cases hi : 31 - i.val < k
  · rw [h.full i hi]
    simpa using ofNat_lba_ne (by omega) hlt (by omega)
  · rw [h.empty i (by omega)]
    simp

theorem rotate_tail : ∀ k : Fin 32, ((List.finRange 32).rotate (32 - k.val)).getLast? = some (31 - k) ∧
    (31 - k) :: ((List.finRange 32).rotate (32 - k.val)).erase (31 - k) =
      (List.finRange 32).rotate (32 - (k.val + 1)) := by
  decide

theorem Filled.write {k : Nat} (h : Filled k c) (hk : k < 32) (d : Disk)
    (wb : WriteResult) : ∃ c', bcacheWrite c d (UInt32.ofNat k) ones wb = (true, c', d) ∧
      Filled (k + 1) c' := by
  obtain ⟨hlast, hrot⟩ := rotate_tail ⟨k, hk⟩
  have ht : c.lru.tail = some (31 - ⟨k, hk⟩ : Fin 32) := h.links.tail_eq.trans hlast
  have hval : (31 - (⟨k, hk⟩ : Fin 32)).val = 31 - k := by
    rw [Fin.sub_val_of_le (by simp [Fin.le_def]; omega)]
    rfl
  have hinv : (c.entries (31 - ⟨k, hk⟩)).valid = false := h.empty _ (by rw [hval]; omega)
  have hlk : lookup { c with logicalWrites := c.logicalWrites + 1 } (.ofNat k) = none :=
    h.lookup_fresh (le_refl k) (by omega)
  unfold bcacheWrite
  rw [ensureInit_of_inited h.inited]
  simp only [hlk, reserveLru, ht, hinv, Bool.false_and, Bool.false_eq_true, if_false]
  refine ⟨_, rfl, h.inited, ?_, ?_, ?_⟩
  · have hm := h.links.moveToFront (e := 31 - ⟨k, hk⟩) (by
      apply List.mem_of_getLast?
      exact hlast)
    rw [hrot] at hm
    exact hm
  · intro i hi
    simp only [touch, Cache.setEntry, update_apply]
    split
    · rename_i he
      rw [he, hval, show 31 - (31 - k) = k by omega]
    · rename_i he
      apply h.full i
      have : i.val ≠ 31 - k := fun hc => he (Fin.ext (hc.trans hval.symm))
      omega
  · intro i hi
    simp only [touch, Cache.setEntry, update_apply]
    split
    · rename_i he
      rw [he, hval] at hi
      omega
    · exact h.empty i (by omega)

def fillTo : Nat → World
  | 0 => blank
  | k + 1 => step (fillTo k) (.write (UInt32.ofNat k) ones .ok)

theorem fillTo_spec : ∀ k, k ≤ 32 → system.Reachable (fillTo k) ∧ Filled k (fillTo k).cache ∧
    (fillTo k).disk = blank.disk ∧
    (0 < k → ((fillTo k).hist.accepted 0).map Accepted.data = some ones)
  | 0, _ => by
    refine ⟨.init start_blank, ⟨rfl, ?_, ?_, ?_⟩, rfl, fun h => absurd h (Nat.lt_irrefl 0)⟩
    · have hrot : (List.finRange 32).rotate (32 - 0) = List.finRange 32 := by decide
      rw [hrot]
      exact initLru_lists
    · intro i hi
      omega
    · intro i _
      rfl
  | k + 1, hk => by
    obtain ⟨hr, hf, hd, ha⟩ := fillTo_spec k (by omega)
    obtain ⟨c', hw, hf'⟩ := hf.write (by omega) (fillTo k).disk .ok
    refine ⟨hr.step rfl, ?_, ?_, ?_⟩
    · simpa [fillTo, step, hw] using hf'
    · simpa [fillTo, step, hw] using hd
    · intro _
      simp only [fillTo, step, hw, if_true, History.accept]
      cases k with
      | zero => simp
      | succ k =>
        rw [update_of_ne]
        · exact ha (by omega)
        · exact (ofNat_lba_ne (by omega) (by omega) (by omega : k + 1 ≠ 0)).symm

/-- The slots after the write to LBA 32, whose eviction of slot 31 failed to write back. -/
theorem overflow_spec (h : Filled 32 c) (d : Disk) : ∃ c', bcacheWrite c d 32 ones (.failed zeros) =
        (true, c', { d with sectors := update d.sectors 0 zeros }) ∧
      c'.inited = true ∧ (∃ e, c'.lru.tail = some e) ∧
      ∀ i, ∃ n, 0 < n ∧ n ≤ 32 ∧ (c'.entries i).lba = .ofNat n := by
  have hlast : ((List.finRange 32).rotate (32 - 32)).getLast? = some 31 := by decide
  have ht : c.lru.tail = some 31 := h.links.tail_eq.trans hlast
  have hlk : lookup { c with logicalWrites := c.logicalWrites + 1 } 32 = none :=
    h.lookup_fresh (n := 32) (le_refl 32) (by omega)
  have h31 : c.entries 31 = ⟨true, true, .ofNat 0, ones⟩ := h.full 31 (by decide)
  unfold bcacheWrite
  rw [ensureInit_of_inited h.inited]
  simp only [hlk, reserveLru, ht, h31, Bool.and_self, if_true, ataWriteSector]
  refine ⟨_, rfl, h.inited, ?_, ?_⟩
  · have hm := h.links.moveToFront (e := 31) (List.mem_of_getLast? hlast)
    exact ⟨_, hm.tail_eq.trans List.getLast?_cons⟩
  · intro i
    simp only [touch, Cache.setEntry, update_apply]
    by_cases hi : i = 31
    · exact ⟨32, by omega, by omega, by simp [hi]⟩
    · refine ⟨31 - i.val, ?_, by omega, ?_⟩
      · have : i.val ≠ 31 := fun hc => hi (Fin.ext hc)
        omega
      · simp [if_neg hi, h.full i (by omega)]

/-- The thirty-third write evicts the first one; when the disk refuses the write-back, the
next read of LBA 0 returns the old sector. -/
theorem eviction_loses_write : ¬ ∀ w, system.Reachable w → ∀ lba a, w.hist.accepted lba = some a →
      (∀ wb rd out, (bcacheRead w.cache w.disk lba wb rd).1 = some out → out = a.data) ∧
      (Flushed w.disk lba a ∨ ∃ i, a.slot = some i ∧ (w.cache.entries i).valid ∧
        (w.cache.entries i).dirty ∧ (w.cache.entries i).lba = lba ∧
        (w.cache.entries i).data = a.data) := by
  intro hall
  obtain ⟨hr, hf, hd, ha⟩ := fillTo_spec 32 (le_refl 32)
  obtain ⟨a, ha, hdata⟩ := Option.map_eq_some_iff.mp (ha (by omega))
  obtain ⟨c', hw, hi, ⟨e, ht⟩, hlba⟩ := overflow_spec hf (fillTo 32).disk
  have hne : ∀ i, (c'.entries i).lba ∈ lba28 ∧ (c'.entries i).lba ≠ 0 := by
    intro i
    obtain ⟨n, hn, hn', hl⟩ := hlba i
    rw [hl]
    have hsize : n < UInt32.size := lt_of_le_of_lt hn' (by decide)
    refine ⟨?_, ofNat_lba_ne (b := 0) hsize (by decide) (by omega)⟩
    change (UInt32.ofNat n).toNat < 2 ^ 28
    rw [UInt32.toNat_ofNat_of_lt' hsize]
    omega
  have ha' : (step (fillTo 32) (.write 32 ones (.failed zeros))).hist.accepted 0 = some a := by
    simp only [step, hw, if_true, History.accept]
    rw [update_of_ne (by decide)]
    exact ha
  obtain ⟨hread, -⟩ := hall (step (fillTo 32) (.write 32 ones (.failed zeros))) (hr.step rfl) 0 a ha'
  have hlk : lookup c' 0 = none := by
    unfold lookup
    rw [List.find?_eq_none]
    intro i _
    simpa using fun _ => (hne i).2
  obtain ⟨x, n, d', he, -, hsec⟩ := reserveLru_frame { (fillTo 32).disk with
    sectors := update (fillTo 32).disk.sectors 0 zeros } .ok ht
  have h0 : d'.sectors 0 = zeros := by
    rw [hsec]
    · simp
    · intro _ hc
      rw [sector_of_lba28 (hne e).1] at hc
      exact (hne e).2 hc.symm
  have hout : (bcacheRead (step (fillTo 32) (.write 32 ones (.failed zeros))).cache
      (step (fillTo 32) (.write 32 ones (.failed zeros))).disk 0 .ok true).1 = some zeros := by
    simp only [step, hw]
    unfold bcacheRead
    rw [ensureInit_of_inited hi]
    simp only [hlk, he, ataReadSector, if_true]
    rw [show sector 0 = 0 from rfl, h0]
  have hz := hread _ _ _ hout
  rw [hdata] at hz
  exact ones_ne_zeros hz.symm

end AdventOS.Fs.BlockCache
