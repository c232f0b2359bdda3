import AdventOS.Core.Frames
import AdventOS.Kernel.FramePool

/-!
# Page directories (`kernel/paging.c`)

Physical memory is identity-mapped for the kernel, so a page-aligned pointer is the number of
the frame it points to, and NULL is frame 0. A directory and its tables are frames of 1024
words; `x & PAGE_MASK` of a word is 4096 times its frame, `x & 0xFFF` its flags.

* `dirFrames`: the tables and frames of a directory that are its own;
* `destroy_pages`: `paging_destroy_user_pd` gives back those and the directory;
* `Grown.destroy`: when they are all the pages taken since some earlier state, this restores
  the allocator as it was then;
* `create_spec`: the directory that `paging_create_user_pd` makes.
-/
namespace AdventOS.Kernel.Paging
open Pmm Function List

/-! ## The functions -/

def ptePresent : Nat := 0x001

def pteWritable : Nat := 0x002

def pteUser : Nat := 0x004

/-- `w & PTE_PRESENT` -/
def present (w : Nat) : Bool := w.testBit 0

/-- `w & PTE_USER` -/
def user (w : Nat) : Bool := w.testBit 2

/-- `w & PAGE_MASK`, as a frame. -/
def frame (w : Nat) : Nat := w / 4096

/-- `w & 0xFFF` -/
def flagsOf (w : Nat) : Nat := w % 4096

/-- `(phys & PAGE_MASK) | low` -/
def entry (phys low : Nat) : Nat := phys / 4096 * 4096 ||| low

/-- paging.c:13 -/
def pdIndex (a : Nat) : Nat := a / 0x400000 % 1024

/-- paging.c:14 -/
def ptIndex (a : Nat) : Nat := a / 0x1000 % 1024

/-- The allocator and the memory behind it. -/
structure Machine where
  pages : Pages
  mem : Frames

/-- `g_pd`, and the framebuffer as `vbe_state` has it. -/
structure Globals where
  gPd : Nat
  fbEnabled : Bool
  fbPhys : Nat
  fbSize : Nat

/-- paging.c:201-206 and 273-278 -/
def Globals.fbLo (k : Globals) : Nat := if k.fbEnabled then k.fbPhys / 4096 * 4096 else 0

def Globals.fbHi (k : Globals) : Nat :=
  if k.fbEnabled then (k.fbPhys + k.fbSize + 0xFFF) % 2 ^ 32 / 4096 * 4096 else 0

/-- `fb_lo && phys >= fb_lo && phys < fb_hi` -/
def Globals.inFb (k : Globals) (phys : Nat) : Bool :=
  k.fbLo ≠ 0 && k.fbLo ≤ phys && phys < k.fbHi

/-- `pmm_alloc_page()`, as a frame. -/
def Machine.alloc (σ : Machine) : Machine × Option Nat :=
  ({ σ with pages := (allocPage σ.pages).1 }, (allocPage σ.pages).2)

def Machine.free (σ : Machine) (f : Nat) : Machine :=
  { σ with pages := freePage σ.pages (f * pmmPageSize) }

def Machine.zero (σ : Machine) (f : Nat) : Machine := { σ with mem := σ.mem.zero f }

def Machine.setWord (σ : Machine) (f i v : Nat) : Machine := { σ with mem := σ.mem.setWord f i v }

/-- paging.c:46-54: the entry of the directory, made or widened. -/
def ensureTable (σ : Machine) (pd pdI flags : Nat) : Machine × Bool :=
  if present (σ.mem.word pd pdI) = false then
    match σ.alloc.2 with
    | none => (σ.alloc.1, false)
    | some pt =>
      ((σ.alloc.1.zero pt).setWord pd pdI
        (entry (pt * 4096) (ptePresent ||| pteWritable ||| (flags &&& pteUser))), true)
  else if user flags then (σ.setWord pd pdI (σ.mem.word pd pdI ||| pteUser), true)
  else (σ, true)

/-- paging.c:42-60; `false` for -1. -/
def doMapPd (σ : Machine) (pd virt phys flags : Nat) : Machine × Bool :=
  let r := ensureTable σ pd (pdIndex virt) flags
  if r.2 then
    (r.1.setWord (frame (r.1.mem.word pd (pdIndex virt))) (ptIndex virt)
      (entry phys ((flags &&& 0xFFF) ||| ptePresent)), true)
  else (r.1, false)

/-- paging.c:168-172; the TLB is not modelled. -/
def pagingMapIn (σ : Machine) (pd virt phys flags : Nat) : Machine × Bool :=
  doMapPd σ pd virt phys flags

/-- The loops of paging.c:152-164 over the indices of a list. -/
def mirror (k : Globals) (pd : Nat) (always : Bool) : List Nat → Machine → Machine
  | [], σ => σ
  | i :: is, σ =>
    if always || present (σ.mem.word k.gPd i) then
      mirror k pd always is (σ.setWord pd i (σ.mem.word k.gPd i))
    else mirror k pd always is σ

/-- paging.c:146-166 -/
def pagingCreateUserPd (k : Globals) (σ : Machine) : Machine × Option Nat :=
  match σ.alloc.2 with
  | none => (σ.alloc.1, none)
  | some pd =>
    let σ := σ.alloc.1.zero pd
    let σ := mirror k pd true (List.range 8) σ
    (mirror k pd false (List.range' 256 768) σ, some pd)

/-- The loop of paging.c:294-303, `n` entries from `j` on. -/
def destroyTable (k : Globals) (pt : Nat) : (n j : Nat) → Machine → Machine
  | 0, _, σ => σ
  | n + 1, j, σ =>
    let pte := σ.mem.word pt j
    if present pte then
      if k.inFb (frame pte * 4096) then destroyTable k pt n (j + 1) σ
      else destroyTable k pt n (j + 1) (σ.free (frame pte))
    else destroyTable k pt n (j + 1) σ

/-- The loop of paging.c:286-306, `n` entries from `i` on. -/
def destroyEntries (k : Globals) (pd : Nat) : (n i : Nat) → Machine → Machine
  | 0, _, σ => σ
  | n + 1, i, σ =>
    let pde := σ.mem.word pd i
    if present pde = false then destroyEntries k pd n (i + 1) σ
    else if 256 ≤ i ∧ pde = σ.mem.word k.gPd i then
      destroyEntries k pd n (i + 1) (σ.setWord pd i 0)
    else
      let σ := destroyTable k (frame pde) 1024 0 σ
      destroyEntries k pd n (i + 1) ((σ.free (frame pde)).setWord pd i 0)

/-- paging.c:261-308 -/
def pagingDestroyUserPd (k : Globals) (σ : Machine) (pd : Nat) : Machine :=
  if pd = 0 then σ else (destroyEntries k pd 1016 8 σ).free pd

/-! ## Words -/

section Words
variable {phys low w : Nat}

theorem entry_eq (h : low < 4096) : entry phys low = phys / 4096 * 4096 + low := by
  have h := Nat.two_pow_add_eq_or_of_lt (i := 12) (show low < 2 ^ 12 by omega) (phys / 4096)
  rw [show (2 : Nat) ^ 12 = 4096 by rfl, Nat.mul_comm 4096] at h
  exact h.symm

theorem frame_entry (h : low < 4096) : frame (entry phys low) = phys / 4096 := by
  rw [entry_eq h]
  unfold frame
  omega

theorem flagsOf_entry (h : low < 4096) : flagsOf (entry phys low) = low := by
  rw [entry_eq h]
  unfold flagsOf
  omega

theorem entry_lt (h : low < 4096) (hp : phys < 2 ^ 32) : entry phys low < 2 ^ 32 := by
  rw [entry_eq h]
  omega

theorem flagsOf_lt (w : Nat) : flagsOf w < 4096 := Nat.mod_lt _ (by decide)

theorem present_eq (w : Nat) : present w = decide (flagsOf w % 2 = 1) := by
  unfold present flagsOf
  rw [Nat.testBit_zero, show w % 4096 % 2 = w % 2 by omega]

theorem present_congr {w' : Nat} (h : flagsOf w = flagsOf w') : present w = present w' := by
  rw [present_eq, present_eq, h]

theorem user_eq (w : Nat) : user w = user (flagsOf w) := by
  unfold user flagsOf
  rw [show (4096 : Nat) = 2 ^ 12 by rfl, Nat.testBit_mod_two_pow]
  simp

@[simp] theorem present_zero : present 0 = false := rfl

end Words

/-! ## What a directory gives back -/

/-- A present entry of a table, outside the framebuffer. -/
def Globals.ram (k : Globals) (pte : Nat) : Bool := present pte && !k.inFb (frame pte * 4096)

def slotFrames (k : Globals) (m : Frames) (pt j : Nat) : List Nat :=
  if k.ram (m.word pt j) then [frame (m.word pt j)] else []

def tableFrames (k : Globals) (m : Frames) (pt : Nat) : List Nat :=
  (List.range 1024).flatMap (slotFrames k m pt)

/-- A high entry that is the kernel's own. -/
def mirrored (k : Globals) (m : Frames) (pd i : Nat) : Bool :=
  256 ≤ i && m.word pd i == m.word k.gPd i

/-- What entry `i` of a directory gives back: the frames of its table, and the table. -/
def entryFrames (k : Globals) (m : Frames) (pd i : Nat) : List Nat :=
  if present (m.word pd i) && !mirrored k m pd i then
    tableFrames k m (frame (m.word pd i)) ++ [frame (m.word pd i)]
  else []

/-- The entries past those of the low kernel region. -/
def userEntries : List Nat := List.range' 8 1016

variable {i pd : Nat} {k : Globals}

theorem mem_userEntries : i ∈ userEntries ↔ 8 ≤ i ∧ i < 1024 := by
  unfold userEntries
  simp only [mem_range'_1]

/-- The tables of a directory that are its own, and the frames in them. -/
def dirFrames (k : Globals) (m : Frames) (pd : Nat) : List Nat :=
  userEntries.flatMap (entryFrames k m pd)

theorem freeAll_append (s : Pages) (L L' : List Nat) :
    freeAll s (L ++ L') = freeAll (freeAll s L) L' := foldl_append

theorem destroyTable_eq (k : Globals) (pt n j : Nat) (σ : Machine) :
    destroyTable k pt n j σ = { σ with
      pages := freeAll σ.pages ((List.range' j n).flatMap (slotFrames k σ.mem pt)) } := by
  induction n generalizing j σ with
  | zero => rfl
  | succ n ih =>
    unfold destroyTable
    dsimp only
    rw [range'_succ, flatMap_cons, freeAll_append]
    by_cases hram : k.ram (σ.mem.word pt j) = true
    · have hin : present (σ.mem.word pt j) = true ∧ k.inFb (frame (σ.mem.word pt j) * 4096) = false :=
        by simpa [Globals.ram] using hram
      have hslot : slotFrames k σ.mem pt j = [frame (σ.mem.word pt j)] := if_pos hram
      rw [if_pos hin.1, if_neg (by simp [hin.2]), hslot, ih]
      rfl
    · have hslot : slotFrames k σ.mem pt j = [] := if_neg hram
      rw [hslot, ih]
      split
      · rename_i hp
        have hfb : k.inFb (frame (σ.mem.word pt j) * 4096) = true := by
          simpa [Globals.ram, hp] using hram
        rw [if_pos hfb]
        rfl
      · rfl

/-- No table that the directory gives back is the directory, and neither is `g_pd`. -/
def Apart (k : Globals) (m : Frames) (pd : Nat) : Prop :=
  k.gPd ≠ pd ∧ ∀ i, 8 ≤ i → i < 1024 → present (m.word pd i) = true →
    mirrored k m pd i = false → frame (m.word pd i) ≠ pd

theorem tableFrames_congr {m m' : Frames} {pt : Nat} (h : m pt = m' pt) :
    tableFrames k m pt = tableFrames k m' pt := by
  unfold tableFrames slotFrames
  simp only [Frames.word_congr h]

theorem entryFrames_congr {m m' : Frames}
    (hpd : m.word pd i = m'.word pd i) (hg : m.word k.gPd i = m'.word k.gPd i)
    (ht : present (m.word pd i) = true → mirrored k m pd i = false →
      m (frame (m.word pd i)) = m' (frame (m.word pd i))) :
    entryFrames k m pd i = entryFrames k m' pd i := by
  unfold entryFrames
  have hm : mirrored k m' pd i = mirrored k m pd i := by
    unfold mirrored
    rw [hpd, hg]
  rw [← hpd, hm]
  by_cases hin : (present (m.word pd i) && !mirrored k m pd i) = true
  · rw [if_pos hin, if_pos hin]
    have hin' : present (m.word pd i) = true ∧ mirrored k m pd i = false := by simpa using hin
    rw [tableFrames_congr (ht hin'.1 hin'.2)]
  · rw [if_neg hin, if_neg hin]

theorem destroyEntries_spec {n : Nat} {σ : Machine} (h : Apart k σ.mem pd)
    (hi : 8 ≤ i) (hn : i + n = 1024) :
    (destroyEntries k pd n i σ).pages =
        freeAll σ.pages ((List.range' i n).flatMap (entryFrames k σ.mem pd)) ∧
      ∀ f, f ≠ pd → (destroyEntries k pd n i σ).mem f = σ.mem f := by
  induction n generalizing i σ with
  | zero => exact ⟨rfl, fun _ _ => rfl⟩
  | succ n ih =>
    -- clearing entry `i` leaves the later entries and every table as they were
    have hother : ∀ f, f ≠ pd → (σ.mem.setWord pd i 0) f = σ.mem f :=
      fun f hf => Frames.setWord_of_ne hf
    have hword : ∀ j, j ≠ i → (σ.mem.setWord pd i 0).word pd j = σ.mem.word pd j :=
      fun j hj => Frames.word_setWord_of_ne hj
    have hg : ∀ j, (σ.mem.setWord pd i 0).word k.gPd j = σ.mem.word k.gPd j :=
      fun j => Frames.word_congr (hother _ h.1) j
    have hzero : (σ.mem.setWord pd i 0).word pd i = 0 := Frames.word_setWord_self (by decide)
    have hApart : Apart k (σ.mem.setWord pd i 0) pd := by
      refine ⟨h.1, ?_⟩
      intro j h8 hlt hp hm
      by_cases hj : j = i
      · rw [hj, hzero] at hp
        cases hp
      · unfold mirrored at hm
        rw [hword j hj, hg j] at hm
        rw [hword j hj] at hp ⊢
        exact h.2 j h8 hlt hp hm
    have hrest : (List.range' (i + 1) n).flatMap (entryFrames k (σ.mem.setWord pd i 0) pd) =
        (List.range' (i + 1) n).flatMap (entryFrames k σ.mem pd) := by
      refine flatMap_congr ?_
      intro j hj
      have hj := (mem_range'_1.1 hj)
      have hne : j ≠ i := by omega
      refine (entryFrames_congr (hword j hne).symm (hg j).symm ?_).symm
      intro hp hm
      exact (hother _ (h.2 j (by omega) (by omega) hp hm)).symm
    unfold destroyEntries
    rw [range'_succ, flatMap_cons]
    by_cases hp : present (σ.mem.word pd i) = true
    · rw [if_neg (by simp [hp])]
      by_cases hm : 256 ≤ i ∧ σ.mem.word pd i = σ.mem.word k.gPd i
      · have hnil : entryFrames k σ.mem pd i = [] := by
          unfold entryFrames mirrored
          simp [hm]
        rw [if_pos hm, hnil, nil_append]
        have hApart : Apart k (σ.setWord pd i 0).mem pd := hApart
        obtain ⟨h1, h2⟩ := ih (i := i + 1) hApart (by omega) (by omega)
        refine ⟨?_, fun f hf => (h2 f hf).trans (hother f hf)⟩
        rw [h1]
        unfold Machine.setWord
        rw [hrest]
      · have hm' : mirrored k σ.mem pd i = false := by
          unfold mirrored
          simpa using hm
        have hframes : entryFrames k σ.mem pd i =
            tableFrames k σ.mem (frame (σ.mem.word pd i)) ++ [frame (σ.mem.word pd i)] := by
          unfold entryFrames
          rw [if_pos (by simp [hp, hm'])]
        rw [if_neg hm, hframes, destroyTable_eq]
        obtain ⟨σ₁, hσ₁⟩ : ∃ σ₁ : Machine, σ₁ = ⟨freePage (freeAll σ.pages
          (tableFrames k σ.mem (frame (σ.mem.word pd i)))) (frame (σ.mem.word pd i) * pmmPageSize),
          σ.mem.setWord pd i 0⟩ := ⟨_, rfl⟩
        have hApart : Apart k σ₁.mem pd := hσ₁ ▸ hApart
        obtain ⟨h1, h2⟩ := ih (i := i + 1) hApart (by omega) (by omega)
        rw [hσ₁] at h1 h2
        unfold tableFrames at h1 h2
        rw [range_eq_range'] at h1 h2
        refine ⟨?_, fun f hf => (h2 f hf).trans (hother f hf)⟩
        rw [freeAll_append, freeAll_append, ← hrest]
        unfold tableFrames
        rw [range_eq_range']
        exact h1
    · have hnil : entryFrames k σ.mem pd i = [] := by
        unfold entryFrames
        rw [if_neg (by simp [hp])]
      rw [if_pos (by simpa using hp), hnil, nil_append]
      exact ih (i := i + 1) h (by omega) (by omega)

theorem destroy_pages {σ : Machine} (h0 : pd ≠ 0)
    (h : Apart k σ.mem pd) :
    (pagingDestroyUserPd k σ pd).pages = freeAll σ.pages (dirFrames k σ.mem pd ++ [pd]) ∧
      ∀ f, f ≠ pd → (pagingDestroyUserPd k σ pd).mem f = σ.mem f := by
  obtain ⟨h1, h2⟩ := destroyEntries_spec h (i := 8) (n := 1016) (by omega) (by omega)
  unfold pagingDestroyUserPd
  rw [if_neg h0]
  refine ⟨?_, h2⟩
  unfold Machine.free dirFrames userEntries
  rw [h1, freeAll_append]
  rfl

/-! ## Pages taken since an earlier state -/

/-- The pages of `L` were taken since `σ₀`, and nothing in use before was written. -/
structure Grown (σ₀ σ : Machine) (L : List Nat) : Prop where
  drawn : Drawn σ₀.pages σ.pages L
  same : ∀ f, ¬ IsFree σ₀.pages f → σ.mem f = σ₀.mem f

/-- What boot leaves: `g_pd`, the tables it shares and what they map are in use, and no page of
RAM that can be handed out is in the framebuffer. -/
structure Booted (k : Globals) (σ : Machine) : Prop where
  total_le : σ.pages.total ≤ pmmMaxPages
  gPd : ¬ IsFree σ.pages k.gPd
  tables : ∀ i, 256 ≤ i → i < 1024 → present (σ.mem.word k.gPd i) = true →
    ¬ IsFree σ.pages (frame (σ.mem.word k.gPd i))
  frames : ∀ i, 256 ≤ i → i < 1024 → present (σ.mem.word k.gPd i) = true → ∀ j < 1024,
    present (σ.mem.word (frame (σ.mem.word k.gPd i)) j) = true →
      ¬ IsFree σ.pages (frame (σ.mem.word (frame (σ.mem.word k.gPd i)) j))
  fb : ∀ p, IsFree σ.pages p → k.inFb (p * 4096) = false

section Growing
variable {k : Globals} {σ₀ σ : Machine} {L L' : List Nat} {pd pt i j f p v low : Nat}

theorem Grown.refl (σ : Machine) : Grown σ σ [] := ⟨Drawn.refl _, fun _ _ => rfl⟩

theorem Grown.perm (h : Grown σ₀ σ L) (hp : L.Perm L') : Grown σ₀ σ L' :=
  ⟨h.drawn.perm hp, h.same⟩

theorem Grown.isFree (h : Grown σ₀ σ L) (hp : p ∈ L) : IsFree σ₀.pages p := h.drawn.free p hp

theorem Grown.word_of_used (h : Grown σ₀ σ L) (hf : ¬ IsFree σ₀.pages f) (i : Nat) :
    σ.mem.word f i = σ₀.mem.word f i :=
  Frames.word_congr (h.same f hf) i

theorem Grown.ne_of_used (h : Grown σ₀ σ L) (hp : p ∈ L) (hf : ¬ IsFree σ₀.pages f) : p ≠ f := by
  intro heq
  exact hf (heq ▸ h.isFree hp)

theorem Grown.lt (h : Grown σ₀ σ L) (hb : Booted k σ₀) (hp : p ∈ L) : p < 65536 := by
  have h1 := (h.isFree hp).2.1
  have h2 := hb.total_le
  unfold pmmMaxPages at h2
  omega

theorem Grown.alloc (h : Grown σ₀ σ L) (hp : σ.alloc.2 = some p) : Grown σ₀ σ.alloc.1 (p :: L) :=
  ⟨h.drawn.alloc hp, h.same⟩

theorem Grown.alloc_not_mem (h : Grown σ₀ σ L) (hp : σ.alloc.2 = some p) : p ∉ L :=
  (nodup_cons.1 (h.alloc hp).drawn.nodup).1

theorem Grown.update (h : Grown σ₀ σ L) (hf : f ∈ L) (x : Nat → UInt8) :
    Grown σ₀ { σ with mem := update σ.mem f x } L := by
  refine ⟨h.drawn, fun g hg => ?_⟩
  exact (update_of_ne (h.ne_of_used hf hg).symm x σ.mem).trans (h.same g hg)

theorem Grown.free (h : Grown σ₀ σ (p :: L)) : Grown σ₀ (σ.free p) L := by
  have hd := h.drawn.free_page (p := p) mem_cons_self
  rw [erase_cons_head] at hd
  exact ⟨hd, h.same⟩

theorem Grown.setWord (h : Grown σ₀ σ L) (hf : f ∈ L) : Grown σ₀ (σ.setWord f i v) L :=
  h.update hf _

theorem Grown.zero (h : Grown σ₀ σ L) (hf : f ∈ L) : Grown σ₀ (σ.zero f) L := h.update hf _

theorem Grown.used (h : Grown σ₀ σ L) (hp : p ∈ L) : ¬ IsFree σ.pages p :=
  fun hf => (h.drawn.isFree_iff.1 hf).2 hp

theorem Grown.used_of_used (h : Grown σ₀ σ L) (hf : ¬ IsFree σ₀.pages f) : ¬ IsFree σ.pages f :=
  fun hfree => hf (h.drawn.isFree_iff.1 hfree).1

theorem Grown.booted (h : Grown σ₀ σ L) (hb : Booted k σ₀) : Booted k σ := by
  have hg : ∀ i, σ.mem.word k.gPd i = σ₀.mem.word k.gPd i := h.word_of_used hb.gPd
  refine ⟨h.drawn.total ▸ hb.total_le, h.used_of_used hb.gPd, ?_, ?_, ?_⟩
  · intro i h1 h2 hp
    rw [hg] at hp ⊢
    exact h.used_of_used (hb.tables i h1 h2 hp)
  · intro i h1 h2 hp j hj hpj
    rw [hg] at hp hpj ⊢
    rw [h.word_of_used (hb.tables i h1 h2 hp)] at hpj ⊢
    exact h.used_of_used (hb.frames i h1 h2 hp j hj hpj)
  · intro p hp
    exact hb.fb p (h.drawn.isFree_iff.1 hp).1

theorem alloc_none (h : σ.alloc.2 = none) : σ.alloc.1 = σ ∧ freeCount σ.pages = 0 := by
  refine ⟨?_, freeCount_eq_zero_iff.2 (allocPage_none_iff.1 h)⟩
  unfold Machine.alloc at h ⊢
  rcases allocPage_spec σ.pages with hs | ⟨q, -, -, -, hs⟩
  · rw [hs]
  · rw [hs] at h
    cases h

theorem Grown.not_mirrored (h : Grown σ₀ σ L) (hb : Booted k σ₀) (ht : p ∈ L) (hlow : low < 4096)
    (hpres : present low = true) (hi : i < 1024) :
    ¬ (256 ≤ i ∧ entry (p * 4096) low = σ.mem.word k.gPd i) := by
  intro ⟨hge, heq⟩
  rw [h.word_of_used hb.gPd] at heq
  have hframe : frame (entry (p * 4096) low) = p := by
    rw [frame_entry hlow]
    omega
  have hp : present (σ₀.mem.word k.gPd i) = true := by
    rw [← heq, ← hpres]
    refine present_congr ?_
    rw [flagsOf_entry hlow]
    unfold flagsOf
    omega
  refine hb.tables i hge hi hp ?_
  rw [← heq, hframe]
  exact h.isFree ht

/-! ### One entry more -/

theorem flatMap_perm {α β : Type} {l : List α} (hnd : l.Nodup) {a : α} (ha : a ∈ l)
    {f g : α → List β} {x : List β} (h : (f a).Perm (x ++ g a))
    (hne : ∀ b ∈ l, b ≠ a → f b = g b) : (l.flatMap f).Perm (x ++ l.flatMap g) := by
  induction l with
  | nil => cases ha
  | cons b l ih =>
    obtain ⟨hb, hnd⟩ := nodup_cons.1 hnd
    rw [flatMap_cons, flatMap_cons]
    by_cases hba : b = a
    · have hrest : l.flatMap f = l.flatMap g := by
        refine flatMap_congr ?_
        intro c hc
        refine hne c (mem_cons_of_mem b hc) ?_
        intro hca
        exact hb (by rw [hba, ← hca]; exact hc)
      rw [hba, hrest, ← append_assoc]
      exact h.append_right _
    · have hal : a ∈ l := by
        cases mem_cons.1 ha with
        | inl h => exact absurd h.symm hba
        | inr h => exact h
      have hperm := ih hnd hal fun c hc => hne c (mem_cons_of_mem b hc)
      rw [hne b mem_cons_self hba]
      refine (hperm.append_left (g b)).trans ?_
      rw [← append_assoc, ← append_assoc]
      exact perm_append_comm.append_right _

theorem eq_of_mem_flatMap {α β : Type} {l : List α} {f : α → List β} (hnd : (l.flatMap f).Nodup)
    {a b : α} (ha : a ∈ l) (hb : b ∈ l) {x : β} (hxa : x ∈ f a) (hxb : x ∈ f b) : a = b := by
  by_contra hne
  have hdisj := (nodup_flatMap.1 hnd).2
  have : Std.Symm (onFun List.Disjoint f) := ⟨fun _ _ h => List.Disjoint.symm h⟩
  exact hdisj.forall ha hb hne hxa hxb

variable {m : Frames}

theorem tableFrames_setWord (hj : j < 1024) (hold : k.ram (m.word pt j) = false)
    (hv : v < 2 ^ 32) (hnew : k.ram v = true) :
    (tableFrames k (m.setWord pt j v) pt).Perm (frame v :: tableFrames k m pt) := by
  rw [← singleton_append]
  refine flatMap_perm nodup_range (mem_range.2 hj) ?_ ?_
  · unfold slotFrames
    rw [Frames.word_setWord_self hv, if_pos hnew, hold]
    exact List.Perm.refl _
  · intro b _ hb
    unfold slotFrames
    rw [Frames.word_setWord_of_ne hb]

theorem tableFrames_zero : tableFrames k (m.zero pt) pt = [] := by
  unfold tableFrames slotFrames
  rw [flatMap_eq_nil_iff]
  intro j _
  rw [Frames.word_zero_self]
  rfl

theorem dirFrames_congr {m' : Frames} (hpd : ∀ i, m.word pd i = m'.word pd i)
    (hg : ∀ i, m.word k.gPd i = m'.word k.gPd i)
    (ht : ∀ f ∈ dirFrames k m pd, m f = m' f) : dirFrames k m pd = dirFrames k m' pd := by
  refine flatMap_congr ?_
  intro i hi
  refine entryFrames_congr (hpd i) (hg i) ?_
  intro hp hm
  refine ht _ (mem_flatMap.2 ⟨i, hi, ?_⟩)
  unfold entryFrames
  rw [if_pos (by simp [hp, hm])]
  simp

theorem dirFrames_setWord (hap : Apart k m pd) (h8 : 8 ≤ i) (hi : i < 1024)
    (hold : present (m.word pd i) = false) (hv : v < 2 ^ 32) (hnew : present v = true)
    (hnm : ¬ (256 ≤ i ∧ v = m.word k.gPd i)) (hne : frame v ≠ pd) :
    (dirFrames k (m.setWord pd i v) pd).Perm
      (tableFrames k m (frame v) ++ frame v :: dirFrames k m pd) := by
  have hg : ∀ j, (m.setWord pd i v).word k.gPd j = m.word k.gPd j :=
    fun j => Frames.word_congr (Frames.setWord_of_ne hap.1) j
  have hself : (m.setWord pd i v).word pd i = v := Frames.word_setWord_self hv
  have hnew' : entryFrames k (m.setWord pd i v) pd i = tableFrames k m (frame v) ++ [frame v] := by
    unfold entryFrames mirrored
    have hin : (present v && !(256 ≤ i && v == m.word k.gPd i)) = true := by
      simp [hnew]
      omega
    rw [hself, hg, if_pos hin, tableFrames_congr (Frames.setWord_of_ne hne)]
  have hold' : entryFrames k m pd i = [] := by
    unfold entryFrames
    rw [hold]
    rfl
  have hperm : (dirFrames k (m.setWord pd i v) pd).Perm
      ((tableFrames k m (frame v) ++ [frame v]) ++ dirFrames k m pd) := by
    refine flatMap_perm nodup_range' (mem_userEntries.2 ⟨h8, hi⟩) ?_ ?_
    · rw [hnew', hold', append_nil]
    · intro b hb hbi
      have hb := mem_userEntries.1 hb
      refine (entryFrames_congr (Frames.word_setWord_of_ne hbi).symm (hg b).symm ?_).symm
      intro hp hm
      exact (Frames.setWord_of_ne (hap.2 b hb.1 hb.2 hp hm)).symm
  refine hperm.trans ?_
  rw [append_assoc, singleton_append]

theorem mem_dirFrames (h8 : 8 ≤ i) (hi : i < 1024)
    (hp : present (m.word pd i) = true) (hm : mirrored k m pd i = false) :
    frame (m.word pd i) ∈ dirFrames k m pd ∧
      ∀ f ∈ tableFrames k m (frame (m.word pd i)), f ∈ dirFrames k m pd := by
  have hin : ∀ f ∈ entryFrames k m pd i, f ∈ dirFrames k m pd := by
    intro f hf
    exact mem_flatMap.2 ⟨i, mem_userEntries.2 ⟨h8, hi⟩, hf⟩
  unfold entryFrames at hin
  rw [if_pos (by simp [hp, hm])] at hin
  exact ⟨hin _ (by simp), fun f hf => hin f (mem_append_left _ hf)⟩

theorem Grown.apart (h : Grown σ₀ σ (pd :: L)) (hb : Booted k σ₀)
    (hp : L.Perm (dirFrames k σ.mem pd)) : Apart k σ.mem pd := by
  refine ⟨(h.ne_of_used mem_cons_self hb.gPd).symm, ?_⟩
  intro i h8 hi hpres hm heq
  refine (nodup_cons.1 h.drawn.nodup).1 (hp.mem_iff.2 ?_)
  have hmem := (mem_dirFrames h8 hi hpres hm).1
  rwa [heq] at hmem

theorem Grown.destroy (h : Grown σ₀ σ (pd :: L)) (hb : Booted k σ₀)
    (hp : L.Perm (dirFrames k σ.mem pd)) :
    (pagingDestroyUserPd k σ pd).pages = σ₀.pages ∧
      ∀ f, ¬ IsFree σ₀.pages f → (pagingDestroyUserPd k σ pd).mem f = σ₀.mem f := by
  have hpd : pd ∈ pd :: L := mem_cons_self
  obtain ⟨h1, h2⟩ := destroy_pages (h.isFree hpd).1 (h.apart hb hp)
  refine ⟨?_, ?_⟩
  · rw [h1]
    have hperm : (pd :: L).Perm (dirFrames k σ.mem pd ++ [pd]) :=
      (List.Perm.cons pd hp).trans (perm_append_singleton pd _).symm
    exact (h.perm hperm).drawn.restore
  · intro f hf
    rw [h2 f (h.ne_of_used hpd hf).symm]
    exact h.same f hf

end Growing

/-! ## A new directory -/

section Create
variable {k : Globals} {σ : Machine} {pd : Nat}

theorem mirror_spec (hne : k.gPd ≠ pd) (always : Bool) (is : List Nat) (σ : Machine) :
    (mirror k pd always is σ).pages = σ.pages ∧
      (∀ f, f ≠ pd → (mirror k pd always is σ).mem f = σ.mem f) ∧
      ∀ j, (mirror k pd always is σ).mem.word pd j =
        if j ∈ is ∧ (always = true ∨ present (σ.mem.word k.gPd j) = true)
        then σ.mem.word k.gPd j else σ.mem.word pd j := by
  induction is generalizing σ with
  | nil => exact ⟨rfl, fun _ _ => rfl, fun j => by simp [mirror]⟩
  | cons i is ih =>
    unfold mirror
    by_cases hc : always = true ∨ present (σ.mem.word k.gPd i) = true
    · rw [if_pos (by simpa using hc)]
      obtain ⟨h1, h2, h3⟩ := ih (σ.setWord pd i (σ.mem.word k.gPd i))
      have hother : ∀ f, f ≠ pd → (σ.setWord pd i (σ.mem.word k.gPd i)).mem f = σ.mem f :=
        fun f hf => Frames.setWord_of_ne hf
      refine ⟨h1, fun f hf => (h2 f hf).trans (hother f hf), fun j => ?_⟩
      rw [h3 j, Frames.word_congr (hother k.gPd hne)]
      by_cases hj : j ∈ is ∧ (always = true ∨ present (σ.mem.word k.gPd j) = true)
      · rw [if_pos hj, if_pos ⟨mem_cons_of_mem i hj.1, hj.2⟩]
      · rw [if_neg hj]
        by_cases hji : j = i
        · rw [hji, if_pos ⟨mem_cons_self, hc⟩]
          exact Frames.word_setWord_self (Frames.word_lt _ _ _)
        · have hnot : ¬ (j ∈ i :: is ∧ (always = true ∨ present (σ.mem.word k.gPd j) = true)) := by
            intro ⟨hm, hp⟩
            cases mem_cons.1 hm with
            | inl h => exact hji h
            | inr h => exact hj ⟨h, hp⟩
          rw [if_neg hnot]
          exact Frames.word_setWord_of_ne hji
    · rw [if_neg (by simpa using hc)]
      obtain ⟨h1, h2, h3⟩ := ih σ
      refine ⟨h1, h2, fun j => ?_⟩
      rw [h3 j]
      by_cases hji : j = i
      · rw [hji, if_neg fun h => hc h.2, if_neg fun h => hc h.2]
      · simp [hji]

theorem create_spec (hb : Booted k σ) (h : (pagingCreateUserPd k σ).2 = some pd) :
    Grown σ (pagingCreateUserPd k σ).1 [pd] ∧
      ∀ i < 1024, (pagingCreateUserPd k σ).1.mem.word pd i =
        if i < 8 ∨ 256 ≤ i ∧ present (σ.mem.word k.gPd i) = true then σ.mem.word k.gPd i else 0 := by
  unfold pagingCreateUserPd at h ⊢
  cases halloc : σ.alloc.2 with
  | none =>
    rw [halloc] at h
    cases h
  | some p =>
    rw [halloc] at h
    dsimp only at h ⊢
    obtain rfl := Option.some.inj h
    have hg := ((Grown.refl σ).alloc halloc).zero (f := p) mem_cons_self
    have hne : k.gPd ≠ p := (hg.ne_of_used mem_cons_self hb.gPd).symm
    obtain ⟨h1, h2, h3⟩ := mirror_spec hne true (List.range 8) (σ.alloc.1.zero p)
    obtain ⟨σ₁, hσ₁⟩ : ∃ σ₁, σ₁ = mirror k p true (List.range 8) (σ.alloc.1.zero p) := ⟨_, rfl⟩
    rw [← hσ₁] at h1 h2 h3 ⊢
    obtain ⟨h4, h5, h6⟩ := mirror_spec hne false (List.range' 256 768) σ₁
    have hgw : ∀ i, (σ.alloc.1.zero p).mem.word k.gPd i = σ.mem.word k.gPd i :=
      fun i => hg.word_of_used hb.gPd i
    have hgw₁ : ∀ i, σ₁.mem.word k.gPd i = σ.mem.word k.gPd i :=
      fun i => (Frames.word_congr (h2 _ hne) i).trans (hgw i)
    refine ⟨⟨?_, ?_⟩, fun i hi => ?_⟩
    · rw [h4, h1]
      exact hg.drawn
    · intro f hf
      have hfp : f ≠ p := (hg.ne_of_used mem_cons_self hf).symm
      rw [h5 f hfp, h2 f hfp]
      exact hg.same f hf
    · rw [h6 i, hgw₁, h3 i, hgw]
      simp only [mem_range'_1, mem_range, true_or, and_true, Bool.false_eq_true,
        false_or]
      by_cases h8 : i < 8
      · rw [if_neg (by omega), if_pos h8, if_pos (.inl h8)]
      · by_cases hhigh : 256 ≤ i ∧ present (σ.mem.word k.gPd i) = true
        · rw [if_pos ⟨⟨hhigh.1, by omega⟩, hhigh.2⟩, if_pos (.inr hhigh)]
        · have hnot : ¬ ((256 ≤ i ∧ i < 256 + 768) ∧ present (σ.mem.word k.gPd i) = true) :=
            fun h => hhigh ⟨h.1.1, h.2⟩
          rw [if_neg hnot, if_neg h8, if_neg (by tauto)]
          exact Frames.word_zero_self

end Create

end AdventOS.Kernel.Paging
