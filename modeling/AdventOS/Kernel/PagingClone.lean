import AdventOS.Kernel.Paging

/-!
# Cloning an address space (`kernel/paging.c`)

`paging_clone_user_pd` copies every table past the low kernel region. It never asks what
`paging_destroy_user_pd` asks, whether a high entry is the kernel's own, so the tables that
`paging_create_user_pd` shares above the user range are copied with the frames they map.

* `clone_spec`: what the clone holds, for every parent and every state of the allocator;
* `clone_meets_iff`: the clone does what it should exactly when memory runs out or the parent
  has no shared high entry;
* `create_userPd`, `clone_userPd`: the directories that the two functions make are of the kind
  assumed.
-/
namespace AdventOS.Kernel.Paging
open Pmm List

/-! ## The functions -/

/-- The loop of paging.c:220-249, `n` entries from `j` on, `d` pages so far. `none`: no
page is left. -/
def cloneTable (k : Globals) (parentPt childPt : Nat) : (n j d : Nat) → Machine →
    Machine × Option Nat
  | 0, _, d, σ => (σ, some d)
  | n + 1, j, d, σ =>
    let pte := σ.mem.word parentPt j
    if present pte = false then cloneTable k parentPt childPt n (j + 1) d σ
    else if k.inFb (frame pte * 4096) then cloneTable k parentPt childPt n (j + 1) d σ
    else
      match σ.alloc.2 with
      | none => (σ.alloc.1, none)
      | some page =>
        let σ := { σ.alloc.1 with mem := σ.alloc.1.mem.copy page (frame pte) }
        cloneTable k parentPt childPt n (j + 1) (d + 1)
          (σ.setWord childPt j (entry (page * 4096) (flagsOf pte)))

/-- The loop of paging.c:209-255, `n` entries from `i` on. -/
def cloneEntries (k : Globals) (parent child : Nat) : (n i d : Nat) → Machine →
    Machine × Option Nat
  | 0, _, d, σ => (σ, some d)
  | n + 1, i, d, σ =>
    let pde := σ.mem.word parent i
    if present pde = false then cloneEntries k parent child n (i + 1) d σ
    else
      match σ.alloc.2 with
      | none => (pagingDestroyUserPd k σ.alloc.1 child, none)
      | some childPt =>
        let r := cloneTable k (frame pde) childPt 1024 0 d (σ.alloc.1.zero childPt)
        let σ := r.1.setWord child i (entry (childPt * 4096) (flagsOf (r.1.mem.word parent i)))
        match r.2 with
        | none => (pagingDestroyUserPd k σ child, none)
        | some d => cloneEntries k parent child n (i + 1) d σ

/-- paging.c:185-187 -/
def copyLow (parent child : Nat) : List Nat → Machine → Machine
  | [], σ => σ
  | i :: is, σ => copyLow parent child is (σ.setWord child i (σ.mem.word parent i))

/-- paging.c:174-259: the child and `data_pages`. -/
def pagingCloneUserPd (k : Globals) (σ : Machine) (parent : Nat) : Machine × Option (Nat × Nat) :=
  if parent = 0 then (σ, none)
  else
    match σ.alloc.2 with
    | none => (σ.alloc.1, none)
    | some child =>
      let r := cloneEntries k parent child 1016 8 0
        (copyLow parent child (List.range 8) (σ.alloc.1.zero child))
      (r.1, r.2.map fun d => (child, d))

/-! ## What a user directory is -/

/-- A user directory: it, its tables past the low kernel region and the frames they map are in
use. -/
structure UserPd (k : Globals) (σ : Machine) (pd : Nat) : Prop extends Booted k σ where
  ne_zero : pd ≠ 0
  root : ¬ IsFree σ.pages pd
  dirTables : ∀ i, 8 ≤ i → i < 1024 → present (σ.mem.word pd i) = true →
    ¬ IsFree σ.pages (frame (σ.mem.word pd i))
  dirFrames : ∀ i, 8 ≤ i → i < 1024 → present (σ.mem.word pd i) = true → ∀ j < 1024,
    present (σ.mem.word (frame (σ.mem.word pd i)) j) = true →
      ¬ IsFree σ.pages (frame (σ.mem.word (frame (σ.mem.word pd i)) j))

/-- How many pages the copy of `n` entries of a table takes, from `j` on. -/
def tableNeed (k : Globals) (m : Frames) (pt n j : Nat) : Nat :=
  (List.range' j n).countP fun j => k.ram (m.word pt j)

/-- How many pages the copy of an entry of the directory takes. -/
def entryNeed (k : Globals) (m : Frames) (pd i : Nat) : Nat :=
  if present (m.word pd i) then 1 + tableNeed k m (frame (m.word pd i)) 1024 0 else 0

/-- The same for `n` entries from `i` on. -/
def entriesNeed (k : Globals) (m : Frames) (pd n i : Nat) : Nat :=
  ((List.range' i n).map (entryNeed k m pd)).sum

/-- How many pages a clone takes. -/
def cloneNeed (k : Globals) (m : Frames) (pd : Nat) : Nat := 1 + entriesNeed k m pd 1016 8

/-- Entry `j` of a table and of its copy, whose frames are in `L`. -/
def SlotCopied (k : Globals) (m₀ m : Frames) (L : List Nat) (parentPt childPt j : Nat) : Prop :=
  if k.ram (m₀.word parentPt j) then
    frame (m.word childPt j) ∈ L ∧ flagsOf (m.word childPt j) = flagsOf (m₀.word parentPt j) ∧
      m (frame (m.word childPt j)) = m₀ (frame (m₀.word parentPt j))
  else m.word childPt j = 0

/-- Entry `i` of a directory and of its clone, whose tables and frames are in `L`. -/
def EntryCopied (k : Globals) (m₀ m : Frames) (L : List Nat) (parent child i : Nat) : Prop :=
  if present (m₀.word parent i) then
    frame (m.word child i) ∈ L ∧ flagsOf (m.word child i) = flagsOf (m₀.word parent i) ∧
      ∀ j < 1024, SlotCopied k m₀ m L (frame (m₀.word parent i)) (frame (m.word child i)) j
  else m.word child i = 0

/-! ## One table -/

section Loops
variable {k : Globals} {σ₀ σ : Machine} {L : List Nat}

theorem tableNeed_succ (m : Frames) (pt n j : Nat) :
    tableNeed k m pt (n + 1) j =
      (if k.ram (m.word pt j) then 1 else 0) + tableNeed k m pt n (j + 1) := by
  unfold tableNeed
  rw [range'_succ, countP_cons, Nat.add_comm]

theorem SlotCopied.mono {m₀ m : Frames} {L L' : List Nat} {parentPt childPt j : Nat}
    (h : SlotCopied k m₀ m L parentPt childPt j) (hsub : ∀ f ∈ L, f ∈ L') :
    SlotCopied k m₀ m L' parentPt childPt j := by
  unfold SlotCopied at h ⊢
  split at h
  · rename_i hram
    rw [if_pos hram]
    exact ⟨hsub _ h.1, h.2⟩
  · rename_i hram
    rw [if_neg hram]
    exact h

/-- What the copy of a table leaves. -/
structure TableCopied (k : Globals) (σ₀ σ : Machine) (L : List Nat) (parentPt childPt n j d : Nat)
    (r : Machine × Option Nat) (M : List Nat) : Prop where
  grown : Grown σ₀ r.1 (M ++ L)
  kept : ∀ f ∈ L, f ≠ childPt → r.1.mem f = σ.mem f
  frames : (tableFrames k r.1.mem childPt).Perm (M ++ tableFrames k σ.mem childPt)
  before : ∀ i < j, r.1.mem.word childPt i = σ.mem.word childPt i
  out : r.2 = none → freeCount r.1.pages = 0 ∧ M.length < tableNeed k σ₀.mem parentPt n j
  done : ∀ d', r.2 = some d' → M.length = tableNeed k σ₀.mem parentPt n j ∧ d' = d + M.length ∧
    ∀ i, j ≤ i → i < 1024 → SlotCopied k σ₀.mem r.1.mem M parentPt childPt i

theorem cloneTable_spec {parentPt childPt n j d : Nat} (hb : Booted k σ₀) (hg : Grown σ₀ σ L)
    (hc : childPt ∈ L) (hpt : ¬ IsFree σ₀.pages parentPt)
    (hframes : ∀ j < 1024, present (σ₀.mem.word parentPt j) = true →
      ¬ IsFree σ₀.pages (frame (σ₀.mem.word parentPt j)))
    (hn : j + n = 1024) (hz : ∀ i, j ≤ i → i < 1024 → σ.mem.word childPt i = 0) :
    ∃ M, TableCopied k σ₀ σ L parentPt childPt n j d (cloneTable k parentPt childPt n j d σ) M := by
  induction n generalizing j d σ L with
  | zero =>
    refine ⟨[], hg, fun _ _ _ => rfl, ?_, fun _ _ => rfl, ?_, ?_⟩
    · rw [nil_append, cloneTable]
    · intro h
      cases h
    · intro d' h
      cases h
      exact ⟨rfl, rfl, fun i h1 h2 => by omega⟩
  | succ n ih =>
    have hj : j < 1024 := by omega
    have hpte : σ.mem.word parentPt j = σ₀.mem.word parentPt j := hg.word_of_used hpt j
    -- an entry that is not copied stays as it was
    have hskip : k.ram (σ₀.mem.word parentPt j) = false →
        ∃ M, TableCopied k σ₀ σ L parentPt childPt (n + 1) j d
          (cloneTable k parentPt childPt n (j + 1) d σ) M := by
      intro hram
      obtain ⟨M, h⟩ := ih (d := d) (j := j + 1) hg hc (by omega) fun i h1 h2 =>
        hz i (by omega) h2
      have hneed : tableNeed k σ₀.mem parentPt (n + 1) j = tableNeed k σ₀.mem parentPt n (j + 1) := by
        rw [tableNeed_succ, hram]
        simp
      refine ⟨M, h.grown, h.kept, h.frames, fun i hi => h.before i (by omega), ?_, ?_⟩
      · rw [hneed]
        exact h.out
      · intro d' hd
        obtain ⟨h1, h2, h3⟩ := h.done d' hd
        refine ⟨by rw [hneed]; exact h1, h2, fun i hji hi => ?_⟩
        by_cases hij : i = j
        · unfold SlotCopied
          rw [hij, hram, h.before j (by omega)]
          exact hz j (Nat.le_refl j) hj
        · exact h3 i (by omega) hi
    unfold cloneTable
    rw [hpte]
    by_cases hp : present (σ₀.mem.word parentPt j) = true
    · rw [if_neg (by simp [hp])]
      by_cases hfb : k.inFb (frame (σ₀.mem.word parentPt j) * 4096) = true
      · rw [if_pos hfb]
        exact hskip (by unfold Globals.ram; simp [hfb])
      · have hram : k.ram (σ₀.mem.word parentPt j) = true := by
          unfold Globals.ram
          simp [hp, hfb]
        have hneed : tableNeed k σ₀.mem parentPt (n + 1) j =
            1 + tableNeed k σ₀.mem parentPt n (j + 1) := by
          rw [tableNeed_succ, hram]
          rfl
        rw [if_neg hfb]
        cases halloc : σ.alloc.2 with
        | none =>
          obtain ⟨hsame, hzero⟩ := alloc_none halloc
          rw [hsame]
          refine ⟨[], hg, fun _ _ _ => rfl, ?_, fun _ _ => rfl, fun _ => ?_, ?_⟩
          · rw [nil_append]
          · refine ⟨hzero, ?_⟩
            rw [hneed, length_nil]
            omega
          · intro d' h
            cases h
        | some page =>
          dsimp only
          have hpage := hg.alloc_not_mem halloc
          have hpc : page ≠ childPt := by
            intro heq
            exact hpage (heq ▸ hc)
          have hg1 := hg.alloc halloc
          have hlt := hg1.lt hb mem_cons_self
          have hlow := flagsOf_lt (σ₀.mem.word parentPt j)
          have hsrc := hframes j hj hp
          have hv : entry (page * 4096) (flagsOf (σ₀.mem.word parentPt j)) < 2 ^ 32 :=
            entry_lt hlow (by omega)
          have hframe : frame (entry (page * 4096) (flagsOf (σ₀.mem.word parentPt j))) = page := by
            rw [frame_entry hlow]
            omega
          have hnew : k.ram (entry (page * 4096) (flagsOf (σ₀.mem.word parentPt j))) = true := by
            unfold Globals.ram
            rw [hframe, hb.fb page (hg1.isFree mem_cons_self), ← hp]
            simp only [Bool.not_false, Bool.and_true]
            refine present_congr ?_
            rw [flagsOf_entry hlow]
          obtain ⟨m₁, hm₁⟩ : ∃ m₁, m₁ = σ.alloc.1.mem.copy page (frame (σ₀.mem.word parentPt j)) :=
            ⟨_, rfl⟩
          obtain ⟨σ₁, hσ₁⟩ : ∃ σ₁, σ₁ = Machine.setWord { σ.alloc.1 with mem := m₁ } childPt j
              (entry (page * 4096) (flagsOf (σ₀.mem.word parentPt j))) := ⟨_, rfl⟩
          rw [← hm₁, ← hσ₁]
          have hmem : σ₁.mem = m₁.setWord childPt j
              (entry (page * 4096) (flagsOf (σ₀.mem.word parentPt j))) := by
            rw [hσ₁]
            rfl
          have hg2 : Grown σ₀ σ₁ (page :: L) := by
            rw [hσ₁, hm₁]
            exact (hg1.update mem_cons_self _).setWord (mem_cons_of_mem page hc)
          have hm₁_of_ne : ∀ f, f ≠ page → m₁ f = σ.mem f := by
            intro f hf
            rw [hm₁]
            exact Frames.copy_of_ne hf
          have hchild : ∀ i, m₁.word childPt i = σ.mem.word childPt i :=
            fun i => Frames.word_congr (hm₁_of_ne childPt hpc.symm) i
          have hword : ∀ i, i ≠ j → σ₁.mem.word childPt i = σ.mem.word childPt i := by
            intro i hi
            rw [hmem, Frames.word_setWord_of_ne hi, hchild]
          have hself : σ₁.mem.word childPt j =
              entry (page * 4096) (flagsOf (σ₀.mem.word parentPt j)) := by
            rw [hmem, Frames.word_setWord_self hv]
          have hcopy : σ₁.mem page = σ₀.mem (frame (σ₀.mem.word parentPt j)) := by
            rw [hmem, Frames.setWord_of_ne hpc, hm₁, Frames.copy_self]
            exact hg.same _ hsrc
          obtain ⟨M, h⟩ := ih (d := d + 1) (j := j + 1) hg2 (mem_cons_of_mem page hc) (by omega) (by
            intro i h1 h2
            rw [hword i (by omega)]
            exact hz i (by omega) h2)
          have hperm : (M ++ page :: L).Perm ((M ++ [page]) ++ L) := by
            rw [append_assoc]
            exact List.Perm.refl _
          have hold : k.ram (m₁.word childPt j) = false := by
            rw [hchild, hz j (Nat.le_refl j) hj]
            rfl
          refine ⟨M ++ [page], h.grown.perm hperm, ?_, ?_, ?_, ?_, ?_⟩
          · intro f hf hne
            have hfp : f ≠ page := by
              intro heq
              exact hpage (heq ▸ hf)
            rw [h.kept f (mem_cons_of_mem page hf) hne, hmem, Frames.setWord_of_ne hne]
            exact hm₁_of_ne f hfp
          · refine h.frames.trans ?_
            rw [append_assoc, hmem, singleton_append]
            refine List.Perm.append_left M ?_
            have hslot := tableFrames_setWord hj hold hv hnew
            rw [hframe, tableFrames_congr (hm₁_of_ne childPt hpc.symm)] at hslot
            exact hslot
          · intro i hi
            rw [h.before i (by omega), hword i (by omega)]
          · intro hout
            obtain ⟨h1, h2⟩ := h.out hout
            refine ⟨h1, ?_⟩
            rw [hneed, length_append, length_singleton]
            omega
          · intro d' hd
            obtain ⟨h1, h2, h3⟩ := h.done d' hd
            rw [hneed, length_append, length_singleton]
            refine ⟨by omega, by omega, fun i hji hi => ?_⟩
            by_cases hij : i = j
            · unfold SlotCopied
              rw [hij, if_pos hram, h.before j (by omega), hself, hframe, flagsOf_entry hlow,
                h.kept page mem_cons_self hpc, hcopy]
              exact ⟨by simp, rfl, rfl⟩
            · exact (h3 i (by omega) hi).mono fun f hf => mem_append_left _ hf
    · rw [if_pos (by simpa using hp)]
      exact hskip (by unfold Globals.ram; simp [hp])

/-! ## One directory -/

theorem entriesNeed_succ (m : Frames) (pd n i : Nat) :
    entriesNeed k m pd (n + 1) i = entryNeed k m pd i + entriesNeed k m pd n (i + 1) := by
  unfold entriesNeed
  rw [range'_succ, map_cons, sum_cons]

theorem EntryCopied.kept {m₀ m m' : Frames} {D D' : List Nat} {parent child i : Nat}
    (h : EntryCopied k m₀ m D parent child i) (hword : m'.word child i = m.word child i)
    (hkept : ∀ f ∈ D, m' f = m f) (hsub : ∀ f ∈ D, f ∈ D') :
    EntryCopied k m₀ m' D' parent child i := by
  unfold EntryCopied at h ⊢
  rw [hword]
  split at h
  · rename_i hp
    rw [if_pos hp]
    refine ⟨hsub _ h.1, h.2.1, fun j hj => ?_⟩
    have hslot := h.2.2 j hj
    have htable : m'.word (frame (m.word child i)) j = m.word (frame (m.word child i)) j :=
      Frames.word_congr (hkept _ h.1) j
    unfold SlotCopied at hslot ⊢
    rw [htable]
    split at hslot
    · rename_i hram
      rw [if_pos hram, hkept _ hslot.1]
      exact ⟨hsub _ hslot.1, hslot.2⟩
    · rename_i hram
      rw [if_neg hram]
      exact hslot
  · rename_i hp
    rw [if_neg hp]
    exact h

section Install
variable {D M : List Nat} {parent child childPt i d : Nat} {r : Machine × Option Nat}

theorem frame_installed (hlt : childPt < 65536) (pde : Nat) :
    entry (childPt * 4096) (flagsOf pde) < 2 ^ 32 ∧
      frame (entry (childPt * 4096) (flagsOf pde)) = childPt ∧
      flagsOf (entry (childPt * 4096) (flagsOf pde)) = flagsOf pde := by
  have hlow := flagsOf_lt pde
  refine ⟨entry_lt hlow (by omega), ?_, flagsOf_entry hlow⟩
  rw [frame_entry hlow]
  omega

/-- The copied table put into the child: what was there stays, and the child holds the table and
its frames. -/
theorem install (hu : UserPd k σ₀ parent) (hg : Grown σ₀ σ (child :: D))
    (hD : D.Perm (dirFrames k σ.mem child)) (hnot : childPt ∉ child :: D) (h8 : 8 ≤ i)
    (hi : i < 1024) (hz : σ.mem.word child i = 0)
    (hp : present (σ₀.mem.word parent i) = true) {σ₁ : Machine}
    (hσ₁ : ∀ f, f ≠ childPt → σ₁.mem f = σ.mem f) (hempty : tableFrames k σ₁.mem childPt = [])
    (h : TableCopied k σ₀ σ₁ (childPt :: child :: D) (frame (σ₀.mem.word parent i)) childPt 1024 0 d
      r M) :
    ∃ σ₂, σ₂ = r.1.setWord child i (entry (childPt * 4096) (flagsOf (r.1.mem.word parent i))) ∧
      Grown σ₀ σ₂ (child :: (M ++ childPt :: D)) ∧
      (M ++ childPt :: D).Perm (dirFrames k σ₂.mem child) ∧ (∀ f ∈ D, σ₂.mem f = σ.mem f) ∧
      (∀ j, j ≠ i → σ₂.mem.word child j = σ.mem.word child j) ∧
      (r.2 ≠ none → EntryCopied k σ₀.mem σ₂.mem (M ++ childPt :: D) parent child i) := by
  have hb := hu.toBooted
  have hin : childPt ∈ M ++ childPt :: child :: D := by simp
  have hchild : child ∈ M ++ childPt :: child :: D := by simp
  have hptc : childPt ≠ child := fun heq => hnot (heq ▸ mem_cons_self)
  have hcD : child ∉ M ++ childPt :: D := by
    have hswap : (childPt :: child :: D).Perm (child :: childPt :: D) := List.Perm.swap ..
    have hperm := (hswap.append_left M).trans perm_middle
    exact (nodup_cons.1 (h.grown.drawn.perm hperm).nodup).1
  have hflags : r.1.mem.word parent i = σ₀.mem.word parent i := h.grown.word_of_used hu.root i
  obtain ⟨hv, hframe, hfl⟩ := frame_installed (h.grown.lt hb hin) (σ₀.mem.word parent i)
  have hnew : present (entry (childPt * 4096) (flagsOf (σ₀.mem.word parent i))) = true := by
    rw [present_congr hfl, hp]
  have hlow : present (flagsOf (σ₀.mem.word parent i)) = true := by
    rw [← hp]
    refine present_congr ?_
    unfold flagsOf
    omega
  -- what the child holds so far is as before the table was copied
  have hkept : ∀ f ∈ child :: D, r.1.mem f = σ.mem f := by
    intro f hf
    have hne : f ≠ childPt := fun heq => hnot (heq ▸ hf)
    rw [h.kept f (mem_cons_of_mem _ hf) hne, hσ₁ f hne]
  have hcword : ∀ j, r.1.mem.word child j = σ.mem.word child j :=
    fun j => Frames.word_congr (hkept child mem_cons_self) j
  have hgword : ∀ j, r.1.mem.word k.gPd j = σ.mem.word k.gPd j := by
    intro j
    rw [h.grown.word_of_used hb.gPd, hg.word_of_used hb.gPd]
  have hdir : dirFrames k r.1.mem child = dirFrames k σ.mem child := by
    refine (dirFrames_congr (fun j => (hcword j).symm) (fun j => (hgword j).symm) ?_).symm
    intro f hf
    exact (hkept f (mem_cons_of_mem _ (hD.mem_iff.2 hf))).symm
  have hap : Apart k r.1.mem child := by
    obtain ⟨h1, h2⟩ := hg.apart hb hD
    refine ⟨h1, fun j hj8 hj hjp hjm => ?_⟩
    unfold mirrored at hjm
    rw [hcword, hgword] at hjm
    rw [hcword] at hjp ⊢
    exact h2 j hj8 hj hjp hjm
  have htf : (tableFrames k r.1.mem childPt).Perm M := by
    have := h.frames
    rwa [hempty, append_nil] at this
  have hnm := h.grown.not_mirrored hb hin (flagsOf_lt _) hlow hi
  have hold : present (r.1.mem.word child i) = false := by
    rw [hcword, hz]
    rfl
  have hset := dirFrames_setWord hap h8 hi hold hv hnew hnm (by rw [hframe]; exact hptc)
  rw [hframe, hdir] at hset
  have hother : ∀ f, f ≠ child →
      (r.1.mem.setWord child i (entry (childPt * 4096) (flagsOf (σ₀.mem.word parent i)))) f =
        r.1.mem f := fun f hf => Frames.setWord_of_ne hf
  have hself : (r.1.mem.setWord child i
      (entry (childPt * 4096) (flagsOf (σ₀.mem.word parent i)))).word child i =
        entry (childPt * 4096) (flagsOf (σ₀.mem.word parent i)) := Frames.word_setWord_self hv
  refine ⟨_, rfl, ?_, ?_, ?_, ?_, ?_⟩
  · refine (h.grown.setWord hchild).perm ?_
    have hswap : (childPt :: child :: D).Perm (child :: childPt :: D) := List.Perm.swap ..
    exact (hswap.append_left M).trans perm_middle
  · rw [hflags]
    exact (htf.symm.append (List.Perm.cons childPt hD)).trans hset.symm
  · intro f hf
    have hne : f ≠ child := fun heq => hcD (heq ▸ by simp [hf])
    rw [hflags]
    exact (hother f hne).trans (hkept f (mem_cons_of_mem _ hf))
  · intro j hj
    rw [hflags]
    exact (Frames.word_setWord_of_ne hj).trans (hcword j)
  · intro hres
    obtain ⟨d', hd'⟩ := Option.ne_none_iff_exists'.1 hres
    obtain ⟨-, -, hslots⟩ := h.done d' hd'
    rw [hflags]
    unfold EntryCopied
    rw [if_pos hp]
    unfold Machine.setWord
    dsimp only
    rw [hself, hframe, hfl]
    refine ⟨by simp, rfl, fun j hj => ?_⟩
    have hslot := hslots j (Nat.zero_le j) hj
    unfold SlotCopied at hslot ⊢
    rw [Frames.word_congr (hother childPt hptc)]
    split at hslot
    · rename_i hram
      have hM : frame (r.1.mem.word childPt j) ∈ M ++ childPt :: D := mem_append_left _ hslot.1
      have hne : frame (r.1.mem.word childPt j) ≠ child := fun heq => hcD (heq ▸ hM)
      rw [if_pos hram, hother _ hne]
      exact ⟨hM, hslot.2⟩
    · rename_i hram
      rw [if_neg hram]
      exact hslot

end Install

/-- What the copy of `n` entries of a directory leaves. -/
structure EntriesCopied (k : Globals) (σ₀ σ : Machine) (D : List Nat) (parent child n i d : Nat)
    (r : Machine × Option Nat) : Prop where
  out : r.2 = none → r.1.pages = σ₀.pages ∧
    (∀ f, ¬ IsFree σ₀.pages f → r.1.mem f = σ₀.mem f) ∧
    freeCount σ₀.pages < D.length + 1 + entriesNeed k σ₀.mem parent n i
  done : ∀ d', r.2 = some d' → ∃ X, Grown σ₀ r.1 (child :: (X ++ D)) ∧
    (X ++ D).Perm (dirFrames k r.1.mem child) ∧
    X.length = entriesNeed k σ₀.mem parent n i ∧ (∀ f ∈ D, r.1.mem f = σ.mem f) ∧
    (∀ i' < i, r.1.mem.word child i' = σ.mem.word child i') ∧
    ∀ i', i ≤ i' → i' < 1024 → EntryCopied k σ₀.mem r.1.mem (X ++ D) parent child i'

theorem cloneEntries_spec {D : List Nat} {parent child n i d : Nat} (hu : UserPd k σ₀ parent)
    (hg : Grown σ₀ σ (child :: D)) (hD : D.Perm (dirFrames k σ.mem child)) (h8 : 8 ≤ i)
    (hn : i + n = 1024) (hz : ∀ i', i ≤ i' → i' < 1024 → σ.mem.word child i' = 0) :
    EntriesCopied k σ₀ σ D parent child n i d (cloneEntries k parent child n i d σ) := by
  have hb := hu.toBooted
  induction n generalizing i d σ D with
  | zero =>
    refine ⟨fun h => ?_, fun d' h => ?_⟩
    · cases h
    exact ⟨[], hg, hD, rfl, fun _ _ => rfl, fun _ _ => rfl, fun i' h1 h2 => by omega⟩
  | succ n ih =>
    have hi : i < 1024 := by omega
    have hpde : σ.mem.word parent i = σ₀.mem.word parent i := hg.word_of_used hu.root i
    rw [cloneEntries]
    rw [hpde]
    by_cases hp : present (σ₀.mem.word parent i) = true
    · have hneed : entriesNeed k σ₀.mem parent (n + 1) i =
          1 + tableNeed k σ₀.mem (frame (σ₀.mem.word parent i)) 1024 0 +
            entriesNeed k σ₀.mem parent n (i + 1) := by
        rw [entriesNeed_succ]
        unfold entryNeed
        rw [if_pos hp]
      rw [if_neg (by simp [hp])]
      cases halloc : σ.alloc.2 with
      | none =>
        obtain ⟨hsame, hzero⟩ := alloc_none halloc
        rw [hsame]
        have hcount := hg.drawn.freeCount_add
        rw [length_cons] at hcount
        obtain ⟨h1, h2⟩ := hg.destroy hb hD
        refine ⟨fun _ => ⟨h1, h2, ?_⟩, fun d' h => by cases h⟩
        rw [hneed]
        omega
      | some childPt =>
        dsimp only
        have hnot := hg.alloc_not_mem halloc
        have hg1 := (hg.alloc halloc).zero (f := childPt) mem_cons_self
        obtain ⟨M, h⟩ := cloneTable_spec (k := k) (d := d) (n := 1024) (j := 0) hb hg1
          mem_cons_self (hu.dirTables i h8 hi hp) (hu.dirFrames i h8 hi hp) rfl
          fun j _ _ => Frames.word_zero_self
        obtain ⟨r, hr⟩ : ∃ r, r = cloneTable k (frame (σ₀.mem.word parent i)) childPt 1024 0 d
            (σ.alloc.1.zero childPt) := ⟨_, rfl⟩
        rw [← hr] at h ⊢
        have hempty : tableFrames k (σ.alloc.1.zero childPt).mem childPt = [] := tableFrames_zero
        obtain ⟨σ₂, hσ₂, hg2, hD2, hkept2, hword2, hcopied2⟩ := install hu hg hD hnot h8 hi
          (hz i (Nat.le_refl i) hi) hp (fun f hf => Frames.zero_of_ne hf) hempty h
        rw [← hσ₂]
        cases hres : r.2 with
        | none =>
          obtain ⟨h1, h2⟩ := h.out hres
          have hcount := h.grown.drawn.freeCount_add
          rw [length_append, length_cons, length_cons] at hcount
          obtain ⟨h3, h4⟩ := hg2.destroy hb hD2
          refine ⟨fun _ => ⟨h3, h4, ?_⟩, fun d' h => by cases h⟩
          rw [hneed]
          omega
        | some d₁ =>
          obtain ⟨hlen, -, -⟩ := h.done d₁ hres
          have hih := ih (d := d₁) (i := i + 1) hg2 hD2 (by omega) (by omega) (by
            intro j hj1 hj2
            rw [hword2 j (by omega)]
            exact hz j (by omega) hj2)
          refine ⟨fun hout => ?_, fun d' hd => ?_⟩
          · obtain ⟨h1, h2, h3⟩ := hih.out hout
            refine ⟨h1, h2, ?_⟩
            rw [hneed]
            rw [length_append, length_cons] at h3
            omega
          · obtain ⟨X, hg', hperm', hlen', hkept', hbefore', hcopied'⟩ := hih.done d' hd
            have hassoc : X ++ (M ++ childPt :: D) = (X ++ (M ++ [childPt])) ++ D := by simp
            rw [hassoc] at hg' hperm' hcopied'
            refine ⟨X ++ (M ++ [childPt]), hg', hperm', ?_, ?_, ?_, ?_⟩
            · rw [hneed, length_append, length_append, length_singleton]
              omega
            · intro f hf
              rw [hkept' f (by simp [hf]), hkept2 f hf]
            · intro j hj
              rw [hbefore' j (by omega), hword2 j (by omega)]
            · intro j hj1 hj2
              by_cases hji : j = i
              · rw [hji]
                refine (hcopied2 (by rw [hres]; exact Option.some_ne_none d₁)).kept
                  (hbefore' i (by omega)) hkept' ?_
                intro f hf
                rw [← hassoc]
                exact mem_append_right _ hf
              · exact hcopied' j (by omega) hj2
    · have hneed : entriesNeed k σ₀.mem parent (n + 1) i =
          entriesNeed k σ₀.mem parent n (i + 1) := by
        rw [entriesNeed_succ]
        unfold entryNeed
        rw [if_neg hp, Nat.zero_add]
      rw [if_pos (by simpa using hp)]
      have h := ih (d := d) (i := i + 1) hg hD (by omega) (by omega)
        fun i' h1 h2 => hz i' (by omega) h2
      refine ⟨fun hout => ?_, fun d' hd => ?_⟩
      · rw [hneed]
        exact h.out hout
      · obtain ⟨X, hg', hperm', hlen', hkept', hbefore', hcopied'⟩ := h.done d' hd
        refine ⟨X, hg', hperm', by omega, hkept', fun j hj => hbefore' j (by omega), ?_⟩
        intro j hj1 hj2
        by_cases hji : j = i
        · unfold EntryCopied
          rw [hji, if_neg hp, hbefore' i (by omega)]
          exact hz i (Nat.le_refl i) hi
        · exact hcopied' j (by omega) hj2

theorem copyLow_spec {parent child : Nat} (hne : parent ≠ child) (is : List Nat) (σ : Machine) :
    (copyLow parent child is σ).pages = σ.pages ∧
      (∀ f, f ≠ child → (copyLow parent child is σ).mem f = σ.mem f) ∧
      ∀ j, (copyLow parent child is σ).mem.word child j =
        if j ∈ is then σ.mem.word parent j else σ.mem.word child j := by
  induction is generalizing σ with
  | nil => exact ⟨rfl, fun _ _ => rfl, fun j => by simp [copyLow]⟩
  | cons i is ih =>
    obtain ⟨h1, h2, h3⟩ := ih (σ.setWord child i (σ.mem.word parent i))
    have hother : ∀ f, f ≠ child → (σ.setWord child i (σ.mem.word parent i)).mem f = σ.mem f :=
      fun f hf => Frames.setWord_of_ne hf
    unfold copyLow
    refine ⟨h1, fun f hf => (h2 f hf).trans (hother f hf), fun j => ?_⟩
    rw [h3 j, Frames.word_congr (hother parent hne)]
    by_cases hj : j ∈ is
    · simp [hj]
    · rw [if_neg hj]
      by_cases hji : j = i
      · rw [hji, if_pos mem_cons_self]
        exact Frames.word_setWord_self (Frames.word_lt _ _ _)
      · rw [if_neg (by simp [hj, hji])]
        exact Frames.word_setWord_of_ne hji

end Loops

/-! ## The clone -/

section Clone
variable {k : Globals} {σ : Machine} {parent child d : Nat}

variable {m : Frames} {i j pd : Nat}

theorem dirFrames_eq_nil (h : ∀ i, 8 ≤ i → i < 1024 → m.word pd i = 0) : dirFrames k m pd = [] := by
  unfold dirFrames
  rw [flatMap_eq_nil_iff]
  intro i hi
  have hi := mem_userEntries.1 hi
  unfold entryFrames
  rw [h i hi.1 hi.2]
  rfl

theorem clone_spec (hu : UserPd k σ parent) :
    ((pagingCloneUserPd k σ parent).2 = none →
      (pagingCloneUserPd k σ parent).1.pages = σ.pages ∧
        (∀ f, ¬ IsFree σ.pages f → (pagingCloneUserPd k σ parent).1.mem f = σ.mem f) ∧
        freeCount σ.pages < cloneNeed k σ.mem parent) ∧
      ∀ child d, (pagingCloneUserPd k σ parent).2 = some (child, d) →
        ∃ D, Grown σ (pagingCloneUserPd k σ parent).1 (child :: D) ∧
          D.Perm (dirFrames k (pagingCloneUserPd k σ parent).1.mem child) ∧
          D.length + 1 = cloneNeed k σ.mem parent ∧
          (∀ i < 8, (pagingCloneUserPd k σ parent).1.mem.word child i = σ.mem.word parent i) ∧
          ∀ i, 8 ≤ i → i < 1024 →
            EntryCopied k σ.mem (pagingCloneUserPd k σ parent).1.mem D parent child i := by
  unfold pagingCloneUserPd cloneNeed
  rw [if_neg hu.ne_zero]
  cases halloc : σ.alloc.2 with
  | none =>
    obtain ⟨hsame, hzero⟩ := alloc_none halloc
    rw [hsame]
    refine ⟨fun _ => ⟨rfl, fun _ _ => rfl, by omega⟩, fun child d h => ?_⟩
    cases h
  | some child =>
    dsimp only
    have hg0 := (Grown.refl σ).alloc halloc
    have hg1 := hg0.zero (f := child) mem_cons_self
    have hne : parent ≠ child := (hg1.ne_of_used mem_cons_self hu.root).symm
    obtain ⟨σ₁, hσ₁⟩ : ∃ σ₁, σ₁ = copyLow parent child (List.range 8) (σ.alloc.1.zero child) :=
      ⟨_, rfl⟩
    obtain ⟨h1, h2, h3⟩ := copyLow_spec hne (List.range 8) (σ.alloc.1.zero child)
    rw [← hσ₁] at h1 h2 h3 ⊢
    have hg : Grown σ σ₁ [child] := by
      refine ⟨h1 ▸ hg1.drawn, fun f hf => ?_⟩
      rw [h2 f (hg1.ne_of_used mem_cons_self hf).symm]
      exact hg1.same f hf
    have hzero : ∀ i, 8 ≤ i → i < 1024 → σ₁.mem.word child i = 0 := by
      intro i h8 hi
      rw [h3 i, if_neg (by simp; omega)]
      exact Frames.word_zero_self
    have hD : ([] : List Nat).Perm (dirFrames k σ₁.mem child) := by
      rw [dirFrames_eq_nil hzero]
    have h := cloneEntries_spec (d := 0) hu hg hD (Nat.le_refl 8) (by omega : 8 + 1016 = 1024) hzero
    refine ⟨fun hout => ?_, fun child' d hd => ?_⟩
    · have hout : (cloneEntries k parent child 1016 8 0 σ₁).2 = none := by
        simpa using hout
      obtain ⟨h4, h5, h6⟩ := h.out hout
      rw [length_nil] at h6
      exact ⟨h4, h5, by omega⟩
    · obtain ⟨d', hd', heq⟩ := Option.map_eq_some_iff.1 hd
      obtain ⟨rfl, rfl⟩ := Prod.mk.inj heq
      obtain ⟨X, hg', hperm, hlen, -, hbefore, hcopied⟩ := h.done d' hd'
      rw [append_nil] at hg' hperm hcopied
      refine ⟨X, hg', hperm, by omega, fun i hi => ?_, hcopied⟩
      rw [hbefore i hi, h3 i, if_pos (by simpa using hi)]
      exact Frames.word_congr ((Frames.zero_of_ne hne).trans
        (hg0.same _ hu.root)) i

/-- A high entry for a table of the kernel. -/
def KernelTable (k : Globals) (m : Frames) (pd i : Nat) : Prop :=
  256 ≤ i ∧ present (m.word k.gPd i) = true ∧ present (m.word pd i) = true ∧
    frame (m.word pd i) = frame (m.word k.gPd i)

/-- Entry `j` of table `i`: a page of the user's, outside the framebuffer. -/
def UserPage (k : Globals) (m : Frames) (pd i j : Nat) : Prop :=
  (8 ≤ i ∧ i < 1024 ∧ j < 1024) ∧ present (m.word pd i) = true ∧ ¬ KernelTable k m pd i ∧
    k.ram (m.word (frame (m.word pd i)) j) = true

def pageEntry (m : Frames) (pd i j : Nat) : Nat := m.word (frame (m.word pd i)) j

/-- A clone as it should be. -/
structure Cloned (k : Globals) (σ₀ σ : Machine) (parent child : Nat) : Prop where
  copied : ∀ i j, UserPage k σ₀.mem parent i j →
    flagsOf (σ.mem.word child i) = flagsOf (σ₀.mem.word parent i) ∧
      flagsOf (pageEntry σ.mem child i j) = flagsOf (pageEntry σ₀.mem parent i j) ∧
      IsFree σ₀.pages (frame (pageEntry σ.mem child i j)) ∧
      σ.mem (frame (pageEntry σ.mem child i j)) = σ₀.mem (frame (pageEntry σ₀.mem parent i j))
  own : ∀ i j i' j', UserPage k σ₀.mem parent i j → UserPage k σ₀.mem parent i' j' →
    frame (pageEntry σ.mem child i j) = frame (pageEntry σ.mem child i' j') → i = i' ∧ j = j'
  low : ∀ i < 8, σ.mem.word child i = σ₀.mem.word parent i
  high : ∀ i < 1024, KernelTable k σ₀.mem parent i → σ.mem.word child i = σ₀.mem.word parent i
  parent : ∀ f, ¬ IsFree σ₀.pages f → σ.mem f = σ₀.mem f
  destroyed : (pagingDestroyUserPd k σ child).pages = σ₀.pages

/-- The clone fails and leaves the allocator as it was, or gives what it should. -/
def CloneMeets (k : Globals) (σ : Machine) (parent : Nat) : Prop :=
  ((pagingCloneUserPd k σ parent).2 = none →
      (pagingCloneUserPd k σ parent).1.pages = σ.pages) ∧
    ∀ child d, (pagingCloneUserPd k σ parent).2 = some (child, d) →
      Cloned k σ (pagingCloneUserPd k σ parent).1 parent child

theorem UserPage.not_mirrored (h : UserPage k m pd i j) :
    mirrored k m pd i = false := by
  obtain ⟨-, hp, hnot, -⟩ := h
  by_contra hm
  have hm : 256 ≤ i ∧ m.word pd i = m.word k.gPd i := by
    simpa [mirrored] using hm
  exact hnot ⟨hm.1, hm.2 ▸ hp, hp, congrArg frame hm.2⟩

theorem page_unique {i' j' : Nat} (hnd : (dirFrames k m pd).Nodup)
    (h : UserPage k m pd i j) (h' : UserPage k m pd i' j')
    (heq : frame (pageEntry m pd i j) = frame (pageEntry m pd i' j')) : i = i' ∧ j = j' := by
  have hm := h.not_mirrored
  have hm' := h'.not_mirrored
  obtain ⟨⟨h8, hi, hj⟩, hp, -, hram⟩ := h
  obtain ⟨⟨h8', hi', hj'⟩, hp', -, hram'⟩ := h'
  have hslot : ∀ {i j}, k.ram (m.word (frame (m.word pd i)) j) = true →
      frame (pageEntry m pd i j) ∈ slotFrames k m (frame (m.word pd i)) j := by
    intro i j hram
    unfold slotFrames
    rw [if_pos hram]
    exact mem_singleton_self _
  have hentry : ∀ {i j}, j < 1024 → present (m.word pd i) = true → mirrored k m pd i = false →
      k.ram (m.word (frame (m.word pd i)) j) = true →
        frame (pageEntry m pd i j) ∈ entryFrames k m pd i := by
    intro i j hj hp hm hram
    unfold entryFrames
    rw [if_pos (by simp [hp, hm])]
    exact mem_append_left _ (mem_flatMap.2 ⟨j, mem_range.2 hj, hslot hram⟩)
  have hin := mem_userEntries.2 ⟨h8, hi⟩
  have hii : i = i' := by
    refine eq_of_mem_flatMap hnd hin (mem_userEntries.2 ⟨h8', hi'⟩) (hentry hj hp hm hram) ?_
    rw [heq]
    exact hentry hj' hp' hm' hram'
  rw [← hii] at heq hram'
  refine ⟨hii, ?_⟩
  have htable := (nodup_flatMap.1 hnd).1 i hin
  unfold entryFrames at htable
  rw [if_pos (by simp [hp, hm])] at htable
  refine eq_of_mem_flatMap htable.of_append_left (mem_range.2 hj) (mem_range.2 hj')
    (hslot hram) ?_
  rw [heq]
  exact hslot hram'

theorem EntryCopied.own {σ₀ : Machine} {D : List Nat} (hb : Booted k σ₀)
    (hg : Grown σ₀ σ (child :: D)) (h : EntryCopied k σ₀.mem σ.mem D parent child i) (hi : i < 1024)
    (hp : present (σ₀.mem.word parent i) = true) :
    present (σ.mem.word child i) = true ∧ ¬ KernelTable k σ.mem child i ∧
      IsFree σ₀.pages (frame (σ.mem.word child i)) := by
  unfold EntryCopied at h
  rw [if_pos hp] at h
  have hfree := hg.isFree (mem_cons_of_mem child h.1)
  have hpres : present (σ.mem.word child i) = true := by
    rw [present_congr h.2.1, hp]
  refine ⟨hpres, ?_, hfree⟩
  intro ⟨hge, hpg, _, hframe⟩
  rw [hg.word_of_used hb.gPd] at hpg hframe
  exact hb.tables i hge hi hpg (hframe ▸ hfree)

theorem UserPage.copied {σ₀ : Machine} {D : List Nat} (hb : Booted k σ₀)
    (hg : Grown σ₀ σ (child :: D)) (hu : UserPage k σ₀.mem parent i j)
    (h : EntryCopied k σ₀.mem σ.mem D parent child i) :
    UserPage k σ.mem child i j ∧ flagsOf (σ.mem.word child i) = flagsOf (σ₀.mem.word parent i) ∧
      flagsOf (pageEntry σ.mem child i j) = flagsOf (pageEntry σ₀.mem parent i j) ∧
      IsFree σ₀.pages (frame (pageEntry σ.mem child i j)) ∧
      σ.mem (frame (pageEntry σ.mem child i j)) = σ₀.mem (frame (pageEntry σ₀.mem parent i j)) := by
  obtain ⟨hrange, hp, -, hram⟩ := hu
  obtain ⟨hpres, hown, -⟩ := h.own hb hg hrange.2.1 hp
  unfold EntryCopied at h
  rw [if_pos hp] at h
  have hslot := h.2.2 j hrange.2.2
  unfold SlotCopied at hslot
  rw [if_pos hram] at hslot
  obtain ⟨hin, hflags, hcontent⟩ := hslot
  have hfree := hg.isFree (mem_cons_of_mem child hin)
  have hram' : k.ram (σ.mem.word (frame (σ.mem.word child i)) j) = true := by
    unfold Globals.ram at hram ⊢
    rw [hb.fb _ hfree, present_congr hflags]
    simp only [Bool.and_eq_true] at hram
    simp [hram.1]
  exact ⟨⟨hrange, hpres, hown, hram'⟩, h.2.1, hflags, hfree, hcontent⟩

theorem meets_of_no_memory (hu : UserPd k σ parent)
    (h : freeCount σ.pages < cloneNeed k σ.mem parent) : CloneMeets k σ parent := by
  obtain ⟨hout, hdone⟩ := clone_spec hu
  refine ⟨fun hnone => (hout hnone).1, fun child d hsome => ?_⟩
  obtain ⟨D, hg, -, hlen, -⟩ := hdone child d hsome
  have hcount := hg.drawn.freeCount_add
  rw [length_cons] at hcount
  omega

theorem meets_of_no_shared (hu : UserPd k σ parent)
    (h : ∀ i < 1024, ¬ KernelTable k σ.mem parent i) : CloneMeets k σ parent := by
  have hb := hu.toBooted
  obtain ⟨hout, hdone⟩ := clone_spec hu
  refine ⟨fun hnone => (hout hnone).1, fun child d hsome => ?_⟩
  obtain ⟨D, hg, hperm, -, hlow, hcopied⟩ := hdone child d hsome
  refine ⟨?_, ?_, hlow, ?_, hg.same, (hg.destroy hb hperm).1⟩
  · intro i j hp
    exact (hp.copied hb hg (hcopied i hp.1.1 hp.1.2.1)).2
  · intro i j i' j' hp hp'
    refine page_unique (hperm.nodup_iff.1 (nodup_cons.1 hg.drawn.nodup).2) ?_ ?_
    · exact (hp.copied hb hg (hcopied i hp.1.1 hp.1.2.1)).1
    · exact (hp'.copied hb hg (hcopied i' hp'.1.1 hp'.1.2.1)).1
  · intro i hi hk
    exact absurd hk (h i hi)

theorem not_meets_of_shared (hu : UserPd k σ parent)
    (hmem : cloneNeed k σ.mem parent ≤ freeCount σ.pages) (hi : i < 1024)
    (hk : KernelTable k σ.mem parent i) : ¬ CloneMeets k σ parent := by
  have hb := hu.toBooted
  obtain ⟨hout, hdone⟩ := clone_spec hu
  intro hmeets
  cases hres : (pagingCloneUserPd k σ parent).2 with
  | none =>
    obtain ⟨-, -, hlt⟩ := hout hres
    omega
  | some r =>
    obtain ⟨D, hg, -, -, -, hcopied⟩ := hdone r.1 r.2 hres
    have hge := hk.1
    obtain ⟨-, -, hfree⟩ := (hcopied i (by omega) hi).own hb hg hi hk.2.2.1
    rw [(hmeets.2 r.1 r.2 hres).high i hi hk, hk.2.2.2] at hfree
    exact hb.tables i hk.1 hi hk.2.1 hfree

/-- **When a clone is what it should be.** -/
theorem clone_meets_iff (hu : UserPd k σ parent) :
    CloneMeets k σ parent ↔ freeCount σ.pages < cloneNeed k σ.mem parent ∨
      ∀ i < 1024, ¬ KernelTable k σ.mem parent i := by
  constructor
  · intro hmeets
    by_contra hnot
    simp only [not_or, Nat.not_lt] at hnot
    obtain ⟨hmem, hshared⟩ := hnot
    refine hshared fun i hi hk => ?_
    exact not_meets_of_shared hu hmem hi hk hmeets
  · intro h
    cases h with
    | inl h => exact meets_of_no_memory hu h
    | inr h => exact meets_of_no_shared hu h

theorem clone_userPd (hu : UserPd k σ parent)
    (h : (pagingCloneUserPd k σ parent).2 = some (child, d)) :
    UserPd k (pagingCloneUserPd k σ parent).1 child := by
  have hb := hu.toBooted
  obtain ⟨D, hg, -, -, -, hcopied⟩ := (clone_spec hu).2 child d h
  -- an entry that is present was copied, and so was what it holds
  have hentry : ∀ i, 8 ≤ i → i < 1024 →
      present ((pagingCloneUserPd k σ parent).1.mem.word child i) = true →
        frame ((pagingCloneUserPd k σ parent).1.mem.word child i) ∈ D ∧
          ∀ j < 1024, SlotCopied k σ.mem (pagingCloneUserPd k σ parent).1.mem D
            (frame (σ.mem.word parent i))
            (frame ((pagingCloneUserPd k σ parent).1.mem.word child i)) j := by
    intro i h8 hi hp
    have he := hcopied i h8 hi
    unfold EntryCopied at he
    split at he
    · exact ⟨he.1, he.2.2⟩
    · rw [he] at hp
      cases hp
  refine ⟨hg.booted hb, (hg.isFree mem_cons_self).1, hg.used mem_cons_self, ?_, ?_⟩
  · intro i h8 hi hp
    exact hg.used (mem_cons_of_mem child (hentry i h8 hi hp).1)
  · intro i h8 hi hp j hj hpj
    have hslot := (hentry i h8 hi hp).2 j hj
    unfold SlotCopied at hslot
    split at hslot
    · exact hg.used (mem_cons_of_mem child hslot.1)
    · rw [hslot] at hpj
      cases hpj

end Clone

/-! ## A new directory -/

section Create
variable {k : Globals} {σ : Machine} {pd : Nat}

theorem create_userPd (hb : Booted k σ) (h : (pagingCreateUserPd k σ).2 = some pd) :
    UserPd k (pagingCreateUserPd k σ).1 pd := by
  obtain ⟨hg, hword⟩ := create_spec hb h
  -- what is present past the low region is the kernel's
  have hhigh : ∀ i, 8 ≤ i → i < 1024 →
      present ((pagingCreateUserPd k σ).1.mem.word pd i) = true →
        256 ≤ i ∧ (pagingCreateUserPd k σ).1.mem.word pd i = σ.mem.word k.gPd i ∧
          present (σ.mem.word k.gPd i) = true := by
    intro i h8 hi hp
    rw [hword i hi] at hp ⊢
    split at hp
    · rename_i hc
      rw [if_pos hc]
      exact ⟨by omega, rfl, hp⟩
    · cases hp
  refine ⟨hg.booted hb, (hg.isFree mem_cons_self).1, hg.used mem_cons_self, ?_, ?_⟩
  · intro i h8 hi hp
    obtain ⟨hge, heq, hpg⟩ := hhigh i h8 hi hp
    rw [heq]
    exact hg.used_of_used (hb.tables i hge hi hpg)
  · intro i h8 hi hp j hj hpj
    obtain ⟨hge, heq, hpg⟩ := hhigh i h8 hi hp
    rw [heq] at hpj ⊢
    have ht := hb.tables i hge hi hpg
    rw [hg.word_of_used ht] at hpj ⊢
    exact hg.used_of_used (hb.frames i hge hi hpg j hj hpj)

end Create

/-! ## A machine with one table of devices -/

/-- Frames 0 to 3 are in use: `g_pd` is 1, its entry 1019 is table 2 with one device page, and
the directory 3 has the word `v` there. -/
def deviceMachine (v : Nat) : Machine where
  pages := { bitmap := fun p => p < 4, total := 8, used := 4 }
  mem := Frames.setWord (Frames.setWord (Frames.setWord (fun _ _ => 0) 1 1019 0x2003)
    2 512 0xFEE0001B) 3 1019 v

def deviceGlobals : Globals := { gPd := 1, fbEnabled := false, fbPhys := 0, fbSize := 0 }

theorem deviceMachine_word {v : Nat} (hv : v < 2 ^ 32) (f i : Nat) :
    (deviceMachine v).mem.word f i = if f = 3 ∧ i = 1019 then v
      else if f = 2 ∧ i = 512 then 0xFEE0001B else if f = 1 ∧ i = 1019 then 0x2003 else 0 := by
  unfold deviceMachine
  rw [Frames.word_setWord hv, Frames.word_setWord (by decide), Frames.word_setWord (by decide)]
  rfl

theorem deviceMachine_userPd {v : Nat} (h : v = 0 ∨ v = 0x2003) :
    UserPd deviceGlobals (deviceMachine v) 3 := by
  have hv : v < 2 ^ 32 := by omega
  have hused : ∀ p, p < 4 ∨ 8 ≤ p → ¬ IsFree (deviceMachine v).pages p := by
    intro p hp hfree
    unfold IsFree deviceMachine at hfree
    simp only [decide_eq_false_iff_not] at hfree
    omega
  have hg : ∀ i, (deviceMachine v).mem.word 1 i = if i = 1019 then 0x2003 else 0 := by
    intro i
    rw [deviceMachine_word hv]
    simp
  have ht : ∀ j, (deviceMachine v).mem.word 2 j = if j = 512 then 0xFEE0001B else 0 := by
    intro j
    rw [deviceMachine_word hv]
    simp
  have hd : ∀ i, (deviceMachine v).mem.word 3 i = if i = 1019 then v else 0 := by
    intro i
    rw [deviceMachine_word hv]
    simp
  -- a present entry of either directory is the table of devices
  have hframe : ∀ w i, (w = 0 ∨ w = 0x2003) → present (if i = 1019 then w else 0) = true →
      frame (if i = 1019 then w else 0) = 2 := by
    intro w i hw hp
    split at hp
    · rename_i hi
      cases hw with
      | inl hw =>
        rw [hw] at hp
        cases hp
      | inr hw => rw [if_pos hi, hw]; rfl
    · cases hp
  have hdev : ∀ j, present ((deviceMachine v).mem.word 2 j) = true →
      ¬ IsFree (deviceMachine v).pages (frame ((deviceMachine v).mem.word 2 j)) := by
    intro j hp
    rw [ht] at hp ⊢
    split at hp
    · rename_i hj
      rw [if_pos hj]
      exact hused _ (.inr (by decide))
    · cases hp
  have htotal : (8 : Nat) ≤ 65536 := by omega
  refine ⟨⟨htotal, hused 1 (by omega), ?_, ?_, fun p _ => rfl⟩, by omega, hused 3 (by omega), ?_, ?_⟩
  · intro i _ _ hp
    change ¬ IsFree _ (frame ((deviceMachine v).mem.word 1 i))
    rw [hg, hframe _ i (.inr rfl) (by rw [← hg]; exact hp)]
    exact hused 2 (by omega)
  · intro i _ _ hp j _ hpj
    have htab : frame ((deviceMachine v).mem.word deviceGlobals.gPd i) = 2 := by
      change frame ((deviceMachine v).mem.word 1 i) = 2
      rw [hg, hframe _ i (.inr rfl) (by rw [← hg]; exact hp)]
    rw [htab] at hpj ⊢
    exact hdev j hpj
  · intro i _ _ hp
    rw [hd, hframe v i h (by rw [← hd]; exact hp)]
    exact hused 2 (by omega)
  · intro i _ _ hp j _ hpj
    have htab : frame ((deviceMachine v).mem.word 3 i) = 2 := by
      rw [hd, hframe v i h (by rw [← hd]; exact hp)]
    rw [htab] at hpj ⊢
    exact hdev j hpj

/-- Made before the devices were mapped, the directory is cloned as it should be. -/
theorem clone_meets_device : CloneMeets deviceGlobals (deviceMachine 0) 3 := by
  refine (clone_meets_iff (deviceMachine_userPd (.inl rfl))).2 (.inr ?_)
  intro i _ hk
  have hp := hk.2.2.1
  rw [deviceMachine_word (by decide)] at hp
  simp at hp

/-- Made after that, it is not: the table of devices and the device page are copied to RAM. -/
theorem clone_copies_devices : ¬ ∀ (k : Globals) (σ : Machine) (parent : Nat),
    UserPd k σ parent → CloneMeets k σ parent := by
  intro h
  have hv : (0x2003 : Nat) < 2 ^ 32 := by decide
  have hg : (deviceMachine 0x2003).mem.word deviceGlobals.gPd 1019 = 0x2003 := by
    rw [deviceMachine_word hv]
    rfl
  have hd : (deviceMachine 0x2003).mem.word 3 1019 = 0x2003 := by
    rw [deviceMachine_word hv]
    rfl
  have hu := deviceMachine_userPd (.inr rfl)
  refine not_meets_of_shared (i := 1019) hu ?_ (by decide) ⟨by decide, ?_, ?_, ?_⟩ (h _ _ _ hu)
  · decide +kernel
  · rw [hg]
    rfl
  · rw [hd]
    rfl
  · rw [hg, hd]

/-! ## A tree of directories -/

/-- Directories that are made for programs and cloned for their children; either may fail. -/
inductive Made (k : Globals) (σ₀ : Machine) : Machine → List Nat → Prop
  | boot : Made k σ₀ σ₀ []
  | create (h : Made k σ₀ σ pds) :
    Made k σ₀ (pagingCreateUserPd k σ).1 ((pagingCreateUserPd k σ).2.toList ++ pds)
  | clone (h : Made k σ₀ σ pds) (hp : parent ∈ pds) : Made k σ₀ (pagingCloneUserPd k σ parent).1
    (((pagingCloneUserPd k σ parent).2.map Prod.fst).toList ++ pds)

theorem UserPd.grown (h : UserPd k σ pd) (hg : Grown σ σ' L) : UserPd k σ' pd := by
  have hw := hg.word_of_used h.root
  refine ⟨hg.booted h.toBooted, h.ne_zero, hg.used_of_used h.root, ?_, ?_⟩
  · intro i h8 hi hp
    rw [hw] at hp ⊢
    exact hg.used_of_used (h.dirTables i h8 hi hp)
  · intro i h8 hi hp j hj hpj
    rw [hw] at hp hpj ⊢
    rw [hg.word_of_used (h.dirTables i h8 hi hp)] at hpj ⊢
    exact hg.used_of_used (h.dirFrames i h8 hi hp j hj hpj)

/-- No directory is handed out twice, and making one leaves the others whole. -/
theorem directories_whole (h : Made k σ₀ σ pds) (hb : Booted k σ₀) :
    Booted k σ ∧ pds.Nodup ∧ ∀ pd ∈ pds, UserPd k σ pd := by
  induction h with
  | boot => exact ⟨hb, nodup_nil, fun _ hp => absurd hp not_mem_nil⟩
  | @create σ pds h ih =>
    obtain ⟨hb', hn, hall⟩ := ih
    cases hr : (pagingCreateUserPd k σ).2 with
    | none =>
      have hσ : (pagingCreateUserPd k σ).1 = σ := by
        unfold pagingCreateUserPd at hr ⊢
        cases ha : σ.alloc.2 with
        | none => exact (alloc_none ha).1
        | some p =>
          rw [ha] at hr
          cases hr
      rw [hσ]
      exact ⟨hb', hn, hall⟩
    | some pd =>
      obtain ⟨hg, -⟩ := create_spec hb' hr
      have hfree := hg.isFree mem_cons_self
      refine ⟨hg.booted hb', nodup_cons.mpr ⟨fun hm => (hall pd hm).root hfree, hn⟩, ?_⟩
      intro p hp
      rcases mem_cons.mp hp with rfl | hp
      · exact create_userPd hb' hr
      · exact (hall p hp).grown hg
  | @clone σ pds parent h hp ih =>
    obtain ⟨hb', hn, hall⟩ := ih
    have hspec := clone_spec (hall parent hp)
    cases hr : (pagingCloneUserPd k σ parent).2 with
    | none =>
      obtain ⟨hpages, hmem, -⟩ := hspec.1 hr
      have hg : Grown σ (pagingCloneUserPd k σ parent).1 [] := ⟨hpages ▸ Drawn.refl _, hmem⟩
      exact ⟨hg.booted hb', hn, fun p hp => (hall p hp).grown hg⟩
    | some r =>
      obtain ⟨child, d⟩ := r
      obtain ⟨D, hg, -⟩ := hspec.2 child d hr
      have hfree := hg.isFree mem_cons_self
      refine ⟨hg.booted hb', nodup_cons.mpr ⟨fun hm => (hall child hm).root hfree, hn⟩, ?_⟩
      intro p hp'
      rcases mem_cons.mp hp' with rfl | hp'
      · exact clone_userPd (hall parent hp) hr
      · exact (hall p hp').grown hg

/-- A program's directory and, where there is room, its child's. -/
theorem created_and_cloned : ∃ σ pds, Made deviceGlobals (deviceMachine 0) σ pds ∧ 4 ∈ pds ∧
    Booted deviceGlobals σ ∧ List.Nodup pds ∧ ∀ pd ∈ pds, UserPd deviceGlobals σ pd := by
  have hr : (pagingCreateUserPd deviceGlobals (deviceMachine 0)).2 = some 4 := by decide +kernel
  have h : 4 ∈ (pagingCreateUserPd deviceGlobals (deviceMachine 0)).2.toList ++ [] := by
    rw [hr]
    exact mem_cons_self
  have hm := Made.clone (.create .boot) h
  exact ⟨_, _, hm, mem_append_right _ h,
    directories_whole hm (deviceMachine_userPd (.inl rfl)).toBooted⟩

end AdventOS.Kernel.Paging
