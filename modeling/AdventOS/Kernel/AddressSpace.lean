import AdventOS.Kernel.Paging

/-!
# An address space under construction

A directory from `paging_create_user_pd` to which pages are added one by one, each a fresh frame
mapped by `paging_map_in`. `Building` is what holds while every page is new and none lies in a
table of the kernel: `T` are the entries that have a table of their own, `R` the pages mapped so
far, `D` the frames behind them and `E` the frames taken and not yet mapped.

* `Building.addTable`, `Building.addPage`, `Building.fill`: the steps, and what stays;
* `Building.map_spec`: `paging_map_in` of a new page;
* `Building.destroy`: giving up restores the allocator.
-/
namespace AdventOS.Kernel.Paging
open Pmm List

/-- Entry `i` of every directory is the kernel's. -/
def shared (k : Globals) (σ : Machine) (i : Nat) : Bool :=
  256 ≤ i && present (σ.mem.word k.gPd i)

def entryOf (m : Frames) (pd p : Nat) : Nat := m.word (frame (m.word pd (p / 1024))) (p % 1024)

def pageBytes (σ : Machine) (pd p : Nat) : Nat → UInt8 := σ.mem (frame (entryOf σ.mem pd p))

structure Building (k : Globals) (σ₀ σ : Machine) (pd : Nat) (E T R D : List Nat) : Prop where
  grown : Grown σ₀ σ (E ++ pd :: D)
  frames : D.Perm (dirFrames k σ.mem pd)
  kernel : ∀ i, 8 ≤ i → i < 1024 → shared k σ₀ i = true →
    σ.mem.word pd i = σ₀.mem.word k.gPd i
  absent : ∀ i, 8 ≤ i → i < 1024 → shared k σ₀ i = false → i ∉ T → σ.mem.word pd i = 0
  tables : ∀ i ∈ T, 8 ≤ i ∧ i < 1024 ∧ shared k σ₀ i = false ∧
    present (σ.mem.word pd i) = true ∧ user (σ.mem.word pd i) = true
  index : ∀ p ∈ R, p / 1024 ∈ T
  slot : ∀ p ∈ R, k.ram (entryOf σ.mem pd p) = true ∧ user (entryOf σ.mem pd p) = true
  empty : ∀ p, p / 1024 ∈ T → p ∉ R → entryOf σ.mem pd p = 0

section Steps
variable {k : Globals} {σ₀ σ σ' : Machine} {pd p q t i f v : Nat} {E T R D : List Nat}

/-! ## Tables and pages are different frames -/

variable {m : Frames} {flags : Nat}

theorem entryFrames_of_own (hp : present (m.word pd i) = true)
    (hm : mirrored k m pd i = false) :
    entryFrames k m pd i = tableFrames k m (frame (m.word pd i)) ++ [frame (m.word pd i)] := by
  unfold entryFrames
  rw [if_pos (by simp [hp, hm])]

theorem mem_tableFrames {pt j : Nat} (hj : j < 1024)
    (hram : k.ram (m.word pt j) = true) : frame (m.word pt j) ∈ tableFrames k m pt := by
  refine mem_flatMap.2 ⟨j, mem_range.2 hj, ?_⟩
  unfold slotFrames
  rw [if_pos hram]
  exact mem_singleton_self _

theorem Building.not_mirrored (h : Building k σ₀ σ pd E T R D) (hb : Booted k σ₀) (hi : i ∈ T) :
    mirrored k σ.mem pd i = false := by
  obtain ⟨-, -, hs, hp, -⟩ := h.tables i hi
  by_contra hm
  have hm : 256 ≤ i ∧ σ.mem.word pd i = σ.mem.word k.gPd i := by
    simpa [mirrored] using hm
  rw [h.grown.word_of_used hb.gPd] at hm
  rw [hm.2] at hp
  unfold shared at hs
  rw [hp] at hs
  simp [hm.1] at hs

theorem Building.own (h : Building k σ₀ σ pd E T R D) (hb : Booted k σ₀) (h8 : 8 ≤ i)
    (hi : i < 1024) (hp : present (σ.mem.word pd i) = true) (hm : mirrored k σ.mem pd i = false) :
    i ∈ T := by
  by_contra hnot
  by_cases hs : shared k σ₀ i = true
  · have hw := h.kernel i h8 hi hs
    unfold mirrored at hm
    rw [h.grown.word_of_used hb.gPd, hw] at hm
    unfold shared at hs
    simp only [Bool.and_eq_true, decide_eq_true_eq] at hs
    simp [hs.1] at hm
  · rw [h.absent i h8 hi (by simpa using hs) hnot] at hp
    cases hp

theorem Building.nodup (h : Building k σ₀ σ pd E T R D) : (dirFrames k σ.mem pd).Nodup :=
  h.frames.nodup_iff.1
    (nodup_cons.1 (List.Nodup.of_append_right h.grown.drawn.nodup)).2

section
variable (h : Building k σ₀ σ pd E T R D) (hb : Booted k σ₀)
include h hb

theorem Building.table_mem (hi : i ∈ T) : frame (σ.mem.word pd i) ∈ D := by
  obtain ⟨h8, hlt, -, hp, -⟩ := h.tables i hi
  exact h.frames.mem_iff.2 (mem_dirFrames h8 hlt hp (h.not_mirrored hb hi)).1

theorem Building.page_mem (hp : p ∈ R) : frame (entryOf σ.mem pd p) ∈ D := by
  have hi := h.index p hp
  obtain ⟨h8, hlt, -, hpres, -⟩ := h.tables _ hi
  refine h.frames.mem_iff.2 ((mem_dirFrames h8 hlt hpres (h.not_mirrored hb hi)).2 _ ?_)
  exact mem_tableFrames (Nat.mod_lt _ (by decide)) (h.slot p hp).1

theorem Building.tables_inj {i' : Nat} (hi : i ∈ T) (hi' : i' ∈ T)
    (heq : frame (σ.mem.word pd i) = frame (σ.mem.word pd i')) : i = i' := by
  obtain ⟨h8, hlt, -, hp, -⟩ := h.tables i hi
  obtain ⟨h8', hlt', -, hp', -⟩ := h.tables i' hi'
  refine eq_of_mem_flatMap h.nodup (mem_userEntries.2 ⟨h8, hlt⟩) (mem_userEntries.2 ⟨h8', hlt'⟩)
    (x := frame (σ.mem.word pd i)) ?_ ?_
  · rw [entryFrames_of_own hp (h.not_mirrored hb hi)]
    simp
  · rw [entryFrames_of_own hp' (h.not_mirrored hb hi'), heq]
    simp

theorem Building.page_ne_table (hp : p ∈ R) (hi : i ∈ T) :
    frame (entryOf σ.mem pd p) ≠ frame (σ.mem.word pd i) := by
  intro heq
  have hip := h.index p hp
  obtain ⟨h8, hlt, -, hpres, -⟩ := h.tables _ hip
  obtain ⟨h8', hlt', -, hpres', -⟩ := h.tables i hi
  have hin : frame (entryOf σ.mem pd p) ∈ tableFrames k σ.mem (frame (σ.mem.word pd (p / 1024))) :=
    mem_tableFrames (Nat.mod_lt _ (by decide)) (h.slot p hp).1
  have hown := entryFrames_of_own hpres (h.not_mirrored hb hip)
  have hown' := entryFrames_of_own hpres' (h.not_mirrored hb hi)
  have hsame : p / 1024 = i := by
    refine eq_of_mem_flatMap h.nodup (mem_userEntries.2 ⟨h8, hlt⟩) (mem_userEntries.2 ⟨h8', hlt'⟩)
      (x := frame (entryOf σ.mem pd p)) ?_ ?_
    · rw [hown]
      exact mem_append_left _ hin
    · rw [hown', heq]
      simp
  have hnd := (nodup_flatMap.1 h.nodup).1 _ (mem_userEntries.2 ⟨h8, hlt⟩)
  rw [hown] at hnd
  refine disjoint_of_nodup_append hnd hin ?_
  rw [heq, hsame]
  exact mem_singleton_self _

theorem Building.pages_inj {p' : Nat} (hp : p ∈ R) (hp' : p' ∈ R)
    (heq : frame (entryOf σ.mem pd p) = frame (entryOf σ.mem pd p')) : p = p' := by
  have hip := h.index p hp
  have hip' := h.index p' hp'
  obtain ⟨h8, hlt, -, hpres, -⟩ := h.tables _ hip
  obtain ⟨h8', hlt', -, hpres', -⟩ := h.tables _ hip'
  have hin : ∀ {p}, p ∈ R →
      frame (entryOf σ.mem pd p) ∈ tableFrames k σ.mem (frame (σ.mem.word pd (p / 1024))) :=
    fun hp => mem_tableFrames (Nat.mod_lt _ (by decide)) (h.slot _ hp).1
  have hown := entryFrames_of_own hpres (h.not_mirrored hb hip)
  have hsame : p / 1024 = p' / 1024 := by
    refine eq_of_mem_flatMap h.nodup (mem_userEntries.2 ⟨h8, hlt⟩) (mem_userEntries.2 ⟨h8', hlt'⟩)
      (x := frame (entryOf σ.mem pd p)) ?_ ?_
    · rw [hown]
      exact mem_append_left _ (hin hp)
    · rw [entryFrames_of_own hpres' (h.not_mirrored hb hip'), heq]
      exact mem_append_left _ (hin hp')
  have hnd := (nodup_flatMap.1 h.nodup).1 _ (mem_userEntries.2 ⟨h8, hlt⟩)
  rw [hown] at hnd
  have hslot : ∀ {p'}, p' ∈ R → p / 1024 = p' / 1024 → frame (entryOf σ.mem pd p') ∈
      slotFrames k σ.mem (frame (σ.mem.word pd (p / 1024))) (p' % 1024) := by
    intro p' hp' hs
    have hram := (h.slot p' hp').1
    unfold entryOf at hram ⊢
    unfold slotFrames
    rw [hs, if_pos hram]
    exact mem_singleton_self _
  have hmod : p % 1024 = p' % 1024 := by
    refine eq_of_mem_flatMap hnd.of_append_left (mem_range.2 (Nat.mod_lt _ (by decide)))
      (mem_range.2 (Nat.mod_lt _ (by decide))) (hslot hp rfl) ?_
    rw [heq]
    exact hslot hp' hsame
  omega

end
/-! ## What leaves an entry as it is -/

theorem Building.pd_not_mem (h : Building k σ₀ σ pd E T R D) : pd ∉ D :=
  (nodup_cons.1 (List.Nodup.of_append_right h.grown.drawn.nodup)).1

section
variable (h : Building k σ₀ σ pd E T R D) (hb : Booted k σ₀)
include h hb

theorem Building.entry_congr (hsame : ∀ f ∈ pd :: D, m f = σ.mem f) (hp : p / 1024 ∈ T) :
    entryOf m pd p = entryOf σ.mem pd p := by
  unfold entryOf
  rw [Frames.word_congr (hsame pd mem_cons_self)]
  exact Frames.word_congr (hsame _ (mem_cons_of_mem pd (h.table_mem hb hp))) _

theorem Building.entry_setTable (hT : i ∉ T) (hp : p / 1024 ∈ T) :
    entryOf (σ.mem.setWord pd i v) pd p = entryOf σ.mem pd p := by
  have hne : p / 1024 ≠ i := fun heq => hT (heq ▸ hp)
  unfold entryOf
  rw [Frames.word_setWord_of_ne hne]
  refine Frames.word_congr (Frames.setWord_of_ne ?_) _
  intro heq
  exact h.pd_not_mem (heq ▸ h.table_mem hb hp)

theorem Building.entry_setPage (hq : q / 1024 ∈ T) (hp : p / 1024 ∈ T) (hne : p ≠ q) :
    entryOf (σ.mem.setWord (frame (σ.mem.word pd (q / 1024))) (q % 1024) v) pd p =
      entryOf σ.mem pd p := by
  have hpd : pd ≠ frame (σ.mem.word pd (q / 1024)) :=
    fun heq => h.pd_not_mem (heq ▸ h.table_mem hb hq)
  unfold entryOf
  rw [Frames.word_congr (Frames.setWord_of_ne hpd)]
  by_cases hsame : p / 1024 = q / 1024
  · rw [hsame]
    exact Frames.word_setWord_of_ne (by omega)
  · refine Frames.word_congr (Frames.setWord_of_ne ?_) _
    intro heq
    exact hsame (h.tables_inj hb hp hq heq)

theorem Building.entry_update (hq : q ∈ R) (hf : f = frame (entryOf σ.mem pd q)) (hp : p / 1024 ∈ T)
    (x : Nat → UInt8) : entryOf (Function.update σ.mem f x) pd p = entryOf σ.mem pd p := by
  have hpd : pd ≠ f := fun heq => h.pd_not_mem (heq ▸ hf ▸ h.page_mem hb hq)
  have htable : frame (σ.mem.word pd (p / 1024)) ≠ f :=
    fun heq => h.page_ne_table hb hq hp (hf ▸ heq.symm)
  have hword : Frames.word (Function.update σ.mem f x) pd (p / 1024) = σ.mem.word pd (p / 1024) :=
    Frames.word_congr (Function.update_of_ne hpd x σ.mem) _
  unfold entryOf
  rw [hword]
  exact Frames.word_congr (Function.update_of_ne htable x σ.mem) _

end
/-! ## The steps -/

theorem Building.congr (h : Building k σ₀ σ pd E T R D) (hb : Booted k σ₀) {E' : List Nat}
    (hg : Grown σ₀ σ' (E' ++ pd :: D)) (hsame : ∀ f ∈ pd :: D, σ'.mem f = σ.mem f) :
    Building k σ₀ σ' pd E' T R D ∧ ∀ p ∈ R, pageBytes σ' pd p = pageBytes σ pd p := by
  have hword : ∀ i, σ'.mem.word pd i = σ.mem.word pd i :=
    fun i => Frames.word_congr (hsame pd mem_cons_self) i
  have hD : ∀ f ∈ D, σ'.mem f = σ.mem f := fun f hf => hsame f (mem_cons_of_mem pd hf)
  have hentry : ∀ p, p / 1024 ∈ T → entryOf σ'.mem pd p = entryOf σ.mem pd p :=
    fun p hp => h.entry_congr hb hsame hp
  have hdir : dirFrames k σ.mem pd = dirFrames k σ'.mem pd := by
    refine dirFrames_congr (fun i => (hword i).symm) (fun i => ?_) ?_
    · rw [hg.word_of_used hb.gPd, h.grown.word_of_used hb.gPd]
    · intro f hf
      exact (hD f (h.frames.mem_iff.2 hf)).symm
  refine ⟨⟨hg, hdir ▸ h.frames, ?_, ?_, ?_, h.index, ?_, ?_⟩, ?_⟩
  · intro i h8 hi hs
    rw [hword]
    exact h.kernel i h8 hi hs
  · intro i h8 hi hs hT
    rw [hword]
    exact h.absent i h8 hi hs hT
  · intro i hi
    rw [hword]
    exact h.tables i hi
  · intro p hp
    rw [hentry p (h.index p hp)]
    exact h.slot p hp
  · intro p hp hR
    rw [hentry p hp]
    exact h.empty p hp hR
  · intro p hp
    unfold pageBytes
    rw [hentry p (h.index p hp)]
    exact hD _ (h.page_mem hb hp)

theorem Building.alloc (h : Building k σ₀ σ pd E T R D) (hb : Booted k σ₀)
    (hq : σ.alloc.2 = some q) : Building k σ₀ σ.alloc.1 pd (q :: E) T R D ∧
      ∀ p ∈ R, pageBytes σ.alloc.1 pd p = pageBytes σ pd p :=
  h.congr hb (h.grown.alloc hq) fun _ _ => rfl

theorem Building.update (h : Building k σ₀ σ pd E T R D) (hb : Booted k σ₀) (hf : f ∈ E)
    (x : Nat → UInt8) : Building k σ₀ { σ with mem := Function.update σ.mem f x } pd E T R D ∧
      ∀ p ∈ R, pageBytes { σ with mem := Function.update σ.mem f x } pd p = pageBytes σ pd p := by
  refine h.congr hb (h.grown.update (mem_append_left _ hf) x) fun g hg => ?_
  refine Function.update_of_ne ?_ x σ.mem
  intro heq
  exact disjoint_of_nodup_append h.grown.drawn.nodup hf (heq ▸ hg)

theorem Building.free (h : Building k σ₀ σ pd (q :: E) T R D) (hb : Booted k σ₀) :
    Building k σ₀ (σ.free q) pd E T R D ∧
      ∀ p ∈ R, pageBytes (σ.free q) pd p = pageBytes σ pd p :=
  h.congr hb h.grown.free fun _ _ => rfl

theorem Building.destroy (h : Building k σ₀ σ pd [] T R D) (hb : Booted k σ₀) :
    (pagingDestroyUserPd k σ pd).pages = σ₀.pages ∧
      ∀ f, ¬ IsFree σ₀.pages f → (pagingDestroyUserPd k σ pd).mem f = σ₀.mem f :=
  h.grown.destroy hb h.frames

theorem tableFrames_eq_nil {pt : Nat} (h : ∀ j < 1024, m.word pt j = 0) :
    tableFrames k m pt = [] := by
  unfold tableFrames slotFrames
  rw [flatMap_eq_nil_iff]
  intro j hj
  rw [h j (mem_range.1 hj)]
  rfl

theorem Building.addTable (h : Building k σ₀ σ pd (t :: E) T R D) (hb : Booted k σ₀)
    (hzero : ∀ j < 1024, σ.mem.word t j = 0) (h8 : 8 ≤ i) (hi : i < 1024)
    (hs : shared k σ₀ i = false) (hT : i ∉ T) {low : Nat} (hlow : low < 4096)
    (hpres : present low = true) (huser : user low = true) :
    Building k σ₀ (σ.setWord pd i (entry (t * 4096) low)) pd E (i :: T) R (t :: D) ∧
      (∀ p ∈ R, pageBytes (σ.setWord pd i (entry (t * 4096) low)) pd p = pageBytes σ pd p) ∧
      ∀ f, f ≠ pd → (σ.setWord pd i (entry (t * 4096) low)).mem f = σ.mem f := by
  have hnd := h.grown.drawn.nodup
  have ht : t ∈ (t :: E) ++ pd :: D := by simp
  have hpd : pd ∈ (t :: E) ++ pd :: D := by simp
  have htpd : t ≠ pd := by
    intro heq
    refine disjoint_of_nodup_append hnd mem_cons_self ?_
    rw [heq]
    exact mem_cons_self
  have hpdD : pd ∉ D := h.pd_not_mem
  have hlt := h.grown.lt hb ht
  have hframe : frame (entry (t * 4096) low) = t := by
    rw [frame_entry hlow]
    omega
  have hv : entry (t * 4096) low < 2 ^ 32 := entry_lt hlow (by omega)
  have hflags : flagsOf (entry (t * 4096) low) = low := flagsOf_entry hlow
  have hnew : present (entry (t * 4096) low) = true := by
    rw [present_eq, hflags, ← hpres, present_eq]
    unfold flagsOf
    rw [Nat.mod_eq_of_lt hlow]
  have hnewu : user (entry (t * 4096) low) = true := by
    rw [user_eq, hflags, huser]
  have hold : σ.mem.word pd i = 0 := h.absent i h8 hi hs hT
  obtain ⟨m', hm'⟩ : ∃ m', m' = σ.mem.setWord pd i (entry (t * 4096) low) := ⟨_, rfl⟩
  have hother : ∀ f, f ≠ pd → m' f = σ.mem f := by
    intro f hf
    rw [hm']
    exact Frames.setWord_of_ne hf
  have hself : m'.word pd i = entry (t * 4096) low := by
    rw [hm']
    exact Frames.word_setWord_self hv
  have hword : ∀ j, j ≠ i → m'.word pd j = σ.mem.word pd j := by
    intro j hj
    rw [hm']
    exact Frames.word_setWord_of_ne hj
  have hap : Apart k σ.mem pd := by
    refine ⟨(h.grown.ne_of_used hpd hb.gPd).symm, fun j hj8 hj hp hm heq => hpdD ?_⟩
    exact heq ▸ h.table_mem hb (h.own hb hj8 hj hp hm)
  have hnm := h.grown.not_mirrored hb ht hlow hpres hi
  have hset := dirFrames_setWord hap h8 hi (by rw [hold]; rfl) hv hnew hnm (by rw [hframe]; exact htpd)
  rw [hframe, tableFrames_eq_nil hzero, nil_append, ← hm'] at hset
  have hentry : ∀ p, p / 1024 ∈ T → entryOf m' pd p = entryOf σ.mem pd p := by
    intro p hp
    rw [hm']
    exact h.entry_setTable hb hT hp
  have hkeep : ∀ p ∈ R, m' (frame (entryOf m' pd p)) = σ.mem (frame (entryOf σ.mem pd p)) := by
    intro p hp
    rw [hentry p (h.index p hp)]
    refine hother _ ?_
    intro heq
    exact hpdD (heq ▸ h.page_mem hb hp)
  have hgrown : Grown σ₀ (σ.setWord pd i (entry (t * 4096) low)) (E ++ pd :: t :: D) := by
    refine (h.grown.setWord hpd).perm ?_
    have hswap : (t :: pd :: D).Perm (pd :: t :: D) := List.Perm.swap ..
    exact perm_middle.symm.trans (hswap.append_left E)
  have hmem : (σ.setWord pd i (entry (t * 4096) low)).mem = m' := hm'.symm
  refine ⟨⟨hgrown, ?_, ?_, ?_, ?_, ?_, ?_, ?_⟩, ?_, ?_⟩
  · rw [hmem]
    exact (List.Perm.cons t h.frames).trans hset.symm
  · intro j hj8 hj hsj
    have hne : j ≠ i := by
      intro heq
      rw [heq, hs] at hsj
      cases hsj
    rw [hmem, hword j hne]
    exact h.kernel j hj8 hj hsj
  · intro j hj8 hj hsj hjT
    have hne : j ≠ i := fun heq => hjT (heq ▸ mem_cons_self)
    rw [hmem, hword j hne]
    exact h.absent j hj8 hj hsj fun hm => hjT (mem_cons_of_mem i hm)
  · intro j hj
    by_cases hji : j = i
    · rw [hji, hmem, hself]
      exact ⟨h8, hi, hs, hnew, hnewu⟩
    · rw [hmem, hword j hji]
      refine h.tables j ?_
      simpa [hji] using hj
  · intro p hp
    exact mem_cons_of_mem i (h.index p hp)
  · intro p hp
    rw [hmem, hentry p (h.index p hp)]
    exact h.slot p hp
  · intro p hp hpR
    rw [hmem]
    by_cases hpi : p / 1024 = i
    · unfold entryOf
      rw [hpi, hself, hframe, Frames.word_congr (hother t htpd)]
      exact hzero _ (Nat.mod_lt _ (by decide))
    · have hpT : p / 1024 ∈ T := by simpa [hpi] using hp
      rw [hentry p hpT]
      exact h.empty p hpT hpR
  · intro p hp
    unfold pageBytes
    rw [hmem]
    exact hkeep p hp
  · rw [hmem]
    exact hother

theorem Building.addPage (h : Building k σ₀ σ pd (q :: E) T R D) (hb : Booted k σ₀)
    (hT : p / 1024 ∈ T) (hR : p ∉ R) {low : Nat} (hlow : low < 4096) (hpres : present low = true)
    (huser : user low = true) (hσ' : σ' = σ.setWord (frame (σ.mem.word pd (p / 1024))) (p % 1024)
      (entry (q * 4096) low)) :
    Building k σ₀ σ' pd E T (p :: R) (q :: D) ∧
      (∀ p' ∈ R, pageBytes σ' pd p' = pageBytes σ pd p') ∧ pageBytes σ' pd p = σ.mem q ∧
      frame (entryOf σ'.mem pd p) = q := by
  have hnd := h.grown.drawn.nodup
  have hq : q ∈ (q :: E) ++ pd :: D := by simp
  have hqD : q ∉ D := fun hD =>
    disjoint_of_nodup_append hnd mem_cons_self (mem_cons_of_mem pd hD)
  have hpdD : pd ∉ D := h.pd_not_mem
  obtain ⟨h8, hi, hs, hpt, -⟩ := h.tables _ hT
  have hj : p % 1024 < 1024 := Nat.mod_lt _ (by decide)
  obtain ⟨tb, htb⟩ : ∃ tb, tb = frame (σ.mem.word pd (p / 1024)) := ⟨_, rfl⟩
  have htbD : tb ∈ D := htb ▸ h.table_mem hb hT
  have htbpd : tb ≠ pd := fun heq => hpdD (heq ▸ htbD)
  have htbq : tb ≠ q := fun heq => hqD (heq ▸ htbD)
  have hlt := h.grown.lt hb hq
  have hframe : frame (entry (q * 4096) low) = q := by
    rw [frame_entry hlow]
    omega
  have hv : entry (q * 4096) low < 2 ^ 32 := entry_lt hlow (by omega)
  have hflags : flagsOf (entry (q * 4096) low) = low := flagsOf_entry hlow
  have hnewu : user (entry (q * 4096) low) = true := by
    rw [user_eq, hflags, huser]
  have hnew : k.ram (entry (q * 4096) low) = true := by
    have hp : present (entry (q * 4096) low) = true := by
      rw [present_eq, hflags, ← hpres, present_eq]
      unfold flagsOf
      rw [Nat.mod_eq_of_lt hlow]
    unfold Globals.ram
    rw [hframe, hb.fb q (h.grown.isFree hq), hp]
    rfl
  have hmem : σ'.mem = σ.mem.setWord tb (p % 1024) (entry (q * 4096) low) := by
    rw [hσ', htb]
    rfl
  have hother : ∀ f, f ≠ tb → σ'.mem f = σ.mem f := by
    intro f hf
    rw [hmem]
    exact Frames.setWord_of_ne hf
  have hpdw : ∀ i, σ'.mem.word pd i = σ.mem.word pd i :=
    fun i => Frames.word_congr (hother pd htbpd.symm) i
  have hgw : ∀ i, σ'.mem.word k.gPd i = σ.mem.word k.gPd i := by
    intro i
    refine Frames.word_congr (hother _ ?_) i
    exact (h.grown.ne_of_used (by simp [htbD]) hb.gPd).symm
  have hold : entryOf σ.mem pd p = 0 := h.empty p hT hR
  have hself : entryOf σ'.mem pd p = entry (q * 4096) low := by
    unfold entryOf
    rw [hpdw, ← htb, hmem]
    exact Frames.word_setWord_self hv
  have hentry : ∀ p', p' / 1024 ∈ T → p' ≠ p → entryOf σ'.mem pd p' = entryOf σ.mem pd p' := by
    intro p' hp' hne
    rw [hmem, htb]
    exact h.entry_setPage hb hT hp' hne
  have hkeep : ∀ p' ∈ R, pageBytes σ' pd p' = pageBytes σ pd p' := by
    intro p' hp'
    have hne : p' ≠ p := fun heq => hR (heq ▸ hp')
    unfold pageBytes
    rw [hentry p' (h.index p' hp') hne]
    refine hother _ ?_
    rw [htb]
    exact h.page_ne_table hb hp' hT
  have hdir : (dirFrames k σ'.mem pd).Perm (q :: dirFrames k σ.mem pd) := by
    rw [← singleton_append]
    refine flatMap_perm nodup_range' (mem_userEntries.2 ⟨h8, hi⟩) ?_ ?_
    · have hm := h.not_mirrored hb hT
      have hm' : mirrored k σ'.mem pd (p / 1024) = false := by
        unfold mirrored at hm ⊢
        rw [hpdw, hgw]
        exact hm
      rw [entryFrames_of_own hpt hm, entryFrames_of_own (by rw [hpdw]; exact hpt) hm', hpdw, ← htb,
        hmem]
      have hslot := @tableFrames_setWord k tb (p % 1024) (entry (q * 4096) low) σ.mem hj (by
        unfold entryOf at hold
        rw [← htb] at hold
        rw [hold]
        rfl) hv hnew
      rw [hframe] at hslot
      rw [singleton_append]
      exact hslot.append_right [tb]
    · intro i' hi' hne
      have hi' := mem_userEntries.1 hi'
      refine (entryFrames_congr (hpdw i').symm (hgw i').symm ?_).symm
      intro hp' hm'
      refine (hother _ ?_).symm
      intro heq
      rw [htb] at heq
      exact hne (h.tables_inj hb (h.own hb hi'.1 hi'.2 hp' hm') hT heq)
  refine ⟨⟨?_, ?_, ?_, ?_, ?_, ?_, ?_, ?_⟩, hkeep, ?_, hself ▸ hframe⟩
  · rw [hσ']
    refine (h.grown.setWord (f := frame (σ.mem.word pd (p / 1024))) ?_).perm ?_
    · rw [← htb]
      simp [htbD]
    · have hswap : (q :: pd :: D).Perm (pd :: q :: D) := List.Perm.swap ..
      exact perm_middle.symm.trans (hswap.append_left E)
  · exact (List.Perm.cons q h.frames).trans hdir.symm
  · intro i' hi8 hi' hsi
    rw [hpdw]
    exact h.kernel i' hi8 hi' hsi
  · intro i' hi8 hi' hsi hiT
    rw [hpdw]
    exact h.absent i' hi8 hi' hsi hiT
  · intro i' hi'
    rw [hpdw]
    exact h.tables i' hi'
  · intro p' hp'
    cases mem_cons.1 hp' with
    | inl heq => exact heq ▸ hT
    | inr hp' => exact h.index p' hp'
  · intro p' hp'
    by_cases hne : p' = p
    · rw [hne, hself]
      exact ⟨hnew, hnewu⟩
    · have hp' : p' ∈ R := by simpa [hne] using hp'
      rw [hentry p' (h.index p' hp') hne]
      exact h.slot p' hp'
  · intro p' hp' hpR
    have hne : p' ≠ p := fun heq => hpR (heq ▸ mem_cons_self)
    rw [hentry p' hp' hne]
    exact h.empty p' hp' fun hm => hpR (mem_cons_of_mem p hm)
  · unfold pageBytes
    rw [hself, hframe]
    exact hother q htbq.symm

theorem Building.fill (h : Building k σ₀ σ pd E T R D) (hb : Booted k σ₀) (hp : p ∈ R)
    (x : Nat → UInt8)
    (hσ' : σ' = { σ with mem := Function.update σ.mem (frame (entryOf σ.mem pd p)) x }) :
    Building k σ₀ σ' pd E T R D ∧ pageBytes σ' pd p = x ∧
      ∀ p' ∈ R, p' ≠ p → pageBytes σ' pd p' = pageBytes σ pd p' := by
  obtain ⟨f, hf⟩ : ∃ f, f = frame (entryOf σ.mem pd p) := ⟨_, rfl⟩
  have hfD : f ∈ D := hf ▸ h.page_mem hb hp
  have hpdD : pd ∉ D := h.pd_not_mem
  have hfpd : f ≠ pd := fun heq => hpdD (heq ▸ hfD)
  have hmem : σ'.mem = Function.update σ.mem f x := by
    rw [hσ', hf]
  have hother : ∀ g, g ≠ f → σ'.mem g = σ.mem g := by
    intro g hg
    rw [hmem]
    exact Function.update_of_ne hg x σ.mem
  have hpdw : ∀ i, σ'.mem.word pd i = σ.mem.word pd i :=
    fun i => Frames.word_congr (hother pd hfpd.symm) i
  have hgw : ∀ i, σ'.mem.word k.gPd i = σ.mem.word k.gPd i := by
    intro i
    refine Frames.word_congr (hother _ ?_) i
    exact (h.grown.ne_of_used (by simp [hfD]) hb.gPd).symm
  have htable : ∀ i ∈ T, σ'.mem (frame (σ.mem.word pd i)) = σ.mem (frame (σ.mem.word pd i)) := by
    intro i hi
    refine hother _ ?_
    rw [hf]
    exact (h.page_ne_table hb hp hi).symm
  have hentry : ∀ p', p' / 1024 ∈ T → entryOf σ'.mem pd p' = entryOf σ.mem pd p' := by
    intro p' hp'
    rw [hmem]
    exact h.entry_update hb hp hf hp' x
  have hdir : dirFrames k σ.mem pd = dirFrames k σ'.mem pd := by
    refine flatMap_congr ?_
    intro i hi
    have hi := mem_userEntries.1 hi
    refine entryFrames_congr (hpdw i).symm (hgw i).symm ?_
    intro hpi hm
    exact (htable i (h.own hb hi.1 hi.2 hpi hm)).symm
  refine ⟨⟨?_, hdir ▸ h.frames, ?_, ?_, ?_, h.index, ?_, ?_⟩, ?_, ?_⟩
  · rw [hσ', ← hf]
    exact h.grown.update (by simp [hfD]) x
  · intro i h8 hi hs
    rw [hpdw]
    exact h.kernel i h8 hi hs
  · intro i h8 hi hs hT
    rw [hpdw]
    exact h.absent i h8 hi hs hT
  · intro i hi
    rw [hpdw]
    exact h.tables i hi
  · intro p' hp'
    rw [hentry p' (h.index p' hp')]
    exact h.slot p' hp'
  · intro p' hp' hR
    rw [hentry p' hp']
    exact h.empty p' hp' hR
  · unfold pageBytes
    rw [hentry p (h.index p hp), ← hf, hmem]
    exact Function.update_self f x σ.mem
  · intro p' hp' hne
    unfold pageBytes
    rw [hentry p' (h.index p' hp')]
    refine hother _ ?_
    intro heq
    rw [hf] at heq
    exact hne (h.pages_inj hb hp' hp heq)

/-! ## `paging_map_in` -/

theorem or_pteUser {w : Nat} (h : user w = true) : w ||| pteUser = w := by
  refine Nat.eq_of_testBit_eq fun i => ?_
  rw [Nat.testBit_or]
  by_cases hi : i = 2
  · unfold user at h
    rw [hi, h]
    rfl
  · have hbit : pteUser.testBit i = false := by
      rw [show pteUser = 2 ^ 2 by rfl, Nat.testBit_two_pow]
      simpa using fun h : 2 = i => hi h.symm
    rw [hbit, Bool.or_false]

/-- The flags of user pages: `PTE_USER`, perhaps with `PTE_WRITABLE`. -/
def UserFlags (flags : Nat) : Prop := flags = pteUser ∨ flags = pteUser ||| pteWritable

theorem UserFlags.bits (h : UserFlags flags) :
    user flags = true ∧ flags &&& pteUser = pteUser ∧
      present ((flags &&& 0xFFF) ||| ptePresent) = true ∧
      user ((flags &&& 0xFFF) ||| ptePresent) = true ∧ (flags &&& 0xFFF) ||| ptePresent < 4096 := by
  cases h with
  | inl h => rw [h]; decide
  | inr h => rw [h]; decide

theorem index_page (hp : p / 1024 < 1024) :
    pdIndex (p * 4096) = p / 1024 ∧ ptIndex (p * 4096) = p % 1024 := by
  unfold pdIndex ptIndex
  omega

theorem Building.ensureTable_spec (h : Building k σ₀ σ pd E T R D) (hb : Booted k σ₀)
    (h8 : 8 ≤ i) (hi : i < 1024) (hs : shared k σ₀ i = false)
    (hflags : UserFlags flags) :
    ((ensureTable σ pd i flags).2 = false →
      (ensureTable σ pd i flags).1 = σ ∧ i ∉ T ∧ freeCount σ.pages = 0) ∧
    ((ensureTable σ pd i flags).2 = true →
      ∃ T' D', Building k σ₀ (ensureTable σ pd i flags).1 pd E T' R D' ∧
        (∀ j, j ∈ T' ↔ j = i ∨ j ∈ T) ∧
        (∀ p ∈ R, pageBytes (ensureTable σ pd i flags).1 pd p = pageBytes σ pd p) ∧
        (∀ f ∈ E, (ensureTable σ pd i flags).1.mem f = σ.mem f) ∧
        freeCount (ensureTable σ pd i flags).1.pages + (if i ∈ T then 0 else 1) =
          freeCount σ.pages) := by
  obtain ⟨huser, hmask, -, -, -⟩ := hflags.bits
  unfold ensureTable
  by_cases hT : i ∈ T
  · obtain ⟨-, -, -, hp, hu⟩ := h.tables i hT
    have hsame : σ.setWord pd i (σ.mem.word pd i ||| pteUser) = σ := by
      rw [or_pteUser hu]
      unfold Machine.setWord
      rw [Frames.setWord_word]
    rw [if_neg (by simp [hp]), if_pos huser, hsame]
    refine ⟨fun hf => absurd hf (by simp), fun _ => ⟨T, D, h, fun j => ?_, fun _ _ => rfl,
      fun _ _ => rfl, by rw [if_pos hT]; rfl⟩⟩
    constructor
    · exact .inr
    · intro hj
      cases hj with
      | inl hj => exact hj ▸ hT
      | inr hj => exact hj
  · have hzero : σ.mem.word pd i = 0 := h.absent i h8 hi hs hT
    rw [hzero, if_pos present_zero]
    cases halloc : σ.alloc.2 with
    | none =>
      obtain ⟨hsame, hcount⟩ := alloc_none halloc
      exact ⟨fun _ => ⟨hsame, hT, hcount⟩, fun hf => absurd hf (by simp)⟩
    | some t =>
      obtain ⟨h1, hk1⟩ := h.alloc hb halloc
      obtain ⟨h2, hk2⟩ := h1.update hb mem_cons_self (f := t) fun _ => 0
      have hnd := h1.grown.drawn.nodup
      have hpdE : ∀ f ∈ E, f ≠ pd := by
        intro f hf heq
        refine disjoint_of_nodup_append h.grown.drawn.nodup hf ?_
        rw [heq]
        exact mem_cons_self
      have htE : ∀ f ∈ E, f ≠ t := by
        intro f hf heq
        exact (nodup_cons.1 hnd).1 (mem_append_left _ (heq ▸ hf))
      have hlow : ptePresent ||| pteWritable ||| (flags &&& pteUser) = 7 := by
        rw [hmask]
        rfl
      obtain ⟨h3, hk3, hm3⟩ := h2.addTable hb
        (fun j _ => Frames.word_zero_self) h8 hi hs hT (show 7 < 4096 by decide) rfl rfl
      refine ⟨fun hf => absurd hf (by simp), fun _ => ⟨i :: T, t :: D, ?_, ?_, ?_, ?_, ?_⟩⟩
      · rw [hlow]
        exact h3
      · intro j
        exact mem_cons
      · intro p hp
        rw [hlow]
        exact (hk3 p hp).trans ((hk2 p hp).trans (hk1 p hp))
      · intro f hf
        rw [hlow]
        exact (hm3 f (hpdE f hf)).trans (Frames.zero_of_ne (htE f hf))
      · have hcount := h.grown.drawn.freeCount_add
        have hcount1 := h1.grown.drawn.freeCount_add
        rw [cons_append, length_cons] at hcount1
        rw [if_neg hT]
        change freeCount σ.alloc.1.pages + 1 = freeCount σ.pages
        omega

theorem Building.ensureTable_entry (h : Building k σ₀ σ pd E T R D) (hb : Booted k σ₀)
    (h8 : 8 ≤ i) (hi : i < 1024) (hs : shared k σ₀ i = false)
    (hflags : UserFlags flags) (hp : p / 1024 ∈ T) :
    entryOf (ensureTable σ pd i flags).1.mem pd p = entryOf σ.mem pd p := by
  unfold ensureTable
  by_cases hT : i ∈ T
  · obtain ⟨-, -, -, hpres, hu⟩ := h.tables i hT
    rw [if_neg (by simp [hpres]), if_pos hflags.bits.1]
    change entryOf (σ.mem.setWord pd i (σ.mem.word pd i ||| pteUser)) pd p = _
    rw [or_pteUser hu, Frames.setWord_word]
  · rw [h.absent i h8 hi hs hT, if_pos present_zero]
    cases halloc : σ.alloc.2 with
    | none => rfl
    | some t =>
      obtain ⟨h1, -⟩ := h.alloc hb halloc
      obtain ⟨h2, -⟩ := h1.update hb mem_cons_self (f := t) fun _ => 0
      refine (h2.entry_setTable hb hT hp).trans (h.entry_congr hb (fun f hf => ?_) hp)
      refine Frames.zero_of_ne ?_
      intro heq
      exact h.grown.alloc_not_mem halloc (heq ▸ mem_append_right E hf)

section
variable (h : Building k σ₀ σ pd (q :: E) T R D) (hb : Booted k σ₀) (h8 : 8 ≤ p / 1024)
  (hi : p / 1024 < 1024) (hs : shared k σ₀ (p / 1024) = false) (hR : p ∉ R)
  (hflags : UserFlags flags)
include h hb h8 hi hs hR hflags

theorem Building.map_spec {r : Machine × Bool}
    (hr : r = pagingMapIn σ pd (p * 4096) (q * 4096) flags) :
    (r.2 = false → r.1 = σ ∧ p / 1024 ∉ T ∧ freeCount σ.pages = 0) ∧
    (r.2 = true → ∃ T' D', Building k σ₀ r.1 pd E T' (p :: R) D' ∧
        (∀ j, j ∈ T' ↔ j = p / 1024 ∨ j ∈ T) ∧
        (∀ p' ∈ R, pageBytes r.1 pd p' = pageBytes σ pd p') ∧
        pageBytes r.1 pd p = σ.mem q ∧ frame (entryOf r.1.mem pd p) = q ∧
        freeCount r.1.pages + (if p / 1024 ∈ T then 0 else 1) = freeCount σ.pages) := by
  obtain ⟨hfail, hok⟩ := h.ensureTable_spec hb h8 hi hs hflags
  obtain ⟨hpd, hpt⟩ := index_page hi
  obtain ⟨-, -, hpres, huser, hlow⟩ := hflags.bits
  unfold pagingMapIn doMapPd at hr
  rw [hpd, hpt] at hr
  dsimp only at hr
  cases hres : (ensureTable σ pd (p / 1024) flags).2 with
  | false =>
    rw [hres, if_neg (by simp)] at hr
    rw [hr]
    exact ⟨fun _ => hfail hres, fun hf => absurd hf (by simp)⟩
  | true =>
    obtain ⟨T', D', h', hT', hkept, hE, hcount⟩ := hok hres
    rw [hres, if_pos rfl] at hr
    rw [hr]
    refine ⟨fun hf => absurd hf (by simp), fun _ => ?_⟩
    obtain ⟨h1, hk1, hq1, hf1⟩ := h'.addPage hb ((hT' _).2 (.inl rfl)) hR hlow hpres huser rfl
    refine ⟨T', q :: D', h1, hT', fun p' hp' => (hk1 p' hp').trans (hkept p' hp'), ?_, hf1, hcount⟩
    rw [hq1, hE q mem_cons_self]

theorem Building.map_entry {r : Machine × Bool}
    (hr : r = pagingMapIn σ pd (p * 4096) (q * 4096) flags) (hok : r.2 = true) {p' : Nat}
    (hp' : p' ∈ R) : entryOf r.1.mem pd p' = entryOf σ.mem pd p' := by
  obtain ⟨-, hok'⟩ := h.ensureTable_spec hb h8 hi hs hflags
  obtain ⟨hpd, hpt⟩ := index_page hi
  unfold pagingMapIn doMapPd at hr
  rw [hpd, hpt] at hr
  dsimp only at hr
  cases hres : (ensureTable σ pd (p / 1024) flags).2 with
  | false =>
    rw [hres, if_neg (by simp)] at hr
    rw [hr] at hok
    cases hok
  | true =>
    obtain ⟨T', D', h', hT', -⟩ := hok' hres
    rw [hres, if_pos rfl] at hr
    rw [hr]
    have hin := h.index p' hp'
    have hne : p' ≠ p := fun heq => hR (heq ▸ hp')
    refine (h'.entry_setPage hb ((hT' _).2 (.inl rfl)) ((hT' _).2 (.inr hin)) hne).trans ?_
    exact h.ensureTable_entry hb h8 hi hs hflags hin

end
end Steps

end AdventOS.Kernel.Paging
