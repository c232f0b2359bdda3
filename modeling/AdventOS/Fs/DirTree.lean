import AdventOS.Fs.AllocationMap
import Mathlib

/-!
# The directory tree

The parent pointers of the entry table along every run of creates, mkdirs, unlinks and
rmdirs on an instance, up to and including a full table. A parent is a slot number in
eight bits; 0xFF is the root, also when slot 255 is in use.

* `directory_tree_sound`.
* `stale_cwd_makes_cycle`: `fs_rmdir` does not look at current directories; a name created
  in a removed one can take the directory's own slot and become its own parent.
-/
namespace AdventOS.Fs
open Function List

/-! ## Path lemmas -/

theorem walk_component (sup : FsSuper) (parent : UInt8) (last : Option Nat) (path : CStr) :
    ∀ comp, slash ∉ path → comp ++ path ≠ [] →
      walk sup parent last comp path = findInDirInst sup parent (comp ++ path) := by
  induction path with
  | nil =>
    intro comp _ hne
    unfold walk
    rw [if_neg (by simpa using hne), append_nil]
  | cons c path ih =>
    intro comp hs _
    have hc : c ≠ slash := fun h => hs (h ▸ mem_cons_self)
    unfold walk
    rw [if_neg hc, ih _ (fun h => hs (mem_cons_of_mem _ h)) (by simp), append_assoc,
      singleton_append]

variable {sup sup' : FsSuper} {base : CStr} {inst : FsInstance} {fromRoot isRoot : Bool}
   {t : Task} {p : UInt8} {i r : Nat} {e : FsEntry}

theorem walk_below {q : Nat} (hq : (sup.files q).type = .dir)
    (path : CStr) : ∀ (parent : UInt8) (last : Option Nat) (comp : CStr),
      (∀ j, last = some j → parent = UInt8.ofNat j) →
      walk sup parent last comp path = some q →
      walk sup parent last comp (path ++ slash :: base) =
        walk sup (UInt8.ofNat q) (some q) [] base := by
  generalize hr : walk sup (UInt8.ofNat q) (some q) [] base = r
  induction path with
  | nil =>
    intro parent last comp hl h
    rw [nil_append]
    unfold walk at h
    by_cases hc : comp = []
    · subst hc
      simp only [if_true] at h
      rw [walk_slash, hl q h, h, hr]
    · rw [if_neg hc] at h
      unfold walk
      simp [hc, h, hq, hr]
  | cons c path ih =>
    intro parent last comp hl h
    rw [cons_append]
    unfold walk at h ⊢
    by_cases hc : c = slash
    · simp only [hc, if_true] at h ⊢
      by_cases hcomp : comp = []
      · simp only [hcomp, if_true] at h ⊢
        exact ih _ _ _ hl h
      · simp only [hcomp, if_false] at h ⊢
        cases hf : findInDirInst sup parent comp with
        | none => simp [hf] at h
        | some found =>
          simp only [hf] at h ⊢
          split at h
          · rename_i hd
            rw [if_pos hd]
            exact ih _ _ _ (fun j hj => by cases hj; rfl) h
          · cases h
    · simp only [hc, if_false] at h ⊢
      exact ih _ _ _ hl h

theorem split_last {path : CStr} (h : slash ∈ path) :
    path = path.take (path.length - (baseName path).length - 1) ++ slash :: baseName path := by
  unfold baseName
  have hsplit := takeWhile_append_dropWhile (p := fun c => c != slash) (l := path.reverse)
  obtain ⟨rest, hrest⟩ : ∃ rest, path.reverse.dropWhile (· != slash) = slash :: rest := by
    cases hd : path.reverse.dropWhile (· != slash) with
    | nil =>
      rw [hd, append_nil] at hsplit
      have hm : slash ∈ path.reverse.takeWhile (· != slash) := by
        rw [hsplit]
        exact mem_reverse.mpr h
      have := mem_takeWhile_imp hm
      simp at this
    | cons c rest =>
      have := head_dropWhile_not (· != slash) (l := path.reverse) (by simp [hd])
      simp only [hd, head_cons, bne_eq_false_iff_eq] at this
      exact ⟨rest, by rw [this]⟩
  rw [hrest] at hsplit
  have hpath : path = rest.reverse ++ slash :: (path.reverse.takeWhile (· != slash)).reverse := by
    have := congrArg List.reverse hsplit
    simpa using this.symm
  have hlen : path.length - (path.reverse.takeWhile (· != slash)).reverse.length - 1 =
      rest.reverse.length := by
    have := congrArg List.length hpath
    simp only [length_append, length_cons] at this
    omega
  have htake : path.take rest.reverse.length = rest.reverse := by
    conv_lhs => rw [hpath]
    exact take_left
  rw [hlen, htake]
  exact hpath

theorem baseName_no_slash (path : CStr) : slash ∉ baseName path := by
  intro h
  have := mem_takeWhile_imp (mem_reverse.mp h)
  simp at this

theorem baseName_of_no_slash {path : CStr} (h : slash ∉ path) : baseName path = path := by
  unfold baseName
  have hall : path.reverse.takeWhile (· != slash) = path.reverse := by
    rw [takeWhile_eq_self_iff]
    intro c hc
    have : c ≠ slash := fun he => h (he ▸ mem_reverse.mp hc)
    simpa using this
  rw [hall, reverse_reverse]

theorem mem_of_mem_baseName {path : CStr} {c : UInt8} (h : c ∈ baseName path) : c ∈ path :=
  mem_reverse.mp ((takeWhile_sublist _).subset (mem_reverse.mp h))

/-- Where `split_path_inst` puts a new entry: into the directory a lone name is relative to,
into the root, or into the directory the path before the last `/` names. -/
theorem splitPathInst_cases {path : CStr}
    (h : splitPathInst inst isRoot t path fromRoot = some (p, base)) :
    base = baseName path ∧ base ≠ [] ∧ base.length ≤ fsNameMax ∧
    ((slash ∉ path ∧ p = if fromRoot || !isRoot then fsDirRoot else t.cwdDir) ∨
     (slash ∈ path ∧ path.length - (baseName path).length - 1 = 0 ∧ p = fsDirRoot) ∨
     (slash ∈ path ∧ path.length - (baseName path).length - 1 ≠ 0 ∧
      ∃ q, fsIopenInst inst t (path.take (path.length - (baseName path).length - 1)) fromRoot =
        some q ∧ (inst.super.files q).type = .dir ∧ p = UInt8.ofNat q)) := by
  unfold splitPathInst at h
  simp only at h
  split at h
  · cases h
  · rename_i p' hp
    split at h
    · cases h
    · rename_i hb
      obtain ⟨rfl, rfl⟩ := h
      simp only [Bool.or_eq_true, decide_eq_true_eq, not_or] at hb
      refine ⟨rfl, fun h0 => hb.1 (by rw [h0]; rfl), by omega, ?_⟩
      split at hp
      · rename_i hs
        refine .inl ⟨hs, ?_⟩
        split at hp
        · rename_i hc
          cases hp
          rw [if_pos hc]
        · rename_i hc
          cases hp
          rw [if_neg hc]
      · rename_i hs
        have hs' : slash ∈ path := by simpa using hs
        split at hp
        · rename_i hn
          cases hp
          exact .inr (.inl ⟨hs', hn, rfl⟩)
        · rename_i hn
          split at hp
          · cases hp
          · split at hp
            · cases hp
            · rename_i q hq
              split at hp
              · rename_i hd
                cases hp
                exact .inr (.inr ⟨hs', hn, q, hq, hd, rfl⟩)
              · cases hp

/-- The base name is looked up where `split_path_inst` would create it: a path that does not
resolve names nothing there. -/
theorem splitPathInst_absent {path : CStr}
    (hinit : inst.initialized = true)
    (hvia : isRoot = true ∨ fromRoot = true)
    (h : splitPathInst inst isRoot t path fromRoot = some (p, base))
    (hopen : fsIopenInst inst t path fromRoot = none) : findInDirInst inst.super p base = none := by
  obtain ⟨rfl, hne, -, hcases⟩ := splitPathInst_cases h
  rcases hcases with ⟨hs, hp⟩ | ⟨hs, hn, rfl⟩ | ⟨hs, hn, q, hq, hd, rfl⟩
  · -- a lone name
    rw [baseName_of_no_slash hs] at hne ⊢
    have hw : ∀ parent, walk inst.super parent none [] path = findInDirInst inst.super parent path := by
      intro parent
      exact walk_component inst.super parent none path [] hs (by simpa using hne)
    cases path with
    | nil => exact absurd rfl hne
    | cons c rest =>
      have hc : c ≠ slash := fun he => hs (he ▸ mem_cons_self)
      simp only [fsIopenInst, hinit, Bool.not_true, Bool.false_eq_true, if_false, hc] at hopen
      cases fromRoot with
      | true =>
        simp only [if_true, hw] at hopen
        rw [hp]
        simpa using hopen
      | false =>
        obtain rfl : isRoot = true := by simpa using hvia
        simp only [Bool.false_eq_true, if_false, hw] at hopen
        rw [hp]
        simpa using hopen
  · -- `/name`
    have hsp := split_last hs
    rw [hn, take_zero, nil_append] at hsp
    rw [hsp, fsIopenInst_abs hinit] at hopen
    rw [walk_component _ _ _ _ [] (baseName_no_slash path) (by simpa using hne)] at hopen
    simpa using hopen
  · -- `dir/name`
    have hsp := split_last hs
    have hw := walk_component inst.super (UInt8.ofNat q) (some q) (baseName path) []
      (baseName_no_slash path) (by simpa using hne)
    rw [nil_append] at hw
    rw [← hw]
    rw [hsp] at hopen
    generalize hdir : path.take (path.length - (baseName path).length - 1) = dir at hq hopen
    have hbelow : ∀ parent rest, walk inst.super parent none [] rest = some q →
        walk inst.super parent none [] (rest ++ slash :: baseName path) =
          walk inst.super (UInt8.ofNat q) (some q) [] (baseName path) :=
      fun parent rest => walk_below hd rest parent none [] (by intro j hj; cases hj)
    cases dir with
    | nil => simp [fsIopenInst] at hq
    | cons c rest =>
      rw [cons_append] at hopen
      simp only [fsIopenInst, hinit, Bool.not_true, Bool.false_eq_true, if_false] at hq hopen
      split at hq
      · rename_i hc
        rw [if_pos hc, hbelow _ _ hq] at hopen
        exact hopen
      · rename_i hc
        rw [if_neg hc] at hopen
        split at hq
        · rename_i hr
          rw [if_pos hr, ← cons_append, hbelow _ _ hq] at hopen
          exact hopen
        · rename_i hr
          rw [if_neg hr, ← cons_append, hbelow _ _ hq] at hopen
          exact hopen

/-! ## The tree -/

/-- `p` is the root marker or the slot of a live directory. -/
def FsSuper.IsDir (sup : FsSuper) (p : UInt8) : Prop :=
  p = fsDirRoot ∨ (sup.Live p.toNat ∧ (sup.files p.toNat).type = .dir)

def FsSuper.ChildOf (sup : FsSuper) (i j : Nat) : Prop :=
  sup.Live i ∧ (sup.files i).parentDir ≠ fsDirRoot ∧ (sup.files i).parentDir.toNat = j

structure Tree (sup : FsSuper) : Prop where
  unique : ∀ i j, sup.Live i → sup.Live j → (sup.files i).parentDir = (sup.files j).parentDir →
    (sup.files i).name = (sup.files j).name → i = j
  parent : ∀ i, sup.Live i → sup.IsDir (sup.files i).parentDir
  ranked : ∃ rank : Nat → Nat, ∀ i j, sup.ChildOf i j → rank j < rank i

theorem Tree.acyclic (h : Tree sup) (i : Nat) :
    ¬ Relation.TransGen sup.ChildOf i i := by
  obtain ⟨rank, hr⟩ := h.ranked
  have hlt : ∀ j, Relation.TransGen sup.ChildOf i j → rank j < rank i := by
    intro j hj
    induction hj with
    | single h1 => exact hr _ _ h1
    | tail _ h1 ih => exact Nat.lt_trans (hr _ _ h1) ih
  intro hc
  exact Nat.lt_irrefl _ (hlt i hc)

theorem FsSuper.Adds.live_iff (h : sup.Adds i e sup')
    (he : e.type ≠ .free) (j : Nat) : sup'.Live j ↔ sup.Live j ∨ j = i := by
  unfold FsSuper.Live
  rw [h.count, h.files]
  by_cases hj : j = i
  · subst hj
    simp [he]
  · simp [hj]

theorem Tree.added (h : Tree sup)
    (ha : sup.Adds i e sup') (he : e.type ≠ .free) (hdir : sup.IsDir e.parentDir)
    (hname : ∀ j, sup.Live j → (sup.files j).parentDir = e.parentDir → (sup.files j).name ≠ e.name) :
    Tree sup' := by
  have hne : ∀ j, sup.Live j → j ≠ i := by
    rintro j hj rfl
    exact ha.fresh hj
  have hold : ∀ j, sup.Live j → sup'.files j = sup.files j := by
    intro j hj
    rw [ha.files, update_of_ne (hne j hj)]
  have hnew : sup'.files i = e := by rw [ha.files, update_self]
  have hdir' : ∀ p, sup.IsDir p → sup'.IsDir p := by
    rintro p (hp | ⟨hl, ht⟩)
    · exact .inl hp
    · exact .inr ⟨(ha.live_iff he _).mpr (.inl hl), by rw [hold _ hl]; exact ht⟩
  refine ⟨?_, ?_, ?_⟩
  · intro j k hj hk hp hn
    rcases (ha.live_iff he j).mp hj with hj | rfl <;> rcases (ha.live_iff he k).mp hk with hk | rfl
    · rw [hold j hj, hold k hk] at hp hn
      exact h.unique j k hj hk hp hn
    · rw [hold j hj, hnew] at hp hn
      exact absurd hn (hname j hj hp)
    · rw [hold k hk, hnew] at hp hn
      exact absurd hn.symm (hname k hk hp.symm)
    · rfl
  · intro j hj
    rcases (ha.live_iff he j).mp hj with hj | rfl
    · rw [hold j hj]
      exact hdir' _ (h.parent j hj)
    · rw [hnew]
      exact hdir' _ hdir
  · -- the new entry ranks above its directory, and nothing lies in it yet
    obtain ⟨rank, hr⟩ := h.ranked
    refine ⟨update rank i (rank e.parentDir.toNat + 1), ?_⟩
    rintro j k ⟨hj, hp, rfl⟩
    rcases (ha.live_iff he j).mp hj with hj | rfl
    · rw [hold j hj] at hp ⊢
      have hk : (sup.files j).parentDir.toNat ≠ i := by
        rcases h.parent j hj with hroot | ⟨hl, -⟩
        · exact absurd hroot hp
        · exact hne _ hl
      rw [update_of_ne hk, update_of_ne (hne j hj)]
      exact hr j _ ⟨hj, hp, rfl⟩
    · rw [hnew] at hp ⊢
      have hk : e.parentDir.toNat ≠ j := by
        rcases hdir with hroot | ⟨hl, -⟩
        · exact absurd hroot hp
        · exact hne _ hl
      rw [update_of_ne hk, update_self]
      exact Nat.lt_succ_self _

theorem Tree.removed (h : Tree sup)
    (hchild : ∀ j, j ≠ i → ¬ sup.ChildOf j i) : Tree (sup.setFile i zeroEntry) := by
  have hlive : ∀ j, (sup.setFile i zeroEntry).Live j → j ≠ i ∧ sup.Live j := by
    rintro j ⟨hlt, ht⟩
    by_cases hji : j = i
    · subst hji
      rw [FsSuper.setFile_same] at ht
      exact absurd rfl ht
    · rw [FsSuper.setFile_ne _ _ hji] at ht
      exact ⟨hji, hlt, ht⟩
  refine ⟨?_, ?_, ?_⟩
  · intro j k hj hk hp hn
    obtain ⟨hji, hj⟩ := hlive j hj
    obtain ⟨hki, hk⟩ := hlive k hk
    rw [FsSuper.setFile_ne _ _ hji, FsSuper.setFile_ne _ _ hki] at hp hn
    exact h.unique j k hj hk hp hn
  · intro j hj
    obtain ⟨hji, hj⟩ := hlive j hj
    rw [FsSuper.setFile_ne _ _ hji]
    rcases h.parent j hj with hroot | ⟨hl, ht⟩
    · exact .inl hroot
    · by_cases hroot : (sup.files j).parentDir = fsDirRoot
      · exact .inl hroot
      have hk : (sup.files j).parentDir.toNat ≠ i := fun hc => hchild j hji ⟨hj, hroot, hc⟩
      refine .inr ⟨⟨hl.1, ?_⟩, ?_⟩
      · rw [FsSuper.setFile_ne _ _ hk]
        exact hl.2
      · rw [FsSuper.setFile_ne _ _ hk]
        exact ht
  · obtain ⟨rank, hr⟩ := h.ranked
    refine ⟨rank, ?_⟩
    rintro j k ⟨hj, hp, rfl⟩
    obtain ⟨hji, hj⟩ := hlive j hj
    rw [FsSuper.setFile_ne _ _ hji] at hp ⊢
    exact hr j _ ⟨hj, hp, rfl⟩

/-- The two tables differ in extents and ownership at most. -/
structure SameShape (sup sup' : FsSuper) : Prop where
  count : sup'.fileCount = sup.fileCount
  type : ∀ j, (sup'.files j).type = (sup.files j).type
  parentDir : ∀ j, (sup'.files j).parentDir = (sup.files j).parentDir
  name : ∀ j, (sup'.files j).name = (sup.files j).name

theorem SameShape.refl (sup : FsSuper) : SameShape sup sup :=
  ⟨rfl, fun _ => rfl, fun _ => rfl, fun _ => rfl⟩

theorem SameShape.setExtent (sup : FsSuper) (i : Nat) (start size : UInt32) :
    SameShape sup (sup.setFile i { sup.files i with startSector := start, size := size }) := by
  refine ⟨rfl, ?_, ?_, ?_⟩ <;>
  · intro j
    by_cases hj : j = i
    · subst hj; simp
    · rw [FsSuper.setFile_ne _ _ hj]

theorem SameShape.live_iff (h : SameShape sup sup') (j : Nat) :
    sup'.Live j ↔ sup.Live j := by
  unfold FsSuper.Live
  rw [h.count, h.type]

theorem Tree.sameShape (h : Tree sup) (hs : SameShape sup sup') : Tree sup' := by
  have hchild : ∀ i j, sup'.ChildOf i j → sup.ChildOf i j := by
    rintro i j ⟨hl, hp, hj⟩
    rw [hs.parentDir] at hp hj
    exact ⟨(hs.live_iff i).mp hl, hp, hj⟩
  refine ⟨?_, ?_, ?_⟩
  · intro i j hi hj hp hn
    rw [hs.parentDir, hs.parentDir] at hp
    rw [hs.name, hs.name] at hn
    exact h.unique i j ((hs.live_iff i).mp hi) ((hs.live_iff j).mp hj) hp hn
  · intro i hi
    rw [hs.parentDir]
    rcases h.parent i ((hs.live_iff i).mp hi) with hr | ⟨hl, ht⟩
    · exact .inl hr
    · exact .inr ⟨(hs.live_iff _).mpr hl, by rw [hs.type]; exact ht⟩
  · obtain ⟨rank, hr⟩ := h.ranked
    exact ⟨rank, fun i j hc => hr i j (hchild i j hc)⟩

/-! ## Names -/

theorem nameEqSlice_padded (h : base.length ≤ fsNameMax) :
    nameEqSlice (base ++ List.replicate (fsNameMax - base.length) 0) base = true := by
  unfold nameEqSlice
  rw [take_left, getD_eq_getElem?_getD, List.getElem?_append_right (Nat.le_refl _)]
  simp only [h, decide_true, beq_self_eq_true, Bool.and_self, Bool.true_and, Nat.sub_self]
  cases hk : fsNameMax - base.length with
  | zero =>
    have : base.length = fsNameMax := by omega
    simp [this]
  | succ k => simp [replicate_succ]

theorem eq_of_nameEqSlice_padded {c : CStr} (hb : 0 ∉ base) (hc : 0 ∉ c)
    (hlen : base.length ≤ fsNameMax)
    (h : nameEqSlice (base ++ List.replicate (fsNameMax - base.length) 0) c = true) : c = base := by
  unfold nameEqSlice at h
  simp only [Bool.and_eq_true, decide_eq_true_eq, beq_iff_eq, Bool.or_eq_true] at h
  obtain ⟨⟨hcl, htake⟩, hend⟩ := h
  rcases Nat.lt_trichotomy c.length base.length with hlt | heq | hgt
  · -- the name goes on where the string ends
    rcases hend with h16 | h0
    · omega
    · rw [getD_eq_getElem?_getD, List.getElem?_append_left hlt,
        List.getElem?_eq_getElem hlt, Option.getD_some] at h0
      exact absurd (h0 ▸ getElem_mem hlt) hb
  · rw [heq, take_left] at htake
    exact htake.symm
  · -- the string goes on where the name ends
    have hz : (c)[base.length]? = some 0 := by
      rw [← htake, List.getElem?_take, if_pos hgt, List.getElem?_append_right (Nat.le_refl _),
        Nat.sub_self, List.getElem?_replicate, if_pos (by omega)]
    exact absurd (mem_of_getElem? hz) hc

/-! ## What existing paths resolve to -/

theorem findInDirInst_eq_some {name : CStr} :
    findInDirInst sup p name = some i ↔
      ((sup.files i).type ≠ .free ∧ (sup.files i).parentDir = p ∧
        nameEqSlice (sup.files i).name name = true) ∧ i < sup.fileCount ∧
      ∀ j, j < i → ¬ ((sup.files j).type ≠ .free ∧ (sup.files j).parentDir = p ∧
        nameEqSlice (sup.files j).name name = true) := by
  unfold findInDirInst
  rw [List.find?_range_eq_some]
  grind

theorem findInDirInst_stable {k : Nat} {name : CStr}
    (ha : sup.Adds i e sup')
    (hno : ¬ (e.parentDir = p ∧ nameEqSlice e.name name = true))
    (h : findInDirInst sup p name = some k) : findInDirInst sup' p name = some k := by
  have hl := findInDirInst_live h
  rw [findInDirInst_eq_some] at h ⊢
  obtain ⟨hk, hlt, hfirst⟩ := h
  have hki : k ≠ i := by
    rintro rfl
    exact ha.fresh hl
  refine ⟨?_, (ha.count k).mpr (.inl hlt), ?_⟩
  · rw [ha.files, update_of_ne hki]
    exact hk
  · intro j hj hm
    rw [ha.files, update_apply] at hm
    split at hm
    · exact hno hm.2
    · exact hfirst j hj hm

theorem walk_stable
    (ha : sup.Adds i e sup') (hname : e.name = base ++ List.replicate (fsNameMax - base.length) 0)
    (hb : 0 ∉ base) (hlen : base.length ≤ fsNameMax)
    (habs : findInDirInst sup e.parentDir base = none) (path : CStr) :
    ∀ (parent : UInt8) (last : Option Nat) (comp : CStr), 0 ∉ comp → 0 ∉ path →
      walk sup parent last comp path = some r → walk sup' parent last comp path = some r := by
  have hfind : ∀ p c k, 0 ∉ c → findInDirInst sup p c = some k → findInDirInst sup' p c = some k := by
    intro p c k hc hk
    apply findInDirInst_stable ha _ hk
    rintro ⟨rfl, hm⟩
    rw [hname] at hm
    rw [eq_of_nameEqSlice_padded hb hc hlen hm, habs] at hk
    cases hk
  induction path with
  | nil =>
    intro parent last comp hc _ h
    unfold walk at h ⊢
    split at h
    · rename_i h0
      rw [if_pos h0]
      exact h
    · rename_i h0
      rw [if_neg h0]
      exact hfind _ _ _ hc h
  | cons c path ih =>
    intro parent last comp hc hp h
    have hp' : 0 ∉ path := fun hm => hp (mem_cons_of_mem _ hm)
    unfold walk at h ⊢
    split at h
    · rename_i hs
      rw [if_pos hs]
      split at h
      · rename_i h0
        rw [if_pos h0]
        exact ih _ _ _ not_mem_nil hp' h
      · rename_i h0
        rw [if_neg h0]
        split at h
        · cases h
        · rename_i found hf
          have hne : found ≠ i := by
            rintro rfl
            exact ha.fresh (findInDirInst_live hf)
          split at h
          · rename_i hd
            rw [hfind _ _ _ hc hf]
            simp only [ha.files, update_of_ne hne, hd, if_true]
            exact ih _ _ _ not_mem_nil hp' h
          · cases h
    · rename_i hs
      rw [if_neg hs]
      refine ih _ _ _ ?_ hp' h
      intro hm
      rcases mem_append.mp hm with hm | hm
      · exact hc hm
      · exact hp (by rw [mem_singleton.mp hm]; exact mem_cons_self)

theorem SameShape.findInDirInst (h : SameShape sup sup') (p : UInt8)
    (name : CStr) : findInDirInst sup' p name = findInDirInst sup p name := by
  unfold Fs.findInDirInst
  simp only [h.count, h.type, h.parentDir, h.name]

theorem SameShape.walk (h : SameShape sup sup') (path : CStr) :
    ∀ (parent : UInt8) (last : Option Nat) (comp : CStr),
      walk sup' parent last comp path = walk sup parent last comp path := by
  induction path with
  | nil =>
    intro parent last comp
    unfold Fs.walk
    rw [h.findInDirInst]
  | cons c path ih =>
    intro parent last comp
    unfold Fs.walk
    simp only [h.findInDirInst, h.type, ih]

/-- The walk of `fs_iopen_inst` starts where the path and the caller say, whatever the
table. -/
theorem fsIopenInst_stable {inst' : FsInstance} (hinit : inst'.initialized = inst.initialized)
    {path : CStr}
    (hw : ∀ parent rest, (∀ c ∈ rest, c ∈ path) → walk inst.super parent none [] rest = some r →
      walk inst'.super parent none [] rest = some r)
    (h : fsIopenInst inst t path fromRoot = some r) : fsIopenInst inst' t path fromRoot = some r := by
  unfold fsIopenInst at h ⊢
  rw [hinit]
  split at h
  · cases h
  · rename_i hi
    rw [if_neg hi]
    cases path with
    | nil => cases h
    | cons c rest =>
      simp only at h ⊢
      split at h
      · rename_i hc
        rw [if_pos hc]
        exact hw _ _ (fun x hx => mem_cons_of_mem _ hx) h
      · rename_i hc
        rw [if_neg hc]
        split at h
        · rename_i hr
          rw [if_pos hr]
          exact hw _ _ (fun x hx => hx) h
        · rename_i hr
          rw [if_neg hr]
          exact hw _ _ (fun x hx => hx) h

/-! ## Runs -/

def Op.path : Op → CStr
  | .write _ _ path _ _ _ => path
  | .mkdir _ _ path _ => path
  | .unlink _ _ _ path => path
  | .rmdir _ _ path => path

/-- A write or a mkdir: the calls that can create a path. -/
def Op.creates : Op → Bool
  | .write .. => true
  | .mkdir .. => true
  | _ => false

/-- A mounted image whose table is a tree. -/
def Rooted (inst : FsInstance) : Prop :=
  inst.initialized = true ∧ inst.nSectors ≤ 8192 ∧ Tree inst.super

/-- Calls on an instance with C strings for paths. -/
def treeSystem (isRoot : Bool) : LTS FsInstance Op where
  init := Rooted
  step inst op inst' := 0 ∉ op.path ∧ step isRoot inst op = some inst'

/-- A lone name relative to the current directory: that directory is the root or exists. -/
def CwdExists (inst : FsInstance) : Op → Prop
  | .write _ t path _ _ fromRoot =>
    fromRoot = false → slash ∉ path → inst.super.IsDir t.cwdDir
  | .mkdir _ t path fromRoot =>
    fromRoot = false → slash ∉ path → inst.super.IsDir t.cwdDir
  | _ => True

theorem splitPathInst_isDir {path : CStr}
    (h : splitPathInst inst isRoot t path fromRoot = some (p, base))
    (hcwd : fromRoot = false → slash ∉ path → inst.super.IsDir t.cwdDir) : inst.super.IsDir p := by
  obtain ⟨-, -, -, hcases⟩ := splitPathInst_cases h
  rcases hcases with ⟨hs, rfl⟩ | ⟨-, -, rfl⟩ | ⟨-, -, q, hq, hd, rfl⟩
  · split
    · exact .inl rfl
    · rename_i hc
      exact hcwd (by simpa using (by simpa using hc : _ ∧ _).1) hs
  · exact .inl rfl
  · obtain ⟨-, hl⟩ := fsIopenInst_live hq
    have hlt : q < 256 := Nat.lt_of_lt_of_le hl.1 inst.super.count_le
    have hto : (UInt8.ofNat q).toNat = q := UInt8.toNat_ofNat_of_lt' hlt
    exact .inr (by rw [hto]; exact ⟨hl, hd⟩)

/-- A create leaves the shape of the table, or adds one entry that its directory did not
have. -/
def CreateEnds (inst : FsInstance) (isRoot : Bool) (t : Task) (path : CStr) (fromRoot : Bool)
    (sup : FsSuper) : Prop :=
  SameShape inst.super sup ∨
  ∃ base i e, splitPathInst inst isRoot t path fromRoot = some (e.parentDir, base) ∧
    findInDirInst inst.super e.parentDir base = none ∧ inst.super.Adds i e sup ∧ e.type ≠ .free ∧
    e.name = base ++ List.replicate (fsNameMax - base.length) 0

theorem write_createEnds (env : Env) (t : Task) (path : CStr)
    (data : Nat → UInt8) (size : UInt32) (hinit : inst.initialized = true)
    (hn : inst.nSectors ≤ 8192) (hvia : isRoot = true ∨ fromRoot = true) :
    CreateEnds inst isRoot t path fromRoot
      (fsIwriteAllInst env inst isRoot t path data size fromRoot).2.super ∧
    (fsIwriteAllInst env inst isRoot t path data size fromRoot).2.initialized = inst.initialized ∧
    (fsIwriteAllInst env inst isRoot t path data size fromRoot).2.nSectors = inst.nSectors := by
  have hends := fsIwriteAllInst_ends env isRoot t path data size fromRoot (Nat.le_trans hn (by decide))
  generalize fsIwriteAllInst env inst isRoot t path data size fromRoot = r at hends ⊢
  -- the lookup's table, with any extent in the entry it found
  have hfound : ∀ i sup, findOrCreateFileInst inst isRoot t path fromRoot = some (i, sup) →
      ∀ start size, CreateEnds inst isRoot t path fromRoot sup ∧
        CreateEnds inst isRoot t path fromRoot
          (sup.setFile i { sup.files i with startSector := start, size := size }) := by
    intro i sup hfc start size
    rcases findOrCreateFileInst_cases hfc with ⟨-, -, rfl⟩ | ⟨parent, base, ho, hsp, ha⟩
    · exact ⟨.inl (.refl _), .inl (.setExtent _ _ _ _)⟩
    · have habs := splitPathInst_absent hinit hvia hsp ho
      have he : sup.files i = newFile t parent base := by rw [ha.files, update_self]
      refine ⟨.inr ⟨base, i, newFile t parent base, hsp, habs, ha, by simp [newFile], rfl⟩, ?_⟩
      rw [he]
      exact .inr ⟨base, i, { newFile t parent base with startSector := start, size := size }, hsp,
        habs, ha.setFile, by simp [newFile], rfl⟩
  cases hends with
  | refused => exact ⟨.inl (.refl _), rfl, rfl⟩
  | full i sup hfc => exact ⟨(hfound i sup hfc 0 0).1, rfl, rfl⟩
  | unwritten i sup start disk hfc => exact ⟨(hfound i sup hfc 0 0).1, rfl, rfl⟩
  | written i sup start bm disk hfc => exact ⟨(hfound i sup hfc _ _).2, rfl, rfl⟩

theorem mkdir_createEnds (env : Env) (inst : FsInstance) (isRoot : Bool) (t : Task) (path : CStr)
    (fromRoot : Bool) :
    CreateEnds inst isRoot t path fromRoot (fsImkdirInst env inst isRoot t path fromRoot).2.super ∧
    (fsImkdirInst env inst isRoot t path fromRoot).2.initialized = inst.initialized ∧
    (fsImkdirInst env inst isRoot t path fromRoot).2.nSectors = inst.nSectors := by
  rcases fsImkdirInst_ends env inst isRoot t path fromRoot with he | ⟨parent, base, i, sup, disk, -, hsp, hfd, hal, he, -⟩
  · rw [he]
    exact ⟨.inl (.refl _), rfl, rfl⟩
  · rw [he]
    exact ⟨.inr ⟨base, i, _, hsp, hfd, (allocSlotInst_adds hal).setFile, by simp, rfl⟩, rfl, rfl⟩

theorem Tree.created {path : CStr}
    (h : Tree inst.super) (hc : CreateEnds inst isRoot t path fromRoot sup)
    (hcwd : fromRoot = false → slash ∉ path → inst.super.IsDir t.cwdDir) : Tree sup := by
  rcases hc with hs | ⟨base, i, e, hsp, hfd, ha, ht, hn⟩
  · exact h.sameShape hs
  · refine h.added ha ht (splitPathInst_isDir hsp hcwd) ?_
    intro j hj hp hname
    have hlen := (splitPathInst_cases hsp).2.2.1
    have hnone := List.find?_eq_none.mp hfd j (by simpa using hj.1)
    apply hnone
    rw [hp, hname, hn, nameEqSlice_padded hlen]
    simpa using hj.2

theorem resolve_created {inst' : FsInstance} {path : CStr}
    (hc : CreateEnds inst isRoot t path fromRoot inst'.super)
    (hinit : inst'.initialized = inst.initialized) (hpath : 0 ∉ path) {t' : Task} {q : CStr}
    {from' : Bool} (hq : 0 ∉ q) (h : fsIopenInst inst t' q from' = some r) :
    fsIopenInst inst' t' q from' = some r := by
  refine fsIopenInst_stable hinit ?_ h
  intro parent rest hsub hw
  rcases hc with hs | ⟨base, i, e, hsp, hfd, ha, -, hn⟩
  · rw [hs.walk]
    exact hw
  · obtain ⟨hbase, -, hlen, -⟩ := splitPathInst_cases hsp
    have hb : 0 ∉ base := by
      rw [hbase]
      exact fun hm => hpath (mem_of_mem_baseName hm)
    exact walk_stable ha hn hb hlen hfd rest parent none [] not_mem_nil
      (fun hm => hq (hsub 0 hm)) hw

theorem rooted_call {op : Op} (h : Rooted inst)
    (hvia : isRoot = true ∨ op.viaVfs = true) (hcwd : CwdExists inst op) :
    Rooted (call isRoot inst op).2 := by
  obtain ⟨hinit, hn, ht⟩ := h
  cases op with
  | write env t path data size fromRoot =>
    obtain ⟨hc, h1, h2⟩ := write_createEnds env t path data size hinit hn hvia
    exact ⟨h1.trans hinit, h2 ▸ hn, ht.created hc hcwd⟩
  | mkdir env t path fromRoot =>
    obtain ⟨hc, h1, h2⟩ := mkdir_createEnds env inst isRoot t path fromRoot
    exact ⟨h1.trans hinit, h2 ▸ hn, ht.created hc hcwd⟩
  | unlink env t refs path =>
    simp only [call]
    rcases fsUnlink_ends env inst t refs path
      with he | ⟨i, bm, disk, -, hf, he, -⟩
    · rw [he]
      exact ⟨hinit, hn, ht⟩
    · rw [he]
      refine ⟨hinit, hn, ht.removed ?_⟩
      rintro j - ⟨hj, hroot, rfl⟩
      rcases ht.parent j hj with hr | ⟨-, hd⟩
      · exact hroot hr
      · rw [hf] at hd
        cases hd
  | rmdir env t path =>
    simp only [call]
    rcases fsRmdir_ends env inst t path
      with he | ⟨i, disk, hl, -, hch, he, -⟩
    · rw [he]
      exact ⟨hinit, hn, ht⟩
    · rw [he]
      refine ⟨hinit, hn, ht.removed ?_⟩
      rintro j hji ⟨hj, -, hp⟩
      have hno := any_eq_false.mp hch j (by simpa using hj.1)
      apply hno
      have hpd : (inst.super.files j).parentDir = UInt8.ofNat i := by
        rw [← hp, UInt8.ofNat_toNat]
      simp [hji, hj.2, hpd]

theorem rooted_inductive (isRoot : Bool) :
    ((treeSystem isRoot).restrict CwdExists).Inductive Rooted where
  init _ h := h
  step inst op inst' h hs := by
    obtain ⟨hc, -, hst⟩ := hs
    unfold step at hst
    split at hst
    · rename_i hvia
      cases hst
      exact rooted_call h (by simpa using hvia) hc
    · cases hst

/-- In every run of creates, mkdirs, unlinks and rmdirs in which a lone name is
created relative to a current directory that exists: no two live entries share parent and
name, every parent is the root marker or a live directory, the parent relation has no
cycle, and a create changes no path that resolves. -/
theorem directory_tree_sound (isRoot : Bool)
    (h : ((treeSystem isRoot).restrict CwdExists).Reachable inst) :
    (∀ i j, inst.super.Live i → inst.super.Live j →
      (inst.super.files i).parentDir = (inst.super.files j).parentDir →
      (inst.super.files i).name = (inst.super.files j).name → i = j) ∧
    (∀ i, inst.super.Live i → inst.super.IsDir (inst.super.files i).parentDir) ∧
    (∀ i, ¬ Relation.TransGen inst.super.ChildOf i i) ∧
    (∀ op inst', op.creates = true → 0 ∉ op.path → step isRoot inst op = some inst' →
      ∀ t q fromRoot r, 0 ∉ q → fsIopenInst inst t q fromRoot = some r →
        fsIopenInst inst' t q fromRoot = some r) := by
  obtain ⟨hinit, hn, ht⟩ := (rooted_inductive isRoot).reachable inst h
  refine ⟨ht.unique, ht.parent, ht.acyclic, ?_⟩
  intro op inst' hcr hpath hst t q fromRoot r hq hr
  unfold step at hst
  split at hst
  · rename_i hvia
    cases hst
    have hvia' : isRoot = true ∨ op.viaVfs = true := by simpa using hvia
    cases op with
    | write env t' path data size from' =>
      obtain ⟨hc, h1, -⟩ := write_createEnds env t' path data size hinit hn hvia'
      exact resolve_created hc h1 hpath hq hr
    | mkdir env t' path from' =>
      obtain ⟨hc, h1, -⟩ := mkdir_createEnds env inst isRoot t' path from'
      exact resolve_created hc h1 hpath hq hr
    | unlink env t' refs path => cases hcr
    | rmdir env t' path => cases hcr
  · cases hst

/-! ## A current directory that is gone -/

theorem freshImage_rooted : Rooted freshImage := by
  have hno : ∀ i, ¬ freshImage.super.Live i := fun i h => Nat.not_lt_zero i h.1
  refine ⟨rfl, by decide, ⟨?_, ?_, ⟨fun _ => 0, ?_⟩⟩⟩
  · intro i j hi
    exact absurd hi (hno i)
  · intro i hi
    exact absurd hi (hno i)
  · intro i j hc
    exact absurd hc.1 (hno i)

def mkdirD : Op := .mkdir noFailures rootTask [slash, 100] true

def withD : FsInstance := (call true freshImage mkdirD).2

theorem withD_reachable : ((treeSystem true).restrict CwdExists).Reachable withD := by
  have h0 : ((treeSystem true).restrict CwdExists).Reachable freshImage := .init freshImage_rooted
  refine h0.step (l := mkdirD) ⟨?_, ?_, rfl⟩
  · intro hf
    cases hf
  · decide

/-- Creating `/f` leaves `/d` where it is. -/
theorem create_keeps_other_path :
    fsIopenInst (call true withD (writeF 65 1)).2 rootTask [slash, 100] true = some 0 := by
  obtain ⟨-, -, -, hkeep⟩ := directory_tree_sound true withD_reachable
  exact hkeep (writeF 65 1) _ rfl (by decide) rfl rootTask [slash, 100] true 0 (by decide) (by decide)

/-- `rmdir("/d")`, then `mkdir("x")` by a task whose current directory was `/d`: the entry takes
slot 0 and lies in slot 0. -/
theorem stale_cwd_makes_cycle :
    ¬ ∀ isRoot inst, (treeSystem isRoot).Reachable inst →
      ∀ i, ¬ Relation.TransGen inst.super.ChildOf i i := by
  intro hall
  have hr : (treeSystem true).Reachable (call true (call true withD (.rmdir noFailures rootTask
      [slash, 100])).2 (.mkdir noFailures ⟨0, 0, 0⟩ [120] false)).2 := by
    have h1 := withD_reachable.of_restrict
    have h2 := h1.step (l := .rmdir noFailures rootTask [slash, 100]) ⟨by decide, rfl⟩
    exact h2.step (l := .mkdir noFailures ⟨0, 0, 0⟩ [120] false) ⟨by decide, rfl⟩
  apply hall true _ hr 0
  refine .single ⟨⟨?_, ?_⟩, ?_, ?_⟩ <;> decide

end AdventOS.Fs
