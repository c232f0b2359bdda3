import AdventOS.Kernel.Elf

/-!
# What `elf_load` leaves (`kernel/elf.c`)

Every loop of the loader takes a frame, fills it and maps it; `Mapped.page` is that step, for a
page that the plan of the file allows.

* `Mapped.page`: one page more, or no memory for it;
* `loadPages_spec`, `loadHeaders_spec`, `mapImage_spec`, `mapStack_spec`: the four loops;
* `elfLoad_meets`: the image of a file whose plan is safe.
-/
namespace AdventOS.Kernel.Elf
open Pmm Paging Function List

section Loading
variable {k : Globals} {σ₀ σ σ' : Machine} {pd p q n i va flags : Nat} {R R' R'' : List Nat}
  {file : List UInt8} {rd : FsRead} {ph : Phdr} {rest : List (Option Nat)}

/-! ## One page -/

/-- The directory under construction has the pages of `R`, and no table besides theirs. -/
def Mapped (k : Globals) (σ₀ σ : Machine) (pd : Nat) (R : List Nat) : Prop :=
  ∃ T D, Building k σ₀ σ pd [] T R D ∧ ∀ j, j ∈ T ↔ ∃ p ∈ R, p / 1024 = j

/-- The pages mapped before are there with the same bytes. -/
def Kept (σ σ' : Machine) (pd : Nat) (R R' : List Nat) : Prop :=
  ∀ p ∈ R, p ∈ R' ∧ pageBytes σ' pd p = pageBytes σ pd p

theorem Kept.refl (σ : Machine) (pd : Nat) (R : List Nat) : Kept σ σ pd R R :=
  fun _ hp => ⟨hp, rfl⟩

theorem Kept.trans {σ'' : Machine} (h : Kept σ σ' pd R R') (h' : Kept σ' σ'' pd R' R'') :
    Kept σ σ'' pd R R'' := by
  intro p hp
  obtain ⟨h1, h2⟩ := h p hp
  obtain ⟨h3, h4⟩ := h' p h1
  exact ⟨h3, h4.trans h2⟩

def Restored (σ₀ σ : Machine) : Prop :=
  σ.pages = σ₀.pages ∧ ∀ f, ¬ IsFree σ₀.pages f → σ.mem f = σ₀.mem f

theorem Mapped.destroy (h : Mapped k σ₀ σ pd R) (hb : Booted k σ₀) :
    Restored σ₀ (pagingDestroyUserPd k σ pd) := by
  obtain ⟨T, D, h, -⟩ := h
  exact h.destroy hb

variable {kernel : Nat → Bool} {x : Nat → UInt8} {r : Machine × Bool} {p' : Nat}

theorem cost_of_any (h : ∃ q ∈ R, q / 1024 = p / 1024) :
    cost kernel R p = 1 := by
  obtain ⟨q, hq, heq⟩ := h
  unfold cost
  rw [if_pos]
  simp only [Bool.or_eq_true, any_eq_true, decide_eq_true_eq]
  exact .inr ⟨q, hq, heq⟩

theorem cost_of_new (hk : kernel (p / 1024) = false)
    (h : ¬ ∃ q ∈ R, q / 1024 = p / 1024) : cost kernel R p = 2 := by
  unfold cost
  rw [if_neg]
  simp only [Bool.or_eq_true, any_eq_true, decide_eq_true_eq, hk, Bool.false_eq_true,
    false_or]
  exact h

theorem cost_of_kernel (hk : kernel (p / 1024) = true) :
    cost kernel R p = 1 := by
  unfold cost
  rw [hk]
  rfl

theorem Safe.step (h : Safe kernel n R (some p :: rest)) (hn : 0 < n) :
    kernel (p / 1024) = false ∧ p ∉ R ∧
      (cost kernel R p ≤ n → Safe kernel (n - cost kernel R p) (p :: R) rest) := by
  cases h with
  | inr h => exact ⟨h.1, h.2.1, fun _ => h.2.2⟩
  | inl h =>
    have hk : kernel (p / 1024) = false := by
      by_contra hk
      rw [cost_of_kernel (by simpa using hk)] at h
      omega
    refine ⟨hk, fun hp => ?_, fun hle => by omega⟩
    rw [cost_of_any ⟨p, hp, rfl⟩] at h
    omega

theorem Mapped.page (h : Mapped k σ₀ σ pd R) (hb : Booted k σ₀) (hq : σ.alloc.2 = some q)
    (h8 : 8 ≤ p / 1024) (hi : p / 1024 < 1024)
    (hsafe : Safe (shared k σ₀) (freeCount σ.pages) R (some p :: rest))
    (hσ' : σ' = { σ.alloc.1 with mem := update σ.mem q x }) (hflags : UserFlags flags)
    (hr : r = pagingMapIn σ' pd (p * 4096) (q * 4096) flags) :
    (r.2 = false → Mapped k σ₀ (r.1.free q) pd R) ∧
    (r.2 = true → Mapped k σ₀ r.1 pd (p :: R) ∧ Kept σ r.1 pd R (p :: R) ∧
      pageBytes r.1 pd p = x ∧ frame (entryOf r.1.mem pd p) = q ∧ p ∉ R ∧
      Safe (shared k σ₀) (freeCount r.1.pages) (p :: R) rest) := by
  obtain ⟨T, D, h, hT⟩ := h
  obtain ⟨h1, hk1⟩ := h.alloc hb hq
  obtain ⟨h2, hk2⟩ := h1.update hb mem_cons_self (f := q) x
  have hcount : freeCount σ'.pages + 1 = freeCount σ.pages := by
    have hc := h.grown.drawn.freeCount_add
    have hc1 := h1.grown.drawn.freeCount_add
    rw [cons_append, length_cons] at hc1
    rw [hσ']
    change freeCount σ.alloc.1.pages + 1 = freeCount σ.pages
    omega
  obtain ⟨hk, hR, hsafe⟩ := hsafe.step (by omega)
  have h2 : Building k σ₀ σ' pd [q] T R D := hσ' ▸ h2
  have hkept : ∀ p ∈ R, pageBytes σ' pd p = pageBytes σ pd p := by
    intro p' hp'
    rw [hσ']
    exact (hk2 p' hp').trans (hk1 p' hp')
  obtain ⟨hfail, hok⟩ := h2.map_spec hb h8 hi hk hR hflags hr
  refine ⟨fun hf => ?_, fun ht => ?_⟩
  · obtain ⟨hsame, -, -⟩ := hfail hf
    rw [hsame]
    exact ⟨T, D, (h2.free hb).1, hT⟩
  · obtain ⟨T', D', h3, hT', hk3, hx, hf, hn⟩ := hok ht
    refine ⟨⟨T', D', h3, fun j => ?_⟩, fun p' hp' => ?_, ?_, hf, hR, ?_⟩
    · rw [hT', hT]
      simp only [mem_cons, exists_eq_or_imp]
      rw [eq_comm]
    · exact ⟨mem_cons_of_mem p hp', (hk3 p' hp').trans (hkept p' hp')⟩
    · rw [hx, hσ']
      exact update_self q x σ.mem
    · by_cases hpT : p / 1024 ∈ T
      · have hc : cost (shared k σ₀) R p = 1 := cost_of_any ((hT _).1 hpT)
        rw [if_pos hpT] at hn
        rw [show freeCount r.1.pages = freeCount σ.pages - cost (shared k σ₀) R p by omega]
        exact hsafe (by omega)
      · have hc : cost (shared k σ₀) R p = 2 := cost_of_new hk fun hex => hpT ((hT _).2 hex)
        rw [if_neg hpT] at hn
        rw [show freeCount r.1.pages = freeCount σ.pages - cost (shared k σ₀) R p by omega]
        exact hsafe (by omega)

theorem Mapped.fill (h : Mapped k σ₀ σ pd R) (hb : Booted k σ₀) (hp : p ∈ R)
    (hσ' : σ' = { σ with mem := update σ.mem (frame (entryOf σ.mem pd p)) x }) :
    Mapped k σ₀ σ' pd R ∧ pageBytes σ' pd p = x ∧
      ∀ p' ∈ R, p' ≠ p → pageBytes σ' pd p' = pageBytes σ pd p' := by
  obtain ⟨T, D, h, hT⟩ := h
  obtain ⟨h1, h2⟩ := h.fill hb hp x hσ'
  exact ⟨⟨T, D, h1, hT⟩, h2⟩

section
variable (h : Mapped k σ₀ σ pd R) (hb : Booted k σ₀) (hq : σ.alloc.2 = some q) (h8 : 8 ≤ p / 1024)
  (hi : p / 1024 < 1024) (hk : shared k σ₀ (p / 1024) = false) (hR : p ∉ R)
  (hσ' : σ' = { σ.alloc.1 with mem := update σ.mem q x }) (hflags : UserFlags flags)
  (hr : r = pagingMapIn σ' pd (p * 4096) (q * 4096) flags)
include h hb hq h8 hi hk hR hσ' hflags hr

theorem Mapped.page_entry (hok : r.2 = true) (hp' : p' ∈ R) :
    entryOf r.1.mem pd p' = entryOf σ.mem pd p' := by
  obtain ⟨T, D, h, -⟩ := h
  obtain ⟨h1, -⟩ := h.alloc hb hq
  obtain ⟨h2, -⟩ := h1.update hb mem_cons_self (f := q) x
  have h2 : Building k σ₀ σ' pd [q] T R D := hσ' ▸ h2
  refine (h2.map_entry hb h8 hi hk hR hflags hr hok hp').trans ?_
  refine h.entry_congr hb (fun f hf => ?_) (h.index p' hp')
  rw [hσ']
  refine update_of_ne ?_ x σ.mem
  intro heq
  exact h.grown.alloc_not_mem hq (heq ▸ hf)

theorem Mapped.page_fail (hfail : r.2 = false) :
    Kept σ (r.1.free q) pd R R ∧
      ∀ p' ∈ R, entryOf (r.1.free q).mem pd p' = entryOf σ.mem pd p' := by
  obtain ⟨T, D, h, -⟩ := h
  obtain ⟨h1, hk1⟩ := h.alloc hb hq
  obtain ⟨h2, hk2⟩ := h1.update hb mem_cons_self (f := q) x
  have h2 : Building k σ₀ σ' pd [q] T R D := hσ' ▸ h2
  obtain ⟨hsame, -, -⟩ := (h2.map_spec hb h8 hi hk hR hflags hr).1 hfail
  rw [hsame]
  refine ⟨fun p' hp' => ⟨hp', ((h2.free hb).2 p' hp').trans ?_⟩, fun p' hp' => ?_⟩
  · rw [hσ']
    exact (hk2 p' hp').trans (hk1 p' hp')
  · change entryOf σ'.mem pd p' = _
    rw [hσ']
    refine h.entry_congr hb (fun f hf => update_of_ne ?_ x σ.mem) (h.index p' hp')
    intro heq
    exact h.grown.alloc_not_mem hq (heq ▸ hf)

end
theorem Mapped.fill_entry (h : Mapped k σ₀ σ pd R) (hb : Booted k σ₀) (hp : p ∈ R)
    (hσ' : σ' = { σ with mem := update σ.mem (frame (entryOf σ.mem pd p)) x })
    (hp' : p' ∈ R) : entryOf σ'.mem pd p' = entryOf σ.mem pd p' := by
  obtain ⟨T, D, h, -⟩ := h
  rw [hσ']
  exact h.entry_update hb hp rfl (h.index p' hp') x

theorem Mapped.slot (h : Mapped k σ₀ σ pd R) (hb : Booted k σ₀) (hp : p ∈ R) :
    8 ≤ p / 1024 ∧ p / 1024 < 1024 ∧ present (σ.mem.word pd (p / 1024)) = true ∧
      user (σ.mem.word pd (p / 1024)) = true ∧ k.ram (entryOf σ.mem pd p) = true ∧
      user (entryOf σ.mem pd p) = true ∧ frame (entryOf σ.mem pd p) < 65536 := by
  obtain ⟨T, D, h, -⟩ := h
  obtain ⟨h8, hi, -, h1, h2⟩ := h.tables _ (h.index p hp)
  obtain ⟨h3, h4⟩ := h.slot p hp
  refine ⟨h8, hi, h1, h2, h3, h4, h.grown.lt hb ?_⟩
  exact mem_cons_of_mem pd (h.page_mem hb hp)

theorem Mapped.pages_inj (h : Mapped k σ₀ σ pd R) (hb : Booted k σ₀) (hp : p ∈ R)
    (hp' : p' ∈ R) (heq : frame (entryOf σ.mem pd p) = frame (entryOf σ.mem pd p')) : p = p' := by
  obtain ⟨T, D, h, -⟩ := h
  exact h.pages_inj hb hp hp' heq

theorem Mapped.mem_of_present (h : Mapped k σ₀ σ pd R) (h8 : 8 ≤ p / 1024)
    (hi : p / 1024 < 1024) (hk : shared k σ₀ (p / 1024) = false)
    (hdir : present (σ.mem.word pd (p / 1024)) = true)
    (hp : present (entryOf σ.mem pd p) = true) : p ∈ R := by
  obtain ⟨T, D, h, -⟩ := h
  by_contra hR
  by_cases hT : p / 1024 ∈ T
  · rw [h.empty p hT hR] at hp
    cases hp
  · rw [h.absent _ h8 hi hk hT] at hdir
    cases hdir

theorem Mapped.shared_eq (h : Mapped k σ₀ σ pd R) (hb : Booted k σ₀) (i : Nat) :
    shared k σ i = shared k σ₀ i := by
  obtain ⟨T, D, h, -⟩ := h
  unfold shared
  rw [h.grown.word_of_used hb.gPd]

/-! ## Segments -/

theorem fileCopy_spec (hv : ph.vaddr + ph.filesz < 2 ^ 32) (hva : va + 4096 < 2 ^ 32)
    (hlt : ph.vaddr < va + 4096) :
    (fileCopy ph va = none → ph.vaddr + ph.filesz ≤ va) ∧
    ∀ c, fileCopy ph va = some c → ∃ s e, s = max va ph.vaddr ∧
      e = min (va + 4096) (ph.vaddr + ph.filesz) ∧ s ≤ e ∧ va < ph.vaddr + ph.filesz ∧
      c.1 = (ph.offset + (s - ph.vaddr)) % 2 ^ 32 ∧ c.2.1 = e - s ∧ c.2.2 = s - va := by
  unfold fileCopy
  rw [Nat.mod_eq_of_lt hv, Nat.mod_eq_of_lt hva]
  by_cases hin : va < ph.vaddr + ph.filesz
  · rw [if_pos ⟨hin, hlt⟩]
    refine ⟨fun h => (by cases h), fun c hc => ?_⟩
    obtain rfl := Option.some.inj hc
    have hs : (if va > ph.vaddr then va else ph.vaddr) = max va ph.vaddr := by
      split
      · omega
      · omega
    have he : (if va + 4096 < ph.vaddr + ph.filesz then va + 4096 else ph.vaddr + ph.filesz) =
        min (va + 4096) (ph.vaddr + ph.filesz) := by
      split
      · omega
      · omega
    rw [hs, he]
    refine ⟨_, _, rfl, rfl, by omega, hin, rfl, ?_, rfl⟩
    dsimp only
    omega
  · rw [if_neg fun h => hin h.1]
    exact ⟨fun _ => by omega, fun c hc => by cases hc⟩

theorem segByte_zero {v : Nat} (h : ph.vaddr + ph.filesz ≤ v) : segByte file ph v = 0 := by
  unfold segByte
  rw [if_neg (by omega)]

theorem asInt_of_lt (h : n < 2 ^ 31) : asInt n = n := if_pos h

/-- What the loop over a segment's pages needs to know about the segment. -/
structure Fits (file : List UInt8) (ph : Phdr) (p : Nat) : Prop where
  filesz : ph.vaddr + ph.filesz < 2 ^ 32
  offset : ph.offset < 2 ^ 32
  begun : ph.vaddr < p * 4096 + 4096
  read : p * 4096 ≤ ph.vaddr ∨ ph.vaddr + ph.filesz ≤ p * 4096 ∨
    ph.offset + (p * 4096 - ph.vaddr) ≤ file.length

theorem Fits.next (h : Fits file ph p) (hread : ph.vaddr + ph.filesz ≤ p * 4096 + 4096 ∨
    ph.offset + (p * 4096 + 4096 - ph.vaddr) ≤ file.length) : Fits file ph (p + 1) := by
  have hp : (p + 1) * 4096 = p * 4096 + 4096 := Nat.add_one_mul p 4096
  refine ⟨h.filesz, h.offset, ?_, ?_⟩
  · rw [hp]
    exact Nat.lt_add_right 4096 h.begun
  · rw [hp]
    exact .inr hread

theorem read_segByte (hr : Reads file rd) (hfits : Fits file ph p) {c : Nat × Nat × Nat}
    (hva : p * 4096 + 4096 < 2 ^ 32) (hc : fileCopy ph (p * 4096) = some c) :
    c.2.2 + (rd c.1 c.2.1).1.length ≤ 4096 ∧ asInt c.2.1 = c.2.1 ∧
    ((rd c.1 c.2.1).2 = c.2.1 → Fits file ph (p + 1) ∧ ∀ x < 4096,
      (if c.2.2 ≤ x ∧ x < c.2.2 + (rd c.1 c.2.1).1.length then
        (rd c.1 c.2.1).1.getD (x - c.2.2) 0 else 0) = segByte file ph (p * 4096 + x)) := by
  obtain ⟨hfs, hoff, hlt, hread⟩ := id hfits
  obtain ⟨s, e, hs, he, hse, hin, h1, h2, h3⟩ := (fileCopy_spec hfs hva hlt).2 c hc
  have hn : c.2.1 ≤ 4096 := by omega
  have hlen := hr.length_le c.1 c.2.1 hn
  have hfl := hr.length_lt
  refine ⟨by omega, asInt_of_lt (by omega), fun hall => ?_⟩
  -- the offset does not wrap: either it is the segment's own or the page before was read
  have hnowrap : c.1 = ph.offset + (s - ph.vaddr) := by
    rw [h1]
    refine Nat.mod_eq_of_lt ?_
    omega
  by_cases hpos : 0 < c.2.1
  · obtain ⟨hbytes, hle⟩ := hr.bytes c.1 c.2.1 (by omega) hpos hn hall
    have hlen : (rd c.1 c.2.1).1.length = c.2.1 := by
      rw [hbytes, length_take, length_drop]
      omega
    refine ⟨hfits.next (by omega), fun x hx => ?_⟩
    unfold segByte
    by_cases hin : ph.vaddr ≤ p * 4096 + x ∧ p * 4096 + x < ph.vaddr + ph.filesz
    · rw [if_pos hin, if_pos (by omega), hbytes, getD_eq_getElem?_getD,
        List.getElem?_take_of_lt (by omega), List.getElem?_drop, getD_eq_getElem?_getD]
      congr 2
      omega
    · rw [if_neg hin, if_neg (by omega)]
  · have hnil : (rd c.1 c.2.1).1.length = 0 := by omega
    refine ⟨hfits.next (by omega), fun x hx => ?_⟩
    unfold segByte
    rw [if_neg (by omega), if_neg (by omega)]

theorem loadPage_spec (hm : Mapped k σ₀ σ pd R) (hb : Booted k σ₀) (hr : Reads file rd)
    (hfits : Fits file ph p) (hlo : userMinVa ≤ p * 4096) (hva : p * 4096 + 4096 < 2 ^ 32)
    (hsafe : Safe (shared k σ₀) (freeCount σ.pages) R (pagesPlan rd ph rest (n + 1) (p * 4096)))
    {r : Machine × Int} (heq : r = loadPage k rd ph pd (p * 4096) σ) :
    (r.2 ≠ 0 → Restored σ₀ r.1) ∧
    (r.2 = 0 → Mapped k σ₀ r.1 pd (p :: R) ∧ Kept σ r.1 pd R (p :: R) ∧
      (∀ x < 4096, pageBytes r.1 pd p x = segByte file ph (p * 4096 + x)) ∧ p ∉ R ∧
      Fits file ph (p + 1) ∧ Safe (shared k σ₀) (freeCount r.1.pages) (p :: R)
        (pagesPlan rd ph rest n ((p + 1) * 4096))) := by
  unfold pagesPlan at hsafe
  rw [Nat.mul_div_cancel _ (by decide)] at hsafe
  unfold loadPage at heq
  unfold userMinVa at hlo
  cases halloc : σ.alloc.2 with
  | none =>
    rw [halloc] at heq
    rw [heq, (alloc_none halloc).1]
    exact ⟨fun _ => hm.destroy hb, fun h => absurd h (by simp)⟩
  | some q =>
    rw [halloc] at heq
    dsimp only at heq
    have hflags : UserFlags (pteFlags ph) := by
      unfold pteFlags
      split
      · exact .inr rfl
      · exact .inl rfl
    have hzero : σ.alloc.1.zero q =
      { σ.alloc.1 with mem := update σ.mem q fun _ => 0 } := rfl
    obtain ⟨o, ho⟩ : ∃ o, o = pagingMapIn (σ.alloc.1.zero q) pd (p * 4096) (q * 4096)
      (pteFlags ph) := ⟨_, rfl⟩
    obtain ⟨hfail, hok⟩ := hm.page hb halloc (by omega) (by omega) hsafe hzero hflags ho
    rw [← ho] at heq
    cases hres : o.2 with
    | false =>
      rw [hres, if_pos rfl] at heq
      rw [heq]
      exact ⟨fun _ => (hfail hres).destroy hb, fun h => absurd h (by simp)⟩
    | true =>
      obtain ⟨hm', hk', hx, hq, hR, hsafe'⟩ := hok hres
      rw [hres, if_neg (by simp)] at heq
      cases hc : fileCopy ph (p * 4096) with
      | none =>
        have hend := (fileCopy_spec hfits.filesz hva hfits.begun).1 hc
        rw [hc] at heq hsafe'
        rw [heq]
        refine ⟨fun h => absurd rfl h, fun _ => ⟨hm', hk', fun x hx' => ?_, hR, ?_, ?_⟩⟩
        · rw [hx, segByte_zero (Nat.le_add_right_of_le hend)]
        · exact hfits.next (.inl (Nat.le_add_right_of_le hend))
        · rw [Nat.add_one_mul]
          exact hsafe'
      | some c =>
        obtain ⟨hlen, hint, hbytes⟩ := read_segByte hr hfits hva hc
        rw [hc] at heq hsafe'
        dsimp only at heq hsafe'
        rw [hint] at heq hsafe'
        have hwrite : { o.1 with mem := o.1.mem.write q c.2.2 (rd c.1 c.2.1).1 } =
            { o.1 with mem := update o.1.mem (frame (entryOf o.1.mem pd p)) fun x =>
              if c.2.2 ≤ x ∧ x < c.2.2 + (rd c.1 c.2.1).1.length then
                (rd c.1 c.2.1).1.getD (x - c.2.2) 0 else o.1.mem q x } := by
          rw [hq, Frames.write_eq_update hlen]
        obtain ⟨hm1, hx1, hk1⟩ := hm'.fill hb mem_cons_self hwrite
        have hpages : pageBytes o.1 pd p = o.1.mem q := by
          unfold pageBytes
          rw [hq]
        by_cases hall : (rd c.1 c.2.1).2 = c.2.1
        · rw [if_neg (not_not.2 hall)] at heq hsafe'
          rw [heq]
          obtain ⟨hfits', hval⟩ := hbytes hall
          refine ⟨fun h => absurd rfl h, fun _ => ⟨hm1, fun p' hp' => ?_, fun x hx' => ?_,
            hR, hfits', ?_⟩⟩
          · have hne : p' ≠ p := fun heq => hR (heq ▸ hp')
            obtain ⟨h1, h2⟩ := hk' p' hp'
            exact ⟨h1, (hk1 p' h1 hne).trans h2⟩
          · rw [hx1, ← hval x hx', ← hpages, hx]
          · rw [Nat.add_one_mul]
            exact hsafe'
        · rw [if_pos hall] at heq
          rw [heq]
          exact ⟨fun _ => hm1.destroy hb, fun h => absurd h (by simp)⟩

theorem loadPages_spec (hm : Mapped k σ₀ σ pd R) (hb : Booted k σ₀) (hr : Reads file rd)
    (hfits : Fits file ph p) (hlo : userMinVa ≤ p * 4096) (hva : (p + n) * 4096 < 2 ^ 32)
    (hsafe : Safe (shared k σ₀) (freeCount σ.pages) R (pagesPlan rd ph rest n (p * 4096)))
    {r : Machine × Int} (heq : r = loadPages k rd ph pd n (p * 4096) σ) :
    (r.2 ≠ 0 → Restored σ₀ r.1) ∧
    (r.2 = 0 → ∃ R', Mapped k σ₀ r.1 pd R' ∧ Kept σ r.1 pd R R' ∧
      (∀ p', p ≤ p' → p' < p + n → p' ∉ R ∧ p' ∈ R' ∧
        ∀ x < 4096, pageBytes r.1 pd p' x = segByte file ph (p' * 4096 + x)) ∧
      Safe (shared k σ₀) (freeCount r.1.pages) R' rest) := by
  induction n generalizing σ p R with
  | zero =>
    rw [heq]
    exact ⟨fun h => absurd rfl h, fun _ => ⟨R, hm, Kept.refl σ pd R, fun p' h1 h2 => by omega,
      hsafe⟩⟩
  | succ n ih =>
    unfold loadPages at heq
    obtain ⟨o, ho⟩ : ∃ o, o = loadPage k rd ph pd (p * 4096) σ := ⟨_, rfl⟩
    obtain ⟨hfail, hok⟩ := loadPage_spec hm hb hr hfits hlo (by omega) hsafe ho
    rw [← ho] at heq
    by_cases hcode : o.2 = 0
    · obtain ⟨hm', hk', hbytes, hR, hfits', hsafe'⟩ := hok hcode
      rw [if_neg (not_not.2 hcode), ← Nat.add_one_mul] at heq
      have hlo' : userMinVa ≤ (p + 1) * 4096 := by
        rw [Nat.add_one_mul]
        exact Nat.le_add_right_of_le hlo
      have hva' : (p + 1 + n) * 4096 < 2 ^ 32 := by
        rw [Nat.add_assoc, Nat.add_comm 1 n]
        exact hva
      obtain ⟨hfail', hok'⟩ := ih hm' hfits' hlo' hva' hsafe' heq
      refine ⟨hfail', fun h0 => ?_⟩
      obtain ⟨R', hm'', hk'', hpages, hsafe''⟩ := hok' h0
      refine ⟨R', hm'', hk'.trans hk'', fun p' h1 h2 => ?_, hsafe''⟩
      by_cases hp : p' = p
      · obtain ⟨hin, hsame⟩ := hk'' p mem_cons_self
        rw [hp]
        refine ⟨hR, hin, fun x hx => ?_⟩
        rw [hsame]
        exact hbytes x hx
      · obtain ⟨hnot, hin⟩ := hpages p' (by omega) (by omega)
        exact ⟨fun h => hnot (mem_cons_of_mem p h), hin⟩
    · rw [if_pos hcode] at heq
      rw [heq]
      exact ⟨fun _ => hfail hcode, fun h => absurd h hcode⟩

/-! ## Headers -/

/-- Every byte of the segment is mapped and right. -/
def Holds (file : List UInt8) (ph : Phdr) (σ : Machine) (pd : Nat) (R : List Nat) : Prop :=
  ∀ v, ph.vaddr ≤ v → v < ph.vaddr + ph.memsz → v < 2 ^ 32 →
    v / 4096 ∈ R ∧ pageBytes σ pd (v / 4096) (v % 4096) = segByte file ph v

theorem Holds.covers (h : Holds file ph σ pd R) (hc : ph.Covers p) : p ∈ R := by
  obtain ⟨v, h1, h2, h3, rfl⟩ := hc
  exact (h v h1 h2 h3).1

theorem Holds.kept (h : Holds file ph σ pd R) (hk : Kept σ σ' pd R R') :
    Holds file ph σ' pd R' := by
  intro v h1 h2 h3
  obtain ⟨hin, hbyte⟩ := h v h1 h2 h3
  obtain ⟨hin', hsame⟩ := hk _ hin
  exact ⟨hin', by rw [hsame, hbyte]⟩

theorem u8_lt (bs : List UInt8) (o : Nat) : u8 bs o < 256 := (bs.getD o 0).toNat_lt

theorem u16_lt (bs : List UInt8) (o : Nat) : u16 bs o < 65536 := by
  have h1 := u8_lt bs o
  have h2 := u8_lt bs (o + 1)
  unfold u16
  omega

theorem u32_lt (bs : List UInt8) (o : Nat) : u32 bs o < 2 ^ 32 := by
  have h1 := u16_lt bs o
  have h2 := u16_lt bs (o + 2)
  unfold u32
  omega

/-- Header `i` as it stands in the file. -/
def phdrOf (file : List UInt8) (eh : Ehdr) (i : Nat) : Phdr :=
  parsePhdr ((file.drop ((eh.phoff + i * eh.phentsize) % 2 ^ 32)).take phdrSize)

theorem readPhdr_eq (hr : Reads file rd) {eh : Ehdr} (h : readPhdr rd eh i = some ph) :
    ph = phdrOf file eh i := by
  unfold readPhdr at h
  dsimp only at h
  split at h
  · cases h
  · rename_i hall
    obtain ⟨hbytes, -⟩ := hr.bytes _ phdrSize (Nat.mod_lt _ (by decide)) (by decide) (by decide)
      (not_not.1 hall)
    rw [hbytes] at h
    exact (Option.some.inj h).symm

theorem parsePhdr_lt (bs : List UInt8) : (parsePhdr bs).offset < 2 ^ 32 ∧
    (parsePhdr bs).vaddr < 2 ^ 32 ∧ (parsePhdr bs).memsz < 2 ^ 32 :=
  ⟨u32_lt bs 4, u32_lt bs 8, u32_lt bs 20⟩

/-- A segment that does not wrap starts at the page `p` and its pages end before the last. -/
theorem span (hw : ¬ Wraps ph) :
    ∃ p, alignDown ph.vaddr = p * 4096 ∧ p * 4096 ≤ ph.vaddr ∧ ph.vaddr < p * 4096 + 4096 ∧
      (p + pageCount ph) * 4096 < 2 ^ 32 ∧ ph.vaddr + ph.memsz ≤ (p + pageCount ph) * 4096 := by
  unfold Wraps at hw
  have hsum : (ph.vaddr + ph.memsz) % 2 ^ 32 = ph.vaddr + ph.memsz :=
    Nat.mod_eq_of_lt (by omega)
  have hup : (ph.vaddr + ph.memsz + 4095) % 2 ^ 32 = ph.vaddr + ph.memsz + 4095 :=
    Nat.mod_eq_of_lt (by omega)
  refine ⟨ph.vaddr / 4096, rfl, by omega, by omega, ?_, ?_⟩
  · unfold pageCount alignUp alignDown
    rw [hsum, hup]
    omega
  · unfold pageCount alignUp alignDown
    rw [hsum, hup]
    omega

theorem loadHeaders_spec {eh : Ehdr} (hm : Mapped k σ₀ σ pd R) (hb : Booted k σ₀)
    (hr : Reads file rd)
    (hsafe : Safe (shared k σ₀) (freeCount σ.pages) R (headersPlan rd eh rest n i))
    {r : Machine × Int} (heq : r = loadHeaders k rd eh pd n i σ) :
    (r.2 ≠ 0 → Restored σ₀ r.1) ∧
    (r.2 = 0 → ∃ R', Mapped k σ₀ r.1 pd R' ∧ Kept σ r.1 pd R R' ∧
      (∀ i', i ≤ i' → i' < i + n → (phdrOf file eh i').type = ptLoad →
        Holds file (phdrOf file eh i') r.1 pd R' ∧ ∀ p ∈ R, ¬ (phdrOf file eh i').Covers p) ∧
      (∀ i' j, i ≤ i' → i' < j → j < i + n → (phdrOf file eh i').type = ptLoad →
        (phdrOf file eh j).type = ptLoad →
          ∀ p, (phdrOf file eh i').Covers p → ¬ (phdrOf file eh j).Covers p) ∧
      Safe (shared k σ₀) (freeCount r.1.pages) R' rest) := by
  induction n generalizing σ i R with
  | zero =>
    rw [heq]
    exact ⟨fun h => absurd rfl h, fun _ => ⟨R, hm, Kept.refl σ pd R, fun i' h1 h2 => by omega,
      fun i' j h1 h2 h3 => by omega, hsafe⟩⟩
  | succ n ih =>
    -- header `i` holds nothing to check, or it was checked before the rest ran
    have hrest : ∀ {σ' R'}, Mapped k σ₀ σ' pd R' → Kept σ σ' pd R R' →
        ((phdrOf file eh i).type = ptLoad → Holds file (phdrOf file eh i) σ' pd R' ∧
          ∀ p ∈ R, ¬ (phdrOf file eh i).Covers p) →
        Safe (shared k σ₀) (freeCount σ'.pages) R' (headersPlan rd eh rest n (i + 1)) →
        r = loadHeaders k rd eh pd n (i + 1) σ' →
        (r.2 ≠ 0 → Restored σ₀ r.1) ∧
        (r.2 = 0 → ∃ R', Mapped k σ₀ r.1 pd R' ∧ Kept σ r.1 pd R R' ∧
          (∀ i', i ≤ i' → i' < i + (n + 1) → (phdrOf file eh i').type = ptLoad →
            Holds file (phdrOf file eh i') r.1 pd R' ∧
              ∀ p ∈ R, ¬ (phdrOf file eh i').Covers p) ∧
          (∀ i' j, i ≤ i' → i' < j → j < i + (n + 1) → (phdrOf file eh i').type = ptLoad →
            (phdrOf file eh j).type = ptLoad →
              ∀ p, (phdrOf file eh i').Covers p → ¬ (phdrOf file eh j).Covers p) ∧
          Safe (shared k σ₀) (freeCount r.1.pages) R' rest) := by
      intro σ' R' hm' hk' hholds hsafe' heq
      obtain ⟨hfail, hok⟩ := ih hm' hsafe' heq
      refine ⟨hfail, fun h0 => ?_⟩
      obtain ⟨R'', hm'', hk'', hall, hapart, hsafe''⟩ := hok h0
      refine ⟨R'', hm'', hk'.trans hk'', fun i' h1 h2 ht => ?_, fun i' j h1 h2 h3 ht htj => ?_,
        hsafe''⟩
      · by_cases hi : i' = i
        · rw [hi] at ht ⊢
          obtain ⟨h1, h2⟩ := hholds ht
          exact ⟨h1.kept hk'', h2⟩
        · obtain ⟨h1, h2⟩ := hall i' (by omega) (by omega) ht
          exact ⟨h1, fun p hp => h2 p (hk' p hp).1⟩
      · by_cases hi : i' = i
        · rw [hi] at ht ⊢
          intro p hp
          exact (hall j (by omega) (by omega) htj).2 p ((hholds ht).1.covers hp)
        · exact hapart i' j (by omega) h2 (by omega) ht htj
    unfold loadHeaders at heq
    unfold headersPlan at hsafe
    cases hread : readPhdr rd eh i with
    | none =>
      rw [hread] at heq
      rw [heq]
      exact ⟨fun _ => hm.destroy hb, fun h => absurd h (by simp)⟩
    | some ph =>
      have hph := readPhdr_eq hr hread
      rw [hread] at heq hsafe
      dsimp only at heq hsafe
      rw [← hph] at hrest
      obtain ⟨hoff, hv, hmem⟩ : ph.offset < 2 ^ 32 ∧ ph.vaddr < 2 ^ 32 ∧ ph.memsz < 2 ^ 32 := by
        rw [hph]
        exact parsePhdr_lt _
      by_cases ht : ph.type ≠ ptLoad
      · rw [if_pos ht] at heq hsafe
        exact hrest hm (Kept.refl σ pd R) (fun h => absurd h ht) hsafe heq
      rw [if_neg ht] at heq hsafe
      by_cases hz : ph.memsz = 0
      · rw [if_pos hz] at heq hsafe
        have hempty : ∀ v, ph.vaddr ≤ v → ¬ v < ph.vaddr + ph.memsz := by
          intro v h1
          rw [hz]
          omega
        exact hrest hm (Kept.refl σ pd R) (fun _ => ⟨fun v h1 h2 => absurd h2 (hempty v h1),
          fun p _ ⟨v, h1, h2, _⟩ => hempty v h1 h2⟩) hsafe heq
      rw [if_neg hz] at heq hsafe
      by_cases hlow : ph.vaddr < userMinVa
      · rw [if_pos hlow] at heq
        rw [heq]
        exact ⟨fun _ => hm.destroy hb, fun h => absurd h (by simp)⟩
      rw [if_neg hlow] at heq hsafe
      by_cases hbig : ph.filesz > ph.memsz
      · rw [if_pos hbig] at heq
        rw [heq]
        exact ⟨fun _ => hm.destroy hb, fun h => absurd h (by simp)⟩
      rw [if_neg hbig] at heq hsafe
      by_cases hw : Wraps ph
      · rw [if_pos hw] at hsafe
        exact hsafe.elim
      rw [if_neg hw] at hsafe
      obtain ⟨p, hp, hle, hlt, hend, hcover⟩ := span hw
      rw [hp] at heq hsafe
      obtain ⟨o, ho⟩ : ∃ o, o = loadPages k rd ph pd (pageCount ph) (p * 4096) σ := ⟨_, rfl⟩
      obtain ⟨hfail, hok⟩ := loadPages_spec hm hb hr ⟨by omega, hoff, hlt, .inl hle⟩
        (by unfold userMinVa at hlow ⊢; omega) hend hsafe ho
      rw [← ho] at heq
      by_cases hcode : o.2 = 0
      · obtain ⟨R', hm', hk', hpages, hsafe'⟩ := hok hcode
        rw [if_neg (not_not.2 hcode)] at heq
        refine hrest hm' hk' (fun _ => ⟨fun v h1 h2 h3 => ?_, fun p hp hc => ?_⟩) hsafe' heq
        · obtain ⟨-, hin, hbytes⟩ := hpages (v / 4096) (by omega) (by omega)
          refine ⟨hin, (hbytes _ (Nat.mod_lt v (by decide))).trans ?_⟩
          rw [Nat.div_add_mod']
        · obtain ⟨v, h1, h2, -, hv⟩ := hc
          exact (hpages p (by omega) (by omega)).1 hp
      · rw [if_pos hcode] at heq
        rw [heq]
        exact ⟨fun _ => hfail hcode, fun h => absurd h hcode⟩

/-! ## libc and the stack -/

theorem userFlags_writable : UserFlags (pteUser ||| pteWritable) := .inr rfl

theorem write_exists (m : Frames) (f : Nat) {o : Nat} {bs : List UInt8}
    (h : o + bs.length ≤ 4096) : ∃ x, m.write f o bs = update m f x :=
  ⟨_, Frames.write_eq_update h⟩

theorem mapImage_spec {image : Image} (hm : Mapped k σ₀ σ pd R) (hb : Booted k σ₀)
    (hin : i + n ≤ image.pages)
    (hsafe : Safe (shared k σ₀) (freeCount σ.pages) R
      ((List.range' (libcVa / 4096 + i) n).map some ++ rest))
    (heq : r = mapImage image pd n i σ) :
    (r.2 = false → ∃ R', Mapped k σ₀ r.1 pd R') ∧
    (r.2 = true → ∃ R', Mapped k σ₀ r.1 pd R' ∧ Kept σ r.1 pd R R' ∧
      (∀ p ∈ R, p ∉ List.range' (libcVa / 4096 + i) n) ∧
      Safe (shared k σ₀) (freeCount r.1.pages) R' rest) := by
  induction n generalizing σ i R with
  | zero =>
    rw [heq]
    exact ⟨fun h => absurd h (by simp [mapImage]), fun _ => ⟨R, hm, Kept.refl σ pd R,
      fun p _ => not_mem_nil, hsafe⟩⟩
  | succ n ih =>
    have hsize : i < 256 := by
      have h1 := image.size_le
      unfold Image.pages at hin
      omega
    rw [range'_succ, map_cons, cons_append] at hsafe
    unfold mapImage at heq
    cases halloc : σ.alloc.2 with
    | none =>
      rw [halloc] at heq
      rw [heq, (alloc_none halloc).1]
      exact ⟨fun _ => ⟨R, hm⟩, fun h => absurd h (by simp)⟩
    | some q =>
      rw [halloc] at heq
      dsimp only at heq
      obtain ⟨copy, hcopy⟩ : ∃ copy, copy = if i * 4096 + 4096 > image.bytes.length then
        image.bytes.length - i * 4096 else 4096 := ⟨_, rfl⟩
      rw [← hcopy] at heq
      -- both writes stay in the frame
      have hle : copy ≤ 4096 := by
        rw [hcopy]
        split
        · omega
        · omega
      have hfirst : 0 + ((image.bytes.drop (i * 4096)).take copy).length ≤ 4096 := by
        rw [length_take]
        omega
      have hsecond : copy + (List.replicate (4096 - copy) (0 : UInt8)).length ≤ 4096 := by
        rw [length_replicate]
        omega
      obtain ⟨x, hx⟩ : ∃ x, (if copy < 4096 then
          (σ.alloc.1.mem.write q 0 ((image.bytes.drop (i * 4096)).take copy)).write q copy
            (List.replicate (4096 - copy) 0)
          else σ.alloc.1.mem.write q 0 ((image.bytes.drop (i * 4096)).take copy)) =
          update σ.mem q x := by
        obtain ⟨x, hx⟩ := write_exists σ.alloc.1.mem q hfirst
        rw [hx]
        split
        · obtain ⟨y, hy⟩ := write_exists (update σ.alloc.1.mem q x) q hsecond
          rw [hy, update_idem]
          exact ⟨y, rfl⟩
        · exact ⟨x, rfl⟩
      rw [hx, show libcVa + i * 4096 = (libcVa / 4096 + i) * 4096 by unfold libcVa; omega] at heq
      obtain ⟨o, ho⟩ : ∃ o, o = pagingMapIn { σ.alloc.1 with mem := update σ.mem q x } pd
        ((libcVa / 4096 + i) * 4096) (q * 4096) (pteUser ||| pteWritable) := ⟨_, rfl⟩
      rw [← ho] at heq
      obtain ⟨hfail, hok⟩ := hm.page hb halloc (by unfold libcVa; omega) (by unfold libcVa; omega)
        hsafe rfl userFlags_writable ho
      cases hres : o.2 with
      | false =>
        rw [hres, if_pos rfl] at heq
        rw [heq]
        exact ⟨fun _ => ⟨R, hfail hres⟩, fun h => absurd h (by simp)⟩
      | true =>
        obtain ⟨hm', hk', -, -, hR, hsafe'⟩ := hok hres
        rw [hres, if_neg (by simp)] at heq
        obtain ⟨hfail', hok'⟩ := ih hm' (by omega) hsafe' heq
        refine ⟨hfail', fun ht => ?_⟩
        obtain ⟨R', hm'', hk'', hnot, hsafe''⟩ := hok' ht
        refine ⟨R', hm'', hk'.trans hk'', fun p hp hin => ?_, hsafe''⟩
        rw [range'_succ] at hin
        cases mem_cons.1 hin with
        | inl h => exact hR (h ▸ hp)
        | inr h => exact hnot p (mem_cons_of_mem _ hp) h

theorem dyldMapLibc_spec {libc : Option Image} (hm : Mapped k σ₀ σ pd R) (hb : Booted k σ₀)
    (hsafe : Safe (shared k σ₀) (freeCount σ.pages) R (libcPages libc ++ rest))
    (heq : r = dyldMapLibc libc pd σ) :
    (r.2 = false → ∃ R', Mapped k σ₀ r.1 pd R') ∧
    (r.2 = true → ∃ R', Mapped k σ₀ r.1 pd R' ∧ Kept σ r.1 pd R R' ∧
      (∀ p ∈ R, some p ∉ libcPages libc) ∧
      Safe (shared k σ₀) (freeCount r.1.pages) R' rest) := by
  cases libc with
  | none =>
    rw [heq]
    exact ⟨fun h => absurd h (by simp [dyldMapLibc]), fun _ => ⟨R, hm, Kept.refl σ pd R,
      fun p _ => not_mem_nil, hsafe⟩⟩
  | some image =>
    obtain ⟨hfail, hok⟩ := mapImage_spec (i := 0) hm hb (by omega) hsafe heq
    refine ⟨hfail, fun ht => ?_⟩
    obtain ⟨R', hm', hk', hnot, hsafe'⟩ := hok ht
    refine ⟨R', hm', hk', fun p hp hin => hnot p hp ?_, hsafe'⟩
    obtain ⟨p', hp', heq⟩ := mem_map.1 hin
    exact Option.some.inj heq ▸ hp'

theorem mapStack_spec {top : Nat} (hm : Mapped k σ₀ σ pd R) (hb : Booted k σ₀)
    (hin : i + n ≤ userStackPages)
    (hsafe : Safe (shared k σ₀) (freeCount σ.pages) R
      ((List.range' (stackVaLo / 4096 + i) n).map some))
    {r : Machine × Int × Nat} (heq : r = mapStack k pd n i top σ) :
    (r.2.1 ≠ 0 → Restored σ₀ r.1) ∧
    (r.2.1 = 0 → ∃ R', Mapped k σ₀ r.1 pd R' ∧ Kept σ r.1 pd R R' ∧
      (∀ p ∈ R, p ∉ List.range' (stackVaLo / 4096 + i) n) ∧
      ∀ p ∈ R', p ∈ R ∨ p ∈ List.range' (stackVaLo / 4096 + i) n) := by
  induction n generalizing σ i R top with
  | zero =>
    rw [heq]
    exact ⟨fun h => absurd rfl h, fun _ => ⟨R, hm, Kept.refl σ pd R,
      fun p _ => not_mem_nil, fun p hp => .inl hp⟩⟩
  | succ n ih =>
    unfold userStackPages at hin
    rw [range'_succ, map_cons] at hsafe
    unfold mapStack at heq
    cases halloc : σ.alloc.2 with
    | none =>
      rw [halloc] at heq
      rw [heq, (alloc_none halloc).1]
      exact ⟨fun _ => hm.destroy hb, fun h => absurd h (by simp)⟩
    | some q =>
      rw [halloc] at heq
      dsimp only at heq
      have hva : stackVaLo + i * 4096 = (stackVaLo / 4096 + i) * 4096 := by
        unfold stackVaLo userStackVa userStackPages
        omega
      rw [hva] at heq
      obtain ⟨o, ho⟩ : ∃ o, o = pagingMapIn (σ.alloc.1.zero q) pd ((stackVaLo / 4096 + i) * 4096)
        (q * 4096) (pteUser ||| pteWritable) := ⟨_, rfl⟩
      rw [← ho] at heq
      obtain ⟨hfail, hok⟩ := hm.page hb halloc
        (by unfold stackVaLo userStackVa userStackPages; omega)
        (by unfold stackVaLo userStackVa userStackPages; omega) hsafe
        (x := fun _ => 0) rfl userFlags_writable ho
      cases hres : o.2 with
      | false =>
        rw [hres, if_pos rfl] at heq
        rw [heq]
        exact ⟨fun _ => (hfail hres).destroy hb, fun h => absurd h (by simp)⟩
      | true =>
        obtain ⟨hm', hk', -, -, hR, hsafe'⟩ := hok hres
        rw [hres, if_neg (by simp)] at heq
        obtain ⟨hfail', hok'⟩ := ih hm' (by unfold userStackPages; omega) hsafe' heq
        refine ⟨hfail', fun ht => ?_⟩
        obtain ⟨R', hm'', hk'', hnot, hin'⟩ := hok' ht
        rw [range'_succ]
        refine ⟨R', hm'', hk'.trans hk'', fun p hp hin => ?_, fun p hp => ?_⟩
        · cases mem_cons.1 hin with
          | inl h => exact hR (h ▸ hp)
          | inr h => exact hnot p (mem_cons_of_mem _ hp) h
        · cases hin' p hp with
          | inr h => exact .inr (mem_cons_of_mem _ h)
          | inl h =>
            cases mem_cons.1 h with
            | inl h => exact .inr (mem_cons.2 (.inl h))
            | inr h => exact .inl h

/-! ## The loader -/

theorem Mapped.userByte (h : Mapped k σ₀ σ pd R) {v : Nat} (hv : v < 2 ^ 32)
    (hp : v / 4096 ∈ R) :
    userByte σ.mem pd v = some (pageBytes σ pd (v / 4096) (v % 4096)) := by
  obtain ⟨T, D, h, -⟩ := h
  obtain ⟨-, -, -, hp1, hu1⟩ := h.tables _ (h.index _ hp)
  obtain ⟨hram, hu2⟩ := h.slot _ hp
  unfold Elf.userByte pageBytes
  have hpd : pdIndex v = v / 4096 / 1024 := by
    unfold pdIndex
    omega
  have hpt : ptIndex v = v / 4096 % 1024 := by
    unfold ptIndex
    omega
  unfold entryOf at hram hu2 ⊢
  unfold Globals.ram at hram
  rw [hpd, hpt]
  rw [if_pos]
  simp only [Bool.and_eq_true] at hram ⊢
  exact ⟨⟨⟨hp1, hu1⟩, hram.1⟩, hu2⟩

theorem create_mapped (hb : Booted k σ) (h : (pagingCreateUserPd k σ).2 = some pd) :
    Mapped k σ (pagingCreateUserPd k σ).1 pd [] ∧
      freeCount (pagingCreateUserPd k σ).1.pages = freeCount σ.pages - 1 ∧
      0 < freeCount σ.pages := by
  obtain ⟨hg, hword⟩ := create_spec hb h
  have hnil : dirFrames k (pagingCreateUserPd k σ).1.mem pd = [] := by
    unfold dirFrames
    rw [flatMap_eq_nil_iff]
    intro i hi
    have hi := mem_userEntries.1 hi
    unfold entryFrames mirrored
    rw [hg.word_of_used hb.gPd, hword i hi.2]
    by_cases hc : 256 ≤ i ∧ present (σ.mem.word k.gPd i) = true
    · simp [hc]
    · have hlow : ¬ i < 8 := Nat.not_lt.2 hi.1
      have hnot : ¬ (i < 8 ∨ 256 ≤ i ∧ present (σ.mem.word k.gPd i) = true) :=
        fun h => h.elim hlow hc
      rw [if_neg hnot]
      rfl
  have hcount := hg.drawn.freeCount_add
  rw [length_singleton] at hcount
  refine ⟨⟨[], [], ⟨hg, by rw [hnil], fun i h8 hi hs => ?_, fun i h8 hi hs _ => ?_, ?_, ?_, ?_, ?_⟩,
    ?_⟩, by omega, by omega⟩
  · unfold shared at hs
    simp only [Bool.and_eq_true, decide_eq_true_eq] at hs
    rw [hword i hi, if_pos (.inr hs)]
  · have hnot : ¬ (256 ≤ i ∧ present (σ.mem.word k.gPd i) = true) := by
      unfold shared at hs
      simpa using hs
    rw [hword i hi, if_neg fun h => h.elim (Nat.not_lt.2 h8) hnot]
  · intro i hi
    cases hi
  · intro p hp
    cases hp
  · intro p hp
    cases hp
  · intro p hp
    cases hp
  · intro j
    simp

theorem create_none (h : (pagingCreateUserPd k σ).2 = none) : (pagingCreateUserPd k σ).1 = σ := by
  unfold pagingCreateUserPd at h ⊢
  cases halloc : σ.alloc.2 with
  | none => exact (alloc_none halloc).1
  | some pd =>
    rw [halloc] at h
    cases h

/-- Every page the loader gets to map is new, has a table that is not the kernel's, and no
segment it reaches wraps. -/
def PlanSafe (k : Globals) (rd : FsRead) (libc : Option Image) (σ : Machine) : Prop :=
  0 < freeCount σ.pages → Safe (shared k σ) (freeCount σ.pages - 1) [] (plan rd libc)

theorem fileEhdr_eq (hr : Reads file rd) (h : (rd 0 ehdrSize).2 = ehdrSize) :
    parseEhdr (rd 0 ehdrSize).1 = fileEhdr file := by
  obtain ⟨hbytes, -⟩ := hr.bytes 0 ehdrSize (by decide) (by decide) (by decide) h
  rw [hbytes]
  rfl

/-- A file whose pages are all new is loaded byte for byte, or the allocator is
restored; what was in use before is not written. -/
theorem elfLoad_meets {libc : Option Image} (hb : Booted k σ) (hr : Reads file rd)
    (hsafe : PlanSafe k rd libc σ) : ElfMeets k file rd libc σ := by
  -- a failure leaves what was there, an image has the segments' pages
  have hmain : ((elfLoad k rd libc σ).2.1 ≠ 0 → Restored σ (elfLoad k rd libc σ).1) ∧
      ((elfLoad k rd libc σ).2.1 = 0 → ∃ out pd R, (elfLoad k rd libc σ).2.2 = some out ∧
        out.cr3 = pd * 4096 ∧ Mapped k σ (elfLoad k rd libc σ).1 pd R ∧
        (∀ i < (fileEhdr file).phnum, (filePhdr file i).type = ptLoad →
          Holds file (filePhdr file i) (elfLoad k rd libc σ).1 pd R ∧
            ∀ p, (filePhdr file i).Covers p → some p ∉ libcPages libc ++ stackPages) ∧
        ∀ i j, i < j → j < (fileEhdr file).phnum → (filePhdr file i).type = ptLoad →
          (filePhdr file j).type = ptLoad →
            ∀ p, (filePhdr file i).Covers p → ¬ (filePhdr file j).Covers p) := by
    obtain ⟨r, hres⟩ : ∃ r, r = elfLoad k rd libc σ := ⟨_, rfl⟩
    rw [← hres]
    have hsame : Restored σ σ := ⟨rfl, fun _ _ => rfl⟩
    unfold PlanSafe plan at hsafe
    unfold elfLoad at hres
    dsimp only at hres
    by_cases hread : (rd 0 ehdrSize).2 ≠ ehdrSize
    · rw [if_pos hread] at hres
      rw [hres]
      exact ⟨fun _ => hsame, fun h => absurd h (by simp)⟩
    rw [if_neg hread] at hres hsafe
    by_cases hvalid : validateEhdr (parseEhdr (rd 0 ehdrSize).1) ≠ 0
    · rw [if_pos hvalid] at hres
      rw [hres]
      exact ⟨fun _ => hsame, fun h => absurd h hvalid⟩
    rw [if_neg hvalid] at hres hsafe
    rw [fileEhdr_eq hr (not_not.1 hread)] at hres hsafe
    cases hpd : (pagingCreateUserPd k σ).2 with
    | none =>
      rw [hpd] at hres
      rw [hres, create_none hpd]
      exact ⟨fun _ => hsame, fun h => absurd h (by simp)⟩
    | some pd =>
      obtain ⟨hm, hcount, hpos⟩ := create_mapped hb hpd
      have hsafe := hsafe hpos
      rw [← hcount] at hsafe
      rw [hpd] at hres
      dsimp only at hres
      obtain ⟨o, ho⟩ : ∃ o, o = loadHeaders k rd (fileEhdr file) pd (fileEhdr file).phnum 0
        (pagingCreateUserPd k σ).1 := ⟨_, rfl⟩
      rw [← ho] at hres
      obtain ⟨hfail, hok⟩ := loadHeaders_spec hm hb hr hsafe ho
      by_cases hcode : o.2 = 0
      · obtain ⟨R₁, hm₁, -, hall, hapart, hsafe₁⟩ := hok hcode
        rw [if_neg (not_not.2 hcode)] at hres
        obtain ⟨l, hl⟩ : ∃ l, l = dyldMapLibc libc pd o.1 := ⟨_, rfl⟩
        rw [← hl] at hres
        obtain ⟨hfail₂, hok₂⟩ := dyldMapLibc_spec hm₁ hb hsafe₁ hl
        cases hlibc : l.2 with
        | false =>
          obtain ⟨R₂, hm₂⟩ := hfail₂ hlibc
          rw [hlibc, if_pos rfl] at hres
          rw [hres]
          exact ⟨fun _ => hm₂.destroy hb, fun h => absurd h (by simp)⟩
        | true =>
          obtain ⟨R₂, hm₂, hk₂, hnot₂, hsafe₂⟩ := hok₂ hlibc
          rw [hlibc, if_neg (by simp)] at hres
          obtain ⟨t, ht⟩ : ∃ t, t = mapStack k pd userStackPages 0 0 l.1 := ⟨_, rfl⟩
          rw [← ht] at hres
          obtain ⟨hfail₃, hok₃⟩ := mapStack_spec (i := 0) hm₂ hb (by omega) hsafe₂ ht
          by_cases hstack : t.2.1 = 0
          · obtain ⟨R₃, hm₃, hk₃, hnot₃, -⟩ := hok₃ hstack
            rw [if_neg (not_not.2 hstack)] at hres
            rw [hres]
            refine ⟨fun h => absurd rfl h, fun _ => ⟨_, pd, R₃, rfl, rfl, hm₃, ?_, ?_⟩⟩
            · intro i hi hload
              have hholds := (hall i (by omega) (by omega) hload).1
              refine ⟨(hholds.kept hk₂).kept hk₃, fun p hp hin => ?_⟩
              have hp := hholds.covers hp
              cases mem_append.1 hin with
              | inl h => exact hnot₂ p hp h
              | inr h =>
                obtain ⟨p', hp', heq⟩ := mem_map.1 h
                exact hnot₃ p (hk₂ p hp).1 (Option.some.inj heq ▸ hp')
            · intro i j hij hj
              exact hapart i j (by omega) hij (by omega)
          · rw [if_pos hstack] at hres
            rw [hres]
            exact ⟨fun _ => hfail₃ hstack, fun h => absurd h hstack⟩
      · rw [if_pos hcode] at hres
        rw [hres]
        exact ⟨fun _ => hfail hcode, fun h => absurd h hcode⟩
  obtain ⟨hfail, hok⟩ := hmain
  refine ⟨fun h => (hfail h).1, fun h => ?_, fun h => ?_, fun h => ?_, fun f hf => ?_⟩
  · obtain ⟨out, pd, R, hout, hcr3, hm, hall, -⟩ := hok h
    refine ⟨out, hout, fun i hi hload v h1 h2 h3 => ?_⟩
    obtain ⟨hin, hbyte⟩ := (hall i hi hload).1 v h1 h2 h3
    have hpd : frame out.cr3 = pd := by
      rw [hcr3]
      exact Nat.mul_div_cancel pd (by decide)
    rw [hpd, hm.userByte h3 hin, hbyte]
  · obtain ⟨out, pd, R, -, -, -, -, hapart⟩ := hok h
    exact hapart
  · obtain ⟨out, pd, R, -, -, -, hall, -⟩ := hok h
    exact fun i hi hload => (hall i hi hload).2
  · by_cases h : (elfLoad k rd libc σ).2.1 = 0
    · obtain ⟨out, pd, R, -, -, ⟨T, D, hbuild, -⟩, -⟩ := hok h
      exact hbuild.grown.same f hf
    · exact (hfail h).2 f hf

end Loading

/-! ## Files with one segment -/

def le (n v : Nat) : List UInt8 := (List.range n).map fun i => UInt8.ofNat (v / 256 ^ i)

/-- A file with one writable segment of `memsz` bytes at `vaddr`; its only byte is the last of
the file. -/
def oneSegment (vaddr memsz : Nat) : List UInt8 :=
  [0x7F, 69, 76, 70, 1, 1, 1, 0, 0, 0, 0, 0, 0, 0, 0, 0] ++ le 2 2 ++ le 2 3 ++ le 4 1 ++
    le 4 vaddr ++ le 4 52 ++ le 4 0 ++ le 4 0 ++ le 2 52 ++ le 2 32 ++ le 2 1 ++ le 2 0 ++
    le 2 0 ++ le 2 0 ++ le 4 1 ++ le 4 84 ++ le 4 vaddr ++ le 4 0 ++ le 4 1 ++ le 4 memsz ++
    le 4 6 ++ le 4 4096 ++ [0xC3]

/-- Frames 0 and 1 are in use, and `g_pd` is an empty directory in frame 1. -/
def bareMachine : Machine where
  pages := { bitmap := fun p => p < 2, total := 32, used := 2 }
  mem := fun _ _ => 0

def bareGlobals : Globals := { gPd := 1, fbEnabled := false, fbPhys := 0, fbSize := 0 }

theorem bareMachine_booted : Booted bareGlobals bareMachine := by
  have hword : ∀ f i, bareMachine.mem.word f i = 0 := fun _ _ => rfl
  refine ⟨by decide, by decide, ?_, ?_, fun p _ => rfl⟩
  · intro i _ _ hp
    rw [hword] at hp
    cases hp
  · intro i _ _ hp
    rw [hword] at hp
    cases hp

/-- A segment of two pages, then the stack. -/
theorem elfLoad_meets_one : ElfMeets bareGlobals (oneSegment 0x40000000 5000)
    (fileRead (oneSegment 0x40000000 5000)) none bareMachine :=
  elfLoad_meets bareMachine_booted (fileRead_reads (by decide))
    (by unfold PlanSafe; decide +kernel)

theorem loadHeaders_of_pageCount {k : Globals} {rd : FsRead} {eh : Ehdr} {pd i : Nat} {ph : Phdr}
    {σ : Machine} (hread : readPhdr rd eh i = some ph) (ht : ph.type = ptLoad)
    (hz : ph.memsz ≠ 0) (hlow : userMinVa ≤ ph.vaddr) (hbig : ph.filesz ≤ ph.memsz)
    (hcount : pageCount ph = 0) : loadHeaders k rd eh pd 1 i σ = (σ, 0) := by
  unfold loadHeaders
  rw [hread]
  dsimp only
  rw [if_neg (not_not.2 ht), if_neg hz, if_neg (Nat.not_lt.2 hlow), if_neg (Nat.not_lt.2 hbig),
    hcount]
  rfl

/-- The last page of the address space is lost. -/
theorem elfLoad_drops_bytes : ¬ ∀ (k : Globals) (file : List UInt8) (rd : FsRead)
    (libc : Option Image) (σ : Machine), Booted k σ → Reads file rd →
      ElfMeets k file rd libc σ := by
  intro h
  obtain ⟨file, hfile⟩ : ∃ file, file = oneSegment 0xFFFFF000 4096 := ⟨_, rfl⟩
  obtain ⟨k, hk⟩ : ∃ k, k = bareGlobals := ⟨_, rfl⟩
  have hlen : file.length < 2 ^ 32 := by
    rw [hfile]
    decide
  have hb : Booted k bareMachine := hk ▸ bareMachine_booted
  have hmeets := h k file (fileRead file) none bareMachine hb (fileRead_reads hlen)
  have hcode : (elfLoad k (fileRead file) none bareMachine).2.1 = 0 := by
    rw [hk, hfile]
    decide +kernel
  obtain ⟨hread, hvalid, hnum, htype, hv, hm, hfs, hread0, hcount, hfree⟩ :
      (fileRead file 0 ehdrSize).2 = ehdrSize ∧ validateEhdr (fileEhdr file) = 0 ∧
      (fileEhdr file).phnum = 1 ∧ (filePhdr file 0).type = ptLoad ∧
      (filePhdr file 0).vaddr = 0xFFFFF000 ∧ (filePhdr file 0).memsz = 4096 ∧
      (filePhdr file 0).filesz = 1 ∧
      (fileRead file ((fileEhdr file).phoff % 2 ^ 32) phdrSize).2 = phdrSize ∧
      pageCount (filePhdr file 0) = 0 ∧
      Safe (shared bareGlobals bareMachine) (freeCount bareMachine.pages - 1) [] stackPages := by
    rw [hfile]
    decide +kernel
  obtain ⟨out, hout, himage⟩ := hmeets.image hcode
  have hbyte := himage 0 (by omega) htype 0xFFFFF000 (by omega) (by omega) (by decide)
  have heh : parseEhdr (fileRead file 0 ehdrSize).1 = fileEhdr file := rfl
  obtain ⟨r, hres⟩ : ∃ r, r = elfLoad k (fileRead file) none bareMachine := ⟨_, rfl⟩
  rw [← hres] at hcode hout hbyte
  unfold elfLoad at hres
  dsimp only at hres
  rw [if_neg (not_not.2 hread), heh, if_neg (not_not.2 hvalid), hnum] at hres
  cases hpd : (pagingCreateUserPd k bareMachine).2 with
  | none =>
    rw [hpd] at hres
    rw [hres] at hcode
    exact absurd hcode (by simp)
  | some pd =>
    obtain ⟨hmap, hfree', -⟩ := create_mapped hb hpd
    have hphdr : readPhdr (fileRead file) (fileEhdr file) 0 = some (filePhdr file 0) := by
      unfold readPhdr
      rw [Nat.zero_mul, Nat.add_zero]
      rw [if_neg (not_not.2 hread0)]
      unfold filePhdr
      rw [Nat.zero_mul, Nat.add_zero]
      rfl
    rw [hpd] at hres
    dsimp only at hres
    rw [loadHeaders_of_pageCount hphdr htype (by omega) (by rw [hv]; decide) (by omega) hcount,
      if_neg (by simp)] at hres
    have hlibc : dyldMapLibc none pd (pagingCreateUserPd k bareMachine).1 =
      ((pagingCreateUserPd k bareMachine).1, true) := rfl
    rw [hlibc] at hres
    obtain ⟨t, ht⟩ : ∃ t, t = mapStack k pd userStackPages 0 0 (pagingCreateUserPd k bareMachine).1 :=
      ⟨_, rfl⟩
    rw [if_neg (by simp), ← ht] at hres
    obtain ⟨-, hok⟩ := mapStack_spec (i := 0) hmap hb (by omega)
      (by rw [hfree', hk]; exact hfree) ht
    by_cases hstack : t.2.1 = 0
    · rw [if_neg (not_not.2 hstack)] at hres
      obtain ⟨R, ⟨T, D, hbuild, hT⟩, -, -, hR⟩ := hok hstack
      -- entry 1023 has no table
      have hT : 1023 ∉ T := by
        intro hmem
        obtain ⟨p, hp, hpi⟩ := (hT 1023).1 hmem
        cases hR p hp with
        | inl hp => cases hp
        | inr hp =>
          have hp := mem_range'_1.1 hp
          unfold stackVaLo userStackVa userStackPages at hp
          omega
      have habs : t.1.mem.word pd 1023 = 0 :=
        hbuild.absent 1023 (by decide) (by decide) (by rw [hk]; rfl) hT
      rw [hres] at hout hbyte
      obtain rfl := Option.some.inj hout
      unfold userByte at hbyte
      have hframe : frame (pd * 4096) = pd := Nat.mul_div_cancel pd (by decide)
      rw [hframe, show pdIndex 0xFFFFF000 = 1023 by rfl, habs] at hbyte
      cases hbyte
    · rw [if_pos hstack] at hres
      rw [hres] at hcode
      exact hstack hcode

end AdventOS.Kernel.Elf
