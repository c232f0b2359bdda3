import AdventOS.Kernel.ElfImage

/-!
# Frames taken for a task

The pages that the kernel maps for a task while it runs, and the count that it keeps of them.
`taken` lists the pages with their frames; a page is taken once, so the count does not wrap.

* `Ledger.install`: a frame is taken, filled and mapped, or given back;
* `Ledger.fill`: a mapped page is written;
* `Ledger.destroy`: the directory gives everything back.
-/
namespace AdventOS.Kernel.Elf
open Pmm Paging Function List

/-- The pages `R` are mapped, among them the ones taken, and `rss` counts them from `rss₀` on. -/
structure Ledger (k : Globals) (σ₀ σ : Machine) (pd : Nat) (R : List Nat)
    (taken : List (Nat × Nat)) (rss₀ rss : Nat) : Prop where
  mapped : Mapped k σ₀ σ pd R
  slots : ∀ x ∈ taken, x.1 ∈ R ∧ frame (entryOf σ.mem pd x.1) = x.2
  pages : (taken.map Prod.fst).Nodup
  rss : rss = rss₀ + taken.length

section Taking
variable {k : Globals} {σ₀ σ σ' : Machine} {pd p q n rss₀ rss flags : Nat} {R : List Nat}
  {taken : List (Nat × Nat)} {rest : List (Option Nat)}

theorem Ledger.length_le (h : Ledger k σ₀ σ pd R taken rss₀ rss) (hb : Booted k σ₀) :
    taken.length ≤ 2 ^ 20 := by
  have hsub : taken.map Prod.fst ⊆ range (2 ^ 20) := by
    intro p hp
    obtain ⟨x, hx, rfl⟩ := mem_map.1 hp
    obtain ⟨-, hi, -⟩ := h.mapped.slot hb (h.slots x hx).1
    rw [mem_range]
    omega
  have hle := (subperm_of_subset h.pages hsub).length_le
  rwa [length_map, length_range] at hle

theorem Ledger.frames_nodup (h : Ledger k σ₀ σ pd R taken rss₀ rss) (hb : Booted k σ₀) :
    (taken.map Prod.snd).Nodup := by
  refine List.Nodup.map_on (fun x hx y hy heq => ?_) (List.Nodup.of_map Prod.fst h.pages)
  obtain ⟨hx1, hx2⟩ := h.slots x hx
  obtain ⟨hy1, hy2⟩ := h.slots y hy
  exact Prod.ext (h.mapped.pages_inj hb hx1 hy1 (by rw [hx2, hy2, heq])) heq

theorem Ledger.slot (h : Ledger k σ₀ σ pd R taken rss₀ rss) (hb : Booted k σ₀) {x : Nat × Nat}
    (hx : x ∈ taken) : present (σ.mem.word pd (x.1 / 1024)) = true ∧
      k.ram (entryOf σ.mem pd x.1) = true ∧ frame (entryOf σ.mem pd x.1) = x.2 := by
  obtain ⟨hR, hframe⟩ := h.slots x hx
  obtain ⟨-, -, hp, -, hram, -⟩ := h.mapped.slot hb hR
  exact ⟨hp, hram, hframe⟩

theorem Ledger.congr (h : Ledger k σ₀ σ pd R taken rss₀ rss) (hm : Mapped k σ₀ σ' pd R)
    (hentry : ∀ p ∈ R, entryOf σ'.mem pd p = entryOf σ.mem pd p) :
    Ledger k σ₀ σ' pd R taken rss₀ rss := by
  refine ⟨hm, fun x hx => ?_, h.pages, h.rss⟩
  obtain ⟨h1, h2⟩ := h.slots x hx
  exact ⟨h1, by rw [hentry x.1 h1, h2]⟩

variable {x : Nat → UInt8}

theorem Ledger.install (h : Ledger k σ₀ σ pd R taken rss₀ rss) (hb : Booted k σ₀)
    (hr : rss₀ ≤ 2 ^ 20) (hq : σ.alloc.2 = some q) (h8 : 8 ≤ p / 1024) (hi : p / 1024 < 1024)
    (hsafe : Safe (shared k σ₀) (freeCount σ.pages) R (some p :: rest))
    (hσ' : σ' = { σ.alloc.1 with mem := update σ.mem q x }) (hflags : UserFlags flags)
    {r : Machine × Bool} (hres : r = pagingMapIn σ' pd (p * 4096) (q * 4096) flags) :
    (r.2 = false → Ledger k σ₀ (r.1.free q) pd R taken rss₀ rss ∧ Kept σ (r.1.free q) pd R R) ∧
    (r.2 = true → Ledger k σ₀ r.1 pd (p :: R) ((p, q) :: taken) rss₀ ((rss + 1) % 2 ^ 32) ∧
      Kept σ r.1 pd R (p :: R) ∧ pageBytes r.1 pd p = x ∧
      Safe (shared k σ₀) (freeCount r.1.pages) (p :: R) rest) := by
  have hpos : 0 < freeCount σ.pages := by
    obtain ⟨T, D, hbuild, -⟩ := h.mapped
    have hc := hbuild.grown.drawn.freeCount_add
    have hc1 := (hbuild.grown.alloc hq).drawn.freeCount_add
    rw [length_cons] at hc1
    omega
  obtain ⟨hk, hR, -⟩ := hsafe.step hpos
  obtain ⟨hfail, hok⟩ := h.mapped.page hb hq h8 hi hsafe hσ' hflags hres
  refine ⟨fun hf => ?_, fun ht => ?_⟩
  · obtain ⟨hkept, hentry⟩ := h.mapped.page_fail hb hq h8 hi hk hR hσ' hflags hres hf
    exact ⟨h.congr (hfail hf) hentry, hkept⟩
  · obtain ⟨hm, hkept, hx, hframe, -, hsafe'⟩ := hok ht
    refine ⟨⟨hm, fun y hy => ?_, ?_, ?_⟩, hkept, hx, hsafe'⟩
    · cases mem_cons.1 hy with
      | inl hy =>
        rw [hy]
        exact ⟨mem_cons_self, hframe⟩
      | inr hy =>
        obtain ⟨h1, h2⟩ := h.slots y hy
        refine ⟨mem_cons_of_mem p h1, ?_⟩
        rw [h.mapped.page_entry hb hq h8 hi hk hR hσ' hflags hres ht h1, h2]
    · refine nodup_cons.2 ⟨fun hp => ?_, h.pages⟩
      obtain ⟨y, hy, heq⟩ := mem_map.1 hp
      refine hR ?_
      rw [← show y.1 = p from heq]
      exact (h.slots y hy).1
    · have hlen := h.length_le hb
      have hrss := h.rss
      rw [length_cons, Nat.mod_eq_of_lt (by omega)]
      omega

theorem Ledger.discard (h : Ledger k σ₀ σ pd R taken rss₀ rss) (hb : Booted k σ₀)
    (hq : σ.alloc.2 = some q)
    (hσ' : σ' = { σ.alloc.1 with mem := update σ.mem q x }) :
    Ledger k σ₀ (σ'.free q) pd R taken rss₀ rss ∧ Kept σ (σ'.free q) pd R R := by
  obtain ⟨T, D, hbuild, hT⟩ := h.mapped
  obtain ⟨h1, hk1⟩ := hbuild.alloc hb hq
  obtain ⟨h2, hk2⟩ := h1.update hb mem_cons_self (f := q) x
  have h2 : Building k σ₀ σ' pd [q] T R D := hσ' ▸ h2
  obtain ⟨h3, hk3⟩ := h2.free hb
  refine ⟨h.congr ⟨T, D, h3, hT⟩ fun p hp => ?_, fun p hp => ⟨hp, ?_⟩⟩
  · refine hbuild.entry_congr hb (fun f hf => ?_) (hbuild.index p hp)
    rw [hσ']
    refine update_of_ne ?_ x σ.mem
    intro heq
    exact hbuild.grown.alloc_not_mem hq (heq ▸ hf)
  · rw [hk3 p hp, hσ']
    exact (hk2 p hp).trans (hk1 p hp)

theorem Ledger.fill (h : Ledger k σ₀ σ pd R taken rss₀ rss) (hb : Booted k σ₀) (hp : p ∈ R)
    (hσ' : σ' = { σ with mem := update σ.mem (frame (entryOf σ.mem pd p)) x }) :
    Ledger k σ₀ σ' pd R taken rss₀ rss :=
  h.congr (h.mapped.fill hb hp hσ').1 fun _ hq => h.mapped.fill_entry hb hp hσ' hq

end Taking

end AdventOS.Kernel.Elf
