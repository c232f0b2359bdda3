import AdventOS.Core.LTS
import AdventOS.Kernel.Ledger

/-!
# The user heap (`kernel/syscall.c`, `SYS_BRK`)

A task asks for its break to be moved. Growing maps fresh pages one by one and stops where the
task's limit or memory ends, with what it mapped left in place; shrinking only moves the break.
Growth starts at the break, not at the first page without a frame: a page mapped before, by a
request that failed or above a break that was lowered, is mapped over and its frame is lost.

`taken` records the pages that `SYS_BRK` mapped, with their frames.

* `growHeap`, `sysBrk`: the loop and the call;
* `Fresh`: the requests that come to no page that is mapped already;
* `growHeap_spec`: the loop, over such pages;
* `brk_accounts`: what holds as long as every request is of that kind;
* `brk_loses_frames`: grow, shrink, grow.
-/
namespace AdventOS.Kernel.Brk
open Pmm Paging Elf Function List

def userHeapStart : Nat := 0x40200000

def userHeapMax : Nat := 0x40600000

/-- `cr3`, `heap_brk`, `cur_rss_pages` and `max_rss_pages` of a task. -/
structure Task where
  cr3 : Nat
  heapBrk : Nat
  curRss : Nat
  maxRss : Nat

structure Sys where
  machine : Machine
  task : Task
  taken : List (Nat × Nat)

/-- The directory of the task, as a frame. -/
def Sys.pd (s : Sys) : Nat := frame s.task.cr3

/-- The loop of syscall.c:1931-1955, `n` pages from `va` on; whether it got through. -/
def growHeap : (n va : Nat) → Sys → Sys × Bool
  | 0, _, s => (s, true)
  | n + 1, va, s =>
    if s.task.maxRss ≠ 0 ∧ s.task.maxRss ≤ s.task.curRss then (s, false)
    else
      match s.machine.alloc.2 with
      | none => ({ s with machine := s.machine.alloc.1 }, false)
      | some page =>
        let r := pagingMapIn (s.machine.alloc.1.zero page) s.pd va (page * 4096)
          (pteUser ||| pteWritable)
        if r.2 = false then ({ s with machine := r.1.free page }, false)
        else
          growHeap n (va + 4096)
            { machine := r.1
              task := { s.task with curRss := (s.task.curRss + 1) % 2 ^ 32 }
              taken := (va / 4096, page) :: s.taken }

/-- The new state and the value returned. syscall.c:1905-1984 -/
def sysBrk (s : Sys) (want : Nat) : Sys × Nat :=
  if want = 0 then (s, s.task.heapBrk)
  else if want < userHeapStart ∨ userHeapMax < want then (s, s.task.heapBrk)
  else
    let curPg := alignUp s.task.heapBrk
    let newPg := alignUp want
    let r := if curPg < newPg then growHeap ((newPg - curPg) / 4096) curPg s else (s, true)
    if r.2 = false then (r.1, r.1.task.heapBrk)
    else ({ r.1 with task := { r.1.task with heapBrk := want } }, want)

/-- A store by the program, of a byte at `v`; a fault writes nothing. -/
def userStore (m : Frames) (pd v : Nat) (b : UInt8) : Frames :=
  let pde := m.word pd (pdIndex v)
  let pte := m.word (frame pde) (ptIndex v)
  if present pde && user pde && present pte && user pte && pte.testBit 1 then
    update m (frame pte) (update (m (frame pte)) (v % 4096) b)
  else m

inductive Op
  | brk (want : Nat)
  | store (v : Nat) (b : UInt8)

/-- The program asks for a break, or writes to its heap. -/
def Sys.step (s : Sys) : Op → Option Sys
  | .brk want => some (sysBrk s want).1
  | .store v b =>
    if userHeapStart ≤ v ∧ v < s.task.heapBrk then
      some { s with machine := { s.machine with mem := userStore s.machine.mem s.pd v b } }
    else none

/-- The task as `exec` starts it: the directory has the pages `R`, the break is at the start, and
the pages it counts fit in the address space. -/
structure Start (k : Globals) (σ₀ : Machine) (R : List Nat) (s : Sys) : Prop where
  booted : Booted k σ₀
  mapped : Mapped k σ₀ s.machine s.pd R
  heapBrk : s.task.heapBrk = userHeapStart
  rss : s.task.curRss ≤ 2 ^ 20
  taken : s.taken = []

def brkLTS (start : Sys) : LTS Sys Op := LTS.ofFn (· = start) Sys.step

/-! ## Requests for new pages -/

def mappedPages (m : Frames) (pd : Nat) : List Nat :=
  (List.range' 0x40000 2048).filter fun p =>
    present (m.word pd (p / 1024)) && present (entryOf m pd p)

/-- How many of `n` pages the limit of the task allows. -/
def rssRoom (t : Task) (n : Nat) : Nat := if t.maxRss = 0 then n else min n (t.maxRss - t.curRss)

def newPages (t : Task) (want : Nat) : List Nat :=
  List.range' (alignUp t.heapBrk / 4096)
    (rssRoom t (alignUp want / 4096 - alignUp t.heapBrk / 4096))

/-- Until memory runs out, every page of the request is new, and none is in a table of the
kernel. -/
def Fresh (k : Globals) (s : Sys) (want : Nat) : Prop :=
  userHeapStart ≤ want → want ≤ userHeapMax →
    Safe (shared k s.machine) (freeCount s.machine.pages) (mappedPages s.machine.mem s.pd)
      ((newPages s.task want).map some)

def Cond (k : Globals) (s : Sys) : Op → Prop
  | .brk want => Fresh k s want
  | .store _ _ => True

/-! ## What is promised -/

structure Sound (k : Globals) (σ₀ : Machine) (start s : Sys) : Prop where
  /-- every frame that was taken is still the frame of its page -/
  taken : ∀ x ∈ s.taken, present (s.machine.mem.word s.pd (x.1 / 1024)) = true ∧
    k.ram (entryOf s.machine.mem s.pd x.1) = true ∧ frame (entryOf s.machine.mem s.pd x.1) = x.2
  distinct : (s.taken.map Prod.snd).Nodup
  /-- destroying the directory gives everything back -/
  returned : Restored σ₀ (pagingDestroyUserPd k s.machine s.pd)
  below : ∀ v, userHeapStart ≤ v → v < s.task.heapBrk →
    (userByte s.machine.mem s.pd v).isSome = true
  rss : s.task.curRss = start.task.curRss + s.taken.length
  /-- the next request leaves the bytes below the break as they are -/
  content : ∀ want, Fresh k s want → ∀ v, userHeapStart ≤ v → v < s.task.heapBrk →
    v < (sysBrk s want).1.task.heapBrk →
      userByte (sysBrk s want).1.machine.mem (sysBrk s want).1.pd v =
        userByte s.machine.mem s.pd v
  /-- the break is what is returned, and what it was when that is not the request -/
  returns : ∀ want, (sysBrk s want).2 = (sysBrk s want).1.task.heapBrk ∧
    ((sysBrk s want).2 ≠ want → (sysBrk s want).1.task.heapBrk = s.task.heapBrk)

/-! ## The loop -/

/-- What the requests keep, for the pages `R` that are mapped. -/
def Inv (k : Globals) (σ₀ : Machine) (start s : Sys) (R : List Nat) : Prop :=
  Ledger k σ₀ s.machine s.pd R s.taken start.task.curRss s.task.curRss

section Requests
variable {k : Globals} {σ₀ : Machine} {start s s' : Sys} {R R' : List Nat} {n p want : Nat}

theorem rssRoom_succ {t : Task} (hmax : ¬ (t.maxRss ≠ 0 ∧ t.maxRss ≤ t.curRss))
    (hlt : t.curRss + 1 < 2 ^ 32) (n : Nat) : rssRoom t (n + 1) =
      rssRoom { t with curRss := (t.curRss + 1) % 2 ^ 32 } n + 1 := by
  unfold rssRoom
  dsimp only
  rw [Nat.mod_eq_of_lt hlt]
  by_cases h0 : t.maxRss = 0
  · rw [if_pos h0, if_pos h0]
  · rw [if_neg h0, if_neg h0]
    have hlt : ¬ t.maxRss ≤ t.curRss := fun hle => hmax ⟨h0, hle⟩
    omega

theorem growHeap_spec (h : Inv k σ₀ start s R) (hb : Booted k σ₀)
    (hr : start.task.curRss ≤ 2 ^ 20) (h8 : 8 * 1024 ≤ p) (hi : p + n ≤ 2 ^ 20)
    (hsafe : Safe (shared k σ₀) (freeCount s.machine.pages) R
      ((List.range' p (rssRoom s.task n)).map some)) {r : Sys × Bool}
    (heq : r = growHeap n (p * 4096) s) :
    ∃ R', Inv k σ₀ start r.1 R' ∧ Kept s.machine r.1.machine s.pd R R' ∧
      r.1.task.cr3 = s.task.cr3 ∧ r.1.task.heapBrk = s.task.heapBrk ∧
      (r.2 = true → ∀ q, p ≤ q → q < p + n → q ∈ R') := by
  induction n generalizing s p R with
  | zero =>
    rw [heq]
    exact ⟨R, h, Kept.refl _ _ _, rfl, rfl, fun _ q h1 h2 => by omega⟩
  | succ n ih =>
    have hsame : s.machine.alloc.2 = none → ({ s with machine := s.machine.alloc.1 } : Sys) = s := by
      intro hnone
      rw [(alloc_none hnone).1]
    unfold growHeap at heq
    by_cases hmax : s.task.maxRss ≠ 0 ∧ s.task.maxRss ≤ s.task.curRss
    · rw [if_pos hmax] at heq
      rw [heq]
      exact ⟨R, h, Kept.refl _ _ _, rfl, rfl, fun hf => absurd hf (by simp)⟩
    rw [if_neg hmax] at heq
    cases halloc : s.machine.alloc.2 with
    | none =>
      rw [halloc] at heq
      rw [hsame halloc] at heq
      rw [heq]
      exact ⟨R, h, Kept.refl _ _ _, rfl, rfl, fun hf => absurd hf (by simp)⟩
    | some page =>
      rw [halloc] at heq
      dsimp only at heq
      have hrss := h.rss
      have hlen := h.length_le hb
      rw [rssRoom_succ hmax (by omega), range'_succ, map_cons] at hsafe
      obtain ⟨o, ho⟩ : ∃ o, o = pagingMapIn (s.machine.alloc.1.zero page) s.pd (p * 4096)
        (page * 4096) (pteUser ||| pteWritable) := ⟨_, rfl⟩
      obtain ⟨hfail, hok⟩ := Ledger.install h hb hr halloc (by omega) (by omega) hsafe
        (x := fun _ => 0) rfl (.inr rfl) ho
      rw [← ho] at heq
      cases hres : o.2 with
      | false =>
        rw [hres, if_pos rfl] at heq
        rw [heq]
        obtain ⟨h', hkept⟩ := hfail hres
        exact ⟨R, h', hkept, rfl, rfl, fun hf => absurd hf (by simp)⟩
      | true =>
        obtain ⟨h', hkept, -, hsafe'⟩ := hok hres
        rw [hres, if_neg (by simp), Nat.mul_div_cancel _ (by decide), ← Nat.add_one_mul] at heq
        have hstep : Inv k σ₀ start ⟨o.1, { s.task with curRss := (s.task.curRss + 1) % 2 ^ 32 },
            (p, page) :: s.taken⟩ (p :: R) := h'
        obtain ⟨R', h'', hkept', hcr3, hbrk, hall⟩ := ih hstep (by omega) (by omega) hsafe' heq
        refine ⟨R', h'', hkept.trans hkept', hcr3, hbrk, fun ht q h1 h2 => ?_⟩
        by_cases hq : q = p
        · rw [hq]
          exact (hkept' p mem_cons_self).1
        · exact hall ht q (by omega) (by omega)

/-! ## A request -/

theorem alignUp_eq {v : Nat} (h : v ≤ userHeapMax) : alignUp v = (v + 4095) / 4096 * 4096 := by
  unfold userHeapMax at h
  unfold alignUp
  rw [Nat.mod_eq_of_lt (by omega)]

theorem alignUp_page {v : Nat} (h : v ≤ userHeapMax) : alignUp v / 4096 = (v + 4095) / 4096 := by
  rw [alignUp_eq h, Nat.mul_div_cancel _ (by decide)]

theorem Safe.congr {kernel : Nat → Bool} {l : List Nat}
    (hR : ∀ q, kernel (q / 1024) = false → q / 1024 = 256 ∨ q / 1024 = 257 → (q ∈ R ↔ q ∈ R'))
    (hl : ∀ p ∈ l, p / 1024 = 256 ∨ p / 1024 = 257) (h : Safe kernel n R (l.map some)) :
    Safe kernel n R' (l.map some) := by
  induction l generalizing n R R' with
  | nil => trivial
  | cons p l ih =>
    have hp := hl p mem_cons_self
    by_cases hk : kernel (p / 1024) = true
    · cases h with
      | inl h =>
        rw [cost_of_kernel hk] at h
        refine .inl ?_
        rw [cost_of_kernel hk]
        exact h
      | inr h =>
        rw [h.1] at hk
        cases hk
    have hk : kernel (p / 1024) = false := by simpa using hk
    have hany : (∃ q ∈ R, q / 1024 = p / 1024) ↔ ∃ q ∈ R', q / 1024 = p / 1024 := by
      constructor
      · rintro ⟨q, hq, heq⟩
        exact ⟨q, (hR q (heq ▸ hk) (heq ▸ hp)).1 hq, heq⟩
      · rintro ⟨q, hq, heq⟩
        exact ⟨q, (hR q (heq ▸ hk) (heq ▸ hp)).2 hq, heq⟩
    have hcost : cost kernel R' p = cost kernel R p := by
      by_cases hex : ∃ q ∈ R, q / 1024 = p / 1024
      · rw [cost_of_any hex, cost_of_any (hany.1 hex)]
      · rw [cost_of_new hk hex, cost_of_new hk fun h => hex (hany.2 h)]
    cases h with
    | inl h => exact .inl (hcost ▸ h)
    | inr h =>
      refine .inr ⟨hk, fun hp' => h.2.1 ((hR p hk hp).2 hp'), ?_⟩
      rw [hcost]
      refine ih (fun q hkq hq => ?_) (fun q hq => hl q (mem_cons_of_mem p hq)) h.2.2
      rw [mem_cons, mem_cons, hR q hkq hq]

theorem mem_mappedPages {m : Frames} {pd : Nat} (hp : p / 1024 = 256 ∨ p / 1024 = 257) :
    p ∈ mappedPages m pd ↔
      present (m.word pd (p / 1024)) = true ∧ present (entryOf m pd p) = true := by
  unfold mappedPages
  rw [mem_filter, mem_range'_1, Bool.and_eq_true]
  exact ⟨fun h => h.2, fun h => ⟨by omega, h⟩⟩

/-- The pages below the break, which is in its range, are mapped. -/
structure Below (s : Sys) (R : List Nat) : Prop where
  lo : userHeapStart ≤ s.task.heapBrk
  hi : s.task.heapBrk ≤ userHeapMax
  pages : ∀ p, userHeapStart / 4096 ≤ p → p < (s.task.heapBrk + 4095) / 4096 → p ∈ R

theorem Fresh.safe (h : Fresh k s want) (hinv : Inv k σ₀ start s R) (hb : Booted k σ₀)
    (hbelow : Below s R) (hlo : userHeapStart ≤ want) (hhi : want ≤ userHeapMax) :
    Safe (shared k σ₀) (freeCount s.machine.pages) R ((newPages s.task want).map some) := by
  have hsh : shared k s.machine = shared k σ₀ := funext fun i => hinv.mapped.shared_eq hb i
  have hsafe := h hlo hhi
  rw [hsh] at hsafe
  refine Safe.congr (fun q hk hq => ?_) (fun q hq => ?_) hsafe
  · rw [mem_mappedPages hq]
    constructor
    · intro hp
      exact hinv.mapped.mem_of_present (by omega) (by omega) hk hp.1 hp.2
    · intro hR
      obtain ⟨-, -, hp, -, hram, -⟩ := hinv.mapped.slot hb hR
      unfold Globals.ram at hram
      simp only [Bool.and_eq_true] at hram
      exact ⟨hp, hram.1⟩
  · unfold newPages at hq
    rw [alignUp_page hbelow.hi, alignUp_page hhi, mem_range'_1] at hq
    have hroom : rssRoom s.task ((want + 4095) / 4096 - (s.task.heapBrk + 4095) / 4096) ≤
        (want + 4095) / 4096 - (s.task.heapBrk + 4095) / 4096 := by
      unfold rssRoom
      split
      · exact le_refl _
      · exact min_le_left _ _
    have hlo := hbelow.lo
    unfold userHeapMax at hhi
    unfold userHeapStart at hlo
    omega

theorem growHeap_heapBrk (n va : Nat) (s : Sys) :
    (growHeap n va s).1.task.heapBrk = s.task.heapBrk := by
  induction n generalizing va s with
  | zero => rfl
  | succ n ih =>
    unfold growHeap
    split
    · rfl
    · split
      · rfl
      · dsimp only
        split
        · rfl
        · exact ih _ _

theorem sysBrk_returns (s : Sys) (want : Nat) : (sysBrk s want).2 = (sysBrk s want).1.task.heapBrk ∧
      ((sysBrk s want).2 ≠ want → (sysBrk s want).1.task.heapBrk = s.task.heapBrk) := by
  unfold sysBrk
  by_cases h0 : want = 0
  · rw [if_pos h0]
    exact ⟨rfl, fun _ => rfl⟩
  rw [if_neg h0]
  by_cases hrange : want < userHeapStart ∨ userHeapMax < want
  · rw [if_pos hrange]
    exact ⟨rfl, fun _ => rfl⟩
  rw [if_neg hrange]
  dsimp only
  by_cases hgrow : alignUp s.task.heapBrk < alignUp want
  · rw [if_pos hgrow]
    split
    · exact ⟨rfl, fun _ => growHeap_heapBrk _ _ s⟩
    · exact ⟨rfl, fun hne => absurd rfl hne⟩
  · rw [if_neg hgrow, if_neg (by simp)]
    exact ⟨rfl, fun hne => absurd rfl hne⟩

theorem sysBrk_spec (h : Inv k σ₀ start s R) (hb : Booted k σ₀) (hr : start.task.curRss ≤ 2 ^ 20)
    (hbelow : Below s R) (hfresh : Fresh k s want) (heq : s' = (sysBrk s want).1) :
    ∃ R', Inv k σ₀ start s' R' ∧ Below s' R' ∧ Kept s.machine s'.machine s.pd R R' ∧
      s'.task.cr3 = s.task.cr3 := by
  unfold sysBrk at heq
  by_cases h0 : want = 0
  · rw [if_pos h0] at heq
    rw [heq]
    exact ⟨R, h, hbelow, Kept.refl _ _ _, rfl⟩
  rw [if_neg h0] at heq
  by_cases hrange : want < userHeapStart ∨ userHeapMax < want
  · rw [if_pos hrange] at heq
    rw [heq]
    exact ⟨R, h, hbelow, Kept.refl _ _ _, rfl⟩
  rw [if_neg hrange] at heq
  have hlo : userHeapStart ≤ want := by omega
  have hhi : want ≤ userHeapMax := by omega
  have hsafe := hfresh.safe h hb hbelow hlo hhi
  unfold newPages at hsafe
  rw [alignUp_page hbelow.hi, alignUp_page hhi] at hsafe
  rw [alignUp_eq hbelow.hi, alignUp_eq hhi] at heq
  dsimp only at heq
  obtain ⟨c, hc⟩ : ∃ c, c = (s.task.heapBrk + 4095) / 4096 := ⟨_, rfl⟩
  obtain ⟨w, hw⟩ : ∃ w, w = (want + 4095) / 4096 := ⟨_, rfl⟩
  rw [← hc, ← hw] at heq hsafe
  have hpages := hbelow.pages
  rw [← hc] at hpages
  have hc8 : 8 * 1024 ≤ c := by
    have := hbelow.lo
    unfold userHeapStart at this
    omega
  have hw20 : w ≤ 2 ^ 20 := by
    have := hhi
    unfold userHeapMax at this
    omega
  by_cases hgrow : c * 4096 < w * 4096
  · rw [if_pos hgrow, ← Nat.sub_mul, Nat.mul_div_cancel _ (by decide)] at heq
    obtain ⟨r, hres⟩ : ∃ r, r = growHeap (w - c) (c * 4096) s := ⟨_, rfl⟩
    rw [← hres] at heq
    obtain ⟨R', h', hkept, hcr3, hbrk, hall⟩ := growHeap_spec h hb hr hc8 (by omega) hsafe hres
    by_cases hok : r.2 = false
    · rw [if_pos hok] at heq
      rw [heq]
      refine ⟨R', h', ⟨hbrk ▸ hbelow.lo, hbrk ▸ hbelow.hi, fun p h1 h2 => ?_⟩, hkept, hcr3⟩
      rw [hbrk, ← hc] at h2
      exact (hkept p (hpages p h1 h2)).1
    · rw [if_neg hok] at heq
      rw [heq]
      refine ⟨R', h', ⟨hlo, hhi, fun p h1 h2 => ?_⟩, hkept, hcr3⟩
      rw [← hw] at h2
      by_cases hp : p < c
      · exact (hkept p (hpages p h1 hp)).1
      · exact hall (by simpa using hok) p (by omega) (by omega)
  · rw [if_neg hgrow, if_neg (by simp)] at heq
    rw [heq]
    refine ⟨R, h, ⟨hlo, hhi, fun p h1 h2 => hpages p h1 ?_⟩, Kept.refl _ _ _, rfl⟩
    dsimp only at h2
    omega

theorem Inv.store (h : Inv k σ₀ start s R) (hb : Booted k σ₀) {v : Nat} (hv : v < 2 ^ 32)
    (hp : v / 4096 ∈ R) (b : UInt8) (heq : s' = { s with
      machine := { s.machine with mem := userStore s.machine.mem s.pd v b } }) :
    Inv k σ₀ start s' R := by
  obtain ⟨f, hf⟩ : ∃ f, f = frame (entryOf s.machine.mem s.pd (v / 4096)) := ⟨_, rfl⟩
  have hpd : pdIndex v = v / 4096 / 1024 := by
    unfold pdIndex
    omega
  have hpt : ptIndex v = v / 4096 % 1024 := by
    unfold ptIndex
    omega
  have hmem : userStore s.machine.mem s.pd v b = s.machine.mem ∨
      ∃ x, userStore s.machine.mem s.pd v b = update s.machine.mem f x := by
    unfold userStore
    dsimp only
    split
    · refine .inr ⟨update (s.machine.mem f) (v % 4096) b, ?_⟩
      rw [hf, hpd, hpt]
      rfl
    · exact .inl rfl
  cases hmem with
  | inl hmem =>
    rw [hmem] at heq
    rw [heq]
    exact h
  | inr hmem =>
    obtain ⟨x, hx⟩ := hmem
    rw [hx, hf] at heq
    rw [heq]
    exact Ledger.fill h hb hp rfl

/-! ## Runs -/

/-- What every reachable state satisfies. -/
def Live (k : Globals) (σ₀ : Machine) (start s : Sys) : Prop := ∃ R, Inv k σ₀ start s R ∧ Below s R

theorem live_inductive (hs : Start k σ₀ R start) :
    ((brkLTS start).restrict (Cond k)).Inductive (Live k σ₀ start) where
  init s hinit := by
    have hinit : s = start := hinit
    rw [hinit]
    refine ⟨R, ⟨hs.mapped, ?_, ?_, ?_⟩, ⟨?_, ?_, ?_⟩⟩
    · rw [hs.taken]
      intro x hx
      cases hx
    · rw [hs.taken]
      exact nodup_nil
    · rw [hs.taken]
      rfl
    · rw [hs.heapBrk]
    · rw [hs.heapBrk]
      decide
    · rw [hs.heapBrk]
      unfold userHeapStart
      intro p h1 h2
      omega
  step s l s' h hstep := by
    obtain ⟨hcond, hstep⟩ := hstep
    obtain ⟨R, hinv, hbelow⟩ := h
    cases l with
    | brk want =>
      have heq : s' = (sysBrk s want).1 := (Option.some.inj hstep).symm
      obtain ⟨R', hinv', hbelow', -⟩ := sysBrk_spec hinv hs.booted hs.rss hbelow hcond heq
      exact ⟨R', hinv', hbelow'⟩
    | store v b =>
      have hstep : s.step (.store v b) = some s' := hstep
      unfold Sys.step at hstep
      dsimp only at hstep
      split at hstep
      · rename_i hv
        have hhi := hbelow.hi
        unfold userHeapMax at hhi
        have hlo := hv.1
        have heq := (Option.some.inj hstep).symm
        have hp : v / 4096 ∈ R := by
          refine hbelow.pages _ ?_ ?_
          · omega
          · omega
        refine ⟨R, hinv.store hs.booted (by omega) hp b heq, ?_⟩
        rw [heq]
        exact ⟨hbelow.lo, hbelow.hi, hbelow.pages⟩
      · cases hstep

/-- As long as no request comes to a page that is mapped, nothing is lost. -/
theorem brk_accounts (k : Globals) (σ₀ : Machine) (R : List Nat) (start : Sys)
    (hs : Start k σ₀ R start) (s : Sys)
    (h : ((brkLTS start).restrict (Cond k)).Reachable s) : Sound k σ₀ start s := by
  obtain ⟨R, hinv, hbelow⟩ := (live_inductive hs).reachable s h
  have hb := hs.booted
  have hpage : ∀ v, userHeapStart ≤ v → v < s.task.heapBrk → v / 4096 ∈ R ∧ v < 2 ^ 32 := by
    intro v h1 h2
    have hhi := hbelow.hi
    unfold userHeapMax at hhi
    refine ⟨hbelow.pages _ ?_ (by omega), by omega⟩
    omega
  refine ⟨fun x hx => hinv.slot hb hx, hinv.frames_nodup hb, hinv.mapped.destroy hb,
    fun v h1 h2 => ?_, hinv.rss, fun want hfresh v h1 h2 h3 => ?_, sysBrk_returns s⟩
  · obtain ⟨hR, hv⟩ := hpage v h1 h2
    rw [hinv.mapped.userByte hv hR]
    rfl
  · obtain ⟨hR, hv⟩ := hpage v h1 h2
    obtain ⟨R', hinv', -, hkept, hcr3⟩ := sysBrk_spec hinv hb hs.rss hbelow hfresh rfl
    have hpd : (sysBrk s want).1.pd = s.pd := congrArg frame hcr3
    obtain ⟨hR', hbytes⟩ := hkept _ hR
    rw [hinv'.mapped.userByte hv hR', hpd, hbytes, hinv.mapped.userByte hv hR]

end Requests

/-! ## A task with an empty directory -/

def bareTask : Task := { cr3 := 0x2000, heapBrk := userHeapStart, curRss := 0, maxRss := 2 }

def bareStart : Sys :=
  ⟨(pagingCreateUserPd bareGlobals bareMachine).1, bareTask, []⟩

theorem bareStart_pd : bareStart.pd = 2 := rfl

theorem bareStart_mapped : Mapped bareGlobals bareMachine bareStart.machine bareStart.pd [] := by
  have hcreate : (pagingCreateUserPd bareGlobals bareMachine).2 = some 2 := by decide +kernel
  have hm := (create_mapped bareMachine_booted hcreate).1
  rw [bareStart_pd]
  unfold bareStart
  dsimp only
  exact hm

theorem bareStart_start : Start bareGlobals bareMachine [] bareStart :=
  ⟨bareMachine_booted, bareStart_mapped, rfl, Nat.zero_le _, rfl⟩

/-- Two pages of three, up to the limit. -/
theorem brk_accounts_limit : ∃ s : Sys, s.taken.length = 2 ∧
    s.task.heapBrk = userHeapStart ∧ Sound bareGlobals bareMachine bareStart s := by
  have hnone : mappedPages bareStart.machine.mem bareStart.pd = [] := by
    refine eq_nil_iff_forall_not_mem.2 fun p hp => ?_
    have hpage := (mem_filter.1 hp).1
    rw [mem_range'_1] at hpage
    obtain ⟨h1, h2⟩ := (mem_mappedPages (by omega)).1 hp
    have hk : shared bareGlobals bareMachine (p / 1024) = false := by
      unfold shared
      rw [show bareMachine.mem.word bareGlobals.gPd (p / 1024) = 0 from rfl, present_zero,
        Bool.and_false]
    have hR := bareStart_mapped.mem_of_present (by omega) (by omega) hk h1 h2
    cases hR
  have hfresh : Fresh bareGlobals bareStart 0x40202001 := by
    intro _ _
    rw [hnone]
    decide +kernel
  have hlen : (sysBrk bareStart 0x40202001).1.taken.length = 2 := by decide +kernel
  have hbrk : (sysBrk bareStart 0x40202001).1.task.heapBrk = userHeapStart := by decide +kernel
  exact ⟨_, hlen, hbrk, brk_accounts _ _ _ _ bareStart_start _
    ⟨bareStart, [.brk 0x40202001], rfl, .single ⟨hfresh, rfl⟩⟩⟩

/-- Growing, shrinking and growing again maps a page twice. -/
theorem brk_loses_frames : ¬ ∀ (k : Globals) (σ₀ : Machine) (R : List Nat) (start : Sys),
    Start k σ₀ R start → ∀ s, (brkLTS start).Reachable s → Sound k σ₀ start s := by
  intro h
  have hrun : (LTS.exec Sys.step bareStart [.brk 0x40201000, .brk 0x40200000, .brk 0x40201000]).map
      Sys.taken = some [(0x40200, 5), (0x40200, 3)] := by
    decide +kernel
  obtain ⟨s, hs, htaken⟩ := Option.map_eq_some_iff.1 hrun
  have hsound := h _ _ _ _ bareStart_start s ⟨bareStart, _, rfl, LTS.run_of_exec hs⟩
  have h5 := (hsound.taken (0x40200, 5) (by rw [htaken]; exact mem_cons_self)).2.2
  have h3 := (hsound.taken (0x40200, 3) (by
    rw [htaken]
    exact mem_cons_of_mem _ mem_cons_self)).2.2
  rw [h5] at h3
  cases h3

end AdventOS.Kernel.Brk
