import AdventOS.Core.Replay
import AdventOS.Kernel.Kmalloc

/-!
# The heap of a program (`libc/stdlib.c`)

`malloc` is the allocator of the kernel's heap on a region that grows: where no block fits,
`grow_heap` moves the break by whole pages and puts a block behind the list, or joins it to a free
tail. The blocks, their lists and `kfree` are those of `Kernel.Kmalloc`. Sizes are 32-bit; a
program may write to the bytes it asked for.

* `growHeap_spec`: what a growth whose sizes do not wrap does to the block list;
* `malloc_spec`: `malloc` grows at most once, and is then `kmalloc` on the region;
* `malloc_sound`: the heap over every run of `Careful` calls;
* `huge_malloc_gets_empty_block`: a size that rounds up to 0.
-/
namespace AdventOS.Libc.Malloc
open Kernel.Kmalloc Function List Option

/-! ## The functions -/

def heapStartVa : Nat := 0x40200000

/-- `USER_HEAP_MAX` of the kernel. -/
def userHeapMax : Nat := 0x40600000

/-- `g_brk`, which is the break the kernel has for the task, since only `grow_heap` moves it; the
pages below `mapped` have frames. -/
structure ProgHeap where
  mem : FlatMem
  brk : Nat
  mapped : Nat

/-- stdlib.c:52-54 -/
def heapHead (h : ProgHeap) : Nat := if h.brk = heapStartVa then 0 else heapStartVa

def pageUp (a : Nat) : Nat := (a + 4095) / 4096 * 4096

/-- `SYS_BRK`, when `room` more pages can be had: the heap and the break that is returned. Pages
are mapped up to where memory ends, a lowered break keeps them.
syscall.c:1905-1984 -/
def sysBrk (h : ProgHeap) (want room : Nat) : ProgHeap × Nat :=
  if want = 0 ∨ want < heapStartVa ∨ userHeapMax < want then (h, h.brk)
  else if pageUp want - pageUp h.brk ≤ 4096 * room then
    ({ h with brk := want, mapped := max h.mapped (pageUp want) }, want)
  else ({ h with mapped := max h.mapped (pageUp h.brk + 4096 * room) }, h.brk)

/-- The last block from `b` on; stdlib.c:56-61 -/
def heapTail (m : FlatMem) : (fuel b : Nat) → Nat
  | 0, b => b
  | fuel + 1, b => if get m b .next = 0 then b else heapTail m fuel (get m b .next)

/-- The block of the growth, behind `tail`; stdlib.c:80-88 -/
def appendBlock (m : FlatMem) (tail nb : Nat) : FlatMem :=
  let m := set m tail .next nb
  let m := set m nb .prev tail
  if get m tail .free ≠ 0 then
    let m := set m tail .size (get m tail .size + (16 + get m nb .size))
    set m tail .next 0
  else m

/-- How far the break is to move, with both sums in 32 bits. -/
def growth (atLeast : Nat) : Nat := (atLeast + 4095) % 2 ^ 32 / 4096 * 4096

/-- Whether the heap has grown; none is the fault of a header on a page without a frame.
stdlib.c:63-90 -/
def growHeap (h : ProgHeap) (atLeast room : Nat) : Option (ProgHeap × Bool) :=
  let want := (h.brk + growth atLeast) % 2 ^ 32
  let r := sysBrk h want room
  if r.2 ≠ want then some (r.1, false)
  else if r.1.mapped ≤ h.brk then none
  else
    let m := setHeader r.1.mem h.brk ((r.1.brk + 2 ^ 32 - h.brk - 16) % 2 ^ 32) 1 0 0
    if h.brk = heapStartVa then some ({ r.1 with mem := m }, true)
    else if r.1.brk = heapStartVa then some ({ r.1 with mem := m }, false)
    else
      some ({ r.1 with mem := appendBlock m (heapTail m (maxBlocks + 1) heapStartVa) h.brk }, true)

inductive Search
  | found (b : Nat)
  | absent
  | damaged

/-- The search of one round; stdlib.c:97-99 -/
def search (m : FlatMem) (want : Nat) : (fuel b : Nat) → Search
  | 0, _ => .damaged
  | fuel + 1, b =>
    if b = 0 then .absent
    else if get m b .magic ≠ kmMagic then .damaged
    else if get m b .free = 0 ∨ get m b .size < want then search m want fuel (get m b .next)
    else .found b

/-- The rounds of the loop, `rooms` being the pages that the kernel has at each growth. None where
the call does not return, or needs another growth than those. stdlib.c:96-119 -/
def mallocLoop (want : Nat) : (rooms : List Nat) → ProgHeap → Option (ProgHeap × Nat)
  | rooms, h =>
    match search h.mem want (maxBlocks + 1) (heapHead h) with
    | .found b => some ({ h with mem := carve h.mem b want }, b + 16)
    | .damaged => some (h, 0)
    | .absent =>
      match rooms with
      | [] => none
      | room :: rooms =>
        (growHeap h ((want + 16) % 2 ^ 32) room).bind fun r =>
          if r.2 then mallocLoop want rooms r.1 else some (r.1, 0)

/-- The heap and the pointer, 0 for NULL; stdlib.c:92-120 -/
def malloc (h : ProgHeap) (size : Nat) (rooms : List Nat) : Option (ProgHeap × Nat) :=
  if size = 0 then some (h, 0) else mallocLoop (roundUp size) rooms h

/-- The region as the kernel's allocator has it. -/
def ProgHeap.region (h : ProgHeap) : Heap := ⟨h.mem, heapHead h, heapStartVa, h.brk⟩

/-- The text of `kfree`; stdlib.c:122-141 -/
def free (h : ProgHeap) (p : Nat) : ProgHeap := { h with mem := (kfree h.region p).mem }

/-- libc/string.c:77-81, with 0 -/
def memset (m : FlatMem) : (d n : Nat) → FlatMem
  | _, 0 => m
  | d, n + 1 => memset (update m d 0) (d + 1) n

/-- libc/string.c:83-88 -/
def memcpy (m : FlatMem) : (d s n : Nat) → FlatMem
  | _, _, 0 => m
  | d, s, n + 1 => memcpy (update m d (m s)) (d + 1) (s + 1) n

/-- stdlib.c:143-148 -/
def calloc (h : ProgHeap) (nm sz : Nat) (rooms : List Nat) : Option (ProgHeap × Nat) :=
  let total := nm * sz % 2 ^ 32
  (malloc h total rooms).map fun r =>
    if r.2 = 0 then r else ({ r.1 with mem := memset r.1.mem r.2 total }, r.2)

/-- The copy to the new block and the release of the old one; stdlib.c:159-160 -/
def moveTo (h : ProgHeap) (q p : Nat) : ProgHeap :=
  free { h with mem := memcpy h.mem q p (get h.mem (p - 16) .size) } p

/-- stdlib.c:150-162 -/
def realloc (h : ProgHeap) (p n : Nat) (rooms : List Nat) : Option (ProgHeap × Nat) :=
  if p = 0 then malloc h n rooms
  else if n = 0 then some (free h p, 0)
  else if get h.mem (p - 16) .magic ≠ kmMagic then some (h, 0)
  else if n ≤ get h.mem (p - 16) .size then some (h, p)
  else
    (malloc h n rooms).map fun r => if r.2 = 0 then r else (moveTo r.1 r.2 p, r.2)

/-! ## A growth on lists -/

variable {a d n p : Nat} {e : Nat × Nat} {l : List Blk} {m : FlatMem} {rooms : List Nat}
   {r : ProgHeap × Nat} {s s' : Prog} {c : Call}

theorem tiles_stop_dvd {e : Nat} (h : Tiles a l e) (ha : 16 ∣ a) : 16 ∣ e := by
  induction l generalizing a with
  | nil => exact h ▸ ha
  | cons b l ih =>
    obtain ⟨h1, h2, -, h4, h5⟩ := h
    refine ih h5 ?_
    unfold Blk.stop
    omega

theorem heapTail_spec : ∀ (fuel : Nat) (l : List Blk) {a e prev : Nat},
    Tiles a l e → Segment m prev l 0 → l ≠ [] → l.length ≤ fuel →
      heapTail m fuel (first l 0) = last 0 l
  | 0, l, _, _, _, _, _, hne, hlen => absurd (length_eq_zero_iff.mp (Nat.le_zero.mp hlen)) hne
  | fuel + 1, [], _, _, _, _, _, hne, _ => absurd rfl hne
  | fuel + 1, [b], _, _, _, _, ⟨hb, _⟩, _, _ => if_pos hb.next
  | fuel + 1, b :: c :: l, _, _, _, ⟨_, _, _, _, ht⟩, ⟨hb, hs⟩, _, hlen => by
    have ih := heapTail_spec fuel (c :: l) ht hs (cons_ne_nil _ _) (by simpa using hlen)
    have hpos := (Tiles.bounds ht mem_cons_self).2.2.2.1
    have hnext : get m b.addr .next = c.addr := hb.next
    change heapTail m (fuel + 1) b.addr = _
    unfold heapTail
    rw [hnext, if_neg (by omega)]
    exact ih

theorem link_spec {t : Blk} {size : Nat}
    (ht : Tiles a (l ++ [t]) n) (hs : Segment m 0 (l ++ [t]) 0) (hn16 : 16 ∣ n) (hn : n < 2 ^ 32)
    (hb : HeaderOf m ⟨n, size, true⟩ 0 0) :
    Segment (set (set m t.addr .next n) n .prev t.addr) 0 (l ++ [t, ⟨n, size, true⟩]) 0 := by
  obtain ⟨c, htl, hta, ht16, htpos, hts, hstop⟩ := Tiles.append.1 ht
  have hstop : t.addr + 16 + t.size = n := hstop
  obtain ⟨hsl, hh, -⟩ := Segment.append.1 hs
  subst hta
  have htn : ∀ {m : FlatMem} {v : Nat} {f g : Field},
      get (set m n f v) t.addr g = get m t.addr g :=
    get_set_ne hn16 ht16 (.inl (by omega))
  have hnt : ∀ {m : FlatMem} {v : Nat} {f g : Field},
      get (set m t.addr f v) n g = get m n g := get_set_ne ht16 hn16 (.inl (by omega))
  have hne : ∀ {m : FlatMem} {a v : Nat} {f g : Field}, 16 ∣ a → f ≠ g →
      get (set m a f v) a g = get m a g := fun ha h => get_set_ne ha ha (.inr h)
  refine Segment.append.2 ⟨?_, ⟨?_, ?_, ?_, ?_, ?_⟩, ⟨?_, ?_, ?_, ?_, ?_⟩, trivial⟩
  · refine Segment.congr (fun d hd x h1 h2 => ?_) hsl
    have hlow := (htl.bounds hd).2.1
    unfold Blk.stop at hlow
    rw [set_outside (.inl (by omega)), set_outside (.inl (by omega))]
  · rw [htn, hne ht16 (by decide)]
    exact hh.size
  · rw [htn, hne ht16 (by decide)]
    exact hh.free
  · rw [htn, hne ht16 (by decide)]
    exact hh.magic
  · rw [htn, hne ht16 (by decide)]
    exact hh.prev
  · rw [htn, get_set_self hn]
    rfl
  · rw [hne hn16 (by decide), hnt]
    exact hb.size
  · rw [hne hn16 (by decide), hnt]
    exact hb.free
  · rw [hne hn16 (by decide), hnt]
    exact hb.magic
  · exact get_set_self (show t.addr < 2 ^ 32 by omega)
  · rw [hne hn16 (by decide), hnt]
    exact hb.next

theorem absorb_spec {t n : Blk} {e : Nat}
    (ht : Tiles a (l ++ [t, n]) e) (he : e < 2 ^ 32) (hs : Segment m 0 (l ++ [t, n]) 0) :
    Segment (set (set m t.addr .size (t.size + (16 + n.size))) t.addr .next 0) 0
      (l ++ [merged t n]) 0 := by
  obtain ⟨c, htl, hta, ht16, htpos, hts, hna, -, -, -, hstop⟩ := Tiles.append.1 ht
  have hstop : n.addr + 16 + n.size = e := hstop
  obtain ⟨hsl, hh, -⟩ := Segment.append.1 hs
  subst hta
  unfold Blk.stop at hna
  have hne : ∀ {m : FlatMem} {v : Nat} {f g : Field}, f ≠ g →
      get (set m t.addr f v) t.addr g = get m t.addr g := fun h => get_set_ne ht16 ht16 (.inr h)
  refine Segment.append.2 ⟨?_, ⟨?_, ?_, ?_, ?_, ?_⟩, trivial⟩
  · refine Segment.congr (fun d hd x h1 h2 => ?_) hsl
    have hlow := (htl.bounds hd).2.1
    unfold Blk.stop at hlow
    rw [set_outside (.inl (by omega)), set_outside (.inl (by omega))]
  · rw [merged, hne (by decide), get_set_self (show t.size + (16 + n.size) < 2 ^ 32 by omega)]
  · rw [merged, hne (by decide), hne (by decide)]
    exact hh.free
  · rw [merged, hne (by decide), hne (by decide)]
    exact hh.magic
  · rw [merged, hne (by decide), hne (by decide)]
    exact hh.prev
  · rw [merged, get_set_self (by decide)]
    rfl

/-! ## What a growth does -/

/-- The break is within the window that the kernel allows. -/
structure InWindow (h : ProgHeap) : Prop where
  low : heapStartVa ≤ h.brk
  high : h.brk ≤ userHeapMax

theorem first_of_tiles {bs : List Blk} {e : Nat} (h : Tiles a bs e) :
    first bs 0 = if e = a then 0 else a := by
  cases bs with
  | nil => exact (if_pos (Eq.symm h)).symm
  | cons b l =>
    have hle := Tiles.le h.2.2.2.2
    have haddr : b.addr = a := h.1
    unfold Blk.stop at hle
    rw [if_neg (by omega)]
    exact haddr

theorem appendBlock_spec {bs : List Blk} {size e : Nat}
    (ht : Tiles heapStartVa bs n) (hs : Segment m 0 bs 0) (hc : Coalesced bs)
    (hne : bs ≠ []) (he : e < 2 ^ 32) (hsize : 16 ∣ size) (hstop : n + 16 + size = e)
    (hb : HeaderOf m ⟨n, size, true⟩ 0 0) :
    ∃ l b, Segment (appendBlock m (last 0 bs) n) 0 (l ++ [b]) 0 ∧ Tiles heapStartVa (l ++ [b]) e ∧
      Coalesced (l ++ [b]) ∧ b.free = true ∧ size ≤ b.size ∧
      (∀ c ∈ bs, c.free = false → c ∈ l) ∧
      ∀ c ∈ bs, Kept m (appendBlock m (last 0 bs) n) c := by
  obtain ⟨l, t, hbs⟩ := (eq_nil_or_concat bs).resolve_left hne
  rw [concat_eq_append] at hbs
  subst hbs
  have hn16 : 16 ∣ n := tiles_stop_dvd ht (by decide)
  have hlast : last 0 (l ++ [t]) = t.addr := by rw [last_append]; rfl
  have hlinked := link_spec ht hs hn16 (by omega) hb
  have htiles : Tiles heapStartVa (l ++ [t, ⟨n, size, true⟩]) e := by
    have hpos : 0 < n := lt_of_lt_of_le (by decide) ht.le
    have hnb : Tiles n [⟨n, size, true⟩] e := ⟨rfl, hn16, hpos, hsize, hstop⟩
    have := Tiles.append.2 ⟨n, ht, hnb⟩
    rwa [append_assoc] at this
  obtain ⟨-, hh, hnb, -⟩ := Segment.append.1 hlinked
  rw [hlast]
  unfold appendBlock
  dsimp only
  rw [hh.free, hh.size, hnb.size]
  -- the headers are not in the payload of a block
  have hout : ∀ c ∈ l ++ [t], ∀ x, c.addr + 16 ≤ x → x < c.stop →
      (x < t.addr ∨ t.addr + 16 ≤ x) ∧ x < n := by
    intro c hc x h1 h2
    have hlow := (ht.bounds hc).2.1
    obtain heq | h | h := ht.apart hc (mem_append_right l (mem_singleton_self t))
    · rw [heq] at h1
      omega
    · omega
    · unfold Blk.stop at h
      omega
  have hkept : ∀ c ∈ l ++ [t], Kept m (set (set m t.addr .next n) n .prev t.addr) c := by
    intro c hc x h1 h2
    obtain ⟨ht, hlt⟩ := hout c hc x h1 h2
    rw [set_outside (.inl hlt), set_outside ht]
  by_cases hfree : t.free = true
  · rw [if_pos hfree, if_pos (by decide)]
    refine ⟨l, merged t ⟨n, size, true⟩, absorb_spec htiles he hlinked, ?_, ?_, hfree, ?_, ?_, ?_⟩
    · obtain ⟨c, htl, htn⟩ := Tiles.append.1 htiles
      exact Tiles.append.2 ⟨c, htl, merged_tiles htn⟩
    · obtain ⟨hl, -, hend⟩ := isChain_append.1 hc
      refine isChain_append.2 ⟨hl, .singleton _, fun x hx y hy => ?_⟩
      obtain rfl : merged t ⟨n, size, true⟩ = y := by simpa using hy
      exact hend x hx t rfl
    · unfold merged
      dsimp only
      omega
    · intro c hcl hcf
      obtain h | h := mem_append.mp hcl
      · exact h
      · rw [mem_singleton.mp h, hfree] at hcf
        cases hcf
    · intro c hc x h1 h2
      obtain ⟨ht, -⟩ := hout c hc x h1 h2
      rw [set_outside ht, set_outside ht]
      exact hkept c hc x h1 h2
  · rw [if_neg hfree, if_neg (by decide)]
    refine ⟨l ++ [t], ⟨n, size, true⟩, ?_, ?_, ?_, rfl, le_refl _, fun c h _ => h, hkept⟩
    · rw [append_assoc]
      exact hlinked
    · rw [append_assoc]
      exact htiles
    · refine isChain_append.2 ⟨hc, .singleton _, fun x hx y hy => ?_⟩
      obtain rfl : t = x := by simpa using hx
      simp [hfree]

/-- The sums of a growth stay below 2^32, or the one with the break wraps to an address below the
heap. -/
def Grows (brk atLeast : Nat) : Prop :=
  atLeast + 4095 < 2 ^ 32 ∧
    (brk + growth atLeast < 2 ^ 32 ∨ brk + growth atLeast - 2 ^ 32 < heapStartVa)

theorem growth_bounds (h : n + 4095 < 2 ^ 32) (hpos : 0 < n) :
    n ≤ growth n ∧ 4096 ≤ growth n ∧ 16 ∣ growth n ∧ growth n < 2 ^ 32 := by
  unfold growth
  rw [Nat.mod_eq_of_lt h]
  omega

theorem sysBrk_cases (h : ProgHeap) (want room : Nat) :
    (sysBrk h want room).2 = h.brk ∧ (sysBrk h want room).1.brk = h.brk ∧
        (sysBrk h want room).1.mem = h.mem ∨
      heapStartVa ≤ want ∧ want ≤ userHeapMax ∧ sysBrk h want room =
        ({ h with brk := want, mapped := max h.mapped (pageUp want) }, want) := by
  unfold sysBrk
  split
  · exact .inl ⟨rfl, rfl, rfl⟩
  · split
    · exact .inr ⟨by omega, by omega, rfl⟩
    · exact .inl ⟨rfl, rfl, rfl⟩

/-- **Growth.** It is refused and nothing has changed, or the list ends in a free block that is
large enough; the blocks in use are still there, with their bytes. -/
theorem growHeap_spec {h : ProgHeap} {bs : List Blk} (hok : h.region.Ok bs) (hw : InWindow h)
    {atLeast : Nat} (hpos : 0 < atLeast) (hg : Grows h.brk atLeast) (room : Nat) :
    (∃ h', growHeap h atLeast room = some (h', false) ∧ h'.mem = h.mem ∧ h'.brk = h.brk) ∨
      ∃ h' l b, growHeap h atLeast room = some (h', true) ∧ h'.region.Ok (l ++ [b]) ∧
        InWindow h' ∧ b.free = true ∧ atLeast ≤ b.size + 16 ∧
        (∀ c ∈ bs, c.free = false → c ∈ l) ∧ ∀ c ∈ bs, Kept h.mem h'.mem c := by
  obtain ⟨hsum, hwrap⟩ := hg
  obtain ⟨hn1, hn2, hn16, hn32⟩ := growth_bounds hsum hpos
  obtain ⟨hlo, hhi⟩ := hw
  unfold heapStartVa at hlo
  unfold growHeap
  dsimp only
  generalize hwant : (h.brk + growth atLeast) % 2 ^ 32 = want
  obtain ⟨hret, hbrk, hmem⟩ | ⟨hwlo, hwhi, hgot⟩ := sysBrk_cases h want room
  · refine .inl ⟨(sysBrk h want room).1, if_pos ?_, hmem, hbrk⟩
    rw [hret]
    omega
  · refine .inr ?_
    have hsum : want = h.brk + growth atLeast := by
      omega
    have hmapped : ¬max h.mapped (pageUp want) ≤ h.brk := by
      have : want ≤ pageUp want := by
        unfold pageUp
        omega
      have := le_max_right h.mapped (pageUp want)
      omega
    have hsize : (want + 2 ^ 32 - h.brk - 16) % 2 ^ 32 = growth atLeast - 16 := by omega
    rw [hgot, if_neg (not_not.mpr rfl), if_neg hmapped, hsize]
    have hbrk16 : 16 ∣ h.brk := 
      tiles_stop_dvd hok.tiles (show 16 ∣ heapStartVa by decide)
    obtain ⟨f1, f2, f3, f4, f5⟩ := setHeader_fields h.mem hbrk16
      (show growth atLeast - 16 < 2 ^ 32 by omega) (show 1 < 2 ^ 16 by omega)
      (show 0 < 2 ^ 32 by omega) (show 0 < 2 ^ 32 by omega)
    have hout : ∀ x, x < h.brk → setHeader h.mem h.brk (growth atLeast - 16) 1 0 0 x = h.mem x :=
      fun x hx => setHeader_outside (.inl hx)
    generalize setHeader h.mem h.brk (growth atLeast - 16) 1 0 0 = m at f1 f2 f3 f4 f5 hout ⊢
    have hheader : HeaderOf m ⟨h.brk, growth atLeast - 16, true⟩ 0 0 := ⟨f1, f2, f3, f4, f5⟩
    have hheadOf : ∀ m' k, heapHead ⟨m', want, k⟩ = heapStartVa := fun m' k =>
      if_neg (show ¬want = heapStartVa by unfold heapStartVa; omega)
    have hwindow : ∀ m' k, InWindow ⟨m', want, k⟩ := fun _ _ => ⟨hwlo, hwhi⟩
    have ht : Tiles heapStartVa bs h.brk := hok.tiles
    by_cases hempty : h.brk = heapStartVa
    · rw [if_pos hempty]
      have hbs : bs = [] := by
        cases bs with
        | nil => rfl
        | cons b l =>
          have := Tiles.le ht.2.2.2.2
          have haddr : b.addr = heapStartVa := ht.1
          unfold Blk.stop at this
          omega
      subst hbs
      refine ⟨_, [], ⟨h.brk, growth atLeast - 16, true⟩, rfl, ⟨?_, ⟨hheader, trivial⟩, ?_, ?_,
        .singleton _⟩, hwindow _ _, rfl, ?_, forall_mem_nil _, forall_mem_nil _⟩
      · exact (hheadOf _ _).trans hempty.symm
      · refine ⟨hempty, show 16 ∣ heapStartVa by decide, show 0 < heapStartVa by decide, ?_, ?_⟩
        · dsimp only
          omega
        · change h.brk + 16 + (growth atLeast - 16) = want
          omega
      · change want < 2 ^ 32
        omega
      · dsimp only
        omega
    · have hne : bs ≠ [] := by
        rintro rfl
        exact hempty ht.symm
      have hwne : ¬want = heapStartVa := by
        unfold heapStartVa
        omega
      have hfirst : first bs 0 = heapStartVa := by rw [first_of_tiles ht, if_neg hempty]
      have hseg : Segment m 0 bs 0 := by
        refine Segment.congr (fun c hc x h1 h2 => hout x ?_) hok.linked
        have := (ht.bounds hc).2.1
        unfold Blk.stop at this
        omega
      have hlen := ht.length_le
      have htail := heapTail_spec (maxBlocks + 1) bs ht hseg hne (by unfold maxBlocks; omega)
      rw [hfirst] at htail
      obtain ⟨l, b, hseg', ht', hc', hfree, hle, hused, hkept⟩ :=
        appendBlock_spec ht hseg hok.coalesced hne (show want < 2 ^ 32 by omega)
          (show 16 ∣ growth atLeast - 16 by omega)
          (show h.brk + 16 + (growth atLeast - 16) = want by omega) hheader
      rw [if_neg hempty, if_neg hwne, htail]
      refine ⟨_, l, b, rfl, ⟨?_, hseg', ht', ?_, hc'⟩, hwindow _ _, hfree, by omega, hused, ?_⟩
      · refine (hheadOf _ _).trans ?_
        rw [first_of_tiles ht', if_neg hwne]
      · change want < 2 ^ 32
        omega
      · intro c hc x h1 h2
        have := (ht.bounds hc).2.1
        exact (hkept c hc x h1 h2).trans (hout x (by omega))

/-! ## malloc on lists -/

theorem search_spec (want : Nat) : ∀ (fuel : Nat) (l : List Blk) {a e prev : Nat},
    Tiles a l e → Segment m prev l 0 → l.length < fuel →
      search m want fuel (first l 0) =
        (l.find? (fits want)).elim .absent fun b => .found b.addr
  | 0, l, _, _, _, _, _, h => absurd h (Nat.not_lt_zero _)
  | fuel + 1, [], _, _, _, _, _, _ => rfl
  | fuel + 1, b :: l, a, e, prev, ⟨_, _, hpos, _, hrest⟩, ⟨hb, hl⟩, h => by
    have ih := search_spec want fuel l hrest hl (by simpa using h)
    change search m want (fuel + 1) b.addr = _
    unfold search
    rw [if_neg (by omega), hb.magic, if_neg (by simp), hb.free, hb.size, hb.next, ih]
    by_cases hfit : fits want b = true
    · have hparts : b.free = true ∧ want ≤ b.size := by
        unfold fits at hfit
        simpa using hfit
      rw [List.find?_cons_of_pos hfit, if_neg]
      · rfl
      · rw [if_pos hparts.1]
        omega
    · rw [List.find?_cons_of_neg hfit, if_pos]
      unfold fits at hfit
      simp only [Bool.and_eq_true, decide_eq_true_eq, not_and] at hfit
      by_cases hfree : b.free = true
      · have := hfit hfree
        omega
      · rw [if_neg hfree]
        exact .inl rfl

/-- The region is a heap of the kernel's allocator with these live pointers. -/
structure Inv (h : ProgHeap) (live : List (Nat × Nat)) (bs : List Blk) : Prop where
  region : Kernel.Kmalloc.Sys.Inv ⟨h.region, live⟩ bs
  window : InWindow h

variable {h : ProgHeap} {live : List (Nat × Nat)} {bs : List Blk}

theorem Inv.search_eq (hi : Inv h live bs) (want : Nat) :
    search h.mem want (maxBlocks + 1) (heapHead h) =
      (bs.find? (fits want)).elim .absent fun b => .found b.addr := by
  have hlen := hi.region.ok.tiles.length_le
  have hbelow := hi.region.ok.below
  have hhead : heapHead h = first bs 0 := hi.region.ok.head
  rw [hhead]
  exact search_spec want _ bs hi.region.ok.tiles hi.region.ok.linked
    (by unfold maxBlocks; dsimp only at hlen hbelow; omega)

theorem Inv.kmalloc_eq (hi : Inv h live bs) {size : Nat} (hsize : size ≠ 0)
    (hfit : (bs.find? (fits (roundUp size))).isSome = true) (rooms : List Nat) :
    mallocLoop (roundUp size) rooms h =
        some ({ h with mem := (kmalloc h.region size).1.mem }, (kmalloc h.region size).2) ∧
      (kmalloc h.region size).1 =
        ProgHeap.region { h with mem := (kmalloc h.region size).1.mem } := by
  obtain ⟨b, hb⟩ := isSome_iff_exists.mp hfit
  have hsearch := hi.search_eq (roundUp size)
  have hlen := hi.region.ok.tiles.length_le
  have hbelow := hi.region.ok.below
  have hfind := findFit_spec (roundUp size) (maxBlocks + 1) bs hi.region.ok.tiles
    hi.region.ok.linked (by unfold maxBlocks; dsimp only at hlen hbelow; omega)
  rw [hb] at hsearch hfind
  rw [← hi.region.ok.head] at hfind
  have hk : kmalloc h.region size =
      ({ h.region with mem := carve h.mem b.addr (roundUp size) }, b.addr + 16) := by
    unfold kmalloc
    rw [if_neg hsize]
    dsimp only at hfind ⊢
    rw [hfind]
    rfl
  rw [hk]
  refine ⟨?_, rfl⟩
  unfold mallocLoop
  rw [hsearch]
  rfl

theorem Inv.grown (hi : Inv h live bs) {h' : ProgHeap} {b : Blk}
    (hok : h'.region.Ok (l ++ [b])) (hw : InWindow h') (hused : ∀ c ∈ bs, c.free = false → c ∈ l) :
    Inv h' live (l ++ [b]) where
  region :=
    { ok := hok
      owned := fun e he => by
        obtain ⟨c, hc, hf, ha, hs⟩ := hi.region.owned e he
        exact ⟨c, mem_append_left _ (hused c hc hf), hf, ha, hs⟩
      distinct := hi.region.distinct }
  window := hw

/-- The sizes that `malloc` can serve or refuse. -/
def Servable (brk size : Nat) : Prop :=
  size ≤ 0xFFFFFFF0 ∧ Grows brk (roundUp size + 16)

theorem Inv.growth (hi : Inv h live bs) {size : Nat} (hs : Servable h.brk size) (room : Nat) :
    (∃ h', growHeap h ((roundUp size + 16) % 2 ^ 32) room = some (h', false) ∧ Inv h' live bs ∧
        h'.mem = h.mem) ∨
      ∃ h' bs', growHeap h ((roundUp size + 16) % 2 ^ 32) room = some (h', true) ∧
        Inv h' live bs' ∧ (bs'.find? (fits (roundUp size))).isSome = true ∧
        ∀ c ∈ bs, c.free = false → c ∈ bs' ∧ Kept h.mem h'.mem c := by
  obtain ⟨-, hg⟩ := hs
  have hmod : (roundUp size + 16) % 2 ^ 32 = roundUp size + 16 := by
    have := hg.1
    omega
  rw [hmod]
  obtain ⟨h', hgrow, hmem, hbrk⟩ | ⟨h', l, b, hgrow, hok, hw, hfree, hlarge, hused, hkept⟩ :=
    growHeap_spec hi.region.ok hi.window (Nat.succ_pos _) hg room
  · have hregion : h'.region = h.region := by
      unfold ProgHeap.region heapHead
      rw [hmem, hbrk]
    refine .inl ⟨h', hgrow, ⟨?_, hi.window.low.trans_eq hbrk.symm, ?_⟩, hmem⟩
    · rw [hregion]
      exact hi.region
    · exact hbrk.trans_le hi.window.high
  · refine .inr ⟨h', l ++ [b], hgrow, hi.grown hok hw hused, ?_, fun c hc hcf =>
      ⟨mem_append_left _ (hused c hc hcf), hkept c hc⟩⟩
    rw [List.find?_isSome]
    refine ⟨b, mem_append_right _ (mem_singleton_self b), ?_⟩
    unfold fits
    rw [hfree, Bool.true_and, decide_eq_true_eq]
    omega

theorem Inv.kmalloc (hi : Inv h live bs) {size : Nat} (hle : size ≤ 0xFFFFFFF0) (h0 : size ≠ 0)
    (hfit : (bs.find? (fits (roundUp size))).isSome = true)
    (hr : mallocLoop (roundUp size) rooms h = some r) :
    ∃ bs', Inv r.1 (if r.2 = 0 then live else (r.2, size) :: live) bs' ∧
      ∀ c ∈ bs, c.free = false → c ∈ bs' ∧ Kept h.mem r.1.mem c := by
  obtain ⟨heq, hregion⟩ := hi.kmalloc_eq h0 hfit rooms
  rw [heq] at hr
  cases hr
  obtain ⟨bs', hinv, hstays⟩ := hi.region.malloc size hle
  rw [hregion] at hinv
  exact ⟨bs', ⟨hinv, hi.window.low, hi.window.high⟩, hstays⟩

/-- **What `malloc` does.** The blocks in use stay, with their bytes; the new pointer has a block
of its own. -/
theorem Inv.malloc (hi : Inv h live bs) {size : Nat} (hs : Servable h.brk size)
    (hr : malloc h size rooms = some r) :
    ∃ bs', Inv r.1 (if r.2 = 0 then live else (r.2, size) :: live) bs' ∧
      ∀ c ∈ bs, c.free = false → c ∈ bs' ∧ Kept h.mem r.1.mem c := by
  unfold Malloc.malloc at hr
  by_cases h0 : size = 0
  · rw [if_pos h0] at hr
    cases hr
    exact ⟨bs, hi, fun c hc _ => ⟨hc, fun _ _ _ => rfl⟩⟩
  rw [if_neg h0] at hr
  by_cases hfit : (bs.find? (fits (roundUp size))).isSome = true
  · exact hi.kmalloc hs.1 h0 hfit hr
  unfold mallocLoop at hr
  rw [hi.search_eq, not_isSome_iff_eq_none.mp hfit] at hr
  cases rooms with
  | nil => cases hr
  | cons room rooms =>
    dsimp only [Option.elim] at hr
    obtain ⟨h', hgrow, hi', hmem⟩ | ⟨h', bs₁, hgrow, hi', hfit', hstays₁⟩ := hi.growth hs room
    · rw [hgrow] at hr
      cases hr
      exact ⟨bs, hi', fun c hc _ => ⟨hc, fun x _ _ => congrFun hmem x⟩⟩
    · rw [hgrow] at hr
      obtain ⟨bs', hinv, hstays⟩ := hi'.kmalloc hs.1 h0 hfit' hr
      refine ⟨bs', hinv, fun c hc hcf => ?_⟩
      obtain ⟨hin₁, hk₁⟩ := hstays₁ c hc hcf
      obtain ⟨hin, hk⟩ := hstays c hin₁ hcf
      exact ⟨hin, fun x h1 h2 => (hk x h1 h2).trans (hk₁ x h1 h2)⟩

theorem Inv.malloc_returns (hi : Inv h live bs) {size : Nat} (hs : Servable h.brk size)
    (room : Nat) (rooms : List Nat) :
    (Malloc.malloc h size (room :: rooms)).isSome = true := by
  unfold Malloc.malloc
  by_cases h0 : size = 0
  · rw [if_pos h0]
    rfl
  rw [if_neg h0]
  by_cases hfit : (bs.find? (fits (roundUp size))).isSome = true
  · rw [(hi.kmalloc_eq h0 hfit (room :: rooms)).1]
    rfl
  unfold mallocLoop
  rw [hi.search_eq, not_isSome_iff_eq_none.mp hfit]
  dsimp only [Option.elim]
  obtain ⟨h', hgrow, -⟩ | ⟨h', bs₁, hgrow, hi', hfit', -⟩ := hi.growth hs room
  · rw [hgrow]
    rfl
  · rw [hgrow, bind_some, if_pos rfl, (hi'.kmalloc_eq h0 hfit' rooms).1]
    rfl

/-! ## Writing to a payload -/

theorem memset_outside {x : Nat} (hx : x < d ∨ d + n ≤ x) :
    memset m d n x = m x := by
  induction n generalizing m d with
  | zero => rfl
  | succ n ih =>
    unfold memset
    rw [ih (by omega), update_of_ne (by omega)]

theorem memcpy_outside {s x : Nat} (hx : x < d ∨ d + n ≤ x) :
    memcpy m d s n x = m x := by
  induction n generalizing m d s with
  | zero => rfl
  | succ n ih =>
    unfold memcpy
    rw [ih (by omega), update_of_ne (by omega)]

theorem memcpy_copies {s i : Nat} (hd : d + n ≤ s ∨ s + n ≤ d) (hi : i < n) :
    memcpy m d s n (d + i) = m (s + i) := by
  induction n generalizing m d s i with
  | zero => omega
  | succ n ih =>
    unfold memcpy
    cases i with
    | zero =>
      rw [memcpy_outside (.inl (by omega))]
      exact update_self _ _ _
    | succ i =>
      have hrest := ih (m := update m d (m s)) (d := d + 1) (s := s + 1) (i := i)
        (by omega) (by omega)
      rw [show d + (i + 1) = d + 1 + i by omega, hrest, update_of_ne (by omega),
        show s + (i + 1) = s + 1 + i by omega]

theorem Inv.write (hi : Inv h live bs) (he : e ∈ live)
    (hm : ∀ x, x < e.1 ∨ e.1 + e.2 ≤ x → m x = h.mem x) : Inv { h with mem := m } live bs where
  region :=
    { ok :=
        { hi.region.ok with
          linked := by
            refine Segment.congr (fun c hc x h1 h2 => hm x ?_) hi.region.ok.linked
            have := hi.region.payload_apart he hc
            omega }
      owned := hi.region.owned
      distinct := hi.region.distinct }
  window := ⟨hi.window.low, hi.window.high⟩

theorem kfree_region (k : Heap) (p : Nat) :
    kfree k p = ⟨(kfree k p).mem, k.head, k.start, k.stop⟩ := by
  unfold kfree
  by_cases hp : p = 0
  · rw [if_pos hp]
  · rw [if_neg hp]
    by_cases hm : get k.mem (p - 16) .magic ≠ kmMagic ∨ get k.mem (p - 16) .free ≠ 0
    · rw [if_pos hm]
    · rw [if_neg hm]

theorem Inv.free (hi : Inv h live bs) (hp : ∃ e ∈ live, e.1 = p) :
    ∃ bs', Inv (free h p) (live.filter fun e => e.1 ≠ p) bs' ∧
      ∀ c ∈ bs, c.free = false → c.addr + 16 ≠ p → c ∈ bs' ∧ Kept h.mem (free h p).mem c := by
  obtain ⟨bs', hinv, hstays⟩ := hi.region.free hp
  rw [kfree_region] at hinv
  exact ⟨bs', ⟨hinv, hi.window.low, hi.window.high⟩, hstays⟩

/-! ## Runs -/

/-- The heap, the live pointers with the sizes that were asked for, and what the last call
returned. -/
structure Prog where
  heap : ProgHeap
  live : List (Nat × Nat)
  ret : Nat

/-- `poke p i v`: the program writes the byte `i` of what it has at `p`. -/
inductive Call
  | malloc (size : Nat) (rooms : List Nat)
  | calloc (nm sz : Nat) (rooms : List Nat)
  | realloc (p n : Nat) (rooms : List Nat)
  | free (p : Nat)
  | poke (p i : Nat) (v : UInt8)

/-- Sizes are 32-bit, and only live pointers are passed. -/
def Legal (s : Prog) : Call → Prop
  | .malloc size _ => size < 2 ^ 32
  | .calloc nm sz _ => nm < 2 ^ 32 ∧ sz < 2 ^ 32
  | .realloc p n _ => n < 2 ^ 32 ∧ (p = 0 ∨ ∃ e ∈ s.live, e.1 = p)
  | .free p => p = 0 ∨ ∃ e ∈ s.live, e.1 = p
  | .poke p i _ => ∃ e ∈ s.live, e.1 = p ∧ i < e.2

instance (s : Prog) : (c : Call) → Decidable (Legal s c)
  | .malloc size _ => inferInstanceAs (Decidable (size < 2 ^ 32))
  | .calloc nm sz _ => inferInstanceAs (Decidable (nm < 2 ^ 32 ∧ sz < 2 ^ 32))
  | .realloc p n _ =>
    inferInstanceAs (Decidable (n < 2 ^ 32 ∧ (p = 0 ∨ ∃ e ∈ s.live, e.1 = p)))
  | .free p => inferInstanceAs (Decidable (p = 0 ∨ ∃ e ∈ s.live, e.1 = p))
  | .poke p i _ => inferInstanceAs (Decidable (∃ e ∈ s.live, e.1 = p ∧ i < e.2))

/-- The live pointers without `p`. -/
def without (live : List (Nat × Nat)) (p : Nat) : List (Nat × Nat) :=
  live.filter fun e => e.1 ≠ p

def Prog.run (s : Prog) : Call → Option Prog
  | .malloc size rooms =>
    (malloc s.heap size rooms).map fun r =>
      ⟨r.1, if r.2 = 0 then s.live else (r.2, size) :: s.live, r.2⟩
  | .calloc nm sz rooms =>
    (calloc s.heap nm sz rooms).map fun r =>
      ⟨r.1, if r.2 = 0 then s.live else (r.2, nm * sz) :: s.live, r.2⟩
  | .realloc p n rooms =>
    (realloc s.heap p n rooms).map fun r =>
      ⟨r.1, if r.2 ≠ 0 then (r.2, n) :: without s.live p
        else if n = 0 then without s.live p else s.live, r.2⟩
  | .free p => some ⟨free s.heap p, without s.live p, 0⟩
  | .poke p i v =>
    some { s with heap := { s.heap with mem := update s.heap.mem (p + i) v } }

def Prog.step (s : Prog) (c : Call) : Option Prog := if Legal s c then s.run c else none

def Prog.Init (s : Prog) : Prop := ∃ m mapped, s = ⟨⟨m, heapStartVa, mapped⟩, [], 0⟩

def heapLTS : LTS Prog Call := LTS.ofFn Prog.Init Prog.step

/-- No size wraps: neither the product of `calloc`, nor the sums on the way to a growth. A
product that wraps to 0 is refused. -/
def Careful (s : Prog) : Call → Prop
  | .malloc size _ => Servable s.heap.brk size
  | .calloc nm sz _ =>
    nm * sz % 2 ^ 32 = 0 ∨ nm * sz < 2 ^ 32 ∧ Servable s.heap.brk (nm * sz)
  | .realloc p n _ =>
    p ≠ 0 ∧ n ≤ get s.heap.mem (p - 16) .size ∨ Servable s.heap.brk n
  | _ => True

/-- What the call asks for, if it is a request. -/
def Call.size : Call → Option Nat
  | .malloc size _ => some size
  | .calloc nm sz _ => some (nm * sz)
  | .realloc _ n _ => if n = 0 then none else some n
  | _ => none

def Call.On : Call → Nat → Prop
  | .realloc q _ _, p => q = p
  | .free q, p => q = p
  | .poke q _ _, p => q = p
  | _, _ => False

/-- The kernel's answer to a growth is given. -/
def Call.Supplied : Call → Prop
  | .malloc _ rooms => rooms ≠ []
  | .calloc _ _ rooms => rooms ≠ []
  | .realloc _ _ rooms => rooms ≠ []
  | _ => True

def SameBytes (s s' : Prog) (e : Nat × Nat) : Prop :=
  ∀ i, i < e.2 → s'.heap.mem (e.1 + i) = s.heap.mem (e.1 + i)

/-- What a call does to the live pointers. -/
structure Keeps (s s' : Prog) (c : Call) : Prop where
  others : ∀ e ∈ s.live, ¬c.On e.1 → e ∈ s'.live ∧ SameBytes s s' e
  failing : c.size.isSome → s'.ret = 0 → s'.live = s.live ∧ ∀ e ∈ s.live, SameBytes s s' e
  given : ∀ n, c.size = some n → s'.ret ≠ 0 → (s'.ret, n) ∈ s'.live
  content : ∀ p n rooms old, c = .realloc p n rooms → s'.ret ≠ 0 → (p, old) ∈ s.live →
    ∀ i, i < min old n → s'.heap.mem (s'.ret + i) = s.heap.mem (p + i)

/-! ## One call -/

theorem Inv.block (hi : Inv h live bs) (he : e ∈ live) :
    ∃ c ∈ bs, c.free = false ∧ e.1 = c.addr + 16 ∧ e.2 ≤ c.size ∧
      get h.mem c.addr .size = c.size ∧ get h.mem c.addr .magic = kmMagic := by
  obtain ⟨c, hc, hf, ha, hs⟩ := hi.region.owned e he
  obtain ⟨l, k, hlk⟩ := append_of_mem hc
  have hlinked := hi.region.ok.linked
  rw [hlk] at hlinked
  obtain ⟨-, hh, -⟩ := Segment.append.1 hlinked
  exact ⟨c, hc, hf, ha, hs, hh.size, hh.magic⟩

theorem Inv.bytes (hi : Inv h live bs) (he : e ∈ live)
    (hk : ∀ c ∈ bs, c.free = false → c.addr + 16 ≠ p → Kept h.mem m c) (hp : e.1 ≠ p) :
    ∀ i, i < e.2 → m (e.1 + i) = h.mem (e.1 + i) := by
  obtain ⟨c, hc, hf, ha, hs, -⟩ := hi.block he
  intro i hlt
  refine hk c hc hf (fun heq => hp (ha.trans heq)) _ (by omega) ?_
  unfold Blk.stop
  omega

theorem Inv.live_pos (hi : Inv h live bs) (he : e ∈ live) : e.1 ≠ 0 := by
  obtain ⟨c, -, -, ha, -⟩ := hi.block he
  omega

theorem Inv.without_null (hi : Inv h live bs) : without live 0 = live := by
  refine filter_eq_self.mpr fun e he => ?_
  exact decide_eq_true (hi.live_pos he)

/-- A request is served: there is a new live pointer, or none; the others are as they were. -/
structure Served (s s' : Prog) (size : Nat) : Prop where
  inv : ∃ bs', Inv s'.heap s'.live bs'
  live : s'.live = if s'.ret = 0 then s.live else (s'.ret, size) :: s.live
  others : ∀ e ∈ s.live, SameBytes s s' e

theorem Served.keeps {size : Nat} (hs : Served s s' size)
    (hsize : ∀ n, c.size = some n → n = size)
    (hc : ∀ p n rooms old, c = .realloc p n rooms → (p, old) ∉ s.live) : Keeps s s' c where
  others e he _ := by
    refine ⟨?_, hs.others e he⟩
    rw [hs.live]
    split
    · exact he
    · exact mem_cons_of_mem _ he
  failing _ h0 := ⟨hs.live.trans (if_pos h0), hs.others⟩
  given n hn h0 := by
    obtain rfl := hsize n hn
    rw [hs.live, if_neg h0]
    exact mem_cons_self
  content p n rooms old heq _ hmem := absurd hmem (hc p n rooms old heq)

theorem malloc_served (hi : Inv s.heap s.live bs) {size : Nat}
    (hs : Servable s.heap.brk size)
    (hr : malloc s.heap size rooms = some r) :
    Served s ⟨r.1, if r.2 = 0 then s.live else (r.2, size) :: s.live, r.2⟩ size := by
  obtain ⟨bs', hinv, hstays⟩ := hi.malloc hs hr
  exact ⟨⟨bs', hinv⟩, rfl, fun e he =>
    hi.bytes he (fun c hc hf _ => (hstays c hc hf).2) (hi.live_pos he)⟩

theorem calloc_served (hi : Inv s.heap s.live bs) {nm sz : Nat}
    (hs : nm * sz % 2 ^ 32 = 0 ∨ nm * sz < 2 ^ 32 ∧ Servable s.heap.brk (nm * sz))
    (hr : calloc s.heap nm sz rooms = some r) :
    Served s ⟨r.1, if r.2 = 0 then s.live else (r.2, nm * sz) :: s.live, r.2⟩ (nm * sz) := by
  unfold calloc at hr
  obtain hzero | ⟨hlt, hs⟩ := hs
  · rw [hzero] at hr
    cases hr
    exact ⟨⟨bs, hi⟩, rfl, fun e _ i _ => rfl⟩
  rw [Nat.mod_eq_of_lt hlt] at hr
  obtain ⟨r₁, hr₁, rfl⟩ := map_eq_some_iff.mp hr
  have hserved := malloc_served hi hs hr₁
  by_cases h0 : r₁.2 = 0
  · rw [if_pos h0]
    exact hserved
  rw [if_neg h0]
  obtain ⟨bs', hinv⟩ := hserved.inv
  rw [if_neg h0] at hinv
  have hwrite := hinv.write mem_cons_self fun x hx => memset_outside hx
  refine ⟨⟨bs', ?_⟩, rfl, fun e he i hlt => ?_⟩
  · rw [if_neg h0]
    exact hwrite
  · -- the new pointer's bytes are not those of another one
    have hne := rel_of_pairwise_cons hinv.region.sound.disjoint he
    dsimp only at hne ⊢
    rw [memset_outside (by omega)]
    exact hserved.others e he i hlt

theorem mem_without {l : List (Nat × Nat)} (he : e ∈ l)
    (hne : e.1 ≠ p) : e ∈ without l p :=
  mem_filter.mpr ⟨he, decide_eq_true hne⟩

theorem free_keeps (hi : Inv s.heap s.live bs)
    (hp : ∃ e ∈ s.live, e.1 = p) :
    (∃ bs', Inv (free s.heap p) (without s.live p) bs') ∧
      ∀ e ∈ s.live, e.1 ≠ p → e ∈ without s.live p ∧
        SameBytes s ⟨free s.heap p, without s.live p, 0⟩ e := by
  obtain ⟨bs', hinv, hstays⟩ := hi.free hp
  exact ⟨⟨bs', hinv⟩, fun e he hne => ⟨mem_without he hne,
    hi.bytes he (fun c hc hf hca => (hstays c hc hf hca).2) hne⟩⟩

theorem Inv.resize (hi : Inv h live bs) (he : ∃ e ∈ live, e.1 = p)
    (hn : n ≤ get h.mem (p - 16) .size) : Inv h ((p, n) :: without live p) bs where
  region :=
    { ok := hi.region.ok
      owned := fun e hmem => by
        obtain rfl | hmem := mem_cons.mp hmem
        · obtain ⟨e₀, he₀, rfl⟩ := he
          obtain ⟨c, hc, hf, ha, -, hsize, -⟩ := hi.block he₀
          refine ⟨c, hc, hf, ha, ?_⟩
          rw [ha, Nat.add_sub_cancel, hsize] at hn
          exact hn
        · exact hi.region.owned e (mem_of_mem_filter hmem)
      distinct := by
        refine pairwise_cons.mpr ⟨fun e hmem heq => ?_, hi.region.distinct.filter _⟩
        exact absurd heq.symm (of_decide_eq_true (mem_filter.mp hmem).2) }
  window := hi.window

theorem move_keeps (hi : Inv s.heap s.live bs)
    (hp : ∃ e ∈ s.live, e.1 = p) (hn : get s.heap.mem (p - 16) .size < n)
    (hs : Servable s.heap.brk n) (hr : malloc s.heap n rooms = some r)
    (h0 : r.2 ≠ 0) :
    (∃ bs', Inv (moveTo r.1 r.2 p) ((r.2, n) :: without s.live p) bs') ∧
      (∀ e ∈ s.live, e.1 ≠ p → ∀ i, i < e.2 →
        (moveTo r.1 r.2 p).mem (e.1 + i) = s.heap.mem (e.1 + i)) ∧
      ∀ old, (p, old) ∈ s.live → ∀ i, i < old →
        (moveTo r.1 r.2 p).mem (r.2 + i) = s.heap.mem (p + i) := by
  obtain ⟨e₀, he₀, rfl⟩ := hp
  obtain ⟨bs', hinv, hstays⟩ := hi.malloc hs hr
  rw [if_neg h0] at hinv
  -- the block of the pointer is the same after `malloc`
  obtain ⟨c, hc, hcf, hca, -, hcsize, -⟩ := hi.block he₀
  obtain ⟨hc', hck⟩ := hstays c hc hcf
  obtain ⟨c', hc₁, -, hca', -, hcsize', -⟩ := hinv.block (mem_cons_of_mem _ he₀)
  obtain rfl : c = c' := hinv.region.ok.tiles.addr_inj hc' hc₁ (by omega)
  obtain ⟨u, hu, huf, hua, hun, -⟩ := hinv.block mem_cons_self
  rw [hca, Nat.add_sub_cancel] at hn
  rw [hcsize] at hn
  have hget : get r.1.mem (e₀.1 - 16) .size = c.size := by
    rw [hca, Nat.add_sub_cancel, hcsize']
  unfold moveTo
  rw [hget]
  have hqp : r.2 ≠ e₀.1 := rel_of_pairwise_cons hinv.region.distinct he₀
  have hapart : r.2 + n ≤ e₀.1 ∨ e₀.1 + c.size ≤ r.2 := by
    obtain heq | hlt | hlt := hinv.region.ok.tiles.apart hu hc'
    · rw [heq] at hua
      omega
    · unfold Blk.stop at hlt
      omega
    · unfold Blk.stop at hlt
      omega
  have hcopied := hinv.write (m := memcpy r.1.mem r.2 e₀.1 c.size) mem_cons_self
    fun x hx => memcpy_outside (by dsimp only at hx; omega)
  obtain ⟨bs₂, hfreed, hstays₂⟩ := hcopied.free ⟨e₀, mem_cons_of_mem _ he₀, rfl⟩
  have hbytes : ∀ e ∈ (r.2, n) :: s.live, e.1 ≠ e₀.1 → ∀ i, i < e.2 →
      (free { r.1 with mem := memcpy r.1.mem r.2 e₀.1 c.size } e₀.1).mem (e.1 + i) =
        memcpy r.1.mem r.2 e₀.1 c.size (e.1 + i) := fun e he hne =>
    hcopied.bytes he (fun c hc hf hca => (hstays₂ c hc hf hca).2) hne
  refine ⟨⟨bs₂, ?_⟩, fun e he hne i hi' => ?_, fun old hold i hlt => ?_⟩
  · have hdrop : without ((r.2, n) :: s.live) e₀.1 = (r.2, n) :: without s.live e₀.1 :=
      filter_cons_of_pos (decide_eq_true hqp)
    rw [← hdrop]
    exact hfreed
  · have hsep := rel_of_pairwise_cons hinv.region.sound.disjoint he
    rw [hbytes e (mem_cons_of_mem _ he) hne i hi', memcpy_outside (by omega)]
    exact hi.bytes he (fun c hc hf _ => (hstays c hc hf).2) (hi.live_pos he) i hi'
  · obtain ⟨d, hd, -, hda, hds, -⟩ := hi.block hold
    obtain rfl : d = c := hi.region.ok.tiles.addr_inj hd hc (by dsimp only at hda; omega)
    rw [hbytes (r.2, n) mem_cons_self hqp i (by dsimp only; omega)]
    rw [memcpy_copies (by omega) (by omega)]
    exact hi.bytes hold (fun c hc hf _ => (hstays c hc hf).2) (hi.live_pos hold) i hlt

theorem realloc_size {k : Nat}
    (h : (Call.realloc p n rooms).size = some k) : k = n := by
  change (if n = 0 then none else some n) = some k at h
  split at h
  · cases h
  · exact (Option.some.inj h).symm

theorem realloc_null (hi : Inv s.heap s.live bs)
    (hc : Careful s (.realloc 0 n rooms)) (hr : s.run (.realloc 0 n rooms) = some s') :
    (∃ bs', Inv s'.heap s'.live bs') ∧ Keeps s s' (.realloc 0 n rooms) := by
  obtain ⟨r, hmalloc, rfl⟩ := map_eq_some_iff.mp hr
  have hs : Servable s.heap.brk n := hc.resolve_left fun h => h.1 rfl
  have hserved := malloc_served hi hs (show malloc s.heap n rooms = some r from hmalloc)
  have hlive : (if r.2 ≠ 0 then (r.2, n) :: without s.live 0
      else if n = 0 then without s.live 0 else s.live) =
      if r.2 = 0 then s.live else (r.2, n) :: s.live := by
    rw [hi.without_null, ite_self]
    by_cases h0 : r.2 = 0
    · rw [if_pos h0, if_neg (not_not.mpr h0)]
    · rw [if_neg h0, if_pos h0]
  rw [hlive]
  refine ⟨hserved.inv, hserved.keeps (fun _ => realloc_size) fun p k _ old heq hmem => ?_⟩
  cases heq
  exact hi.live_pos hmem rfl

theorem realloc_keeps (hi : Inv s.heap s.live bs)
    (hp : ∃ e ∈ s.live, e.1 = p) (hc : Careful s (.realloc p n rooms))
    (hr : s.run (.realloc p n rooms) = some s') :
    (∃ bs', Inv s'.heap s'.live bs') ∧ Keeps s s' (.realloc p n rooms) := by
  obtain ⟨r, hcall, rfl⟩ := map_eq_some_iff.mp hr
  obtain ⟨e₀, he₀, hpe⟩ := hp
  have hp0 : p ≠ 0 := hpe ▸ hi.live_pos he₀
  have hon : ∀ e : Nat × Nat, ¬(Call.realloc p n rooms).On e.1 → e.1 ≠ p :=
    fun e h heq => h heq.symm
  unfold realloc at hcall
  rw [if_neg hp0] at hcall
  by_cases hn0 : n = 0
  · rw [if_pos hn0] at hcall
    cases hcall
    obtain ⟨hinv, hothers⟩ := free_keeps hi ⟨e₀, he₀, hpe⟩
    rw [if_neg (not_not.mpr rfl), if_pos hn0]
    have hsize : (Call.realloc p n rooms).size = none := if_pos hn0
    exact ⟨hinv,
      { others := fun e he h => hothers e he (hon e h)
        failing := fun h => by rw [hsize] at h; cases h
        given := fun _ _ h => absurd rfl h
        content := fun _ _ _ _ _ h => absurd rfl h }⟩
  rw [if_neg hn0] at hcall
  have hmagic : get s.heap.mem (p - 16) .magic = kmMagic := by
    obtain ⟨c, -, -, hca, -, -, hm⟩ := hi.block he₀
    rw [← hpe, hca, Nat.add_sub_cancel, hm]
  rw [if_neg (not_not.mpr hmagic)] at hcall
  by_cases hle : n ≤ get s.heap.mem (p - 16) .size
  · rw [if_pos hle] at hcall
    cases hcall
    rw [if_pos hp0]
    refine ⟨⟨bs, hi.resize ⟨e₀, he₀, hpe⟩ hle⟩, ?_⟩
    exact
      { others := fun e he h => ⟨mem_cons_of_mem _ (mem_without he (hon e h)), fun _ _ => rfl⟩
        failing := fun _ h => absurd h hp0
        given := fun k hk _ => realloc_size hk ▸ mem_cons_self
        content := fun q k _ old heq _ _ i _ => by cases heq; rfl }
  rw [if_neg hle] at hcall
  obtain ⟨r₁, hr₁, rfl⟩ := map_eq_some_iff.mp hcall
  have hs : Servable s.heap.brk n := hc.resolve_left fun h => hle h.2
  by_cases h0 : r₁.2 = 0
  · rw [if_pos h0, if_neg (not_not.mpr h0), if_neg hn0]
    have hserved := malloc_served hi hs hr₁
    obtain ⟨bs', hinv⟩ := hserved.inv
    rw [if_pos h0] at hinv
    exact ⟨⟨bs', hinv⟩,
      { others := fun e he _ => ⟨he, hserved.others e he⟩
        failing := fun _ _ => ⟨rfl, hserved.others⟩
        given := fun _ _ h => absurd h0 h
        content := fun _ _ _ _ _ h => absurd h0 h }⟩
  · rw [if_neg h0, if_pos h0]
    obtain ⟨hinv, hothers, hcontent⟩ :=
      move_keeps hi ⟨e₀, he₀, hpe⟩ (not_le.mp hle) hs hr₁ h0
    exact ⟨hinv,
      { others := fun e he h =>
          ⟨mem_cons_of_mem _ (mem_without he (hon e h)), hothers e he (hon e h)⟩
        failing := fun _ h => absurd h h0
        given := fun k hk _ => realloc_size hk ▸ mem_cons_self
        content := fun q k _ old heq _ hold i hlt => by
          cases heq
          exact hcontent old hold i (lt_of_lt_of_le hlt (min_le_left _ _)) }⟩

theorem Inv.step (hi : Inv s.heap s.live bs) (hc : Careful s c)
    (hs : s.step c = some s') : (∃ bs', Inv s'.heap s'.live bs') ∧ Keeps s s' c := by
  unfold Prog.step at hs
  split at hs
  swap
  · cases hs
  rename_i hl
  cases c with
  | malloc size rooms =>
    obtain ⟨r, hr, rfl⟩ := map_eq_some_iff.mp hs
    have hserved := malloc_served hi hc hr
    exact ⟨hserved.inv, hserved.keeps (fun _ h => (Option.some.inj h).symm) nofun⟩
  | calloc nm sz rooms =>
    obtain ⟨r, hr, rfl⟩ := map_eq_some_iff.mp hs
    have hserved := calloc_served hi hc hr
    exact ⟨hserved.inv, hserved.keeps (fun _ h => (Option.some.inj h).symm) nofun⟩
  | realloc p n rooms =>
    by_cases hp : p = 0
    · subst hp
      exact realloc_null hi hc hs
    · exact realloc_keeps hi (hl.2.resolve_left hp) hc hs
  | free p =>
    cases hs
    by_cases hp : p = 0
    · subst hp
      rw [hi.without_null]
      exact ⟨⟨bs, hi⟩, fun e he _ => ⟨he, fun _ _ => rfl⟩, nofun, nofun, nofun⟩
    · obtain ⟨hinv, hothers⟩ := free_keeps hi (hl.resolve_left hp)
      exact ⟨hinv, fun e he h => hothers e he fun heq => h heq.symm, nofun, nofun, nofun⟩
  | poke p i v =>
    cases hs
    obtain ⟨e, he, rfl, hlt⟩ := hl
    have hwrite := hi.write he (m := update s.heap.mem (e.1 + i) v)
      fun x hx => update_of_ne (by omega) _ _
    refine ⟨⟨bs, hwrite⟩, fun f hf hon => ⟨hf, fun j hj => ?_⟩, nofun, nofun, nofun⟩
    obtain ⟨c, hc, -, hca, hcs, -⟩ := hi.block he
    obtain ⟨d, hd, -, hda, hds, -⟩ := hi.block hf
    refine update_of_ne ?_ _ _
    obtain rfl | hlt | hlt := hi.region.ok.tiles.apart hc hd
    · exact absurd (hca.trans hda.symm) hon
    · unfold Blk.stop at hlt
      omega
    · unfold Blk.stop at hlt
      omega

theorem Inv.returns (hi : Inv s.heap s.live bs) (hc : Careful s c)
    (hl : Legal s c) (hs : c.Supplied) : (s.step c).isSome = true := by
  have hmalloc : ∀ {size : Nat} {rooms : List Nat}, Servable s.heap.brk size → rooms ≠ [] →
      (Malloc.malloc s.heap size rooms).isSome = true := by
    intro size rooms hsize hne
    cases rooms with
    | nil => exact absurd rfl hne
    | cons room rooms => exact hi.malloc_returns hsize room rooms
  unfold Prog.step
  rw [if_pos hl]
  cases c with
  | malloc size rooms =>
    unfold Prog.run
    rw [isSome_map]
    exact hmalloc hc hs
  | calloc nm sz rooms =>
    unfold Prog.run calloc
    rw [isSome_map, isSome_map]
    obtain hzero | ⟨hlt, hsize⟩ := hc
    · rw [hzero]
      rfl
    · rw [Nat.mod_eq_of_lt hlt]
      exact hmalloc hsize hs
  | realloc p n rooms =>
    unfold Prog.run realloc
    rw [isSome_map]
    by_cases hp : p = 0
    · rw [if_pos hp]
      exact hmalloc (hc.resolve_left fun h => h.1 hp) hs
    rw [if_neg hp]
    split
    · rfl
    · split
      · rfl
      · split
        · rfl
        · rename_i hlarge
          rw [isSome_map]
          exact hmalloc (hc.resolve_left fun h => hlarge h.2) hs
  | free p => rfl
  | poke p i v => rfl

theorem inv_inductive :
    (heapLTS.restrict Careful).Inductive fun s => ∃ bs, Inv s.heap s.live bs where
  init s hs := by
    obtain ⟨m, mapped, rfl⟩ := hs
    have hempty : Kernel.Kmalloc.Sys.Inv ⟨ProgHeap.region ⟨m, heapStartVa, mapped⟩, []⟩ [] :=
      { ok := ⟨rfl, trivial, rfl, show heapStartVa < 2 ^ 32 by decide, .nil⟩
        owned := forall_mem_nil _
        distinct := .nil }
    exact ⟨[], hempty, ⟨le_refl heapStartVa, show heapStartVa ≤ userHeapMax by decide⟩⟩
  step s c s' hi hs := by
    obtain ⟨bs, hi⟩ := hi
    exact (hi.step hs.1 hs.2).1

/-- **The heap of a program.** In every run whose calls are `Careful`, between the calls: the
blocks tile the region up to the break, no two free ones in a row; every live pointer is aligned
and has a block of its own with at least the bytes that were asked for. The next such call
returns; it leaves the other live pointers with their bytes, a request that fails leaves them all,
and `realloc` keeps the content. -/
theorem malloc_sound (s : Prog) (hs : (heapLTS.restrict Careful).Reachable s) :
    ∃ bs, Kernel.Kmalloc.Sys.Sound ⟨s.heap.region, s.live⟩ bs ∧ ∀ c, Careful s c →
      (∀ s', s.step c = some s' → Keeps s s' c) ∧
        (Legal s c → c.Supplied → (s.step c).isSome = true) := by
  obtain ⟨bs, hi⟩ := inv_inductive.reachable s hs
  exact ⟨bs, hi.region.sound, fun c hc =>
    ⟨fun s' h => (hi.step hc h).2, fun hl hsup => hi.returns hc hl hsup⟩⟩

instance (brk n : Nat) : Decidable (Grows brk n) := inferInstanceAs (Decidable (_ ∧ _))

instance (brk n : Nat) : Decidable (Servable brk n) := inferInstanceAs (Decidable (_ ∧ _))

instance (s : Prog) : (c : Call) → Decidable (Careful s c)
  | .malloc size _ => inferInstanceAs (Decidable (Servable s.heap.brk size))
  | .calloc .. => inferInstanceAs (Decidable (_ ∨ _))
  | .realloc .. => inferInstanceAs (Decidable (_ ∨ _))
  | .free _ => .isTrue trivial
  | .poke .. => .isTrue trivial

def started : Prog := ⟨⟨fun _ => 0, heapStartVa, heapStartVa⟩, [], 0⟩

theorem started_init : heapLTS.init started := ⟨_, _, rfl⟩

/-- Two requests; the first pointer is enlarged and moves, the second is released. -/
theorem two_requests_sound :
    ∃ s, s.live = [(0x40200060, 100)] ∧ ∃ bs,
      Kernel.Kmalloc.Sys.Sound ⟨s.heap.region, s.live⟩ bs ∧ ∀ c, Careful s c →
        (∀ s', s.step c = some s' → Keeps s s' c) ∧
          (Legal s c → c.Supplied → (s.step c).isSome = true) := by
  have hrun : (LTS.exec (LTS.guarded Careful Prog.step) started [.malloc 20 [2],
      .calloc 4 2 [], .realloc 0x40200010 100 [], .free 0x40200040]).map Prog.live =
        some [(0x40200060, 100)] := by
    decide +kernel
  obtain ⟨s, hs, hlive⟩ := map_eq_some_iff.mp hrun
  exact ⟨s, hlive, malloc_sound s ⟨started, _, started_init, LTS.run_restrict_of_exec hs⟩⟩

/-- `malloc(0xFFFFFFFF)` is rounded up to 0 and gets an empty block; `calloc(65536, 65537)` gets
65536 bytes. -/
theorem huge_malloc_gets_empty_block :
    ¬∀ s, heapLTS.Reachable s →
      ∃ bs, Kernel.Kmalloc.Sys.Sound ⟨s.heap.region, s.live⟩ bs := by
  intro hall
  have hrun : (LTS.exec Prog.step started [.malloc 0xFFFFFFFF [1]]).map
      (fun s => (s.live, s.heap.brk)) = some ([(0x40200010, 0xFFFFFFFF)], 0x40201000) := by
    decide +kernel
  obtain ⟨s, hs, he⟩ := map_eq_some_iff.mp hrun
  obtain ⟨hlive, hbrk⟩ := Prod.mk.inj he
  obtain ⟨bs, hsound⟩ := hall s ⟨started, _, started_init, LTS.run_of_exec hs⟩
  obtain ⟨b, hb, -, -, hsize⟩ := hsound.backed (0x40200010, 0xFFFFFFFF) (by rw [hlive]; simp)
  have hstop : b.stop ≤ s.heap.brk := (hsound.heap.tiles.bounds hb).2.1
  unfold Blk.stop at hstop
  omega

end AdventOS.Libc.Malloc
