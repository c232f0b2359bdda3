import AdventOS.Core.LTS
import AdventOS.Core.FlatMem

/-!
# The kernel heap (`kernel/kmalloc.c`)

`kmalloc` and `kfree` on the memory they run on: every header is read from and
written to the bytes of the heap, and the owner of a block may write to its
payload at any time. Pointers are addresses, NULL is 0; sizes are 32-bit.

`Segment` says that a list of blocks is threaded through memory between two
neighbours; `Heap.Ok` that the whole list tiles the heap.

* `kmalloc_spec`, `kfree_spec`: what the two operations do to the block list;
* `heap_sound`: the heap invariant over every run without sizes above 2^32 - 16;
* `huge_request_gets_small_block`: such a size is rounded up to 0.
-/
namespace AdventOS.Kernel.Kmalloc
open Function List

/-! ## Headers -/

/-- kmalloc.c:17-23, on a 32-bit machine. -/
inductive Field
  | size
  | free
  | magic
  | prev
  | next
  deriving DecidableEq

def Field.off : Field → Nat
  | .size => 0
  | .free => 4
  | .magic => 6
  | .prev => 8
  | .next => 12

def Field.width : Field → Nat
  | .free => 2
  | .magic => 2
  | _ => 4

def get (m : FlatMem) (b : Nat) (f : Field) : Nat := m.load (b + f.off) f.width

def set (m : FlatMem) (b : Nat) (f : Field) (v : Nat) : FlatMem := m.store (b + f.off) f.width v

def kmMagic : Nat := 0xCAFE

theorem Field.off_le (f : Field) : f.off + f.width ≤ 16 := by cases f <;> decide

variable {f : Field} {m : FlatMem} {b c n : Blk} {a e next p prev v want x : Nat}
  {bs k l : List Blk} {s : Sys}

theorem Field.sep {g : Field} (h : f ≠ g) :
    g.off + g.width ≤ f.off ∨ f.off + f.width ≤ g.off := by
  cases f <;> cases g <;> first | exact absurd rfl h | decide

theorem get_set_self {b : Nat} (h : v < 256 ^ f.width) :
    get (set m b f v) b f = v :=
  FlatMem.load_store_self h

theorem get_set_ne {b : Nat} {g : Field} (ha : 16 ∣ a) (hb : 16 ∣ b)
    (h : a ≠ b ∨ f ≠ g) : get (set m a f v) b g = get m b g := by
  have hf := f.off_le
  have hg := g.off_le
  apply FlatMem.load_store_sep
  by_cases hab : a = b
  · have hfg : f ≠ g := by
      rcases h with h | h
      · exact absurd hab h
      · exact h
    have := Field.sep hfg
    omega
  · omega

theorem set_outside {b : Nat} (h : x < b ∨ b + 16 ≤ x) :
    set m b f v x = m x := by
  have := f.off_le
  exact FlatMem.store_outside (by omega)

theorem get_congr {m' : FlatMem} {b : Nat} (h : ∀ x, b ≤ x → x < b + 16 → m' x = m x)
    (f : Field) : get m' b f = get m b f := by
  have := f.off_le
  exact FlatMem.load_congr fun x h1 h2 => h x (by omega) (by omega)

/-! ## The functions -/

/-- kmalloc.c:27-30 -/
structure Heap where
  mem : FlatMem
  head : Nat
  start : Nat
  stop : Nat

/-- kmalloc.c:32-34 for `size_t`, with `KMALLOC_ALIGN` = 16. -/
def roundUp (v : Nat) : Nat := (v + 15) % 2 ^ 32 / 16 * 16

/-- A whole header. -/
def setHeader (m : FlatMem) (b size free prev next : Nat) : FlatMem :=
  let m := set m b .size size
  let m := set m b .free free
  let m := set m b .magic kmMagic
  let m := set m b .prev prev
  set m b .next next

/-- kmalloc.c:44-63 -/
def kmallocInit (m : FlatMem) (start stop : Nat) : Heap :=
  let s := roundUp start
  let e := stop / 16 * 16
  if e < (s + 16 + 16) % 2 ^ 32 then ⟨m, 0, s, s⟩
  else ⟨setHeader m s (e - s - 16) 1 0 0, s, s, e⟩

/-- The first block from `b` on that is free and large enough. `none` is NULL: the
list ended or a header is damaged. kmalloc.c:71-77 -/
def findFit (m : FlatMem) (want : Nat) : (fuel b : Nat) → Option Nat
  | 0, _ => none
  | fuel + 1, b =>
    if b = 0 then none
    else if get m b .magic ≠ kmMagic then none
    else if get m b .free = 0 ∨ get m b .size < want then findFit m want fuel (get m b .next)
    else some b

/-- kmalloc.c:79-94 -/
def carve (m : FlatMem) (b want : Nat) : FlatMem :=
  let leftover := get m b .size - want
  let m :=
    if leftover ≥ 16 + 16 then
      let n := b + 16 + want
      let m := setHeader m n (leftover - 16) 1 b (get m b .next)
      let m := if get m b .next ≠ 0 then set m (get m b .next) .prev n else m
      let m := set m b .next n
      set m b .size want
    else m
  set m b .free 0

/-- Every block has at least 16 bytes, so no list of blocks in a 32-bit space is
longer. -/
def maxBlocks : Nat := 2 ^ 28

/-- kmalloc.c:65-101: the heap and the pointer, 0 for NULL. -/
def kmalloc (h : Heap) (size : Nat) : Heap × Nat :=
  if size = 0 then (h, 0)
  else
    let want := roundUp size
    match findFit h.mem want (maxBlocks + 1) h.head with
    | none => (h, 0)
    | some b => ({ h with mem := carve h.mem b want }, b + 16)

/-- kmalloc.c:122-129 -/
def mergeNext (m : FlatMem) (b : Nat) : FlatMem :=
  let n := get m b .next
  let m := set m b .size (get m b .size + (16 + get m n .size))
  let m := set m b .next (get m n .next)
  let m := if get m n .next ≠ 0 then set m (get m n .next) .prev b else m
  set m n .magic 0

/-- kmalloc.c:131-138 -/
def mergePrev (m : FlatMem) (b : Nat) : FlatMem :=
  let pp := get m b .prev
  let m := set m pp .size (get m pp .size + (16 + get m b .size))
  let m := set m pp .next (get m b .next)
  let m := if get m b .next ≠ 0 then set m (get m b .next) .prev pp else m
  set m b .magic 0

/-- kmalloc.c:109-141 -/
def kfree (h : Heap) (p : Nat) : Heap :=
  if p = 0 then h
  else
    let b := p - 16
    if get h.mem b .magic ≠ kmMagic ∨ get h.mem b .free ≠ 0 then h
    else
      let m := set h.mem b .free 1
      let m := if get m b .next ≠ 0 ∧ get m (get m b .next) .free ≠ 0 then mergeNext m b else m
      let m := if get m b .prev ≠ 0 ∧ get m (get m b .prev) .free ≠ 0 then mergePrev m b else m
      { h with mem := m }

/-! ## Lists of blocks -/

structure Blk where
  addr : Nat
  size : Nat
  free : Bool
  deriving DecidableEq

def Blk.stop (b : Blk) : Nat := b.addr + 16 + b.size

def first (l : List Blk) (d : Nat) : Nat :=
  match l with
  | [] => d
  | b :: _ => b.addr

def last (d : Nat) : List Blk → Nat
  | [] => d
  | b :: l => last b.addr l

/-- The header of `b` in memory, with its neighbours. -/
structure HeaderOf (m : FlatMem) (b : Blk) (prev next : Nat) : Prop where
  size : get m b.addr .size = b.size
  free : get m b.addr .free = if b.free then 1 else 0
  magic : get m b.addr .magic = kmMagic
  prev : get m b.addr .prev = prev
  next : get m b.addr .next = next

/-- The blocks of `l` are linked in this order, after `prev` and before `next`. -/
def Segment (m : FlatMem) (prev : Nat) : List Blk → (next : Nat) → Prop
  | [], _ => True
  | b :: l, next => HeaderOf m b prev (first l next) ∧ Segment m b.addr l next

/-- The blocks cover `[a, e)` one after the other, aligned and not at NULL. -/
def Tiles : (a : Nat) → List Blk → (e : Nat) → Prop
  | a, [], e => a = e
  | a, b :: l, e => b.addr = a ∧ 16 ∣ a ∧ 0 < a ∧ 16 ∣ b.size ∧ Tiles b.stop l e

@[simp] theorem first_append (l k : List Blk) (d : Nat) :
    first (l ++ k) d = first l (first k d) := by
  cases l <;> rfl

@[simp] theorem last_append (l k : List Blk) (d : Nat) : last d (l ++ k) = last (last d l) k := by
  induction l generalizing d with
  | nil => rfl
  | cons b l ih => exact ih b.addr

theorem Segment.append :
    Segment m prev (l ++ k) next ↔
      Segment m prev l (first k next) ∧ Segment m (last prev l) k next := by
  induction l generalizing prev with
  | nil => simp [Segment, last]
  | cons b l ih =>
    simp only [cons_append, Segment, last, first_append, ih, and_assoc]

theorem Tiles.append :
    Tiles a (l ++ k) e ↔ ∃ c, Tiles a l c ∧ Tiles c k e := by
  induction l generalizing a with
  | nil => simp [Tiles]
  | cons b l ih =>
    simp only [cons_append, Tiles, ih]
    constructor
    · intro ⟨h1, h2, h3, h4, c, h5, h6⟩
      exact ⟨c, ⟨h1, h2, h3, h4, h5⟩, h6⟩
    · intro ⟨c, ⟨h1, h2, h3, h4, h5⟩, h6⟩
      exact ⟨h1, h2, h3, h4, c, h5, h6⟩

theorem Tiles.le (h : Tiles a l e) : a ≤ e := by
  induction l generalizing a with
  | nil => exact Nat.le_of_eq h
  | cons b l ih =>
    obtain ⟨h1, -, -, -, h5⟩ := h
    have := ih h5
    unfold Blk.stop at this
    omega

theorem Tiles.bounds (h : Tiles a l e) (hb : b ∈ l) :
    a ≤ b.addr ∧ b.stop ≤ e ∧ 16 ∣ b.addr ∧ 0 < b.addr ∧ 16 ∣ b.size := by
  induction l generalizing a with
  | nil => cases hb
  | cons c l ih =>
    obtain ⟨h1, h2, h3, h4, h5⟩ := h
    rcases mem_cons.1 hb with rfl | hb
    · have := h5.le
      rw [h1]
      exact ⟨Nat.le_refl a, this, h2, h3, h4⟩
    · obtain ⟨g1, g2, g3, g4, g5⟩ := ih h5 hb
      unfold Blk.stop at g1
      exact ⟨by omega, g2, g3, g4, g5⟩

theorem Tiles.apart (h : Tiles a l e) (hb : b ∈ l)
    (hc : c ∈ l) : b = c ∨ b.stop ≤ c.addr ∨ c.stop ≤ b.addr := by
  induction l generalizing a with
  | nil => cases hb
  | cons d l ih =>
    obtain ⟨-, -, -, -, h5⟩ := h
    rcases mem_cons.1 hb with hbd | hbl
    · rcases mem_cons.1 hc with hcd | hcl
      · exact .inl (hbd.trans hcd.symm)
      · exact .inr (.inl (hbd ▸ (h5.bounds hcl).1))
    · rcases mem_cons.1 hc with hcd | hcl
      · exact .inr (.inr (hcd ▸ (h5.bounds hbl).1))
      · exact ih h5 hbl hcl

theorem Segment.congr {m' : FlatMem}
    (h : ∀ b ∈ l, ∀ x, b.addr ≤ x → x < b.addr + 16 → m' x = m x)
    (hs : Segment m prev l next) : Segment m' prev l next := by
  induction l generalizing prev with
  | nil => trivial
  | cons b l ih =>
    obtain ⟨hb, hl⟩ := hs
    have hg := get_congr (h b mem_cons_self)
    refine ⟨⟨?_, ?_, ?_, ?_, ?_⟩, ih (fun c hc => h c (mem_cons_of_mem _ hc)) hl⟩
    · rw [hg]; exact hb.size
    · rw [hg]; exact hb.free
    · rw [hg]; exact hb.magic
    · rw [hg]; exact hb.prev
    · rw [hg]; exact hb.next

theorem Segment.setPrev (ht : Tiles a l e) (hp : p < 2 ^ 32) (hs : Segment m prev l next) :
    Segment (if first l 0 ≠ 0 then set m (first l 0) .prev p else m) p l next := by
  cases l with
  | nil => trivial
  | cons b l =>
    obtain ⟨hb, hl⟩ := hs
    obtain ⟨rfl, h2, h3, -, h5⟩ := ht
    change Segment (if b.addr ≠ 0 then set m b.addr .prev p else m) p (b :: l) next
    rw [if_pos (by omega)]
    refine ⟨⟨?_, ?_, ?_, get_set_self hp, ?_⟩, ?_⟩
    · rw [get_set_ne h2 h2 (.inr (by decide))]; exact hb.size
    · rw [get_set_ne h2 h2 (.inr (by decide))]; exact hb.free
    · rw [get_set_ne h2 h2 (.inr (by decide))]; exact hb.magic
    · rw [get_set_ne h2 h2 (.inr (by decide))]; exact hb.next
    · refine Segment.congr (fun c hc x h1 _ => set_outside (.inr ?_)) hl
      have := (h5.bounds hc).1
      unfold Blk.stop at this
      omega

/-- Setting the `prev` field of the header at `x`, if that is not NULL, as seen from
other headers. -/
theorem get_setPrev_ne (ha : 16 ∣ a)
    (hx : x = 0 ∨ 16 ∣ x ∧ x ≠ a) :
    get (if x ≠ 0 then set m x .prev p else m) a f = get m a f := by
  split
  · rename_i hne
    rcases hx with h0 | ⟨hd, hxa⟩
    · exact absurd h0 hne
    · exact get_set_ne hd ha (.inl hxa)
  · rfl

theorem setPrev_outside {y : Nat} (h : x = 0 ∨ y < x ∨ x + 16 ≤ y) :
    (if x ≠ 0 then set m x .prev p else m) y = m y := by
  split
  · rename_i hne
    refine set_outside ?_
    rcases h with h0 | h
    · exact absurd h0 hne
    · exact h
  · rfl

theorem Tiles.first_eq (h : Tiles a l e) :
    first l 0 = 0 ∨ first l 0 = a ∧ 16 ∣ a := by
  cases l with
  | nil => exact .inl rfl
  | cons b l => exact .inr ⟨h.1, h.2.1⟩

theorem setHeader_fields (m : FlatMem) {b size free : Nat} (hb : 16 ∣ b)
    (hs : size < 2 ^ 32) (hf : free < 2 ^ 16) (hp : prev < 2 ^ 32) (hn : next < 2 ^ 32) :
    get (setHeader m b size free prev next) b .size = size ∧
      get (setHeader m b size free prev next) b .free = free ∧
      get (setHeader m b size free prev next) b .magic = kmMagic ∧
      get (setHeader m b size free prev next) b .prev = prev ∧
      get (setHeader m b size free prev next) b .next = next := by
  have hne : ∀ {m : FlatMem} {v : Nat} {f g : Field}, f ≠ g →
      get (set m b f v) b g = get m b g := fun h => get_set_ne hb hb (.inr h)
  have hmagic : kmMagic < 256 ^ Field.magic.width := by decide
  unfold setHeader
  refine ⟨?_, ?_, ?_, ?_, get_set_self hn⟩
  · rw [hne (by decide), hne (by decide), hne (by decide), hne (by decide), get_set_self hs]
  · rw [hne (by decide), hne (by decide), hne (by decide), get_set_self hf]
  · rw [hne (by decide), hne (by decide), get_set_self hmagic]
  · rw [hne (by decide), get_set_self hp]

theorem setHeader_outside {b size free : Nat}
    (h : x < b ∨ b + 16 ≤ x) : setHeader m b size free prev next x = m x := by
  unfold setHeader
  rw [set_outside h, set_outside h, set_outside h, set_outside h, set_outside h]

/-! ## kmalloc on lists -/

theorem Segment.setFree
    (ht : Tiles a (l ++ b :: k) e) (hs : Segment m prev (l ++ b :: k) 0) (f : Bool) :
    Segment (set m b.addr .free (if f then 1 else 0)) prev (l ++ { b with free := f } :: k) 0 := by
  obtain ⟨c, htl, hbc, hb16, -, -, htk⟩ := Tiles.append.1 ht
  rw [Segment.append] at hs
  obtain ⟨hsl, hb, hsk⟩ := hs
  have hne : ∀ {m : FlatMem} {v : Nat} {f g : Field}, f ≠ g →
      get (set m b.addr f v) b.addr g = get m b.addr g := by
    intro m v f g h
    exact get_set_ne (hbc ▸ hb16) (hbc ▸ hb16) (.inr h)
  rw [Segment.append]
  refine ⟨?_, ⟨?_, ?_, ?_, ?_, ?_⟩, ?_⟩
  · refine Segment.congr (fun d hd x h1 h2 => set_outside (.inl ?_)) hsl
    have := (htl.bounds hd).2.1
    unfold Blk.stop at this
    omega
  · rw [hne (by decide)]
    exact hb.size
  · exact get_set_self (by cases f <;> decide)
  · rw [hne (by decide)]
    exact hb.magic
  · rw [hne (by decide)]
    exact hb.prev
  · rw [hne (by decide)]
    exact hb.next
  · refine Segment.congr (fun d hd x h1 _ => set_outside (.inr ?_)) hsk
    have := (htk.bounds hd).1
    unfold Blk.stop at this
    omega

/-- What `kmalloc` does with the block it takes. -/
def carved (b : Blk) (want : Nat) : List Blk :=
  if b.size - want ≥ 32 then
    [⟨b.addr, want, false⟩, ⟨b.addr + 16 + want, b.size - want - 16, true⟩]
  else [{ b with free := false }]

def fits (want : Nat) (b : Blk) : Bool := b.free && want ≤ b.size

theorem findFit_spec (want : Nat) : ∀ (fuel : Nat) (l : List Blk) {a e prev : Nat},
    Tiles a l e → Segment m prev l 0 → l.length < fuel →
      findFit m want fuel (first l 0) = (l.find? (fits want)).map Blk.addr
  | 0, l, _, _, _, _, _, h => absurd h (Nat.not_lt_zero _)
  | fuel + 1, [], _, _, _, _, _, _ => rfl
  | fuel + 1, b :: l, a, e, prev, ht, hs, h => by
    obtain ⟨hb, hl⟩ := hs
    obtain ⟨ha, -, hpos, -, hrest⟩ := ht
    have ih := findFit_spec want fuel l hrest hl (by simpa using h)
    change findFit m want (fuel + 1) b.addr = _
    unfold findFit
    rw [if_neg (by omega), hb.magic, if_neg (by simp), hb.free, hb.size, hb.next, ih]
    by_cases hfit : fits want b = true
    · rw [List.find?_cons_of_pos hfit, if_neg]
      · rfl
      · unfold fits at hfit
        simp only [Bool.and_eq_true, decide_eq_true_eq] at hfit
        rw [hfit.1]
        simp only [if_true]
        omega
    · rw [List.find?_cons_of_neg hfit, if_pos]
      unfold fits at hfit
      simp only [Bool.and_eq_true, decide_eq_true_eq, not_and] at hfit
      by_cases hfree : b.free = true
      · have := hfit hfree
        omega
      · rw [if_neg hfree]
        exact .inl rfl

theorem carved_tiles (hw : 16 ∣ want) (hle : want ≤ b.size)
    (h : Tiles a [b] e) : Tiles a (carved b want) e := by
  obtain ⟨h1, h2, h3, h4, h5⟩ := h
  have he : b.addr + 16 + b.size = e := h5
  unfold carved
  split
  · refine ⟨h1, h2, h3, hw, rfl, ?_, ?_, ?_, ?_⟩
    · unfold Blk.stop
      dsimp only
      omega
    · unfold Blk.stop
      omega
    · dsimp only
      omega
    · change b.addr + 16 + want + 16 + (b.size - want - 16) = e
      omega
  · exact ⟨h1, h2, h3, h4, h5⟩

/-- The memory that `carve` leaves holds the carved list, and nothing has changed
outside the block but the header behind it. -/
theorem carve_spec
    (ht : Tiles a (l ++ b :: k) e) (he : e < 2 ^ 32) (hs : Segment m prev (l ++ b :: k) 0)
    (hw : 16 ∣ want) (hle : want ≤ b.size) :
    Segment (carve m b.addr want) prev (l ++ (carved b want ++ k)) 0 ∧
      ∀ x, x < b.addr ∨ b.stop + 16 ≤ x ∨ k = [] ∧ b.stop ≤ x →
        carve m b.addr want x = m x := by
  obtain ⟨c, htl, htb⟩ := Tiles.append.1 ht
  obtain ⟨hbc, hb16, hbpos, hbs16, htk⟩ := htb
  have hs₀ := hs
  rw [Segment.append] at hs
  obtain ⟨hsl, hb, hsk⟩ := hs
  subst hbc
  have hek := htk.le
  have hstop : b.stop = b.addr + 16 + b.size := rfl
  have hsize32 : b.size < 2 ^ 32 := by omega
  have hnext : get m b.addr .next = first k 0 := hb.next
  -- the block behind, if there is one, starts where `b` stops
  have hfk : first k 0 = 0 ∨ 16 ∣ first k 0 ∧ first k 0 ≠ b.addr := by
    rcases htk.first_eq with h | ⟨h, h16⟩
    · exact .inl h
    · exact .inr ⟨by rw [h]; exact h16, by omega⟩
  have hfk32 : first k 0 < 2 ^ 32 := by
    rcases htk.first_eq with h | ⟨h, -⟩ <;> omega
  have hne : ∀ {m : FlatMem} {v : Nat} {f g : Field}, f ≠ g →
      get (set m b.addr f v) b.addr g = get m b.addr g := fun h => get_set_ne hb16 hb16 (.inr h)
  unfold carve carved
  rw [hb.size]
  dsimp only
  by_cases hsplit : b.size - want ≥ 32
  · rw [if_pos (show b.size - want ≥ 16 + 16 from hsplit), if_pos hsplit]
    obtain ⟨n, hn⟩ : ∃ n, n = b.addr + 16 + want := ⟨_, rfl⟩
    have hn16 : 16 ∣ n := by omega
    have hnb : n ≠ b.addr := by omega
    rw [← hn]
    obtain ⟨m1, hm1⟩ : ∃ m1, m1 = setHeader m n (b.size - want - 16) 1 b.addr (first k 0) :=
      ⟨_, rfl⟩
    have hm1out : ∀ x, x < n ∨ n + 16 ≤ x → m1 x = m x := by
      intro x hx
      rw [hm1]
      exact setHeader_outside hx
    have hm1b : ∀ f, get m1 b.addr f = get m b.addr f :=
      get_congr fun x h1 h2 => hm1out x (.inl (by omega))
    obtain ⟨f1, f2, f3, f4, f5⟩ := setHeader_fields m hn16
      (show b.size - want - 16 < 2 ^ 32 by omega) (show 1 < 2 ^ 16 by omega)
      (show b.addr < 2 ^ 32 by omega) hfk32
    rw [← hm1] at f1 f2 f3 f4 f5
    rw [hnext, ← hm1, hm1b, hnext]
    obtain ⟨m2, hm2⟩ : ∃ m2, m2 = if first k 0 ≠ 0 then set m1 (first k 0) .prev n else m1 :=
      ⟨_, rfl⟩
    rw [← hm2]
    have hfkn : first k 0 = 0 ∨ 16 ∣ first k 0 ∧ first k 0 ≠ n := by
      rcases htk.first_eq with h | ⟨h, h16⟩
      · exact .inl h
      · exact .inr ⟨by rw [h]; exact h16, by omega⟩
    have hm2b : ∀ f, get m2 b.addr f = get m b.addr f := by
      intro f
      rw [hm2, get_setPrev_ne hb16 hfk, hm1b]
    have hm2n : ∀ f, get m2 n f = get m1 n f := by
      intro f
      rw [hm2, get_setPrev_ne hn16 hfkn]
    -- the last three writes are to the header of `b`
    obtain ⟨m3, hm3⟩ : ∃ m3, m3 = set (set (set m2 b.addr .next n) b.addr .size want) b.addr .free 0 :=
      ⟨_, rfl⟩
    rw [← hm3]
    have hm3out : ∀ x, x < b.addr ∨ b.addr + 16 ≤ x → m3 x = m2 x := by
      intro x hx
      rw [hm3, set_outside hx, set_outside hx, set_outside hx]
    have hm3n : ∀ f, get m3 n f = get m2 n f :=
      get_congr fun x h1 h2 => hm3out x (.inr (by omega))
    have hout : ∀ x, x < b.addr ∨ b.stop + 16 ≤ x ∨ k = [] ∧ b.stop ≤ x → m3 x = m x := by
      intro x hx
      have hk0 : first k 0 = 0 ∨ x < first k 0 ∨ first k 0 + 16 ≤ x := by
        rcases htk.first_eq with h | ⟨h, -⟩
        · exact .inl h
        · rcases hx with h1 | h1 | ⟨rfl, -⟩
          · omega
          · omega
          · exact .inl rfl
      rw [hm3out x (by omega), hm2, setPrev_outside hk0, hm1out x (by omega)]
    refine ⟨?_, hout⟩
    rw [Segment.append]
    refine ⟨?_, ⟨?_, ?_, ?_, ?_, ?_⟩, ⟨?_, ?_, ?_, ?_, ?_⟩, ?_⟩
    · refine Segment.congr (fun d hd x h1 h2 => hout x (.inl ?_)) hsl
      have := (htl.bounds hd).2.1
      unfold Blk.stop at this
      omega
    · rw [hm3, hne (by decide), get_set_self (show want < 2 ^ 32 by omega)]
    · rw [hm3, get_set_self (by decide)]
      rfl
    · rw [hm3, hne (by decide), hne (by decide), hne (by decide), hm2b]
      exact hb.magic
    · rw [hm3, hne (by decide), hne (by decide), hne (by decide), hm2b]
      exact hb.prev
    · rw [hm3, hne (by decide), hne (by decide), get_set_self (show n < 2 ^ 32 by omega)]
      rfl
    · rw [hm3n, hm2n]
      exact f1
    · rw [hm3n, hm2n]
      exact f2
    · rw [hm3n, hm2n]
      exact f3
    · rw [hm3n, hm2n]
      exact f4
    · rw [hm3n, hm2n]
      exact f5
    · have hk1 : Segment m1 b.addr k 0 := by
        refine Segment.congr (fun d hd x h1 _ => hm1out x (.inr ?_)) hsk
        have := (htk.bounds hd).1
        omega
      have hk2 := hk1.setPrev htk (show n < 2 ^ 32 by omega)
      rw [← hm2] at hk2
      refine Segment.congr (fun d hd x h1 _ => hm3out x (.inr ?_)) hk2
      have := (htk.bounds hd).1
      omega
  · rw [if_neg (show ¬ b.size - want ≥ 16 + 16 from hsplit), if_neg hsplit]
    exact ⟨Segment.setFree ht hs₀ false, fun x hx => set_outside (by omega)⟩

/-! ## kfree on lists -/

def merged (b n : Blk) : Blk := { b with size := b.size + (16 + n.size) }

theorem merged_tiles (h : Tiles a (b :: n :: k) e) :
    Tiles a (merged b n :: k) e := by
  obtain ⟨h1, h2, h3, h4, g1, -, -, g4, g5⟩ := h
  refine ⟨h1, h2, h3, ?_, ?_⟩
  · unfold merged
    dsimp only
    omega
  · have : (merged b n).stop = n.stop := by
      unfold Blk.stop merged at *
      dsimp only
      omega
    rw [this]
    exact g5

theorem mergeNext_spec (ht : Tiles a (l ++ b :: n :: k) e) (he : e < 2 ^ 32)
    (hs : Segment m prev (l ++ b :: n :: k) 0) :
    Segment (mergeNext m b.addr) prev (l ++ merged b n :: k) 0 ∧
      ∀ x, x < b.addr ∨ n.stop + 16 ≤ x ∨ k = [] ∧ n.stop ≤ x → mergeNext m b.addr x = m x := by
  obtain ⟨c, htl, hbc, hb16, hbpos, hbs16, hnb, hn16, hnpos, hns16, htk⟩ := Tiles.append.1 ht
  rw [Segment.append] at hs
  obtain ⟨hsl, hb, hn, hsk⟩ := hs
  subst hbc
  rw [← hnb] at hn16
  have hek := htk.le
  have hbstop : b.stop = b.addr + 16 + b.size := rfl
  have hnstop : n.stop = n.addr + 16 + n.size := rfl
  have hfirst : first k 0 = 0 ∨ first k 0 = n.stop ∧ 16 ∣ n.stop := htk.first_eq
  have hfk32 : first k 0 < 2 ^ 32 := by
    rcases hfirst with h | ⟨h, -⟩ <;> omega
  have hne : ∀ {m : FlatMem} {v : Nat} {f g : Field}, f ≠ g →
      get (set m b.addr f v) b.addr g = get m b.addr g := fun h => get_set_ne hb16 hb16 (.inr h)
  have hnb' : ∀ {m : FlatMem} {v : Nat} {f g : Field},
      get (set m b.addr f v) n.addr g = get m n.addr g := get_set_ne hb16 hn16 (.inl (by omega))
  have hbn' : ∀ {m : FlatMem} {v : Nat} {f g : Field},
      get (set m n.addr f v) b.addr g = get m b.addr g := get_set_ne hn16 hb16 (.inl (by omega))
  have hnext : get m b.addr .next = n.addr := hb.next
  have hnnext : get m n.addr .next = first k 0 := hn.next
  unfold mergeNext
  rw [hnext]
  simp only [hnb', hnnext, hb.size, hn.size]
  obtain ⟨m1, hm1⟩ : ∃ m1, m1 = set (set m b.addr .size (b.size + (16 + n.size))) b.addr .next
      (first k 0) := ⟨_, rfl⟩
  rw [← hm1]
  obtain ⟨m2, hm2⟩ : ∃ m2, m2 = if first k 0 ≠ 0 then set m1 (first k 0) .prev b.addr else m1 :=
    ⟨_, rfl⟩
  rw [← hm2]
  have hm1out : ∀ x, x < b.addr ∨ b.addr + 16 ≤ x → m1 x = m x := by
    intro x hx
    rw [hm1, set_outside hx, set_outside hx]
  have hm2b : ∀ f, get m2 b.addr f = get m1 b.addr f := by
    intro f
    rw [hm2, get_setPrev_ne hb16]
    rcases hfirst with h | ⟨h, h16⟩
    · exact .inl h
    · exact .inr ⟨by rw [h]; exact h16, by omega⟩
  have hout : ∀ x, x < b.addr ∨ n.stop + 16 ≤ x ∨ k = [] ∧ n.stop ≤ x →
      set m2 n.addr .magic 0 x = m x := by
    intro x hx
    have hk0 : first k 0 = 0 ∨ x < first k 0 ∨ first k 0 + 16 ≤ x := by
      rcases hfirst with h | ⟨h, -⟩
      · exact .inl h
      · rcases hx with h1 | h1 | ⟨rfl, -⟩
        · omega
        · omega
        · exact .inl rfl
    rw [set_outside (by omega), hm2, setPrev_outside hk0, hm1out x (by omega)]
  refine ⟨?_, hout⟩
  rw [Segment.append]
  refine ⟨?_, ⟨?_, ?_, ?_, ?_, ?_⟩, ?_⟩
  · refine Segment.congr (fun d hd x h1 h2 => hout x (.inl ?_)) hsl
    have := (htl.bounds hd).2.1
    unfold Blk.stop at this
    omega
  · unfold merged
    rw [hbn', hm2b, hm1, hne (by decide),
      get_set_self (show b.size + (16 + n.size) < 2 ^ 32 by omega)]
  · unfold merged
    rw [hbn', hm2b, hm1, hne (by decide), hne (by decide)]
    exact hb.free
  · unfold merged
    rw [hbn', hm2b, hm1, hne (by decide), hne (by decide)]
    exact hb.magic
  · unfold merged
    rw [hbn', hm2b, hm1, hne (by decide), hne (by decide)]
    exact hb.prev
  · unfold merged
    rw [hbn', hm2b, hm1, get_set_self hfk32]
  · have hk1 : Segment m1 n.addr k 0 := by
      refine Segment.congr (fun d hd x h1 _ => hm1out x (.inr ?_)) hsk
      have := (htk.bounds hd).1
      omega
    have hk2 := hk1.setPrev htk (show b.addr < 2 ^ 32 by omega)
    rw [← hm2] at hk2
    refine Segment.congr (fun d hd x h1 _ => set_outside (.inr ?_)) hk2
    have := (htk.bounds hd).1
    omega

theorem mergePrev_eq {b pp : Nat} (hp : get m b .prev = pp)
    (hn : get m pp .next = b) : mergePrev m b = mergeNext m pp := by
  unfold mergePrev mergeNext
  rw [hp, hn]

/-- No free block follows a free one. -/
def Coalesced (l : List Blk) : Prop := l.IsChain fun b c => ¬(b.free = true ∧ c.free = true)

def Kept (m m' : FlatMem) (c : Blk) : Prop := ∀ x, c.addr + 16 ≤ x → x < c.stop → m' x = m x

/-- `k'` is `k` without a free block in front. -/
def DropFree (k k' : List Blk) : Prop :=
  (k' = k ∨ ∃ n, n.free = true ∧ k = n :: k') ∧ ∀ n ∈ k'.head?, n.free = false

/-- `l'` is `l` without a free block at the end. -/
def DropFreeEnd (l l' : List Blk) : Prop :=
  (l' = l ∨ ∃ n, n.free = true ∧ l = l' ++ [n]) ∧ ∀ n ∈ l'.getLast?, n.free = false

theorem mergeNext_keeps (ht : Tiles a (l ++ b :: n :: k) e) (he : e < 2 ^ 32)
    (hs : Segment m prev (l ++ b :: n :: k) 0) (hc : c ∈ l ∨ c ∈ k) :
    Kept m (mergeNext m b.addr) c := by
  obtain ⟨d, htl, hbd, -, -, -, -, -, -, -, htk⟩ := Tiles.append.1 ht
  intro x h1 h2
  refine (mergeNext_spec ht he hs).2 x ?_
  rcases hc with hc | hc
  · have := (htl.bounds hc).2.1
    omega
  · have := (htk.bounds hc).1
    omega

theorem Coalesced.dropFree (h : Coalesced (b :: k))
    (hb : b.free = true) : ∀ n ∈ k.head?, n.free = false := by
  intro n hn
  cases k with
  | nil => cases hn
  | cons c k =>
    obtain rfl : c = n := by simpa using hn
    have := (isChain_cons_cons.1 h).1
    simpa [hb] using this

theorem joinNext_spec
    (ht : Tiles a (l ++ b :: k) e) (he : e < 2 ^ 32) (hs : Segment m prev (l ++ b :: k) 0)
    (hk : Coalesced k) :
    ∃ m' b' k', (if get m b.addr .next ≠ 0 ∧ get m (get m b.addr .next) .free ≠ 0
        then mergeNext m b.addr else m) = m' ∧
      Segment m' prev (l ++ b' :: k') 0 ∧ Tiles a (l ++ b' :: k') e ∧ b'.addr = b.addr ∧
      b'.free = b.free ∧ DropFree k k' ∧ ∀ c, c ∈ l ∨ c ∈ k' → Kept m m' c := by
  obtain ⟨d, htl, htb⟩ := Tiles.append.1 ht
  have hb := (Segment.append.1 hs).2.1
  rw [hb.next]
  cases k with
  | nil =>
    refine ⟨m, b, [], if_neg ?_, hs, ht, rfl, rfl, ⟨.inl rfl, ?_⟩, fun c _ x _ _ => rfl⟩
    · intro h
      exact h.1 rfl
    · intro n hn
      cases hn
  | cons n k =>
    have hn := (Segment.append.1 hs).2.2.1
    have hnpos : 0 < n.addr := (ht.bounds (b := n) (by simp)).2.2.2.1
    change ∃ m' b' k', (if n.addr ≠ 0 ∧ get m n.addr .free ≠ 0 then _ else _) = m' ∧ _
    rw [hn.free]
    by_cases hfree : n.free = true
    · obtain ⟨hseg, -⟩ := mergeNext_spec ht he hs
      refine ⟨_, merged b n, k, if_pos ⟨by omega, by simp [hfree]⟩, hseg,
        Tiles.append.2 ⟨d, htl, merged_tiles htb⟩, rfl, rfl,
        ⟨.inr ⟨n, hfree, rfl⟩, hk.dropFree hfree⟩, fun c hc => mergeNext_keeps ht he hs hc⟩
    · refine ⟨m, b, n :: k, if_neg (by simp [hfree]), hs, ht, rfl, rfl, ⟨.inl rfl, ?_⟩,
        fun c _ x _ _ => rfl⟩
      intro c hc
      obtain rfl : n = c := by simpa using hc
      simpa using hfree

theorem joinPrev_spec
    (ht : Tiles a (l ++ b :: k) e) (he : e < 2 ^ 32) (hs : Segment m 0 (l ++ b :: k) 0)
    (hl : Coalesced l) (hbf : b.free = true) :
    ∃ m' l' b', (if get m b.addr .prev ≠ 0 ∧ get m (get m b.addr .prev) .free ≠ 0
        then mergePrev m b.addr else m) = m' ∧
      Segment m' 0 (l' ++ b' :: k) 0 ∧ Tiles a (l' ++ b' :: k) e ∧ b'.free = true ∧
      DropFreeEnd l l' ∧ ∀ c, c ∈ l' ∨ c ∈ k → Kept m m' c := by
  have hb := (Segment.append.1 hs).2.1
  rw [hb.prev]
  rcases l.eq_nil_or_concat with hnil | ⟨l', pp, hcons⟩
  · rw [hnil] at hs ht ⊢
    refine ⟨m, [], b, if_neg ?_, hs, ht, hbf, ⟨.inl rfl, ?_⟩, fun c _ x _ _ => rfl⟩
    · intro h
      exact h.1 rfl
    · intro n hn
      cases hn
  · rw [concat_eq_append] at hcons
    rw [hcons] at hs ht hl hb ⊢
    have hlast : last 0 (l' ++ [pp]) = pp.addr := by simp [last]
    rw [hlast] at hb ⊢
    rw [append_assoc] at hs ht
    have hpp := (Segment.append.1 hs).2.1
    have hpos : 0 < pp.addr := (ht.bounds (b := pp) (by simp)).2.2.2.1
    rw [hpp.free]
    by_cases hfree : pp.free = true
    · obtain ⟨hseg, -⟩ := mergeNext_spec ht he hs
      obtain ⟨d, htl, htb⟩ := Tiles.append.1 ht
      rw [mergePrev_eq hb.prev hpp.next]
      refine ⟨_, l', merged pp b, if_pos ⟨by omega, by simp [hfree]⟩, hseg,
        Tiles.append.2 ⟨d, htl, merged_tiles htb⟩, hfree, ⟨.inr ⟨pp, hfree, rfl⟩, ?_⟩,
        fun c hc => mergeNext_keeps ht he hs hc⟩
      intro n hn
      have := (isChain_append.1 hl).2.2 n hn pp (by simp)
      simpa [hfree] using this
    · refine ⟨m, l' ++ [pp], b, if_neg (by simp [hfree]), by simpa using hs, by simpa using ht,
        hbf, ⟨.inl rfl, ?_⟩, fun c _ x _ _ => rfl⟩
      intro n hn
      obtain rfl : pp = n := by simpa using hn
      simpa using hfree

/-! ## The heap -/

/-- The blocks `bs` are the heap: linked in memory from the head on, covering it
without a gap, no two free blocks in a row. -/
structure Heap.Ok (h : Heap) (bs : List Blk) : Prop where
  head : h.head = first bs 0
  linked : Segment h.mem 0 bs 0
  tiles : Tiles h.start bs h.stop
  below : h.stop < 2 ^ 32
  coalesced : Coalesced bs

theorem roundUp_dvd (v : Nat) : 16 ∣ roundUp v := Dvd.intro_left _ rfl

theorem roundUp_eq (h : v ≤ 0xFFFFFFF0) : roundUp v = (v + 15) / 16 * 16 := by
  unfold roundUp
  rw [Nat.mod_eq_of_lt (by omega)]

theorem kmallocInit_ok {start stop : Nat} (h0 : 0 < start)
    (htop : start + 48 ≤ 2 ^ 32) (hstop : stop < 2 ^ 32) :
    ∃ bs, (kmallocInit m start stop).Ok bs ∧ ∀ b ∈ bs, b.free = true := by
  have hs := roundUp_eq (show start ≤ 0xFFFFFFF0 by omega)
  have hdvd := roundUp_dvd start
  have he16 : 16 ∣ stop / 16 * 16 := Dvd.intro_left _ rfl
  have hmod : (roundUp start + 16 + 16) % 2 ^ 32 = roundUp start + 32 := by
    rw [Nat.mod_eq_of_lt (by omega)]
  unfold kmallocInit
  dsimp only
  rw [hmod]
  split
  · refine ⟨[], ⟨rfl, trivial, rfl, ?_, .nil⟩, fun b hb => nomatch hb⟩
    dsimp only
    omega
  · obtain ⟨f1, f2, f3, f4, f5⟩ := setHeader_fields m hdvd
      (show stop / 16 * 16 - roundUp start - 16 < 2 ^ 32 by omega) (show 1 < 2 ^ 16 by omega)
      (show 0 < 2 ^ 32 by omega) (show 0 < 2 ^ 32 by omega)
    refine ⟨[⟨roundUp start, stop / 16 * 16 - roundUp start - 16, true⟩],
      ⟨rfl, ⟨⟨f1, f2, f3, f4, f5⟩, trivial⟩, ⟨rfl, hdvd, ?_, ?_, ?_⟩, ?_, .singleton _⟩, ?_⟩
    · change 0 < roundUp start
      omega
    · exact Nat.dvd_sub (Nat.dvd_sub he16 hdvd) (Nat.dvd_refl 16)
    · change roundUp start + 16 + (stop / 16 * 16 - roundUp start - 16) = stop / 16 * 16
      omega
    · dsimp only
      omega
    · intro b hb
      obtain rfl : b = _ := mem_singleton.1 hb
      rfl

theorem Tiles.length_le (h : Tiles a l e) : a + 16 * l.length ≤ e := by
  induction l generalizing a with
  | nil => exact Nat.le_of_eq h
  | cons b l ih =>
    obtain ⟨h1, -, -, -, h5⟩ := h
    have := ih h5
    unfold Blk.stop at this
    rw [length_cons]
    omega

theorem Coalesced.carved (h : Coalesced (l ++ b :: k))
    (hb : b.free = true) : Coalesced (l ++ (carved b want ++ k)) := by
  obtain ⟨hl, hbk, -⟩ := isChain_append.1 h
  have hk : Coalesced k := hbk.tail
  have hhead := Coalesced.dropFree hbk hb
  have huk : ∀ u : Blk, u.free = false → ∀ k' : List Blk, Coalesced k' → Coalesced (u :: k') := by
    intro u hu k' hk'
    refine isChain_cons.2 ⟨fun c _ => ?_, hk'⟩
    simp [hu]
  unfold Kmalloc.carved
  split
  · refine isChain_append.2 ⟨hl, huk _ rfl _ (isChain_cons.2 ⟨?_, hk⟩), ?_⟩
    · intro c hc
      simp [hhead c hc]
    · intro x _ y hy
      obtain rfl : _ = y := by simpa using hy
      simp
  · refine isChain_append.2 ⟨hl, huk _ rfl _ hk, ?_⟩
    intro x _ y hy
    obtain rfl : _ = y := by simpa using hy
    simp

/-- **What `kmalloc` does.** NULL and nothing, or the front of a free block that is
large enough. -/
theorem kmalloc_spec {h : Heap} (hok : h.Ok bs) (size : Nat) :
    kmalloc h size = (h, 0) ∨ ∃ l b k, bs = l ++ b :: k ∧ fits (roundUp size) b = true ∧
      (kmalloc h size).2 = b.addr + 16 ∧
      (kmalloc h size).1.Ok (l ++ (carved b (roundUp size) ++ k)) ∧
      ∀ c, c ∈ l ∨ c ∈ k → Kept h.mem (kmalloc h size).1.mem c := by
  unfold kmalloc
  split
  · exact .inl rfl
  · have hlen := hok.tiles.length_le
    have hbelow := hok.below
    dsimp only
    rw [hok.head, findFit_spec _ _ bs hok.tiles hok.linked (by unfold maxBlocks; omega)]
    cases hfind : bs.find? (fits (roundUp size)) with
    | none => exact .inl rfl
    | some b =>
      refine .inr ?_
      obtain ⟨hfit, l, k, rfl, -⟩ := List.find?_eq_some_iff_append.1 hfind
      have hparts : b.free = true ∧ roundUp size ≤ b.size := by
        unfold fits at hfit
        simpa using hfit
      obtain ⟨hseg, hout⟩ := carve_spec hok.tiles hbelow hok.linked (roundUp_dvd size) hparts.2
      obtain ⟨d, htl, htb⟩ := Tiles.append.1 hok.tiles
      obtain ⟨d', hb', htk⟩ := Tiles.append.1 (show Tiles d ([b] ++ k) h.stop from htb)
      have hbd : b.addr = d := htb.1
      have hstop : b.stop = d' := hb'.2.2.2.2
      refine ⟨l, b, k, rfl, hfit, rfl, ⟨?_, hseg, ?_, hbelow, hok.coalesced.carved hparts.1⟩, ?_⟩
      · cases l with
        | nil =>
          change b.addr = first (carved b (roundUp size) ++ k) 0
          unfold carved
          split <;> rfl
        | cons c l => rfl
      · exact Tiles.append.2 ⟨d, htl,
          Tiles.append.2 ⟨d', carved_tiles (roundUp_dvd size) hparts.2 hb', htk⟩⟩
      · intro c hc x h1 h2
        refine hout x ?_
        rcases hc with hc | hc
        · have := (htl.bounds hc).2.1
          omega
        · have := (htk.bounds hc).1
          omega

theorem kfree_spec {h : Heap} (hok : h.Ok (l ++ b :: k))
    (hb : b.free = false) :
    ∃ l' b' k', (kfree h (b.addr + 16)).Ok (l' ++ b' :: k') ∧ b'.free = true ∧
      DropFreeEnd l l' ∧ DropFree k k' ∧
      ∀ c, c ∈ l' ∨ c ∈ k' → Kept h.mem (kfree h (b.addr + 16)).mem c := by
  obtain ⟨hl, hbk, -⟩ := isChain_append.1 hok.coalesced
  have hk : Coalesced k := hbk.tail
  have hhb := (Segment.append.1 hok.linked).2.1
  obtain ⟨d, htl, hbd, hb16, hbpos, hbs, htk⟩ := Tiles.append.1 hok.tiles
  have ht1 : Tiles h.start (l ++ { b with free := true } :: k) h.stop :=
    Tiles.append.2 ⟨d, htl, hbd, hb16, hbpos, hbs, htk⟩
  have hs1 := Segment.setFree hok.tiles hok.linked true
  obtain ⟨m2, b2, k', hm2, hs2, ht2, ha2, hf2, hdrop, hkept2⟩ :=
    joinNext_spec ht1 hok.below hs1 hk
  obtain ⟨m3, l', b3, hm3, hs3, ht3, hf3, hdrop', hkept3⟩ :=
    joinPrev_spec ht2 hok.below hs2 hl hf2
  rw [ha2] at hm3
  have heq : kfree h (b.addr + 16) = { h with mem := m3 } := by
    unfold kfree
    rw [if_neg (by omega), Nat.add_sub_cancel, if_neg]
    · rw [if_pos rfl] at hm2
      dsimp only at hm2 hm3 ⊢
      rw [hm2, hm3]
    · rw [hhb.magic, hhb.free, hb]
      simp
  rw [heq]
  have hl'sub : ∀ c ∈ l', c ∈ l := by
    intro c hc
    rcases hdrop'.1 with h | ⟨n, -, h⟩
    · exact h ▸ hc
    · rw [h]
      exact mem_append_left _ hc
  have hk'sub : ∀ c ∈ k', c ∈ k := by
    intro c hc
    rcases hdrop.1 with h | ⟨n, -, h⟩
    · exact h ▸ hc
    · rw [h]
      exact mem_cons_of_mem _ hc
  refine ⟨l', b3, k', ⟨?_, hs3, ht3, hok.below, ?_⟩, hf3, hdrop', hdrop, ?_⟩
  · rw [hok.head]
    have htf : ∀ {bs : List Blk}, Tiles h.start bs h.stop → bs ≠ [] → first bs 0 = h.start := by
      intro bs ht hne
      cases bs with
      | nil => exact absurd rfl hne
      | cons c bs => exact ht.1
    rw [htf hok.tiles (by simp), htf ht3 (by simp)]
  · have hcl' : Coalesced l' := by
      rcases hdrop'.1 with h | ⟨n, -, h⟩
      · rw [h]
        exact hl
      · rw [h] at hl
        exact (isChain_append.1 hl).1
    have hck' : Coalesced k' := by
      rcases hdrop.1 with h | ⟨n, -, h⟩
      · rw [h]
        exact hk
      · rw [h] at hk
        exact hk.tail
    refine isChain_append.2 ⟨hcl', isChain_cons.2 ⟨?_, hck'⟩, ?_⟩
    · intro c hc
      simp [hdrop.2 c hc]
    · intro c hc y _
      simp [hdrop'.2 c hc]
  · intro c hc x h1 h2
    change m3 x = h.mem x
    have hcl : c ∈ l ∨ c ∈ k' := hc.imp (hl'sub c) id
    rw [hkept3 c hc x h1 h2, hkept2 c hcl x h1 h2]
    refine set_outside ?_
    rcases hcl with hc | hc
    · have := (htl.bounds hc).2.1
      omega
    · have := (htk.bounds (hk'sub c hc)).1
      unfold Blk.stop at this
      omega

/-! ## Runs -/

/-- The heap, and the live allocations: pointer and requested size. -/
structure Sys where
  heap : Heap
  live : List (Nat × Nat)

/-- `poke p i v`: the owner of the live allocation `p` writes its byte `i`. -/
inductive Label
  | malloc (size : Nat)
  | free (p : Nat)
  | poke (p i : Nat) (v : UInt8)

def Sys.step (s : Sys) : Label → Option Sys
  | .malloc size =>
    if size < 2 ^ 32 then
      let r := kmalloc s.heap size
      some { heap := r.1, live := if r.2 = 0 then s.live else (r.2, size) :: s.live }
    else none
  | .free p =>
    if s.live.any fun e => e.1 = p then
      some { heap := kfree s.heap p, live := s.live.filter fun e => e.1 ≠ p }
    else none
  | .poke p i v =>
    if s.live.any fun e => e.1 = p ∧ i < e.2 then
      some { s with heap := { s.heap with mem := update s.heap.mem (p + i) v } }
    else none

/-- A fresh heap: `kernel.c:155-162` passes pages from `pmm_alloc_contiguous`,
so the region does not start at NULL, nor within a header of 4 GiB. -/
def Sys.Init (s : Sys) : Prop :=
  ∃ m start stop, 0 < start ∧ start + 48 ≤ 2 ^ 32 ∧ stop < 2 ^ 32 ∧
    s = { heap := kmallocInit m start stop, live := [] }

def sys : LTS Sys Label := LTS.ofFn Sys.Init Sys.step

/-- No request is so large that rounding it up to 16 passes 2^32. -/
def SizeOk (_ : Sys) : Label → Prop
  | .malloc size => size ≤ 0xFFFFFFF0
  | _ => True

/-- A used block behind every live pointer, large enough. -/
def Owned (bs : List Blk) (e : Nat × Nat) : Prop :=
  ∃ b ∈ bs, b.free = false ∧ e.1 = b.addr + 16 ∧ e.2 ≤ b.size

structure Sys.Inv (s : Sys) (bs : List Blk) : Prop where
  ok : s.heap.Ok bs
  owned : ∀ e ∈ s.live, Owned bs e
  distinct : s.live.Pairwise fun e f => e.1 ≠ f.1

theorem Tiles.addr_inj (h : Tiles a l e) (hb : b ∈ l)
    (hc : c ∈ l) (heq : b.addr = c.addr) : b = c := by
  rcases h.apart hb hc with h | h | h
  · exact h
  · unfold Blk.stop at h
    omega
  · unfold Blk.stop at h
    omega

theorem mem_middle (h : c ∈ l ++ b :: k) (hne : c ≠ b) :
    c ∈ l ∨ c ∈ k := by
  rcases mem_append.1 h with h | h
  · exact .inl h
  · exact .inr ((mem_cons.1 h).resolve_left hne)

theorem carved_head (h : want ≤ b.size) :
    ∃ u ∈ carved b want, u.addr = b.addr ∧ u.free = false ∧ want ≤ u.size := by
  unfold carved
  split
  · exact ⟨_, mem_cons_self, rfl, rfl, Nat.le_refl _⟩
  · exact ⟨_, mem_cons_self, rfl, rfl, h⟩

theorem Sys.Inv.malloc (hinv : s.Inv bs) (size : Nat)
    (hsize : size ≤ 0xFFFFFFF0) :
    ∃ bs', Sys.Inv ⟨(kmalloc s.heap size).1, if (kmalloc s.heap size).2 = 0 then s.live
      else ((kmalloc s.heap size).2, size) :: s.live⟩ bs' ∧
      ∀ c ∈ bs, c.free = false → c ∈ bs' ∧ Kept s.heap.mem (kmalloc s.heap size).1.mem c := by
  rcases kmalloc_spec hinv.ok size with heq | ⟨l, b, k, rfl, hfit, hp, hok, hkept⟩
  · rw [heq]
    exact ⟨bs, ⟨hinv.ok, hinv.owned, hinv.distinct⟩, fun c hc _ => ⟨hc, fun _ _ _ => rfl⟩⟩
  · unfold fits at hfit
    simp only [Bool.and_eq_true, decide_eq_true_eq] at hfit
    have hround := roundUp_eq hsize
    have hstays : ∀ c ∈ l ++ b :: k, c.free = false → c ∈ l ∨ c ∈ k := by
      intro c hc hcf
      refine mem_middle hc fun h => ?_
      rw [h, hfit.1] at hcf
      cases hcf
    have hin : ∀ c, c ∈ l ∨ c ∈ k → c ∈ l ++ (carved b (roundUp size) ++ k) := by
      intro c h
      rcases h with h | h <;> simp [h]
    rw [hp, if_neg (by omega)]
    refine ⟨_, ⟨hok, ?_, ?_⟩, fun c hc hcf => ⟨hin c (hstays c hc hcf), hkept c (hstays c hc hcf)⟩⟩
    · intro e he
      rcases mem_cons.1 he with rfl | he
      · obtain ⟨u, hu, ha, hf, hle⟩ := carved_head hfit.2
        exact ⟨u, by simp [hu], hf, by rw [ha], by dsimp only; omega⟩
      · obtain ⟨c, hc, hf, ha, hle⟩ := hinv.owned e he
        exact ⟨c, hin c (hstays c hc hf), hf, ha, hle⟩
    · refine pairwise_cons.2 ⟨fun e he heq => ?_, hinv.distinct⟩
      obtain ⟨c, hc, hf, ha, -⟩ := hinv.owned e he
      have hcb := hinv.ok.tiles.addr_inj (b := b) (c := c) (by simp) hc (by dsimp only at heq; omega)
      rw [← hcb, hfit.1] at hf
      cases hf

theorem DropFree.mem {k' : List Blk} (h : DropFree k k') (hc : c ∈ k)
    (hcf : c.free = false) : c ∈ k' := by
  rcases h.1 with h' | ⟨n, hn, h'⟩
  · exact h' ▸ hc
  · rw [h', mem_cons] at hc
    refine hc.resolve_left fun heq => ?_
    rw [heq, hn] at hcf
    cases hcf

theorem DropFreeEnd.mem {l' : List Blk} (h : DropFreeEnd l l') (hc : c ∈ l)
    (hcf : c.free = false) : c ∈ l' := by
  rcases h.1 with h' | ⟨n, hn, h'⟩
  · exact h' ▸ hc
  · rw [h', mem_append, mem_singleton] at hc
    refine hc.resolve_right fun heq => ?_
    rw [heq, hn] at hcf
    cases hcf

theorem Sys.Inv.free (hinv : s.Inv bs)
    (hp : ∃ e ∈ s.live, e.1 = p) :
    ∃ bs', Sys.Inv ⟨kfree s.heap p, s.live.filter fun e => e.1 ≠ p⟩ bs' ∧
      ∀ c ∈ bs, c.free = false → c.addr + 16 ≠ p →
        c ∈ bs' ∧ Kept s.heap.mem (kfree s.heap p).mem c := by
  obtain ⟨e, he, rfl⟩ := hp
  obtain ⟨b, hb, hbf, hba, -⟩ := hinv.owned e he
  obtain ⟨l, k, rfl⟩ := append_of_mem hb
  obtain ⟨l', b', k', hok, -, hdl, hdk, hkept⟩ := kfree_spec hinv.ok hbf
  rw [hba]
  have hstays : ∀ c ∈ l ++ b :: k, c.free = false → c.addr + 16 ≠ b.addr + 16 →
      c ∈ l' ∨ c ∈ k' := by
    intro c hc hcf hne
    have hcb : c ≠ b := fun h => hne (by rw [h])
    exact (mem_middle hc hcb).imp (fun h => hdl.mem h hcf) fun h => hdk.mem h hcf
  have hin : ∀ c, c ∈ l' ∨ c ∈ k' → c ∈ l' ++ b' :: k' := by
    intro c h
    rcases h with h | h <;> simp [h]
  refine ⟨_, ⟨hok, ?_, hinv.distinct.filter _⟩, fun c hc hcf hne =>
    ⟨hin c (hstays c hc hcf hne), hkept c (hstays c hc hcf hne)⟩⟩
  intro f hf
  obtain ⟨hfl, hne⟩ := mem_filter.1 hf
  obtain ⟨c, hc, hcf, hca, hcs⟩ := hinv.owned f hfl
  refine ⟨c, hin c (hstays c hc hcf fun h => ?_), hcf, hca, hcs⟩
  rw [hca, h] at hne
  simp at hne

theorem Sys.Inv.payload_apart (hinv : s.Inv bs) {e : Nat × Nat}
    (he : e ∈ s.live) (hc : c ∈ bs) : e.1 + e.2 ≤ c.addr ∨ c.addr + 16 ≤ e.1 := by
  obtain ⟨b, hb, -, hba, hbs⟩ := hinv.owned e he
  rcases hinv.ok.tiles.apart hb hc with rfl | h | h
  · omega
  · unfold Blk.stop at h
    omega
  · unfold Blk.stop at h
    omega

theorem Sys.Inv.poke (hinv : s.Inv bs) {i : Nat} {v : UInt8}
    (hp : ∃ e ∈ s.live, e.1 = p ∧ i < e.2) :
    Sys.Inv { s with heap := { s.heap with mem := update s.heap.mem (p + i) v } } bs := by
  obtain ⟨e, he, rfl, hi⟩ := hp
  refine ⟨⟨hinv.ok.head, ?_, hinv.ok.tiles, hinv.ok.below, hinv.ok.coalesced⟩, hinv.owned,
    hinv.distinct⟩
  refine Segment.congr (fun c hc x h1 h2 => update_of_ne ?_ _ _) hinv.ok.linked
  have := hinv.payload_apart he hc
  omega

theorem step_cases {s' : Sys} {l : Label} (h : s.step l = some s') :
    (∃ size, l = .malloc size ∧ s' = ⟨(kmalloc s.heap size).1,
      if (kmalloc s.heap size).2 = 0 then s.live else ((kmalloc s.heap size).2, size) :: s.live⟩) ∨
    (∃ p, l = .free p ∧ (∃ e ∈ s.live, e.1 = p) ∧
      s' = ⟨kfree s.heap p, s.live.filter fun e => e.1 ≠ p⟩) ∨
    ∃ p i v, l = .poke p i v ∧ (∃ e ∈ s.live, e.1 = p ∧ i < e.2) ∧
      s' = { s with heap := { s.heap with mem := update s.heap.mem (p + i) v } } := by
  cases l with
  | malloc size =>
    dsimp only [Sys.step] at h
    split at h
    · cases h
      exact .inl ⟨size, rfl, rfl⟩
    · cases h
  | free p =>
    dsimp only [Sys.step] at h
    split at h
    · rename_i hp
      cases h
      exact .inr (.inl ⟨p, rfl, by simpa using hp, rfl⟩)
    · cases h
  | poke p i v =>
    dsimp only [Sys.step] at h
    split at h
    · rename_i hp
      cases h
      exact .inr (.inr ⟨p, i, v, rfl, by simpa using hp, rfl⟩)
    · cases h

theorem inv_inductive : (sys.restrict SizeOk).Inductive fun s => ∃ bs, s.Inv bs where
  init s h := by
    obtain ⟨m, start, stop, h0, htop, hstop, rfl⟩ := h
    obtain ⟨bs, hok, -⟩ := kmallocInit_ok (m := m) h0 htop hstop
    exact ⟨bs, hok, fun _ he => absurd he not_mem_nil, .nil⟩
  step s l s' hinv hs := by
    obtain ⟨bs, hinv⟩ := hinv
    obtain ⟨hsize, hs⟩ := hs
    rcases step_cases hs with ⟨size, rfl, h⟩ | ⟨p, rfl, hp, h⟩ | ⟨p, i, v, rfl, hp, h⟩
    · rw [h]
      obtain ⟨bs', hinv', -⟩ := hinv.malloc size hsize
      exact ⟨bs', hinv'⟩
    · rw [h]
      obtain ⟨bs', hinv', -⟩ := hinv.free hp
      exact ⟨bs', hinv'⟩
    · rw [h]
      exact ⟨bs, hinv.poke hp⟩

/-- The operation is on the allocation at `p`. -/
def Label.On : Label → Nat → Prop
  | .malloc _, _ => False
  | .free q, p => q = p
  | .poke q _ _, p => q = p

theorem Sys.Inv.frame {s' : Sys} (hinv : s.Inv bs) {l : Label}
    (hs : s.step l = some s') {e : Nat × Nat} (he : e ∈ s.live) (hon : ¬l.On e.1)
    (hb : b ∈ bs) (heb : e.1 = b.addr + 16) :
    e ∈ s'.live ∧ Kept s.heap.mem s'.heap.mem b := by
  obtain ⟨b', hb', hbf, hba, -⟩ := hinv.owned e he
  obtain rfl : b = b' := hinv.ok.tiles.addr_inj hb hb' (by omega)
  rcases step_cases hs with ⟨size, rfl, h⟩ | ⟨p, rfl, hp, h⟩ | ⟨p, i, v, rfl, hp, h⟩
  · rw [h]
    rcases kmalloc_spec hinv.ok size with heq | ⟨l, c, k, rfl, hfit, hp, -, hkept⟩
    · rw [heq]
      exact ⟨he, fun x _ _ => rfl⟩
    · have hne : b ≠ c := by
        intro h
        unfold fits at hfit
        rw [← h, hbf] at hfit
        cases hfit
      rw [hp, if_neg (by omega)]
      exact ⟨mem_cons_of_mem _ he, hkept b (mem_middle hb hne)⟩
  · have hpe : p ≠ e.1 := hon
    obtain ⟨bs', -, hstays⟩ := hinv.free hp
    rw [h]
    exact ⟨mem_filter.2 ⟨he, by simpa using hpe.symm⟩, (hstays b hb hbf (by omega)).2⟩
  · obtain ⟨f, hf, hfp, hi⟩ := hp
    have hpe : p ≠ e.1 := hon
    rw [h]
    refine ⟨he, fun x h1 h2 => update_of_ne ?_ _ _⟩
    obtain ⟨c, hc, -, hca, hcs⟩ := hinv.owned f hf
    have hbc : b ≠ c := by
      intro h
      rw [h] at hba
      omega
    rcases hinv.ok.tiles.apart hb hc with h | h | h
    · exact absurd h hbc
    · omega
    · unfold Blk.stop at h
      omega

/-- What holds of the heap between operations, `bs` being its blocks. -/
structure Sys.Sound (s : Sys) (bs : List Blk) : Prop where
  heap : s.heap.Ok bs
  aligned : ∀ e ∈ s.live, 16 ∣ e.1
  backed : ∀ e ∈ s.live, Owned bs e
  disjoint : s.live.Pairwise fun e f => e.1 + e.2 ≤ f.1 ∨ f.1 + f.2 ≤ e.1
  headers : ∀ e ∈ s.live, ∀ b ∈ bs, e.1 + e.2 ≤ b.addr ∨ b.addr + 16 ≤ e.1

theorem Sys.Inv.sound (hinv : s.Inv bs) : s.Sound bs where
  heap := hinv.ok
  aligned e he := by
    obtain ⟨b, hb, -, hba, -⟩ := hinv.owned e he
    have := (hinv.ok.tiles.bounds hb).2.2.1
    omega
  backed := hinv.owned
  disjoint := by
    refine hinv.distinct.imp_of_mem fun {e f} he hf hne => ?_
    obtain ⟨b, hb, -, hba, hbs⟩ := hinv.owned e he
    obtain ⟨c, hc, -, hca, hcs⟩ := hinv.owned f hf
    rcases hinv.ok.tiles.apart hb hc with h | h | h
    · rw [h] at hba
      omega
    · unfold Blk.stop at h
      omega
    · unfold Blk.stop at h
      omega
  headers e he b hb := hinv.payload_apart he hb

/-- In every run whose requests are at most 2^32 - 16 bytes, after every
step: the blocks tile the heap with no two free ones in a row, every live pointer is
aligned with at least the requested bytes behind it, live allocations meet neither each
other nor a header, and a step on one of them leaves the others and their bytes. -/
theorem heap_sound (s : Sys) (h : (sys.restrict SizeOk).Reachable s) :
    ∃ bs, s.Sound bs ∧
      ∀ l s', sys.step s l s' → ∀ e ∈ s.live, ¬l.On e.1 → ∀ b ∈ bs, e.1 = b.addr + 16 →
        e ∈ s'.live ∧ Kept s.heap.mem s'.heap.mem b := by
  obtain ⟨bs, hinv⟩ := inv_inductive.reachable s h
  exact ⟨bs, hinv.sound, fun l s' hs e he hon b hb heb => hinv.frame hs he hon hb heb⟩

instance (s : Sys) : (l : Label) → Decidable (SizeOk s l)
  | .malloc size => inferInstanceAs (Decidable (size ≤ 0xFFFFFFF0))
  | .free _ => .isTrue trivial
  | .poke .. => .isTrue trivial

/-- A heap of 128 bytes from address 16. -/
def smallHeap : Sys := ⟨kmallocInit (fun _ => 0) 16 144, []⟩

theorem smallHeap_init : sys.init smallHeap :=
  ⟨_, 16, 144, by omega, by omega, by omega, rfl⟩

/-- Two allocations, and the first one is freed. -/
theorem heap_sound_two_allocations :
    (LTS.exec (LTS.guarded SizeOk Sys.step) smallHeap [.malloc 20, .malloc 8, .free 32]).map
        Sys.live = some [(80, 8)] ∧
      ∃ s bs, Sys.live s = [(80, 8)] ∧ s.Sound bs := by
  have hrun : (LTS.exec (LTS.guarded SizeOk Sys.step) smallHeap
      [.malloc 20, .malloc 8, .free 32]).map Sys.live = some [(80, 8)] := by
    decide +kernel
  refine ⟨hrun, ?_⟩
  obtain ⟨s, hs, hlive⟩ := Option.map_eq_some_iff.1 hrun
  obtain ⟨bs, hsound, -⟩ :=
    heap_sound s ⟨smallHeap, _, smallHeap_init, LTS.run_restrict_of_exec hs⟩
  exact ⟨s, bs, hlive, hsound⟩

/-- `kmalloc(0xFFFFFFFF)` succeeds: the size is rounded up to 0 and the block at the
front of the heap gets an empty payload. -/
theorem huge_request_gets_small_block : ¬∀ s, sys.Reachable s → ∃ bs, s.Sound bs := by
  intro hall
  have hrun : (LTS.exec Sys.step smallHeap [.malloc 0xFFFFFFFF]).map
      (fun s => (s.live, s.heap.stop)) = some ([(32, 0xFFFFFFFF)], 144) := by
    decide +kernel
  obtain ⟨s, hs, he⟩ := Option.map_eq_some_iff.1 hrun
  obtain ⟨hlive, hstop⟩ := Prod.mk.inj he
  obtain ⟨bs, hsound⟩ := hall s ⟨smallHeap, _, smallHeap_init, LTS.run_of_exec hs⟩
  obtain ⟨b, hb, -, -, hsize⟩ := hsound.backed (32, 0xFFFFFFFF) (by rw [hlive]; simp)
  have := (hsound.heap.tiles.bounds hb).2.1
  unfold Blk.stop at this
  omega

end AdventOS.Kernel.Kmalloc
