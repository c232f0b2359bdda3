import AdventOS.Kernel.Elf

/-!
# Arguments of a new program (`kernel/elf.c`, `SYS_EXEC`)

`elf_setup_args` counts an offset down from the top of the last stack page: first the strings, last
one first, then on a boundary of four bytes a NULL, the pointers and the count. Nobody bounds
the strings, so the offset can pass 0; a store outside the page has no result here.

* `pushAll_some`, `pushAll_isSome`: a row of blocks goes into the page exactly when it fits below
  the offset, where it stays;
* `elfSetupArgs_iff`: when the whole stack is laid out as `main` expects it.
-/
namespace AdventOS.Kernel.Elf.Args
open List

/-! ## The functions -/

abbrev StackPage := Nat → UInt8

def storeByte (page : StackPage) (off : UInt32) (b : UInt8) : Option StackPage :=
  if off < 4096 then some (Function.update page off.toNat b) else none

def writeBytes : StackPage → UInt32 → List UInt8 → Option StackPage
  | page, _, [] => some page
  | page, off, b :: bs => (storeByte page off b).bind fun page => writeBytes page (off + 1) bs

/-- `cur_off` and `cur_va`. -/
structure Cursor where
  page : StackPage
  off : UInt32
  va : UInt32

/-- Both go down by the length, then the bytes are stored. elf.c:192-195 -/
def push (bs : List UInt8) (s : Cursor) : Option Cursor :=
  let len := UInt32.ofNat bs.length
  (writeBytes s.page (s.off - len) bs).map fun page => ⟨page, s.off - len, s.va - len⟩

/-- The loops over `i = argc - 1, …, 0`, with `cur_va` behind each turn. -/
def pushAll : List (List UInt8) → Cursor → Option (Cursor × List UInt32)
  | [], s => some (s, [])
  | b :: bs, s =>
    (pushAll bs s).bind fun r => (push b r.1).map fun s => (s, s.va :: r.2)

def le32 (v : UInt32) : List UInt8 := Fs.leBytes 4 v.toNat

def stackVa : UInt32 := UInt32.ofNat userStackVa

/-- The page that results and `user_esp`, with a stack size of `PAGE_SIZE`.
elf.c:172-217 -/
def elfSetupArgs (page : StackPage) (argv : List (List UInt8)) : Option (StackPage × UInt32) :=
  let argv := argv.take 128
  (pushAll (argv.map (· ++ [0])) ⟨page, 4096, stackVa + 4096⟩).bind fun r =>
    let s : Cursor := { r.1 with off := r.1.off / 4 * 4, va := r.1.va / 4 * 4 }
    (pushAll ((UInt32.ofNat argv.length :: (r.2 ++ [0])).map le32) s).map fun r =>
      (r.1.page, r.1.va)

/-- The arguments that are copied; without any, the path is the only one.
syscall.c:1282-1319 -/
def execArgs (path : List UInt8) (uargv : List (List UInt8)) : List (List UInt8) :=
  if uargv.take 128 = [] then [path.take 63] else uargv.take 128

/-! ## What a program expects -/

def bytesAt (page : StackPage) (off n : Nat) : List UInt8 := (range n).map fun j => page (off + j)

def total (bs : List (List UInt8)) : Nat := (bs.map length).sum

/-- Where the `i`-th of the blocks below `top` begins. -/
def blockOff (top : Nat) (bs : List (List UInt8)) (i : Nat) : Nat := top - total (bs.drop i)

def argOff (argv : List (List UInt8)) (i : Nat) : Nat := blockOff 4096 (argv.map (· ++ [0])) i

/-- The count at `esp`, the pointers, a NULL, and the copies they point to, none over another. -/
structure Layout (page : StackPage) (esp : UInt32) (argv : List (List UInt8)) (off : Nat) :
    Prop where
  esp : esp = stackVa + UInt32.ofNat off
  count : bytesAt page off 4 = le32 (UInt32.ofNat argv.length)
  pointer : ∀ i < argv.length,
    bytesAt page (off + 4 * (i + 1)) 4 = le32 (stackVa + UInt32.ofNat (argOff argv i))
  null : bytesAt page (off + 4 * (argv.length + 1)) 4 = le32 0
  copy : ∀ i (h : i < argv.length), bytesAt page (argOff argv i) (argv[i].length + 1) = argv[i] ++ [0]
  below : ∀ i < argv.length, off + 4 * (argv.length + 2) ≤ argOff argv i
  apart : ∀ i (h : i < argv.length), argOff argv i + (argv[i].length + 1) = argOff argv (i + 1)
  inside : off + 4 * (argv.length + 2) ≤ 4096 ∧ argOff argv argv.length = 4096

/-- The strings, rounded up to a multiple of four, and the tables take a page at most. -/
def Fits (argv : List (List UInt8)) : Prop :=
  ((argv.map fun a => a.length + 1).sum + 3) / 4 * 4 + 4 * (argv.length + 2) ≤ 4096

instance (argv : List (List UInt8)) : Decidable (Fits argv) := inferInstanceAs (Decidable (_ ≤ _))

/-! ## Pushing -/

variable {page : StackPage} {off : UInt32} {b : List UInt8} {bs : List (List UInt8)}
  {s s' : Cursor} {vas : List UInt32} {argv : List (List UInt8)}

theorem bytesAt_succ (page : StackPage) (off n : Nat) :
    bytesAt page off (n + 1) = page off :: bytesAt page (off + 1) n := by
  unfold bytesAt
  rw [range_succ_eq_map, map_cons, map_map]
  congr 1
  refine map_congr_left fun j _ => congrArg page ?_
  rw [add_right_comm]
  rfl

theorem writeBytes_some : ∀ (b : List UInt8) (page : StackPage) (off : UInt32),
    off.toNat + b.length ≤ 4096 → ∃ p, writeBytes page off b = some p ∧
      bytesAt p off.toNat b.length = b ∧
      ∀ k, k < off.toNat ∨ off.toNat + b.length ≤ k → p k = page k := by
  intro b
  induction b with
  | nil => exact fun _ _ _ => ⟨_, rfl, rfl, fun _ _ => rfl⟩
  | cons c b ih =>
    intro page off h
    rw [length_cons] at h
    have hnext : (off + 1).toNat = off.toNat + 1 := by
      rw [UInt32.toNat_add, show (1 : UInt32).toNat = 1 from rfl]
      omega
    obtain ⟨p, hp, hb, hframe⟩ := ih (Function.update page off.toNat c) (off + 1) (by omega)
    rw [hnext] at hb hframe
    refine ⟨p, ?_, ?_, fun k hk => ?_⟩
    · have hlt : off < 4096 := by
        rw [UInt32.lt_iff_toNat_lt, show (4096 : UInt32).toNat = 4096 from rfl]
        omega
      rw [writeBytes, storeByte, if_pos hlt]
      exact hp
    · rw [length_cons, bytesAt_succ, hb, hframe _ (.inl (by omega)), Function.update_self]
    · rw [length_cons] at hk
      rw [hframe k (by omega), Function.update_of_ne (by omega)]

theorem writeBytes_inside : ∀ {b : List UInt8} {page : StackPage} {off : UInt32}, b ≠ [] →
    (writeBytes page off b).isSome → off.toNat + b.length ≤ 4096 := by
  intro b
  induction b with
  | nil => exact fun h => absurd rfl h
  | cons c b ih =>
    intro page off _ h
    rw [writeBytes, storeByte] at h
    split at h
    · rename_i hlt
      rw [UInt32.lt_iff_toNat_lt, show (4096 : UInt32).toNat = 4096 from rfl] at hlt
      rw [length_cons]
      by_cases hb : b = []
      · rw [hb, length_nil]
        omega
      · have := ih hb h
        rw [UInt32.toNat_add, show (1 : UInt32).toNat = 1 from rfl] at this
        omega
    · cases h

/-- The cursor points into the page, by both of its values. -/
def Cursor.At (s : Cursor) (off : Nat) : Prop :=
  off ≤ 4096 ∧ s.off.toNat = off ∧ s.va = stackVa + s.off

theorem push_spec {off : Nat} (hs : s.At off) (hb : b ≠ []) (hlen : b.length < 2 ^ 32) :
    ((push b s).isSome → b.length ≤ off) ∧
    (b.length ≤ off → ∃ s', push b s = some s' ∧ s'.At (off - b.length) ∧
      bytesAt s'.page (off - b.length) b.length = b ∧ ∀ k, off ≤ k → s'.page k = s.page k) := by
  obtain ⟨hle, hoff, hva⟩ := hs
  have hn : (UInt32.ofNat b.length).toNat = b.length := UInt32.toNat_ofNat_of_lt' hlen
  have hsub : (s.off - UInt32.ofNat b.length).toNat =
      if b.length ≤ off then off - b.length else 2 ^ 32 + off - b.length := by
    rw [UInt32.toNat_sub, hn, hoff]
    split <;> omega
  unfold push
  refine ⟨fun h => ?_, fun hfit => ?_⟩
  · rw [Option.isSome_map] at h
    have hin := writeBytes_inside hb h
    by_contra hnot
    rw [hsub, if_neg hnot] at hin
    omega
  · rw [if_pos hfit] at hsub
    obtain ⟨p, hp, hbytes, hframe⟩ := writeBytes_some b s.page
      (s.off - UInt32.ofNat b.length) (by omega)
    rw [hsub] at hbytes hframe
    refine ⟨⟨p, s.off - UInt32.ofNat b.length, s.va - UInt32.ofNat b.length⟩, ?_,
      ⟨by omega, hsub, ?_⟩, hbytes, fun k hk => hframe k (by omega)⟩
    · dsimp only
      rw [hp]
      rfl
    · rw [hva, UInt32.sub_eq_add_neg, UInt32.sub_eq_add_neg, UInt32.add_assoc]

theorem bytesAt_congr {p : StackPage} {off n : Nat} (h : ∀ k, off ≤ k → p k = page k) :
    bytesAt p off n = bytesAt page off n :=
  map_congr_left fun _ _ => h _ (Nat.le_add_right _ _)

/-- The blocks `bs` lie one behind the other below `top`. -/
structure Row (page : StackPage) (top : Nat) (bs : List (List UInt8)) : Prop where
  fits : total bs ≤ top
  block : ∀ i (h : i < bs.length), bytesAt page (blockOff top bs i) bs[i].length = bs[i]

theorem total_drop_le (bs : List (List UInt8)) : ∀ i, total (bs.drop i) ≤ total bs := by
  intro i
  conv_rhs => rw [← take_append_drop i bs]
  rw [total, total, map_append, sum_append]
  omega

theorem pushAll_some {top : Nat} (hne : ∀ b ∈ bs, b ≠ [] ∧ b.length < 2 ^ 32) (hs : s.At top)
    (hfit : total bs ≤ top) :
    ∃ r, pushAll bs s = some r ∧ r.1.At (top - total bs) ∧ Row r.1.page top bs ∧
      (∀ k, top ≤ k → r.1.page k = s.page k) ∧ r.2.length = bs.length ∧
      ∀ i (h : i < r.2.length), r.2[i] = stackVa + UInt32.ofNat (blockOff top bs i) := by
  induction bs with
  | nil =>
    refine ⟨_, rfl, hs, ⟨Nat.zero_le _, fun i h => absurd h (Nat.not_lt_zero i)⟩, fun _ _ => rfl,
      rfl, fun i h => absurd h (Nat.not_lt_zero i)⟩
  | cons b bs ih =>
    have htotal : total (b :: bs) = b.length + total bs := by
      rw [total, map_cons, sum_cons]
      rfl
    rw [htotal] at hfit ⊢
    obtain ⟨r, hr, hat, hrow, hframe, hlen, hvas⟩ :=
      ih (fun b hb => hne b (mem_cons_of_mem _ hb)) (by omega)
    obtain ⟨hb, hblen⟩ := hne b mem_cons_self
    obtain ⟨s', hs', hat', hbytes, hframe'⟩ := (push_spec hat hb hblen).2 (by omega)
    have hoff : top - total bs - b.length = top - (b.length + total bs) := by omega
    rw [hoff] at hat' hbytes
    refine ⟨(s', s'.va :: r.2), ?_, hat', ⟨?_, fun i h => ?_⟩, fun k hk => ?_, ?_, fun i h => ?_⟩
    · rw [pushAll, hr, Option.bind_some, hs']
      rfl
    · rw [htotal]
      exact hfit
    · cases i with
      | zero =>
        rw [blockOff, drop_zero, htotal]
        exact hbytes
      | succ i =>
        refine (bytesAt_congr fun k hk => hframe' k (le_trans ?_ hk)).trans
          (hrow.block i (Nat.lt_of_succ_lt_succ h))
        have := total_drop_le bs i
        show _ ≤ top - total (bs.drop i)
        omega
    · rw [hframe' k (by omega), hframe k hk]
    · rw [length_cons, length_cons, hlen]
    · cases i with
      | zero =>
        rw [blockOff, drop_zero, htotal, ← hat'.2.1, UInt32.ofNat_toNat]
        exact hat'.2.2
      | succ i => exact hvas i (Nat.lt_of_succ_lt_succ h)

theorem pushAll_isSome {top : Nat} (hne : ∀ b ∈ bs, b ≠ [] ∧ b.length < 2 ^ 32) (hs : s.At top)
    (h : (pushAll bs s).isSome) : total bs ≤ top := by
  induction bs with
  | nil => exact Nat.zero_le _
  | cons b bs ih =>
    rw [pushAll, Option.isSome_bind] at h
    obtain ⟨hb, hblen⟩ := hne b mem_cons_self
    have hne' := fun b hb => hne b (mem_cons_of_mem _ hb)
    cases hr : pushAll bs s with
    | none =>
      rw [hr] at h
      cases h
    | some r =>
      have hfit := ih hne' (by rw [hr]; rfl)
      obtain ⟨r', hr', hat, -⟩ := pushAll_some hne' hs hfit
      rw [hr] at hr' h
      cases hr'
      rw [Option.any_some, Option.isSome_map] at h
      have := (push_spec hat hb hblen).1 h
      rw [total, map_cons, sum_cons]
      rw [total] at hfit this
      omega

/-! ## The layout -/

theorem total_le32 (ws : List UInt32) : total (ws.map le32) = 4 * ws.length := by
  induction ws with
  | nil => rfl
  | cons w ws ih =>
    rw [map_cons, total, map_cons, sum_cons, ← total, ih, length_cons]
    show 4 + _ = _
    omega

theorem total_strings (argv : List (List UInt8)) :
    total (argv.map (· ++ [0])) = (argv.map fun a => a.length + 1).sum := by
  rw [total, map_map]
  congr 1
  exact map_congr_left fun a _ => length_append

theorem Cursor.At.align {off : Nat} (h : s.At off) :
    Cursor.At { s with off := s.off / 4 * 4, va := s.va / 4 * 4 } (off / 4 * 4) := by
  obtain ⟨hle, hoff, hva⟩ := h
  have h4 : (4 : UInt32).toNat = 4 := rfl
  have hbase : stackVa.toNat = 0x40100000 := rfl
  have hoff' : (s.off / 4 * 4).toNat = off / 4 * 4 := by
    rw [UInt32.toNat_mul, UInt32.toNat_div, h4, hoff]
    omega
  refine ⟨by omega, hoff', ?_⟩
  apply UInt32.toNat_inj.mp
  rw [hva, UInt32.toNat_mul, UInt32.toNat_div, UInt32.toNat_add, UInt32.toNat_add, hoff', h4, hoff,
    hbase]
  omega

theorem execArgs_length (path : List UInt8) (uargv : List (List UInt8)) :
    (execArgs path uargv).length ≤ 128 := by
  unfold execArgs
  split
  · exact Nat.le_of_ble_eq_true rfl
  · exact length_take_le 128 uargv

theorem execArgs_mem {path a : List UInt8} {uargv : List (List UInt8)}
    (hlen : ∀ a ∈ uargv, a.length + 1 < 2 ^ 32) (ha : a ∈ execArgs path uargv) :
    a.length + 1 < 2 ^ 32 := by
  unfold execArgs at ha
  split at ha
  · rw [mem_singleton] at ha
    have := length_take_le 63 path
    rw [ha]
    omega
  · exact hlen a (mem_of_mem_take ha)

theorem strings_ok (hmem : ∀ a ∈ argv, a.length + 1 < 2 ^ 32) :
    ∀ b ∈ argv.map (· ++ [0]), b ≠ [] ∧ b.length < 2 ^ 32 := by
  intro b hb
  obtain ⟨a, ha, rfl⟩ := mem_map.mp hb
  refine ⟨append_ne_nil_of_right_ne_nil a (cons_ne_nil 0 []), ?_⟩
  rw [length_append]
  exact hmem a ha

theorem words_ok (ws : List UInt32) : ∀ b ∈ ws.map le32, b ≠ [] ∧ b.length < 2 ^ 32 := by
  intro b hb
  obtain ⟨w, -, rfl⟩ := mem_map.mp hb
  exact ⟨cons_ne_nil _ _, show 4 < 2 ^ 32 by decide⟩

theorem start_at (page : StackPage) : Cursor.At ⟨page, 4096, stackVa + 4096⟩ 4096 := ⟨Nat.le_refl _, rfl, rfl⟩

theorem elfSetupArgs_fits {r : StackPage × UInt32} (hmem : ∀ a ∈ argv, a.length + 1 < 2 ^ 32)
    (h128 : argv.length ≤ 128) (hr : elfSetupArgs page argv = some r) : Fits argv := by
  unfold elfSetupArgs at hr
  rw [take_of_length_le h128] at hr
  obtain ⟨r1, hr1, hr⟩ := Option.bind_eq_some_iff.mp hr
  obtain ⟨r2, hr2, -⟩ := Option.map_eq_some_iff.mp hr
  have hfit := pushAll_isSome (strings_ok hmem) (start_at _) (by rw [hr1]; rfl)
  obtain ⟨r1', hr1', hat, -, -, hvas, -⟩ := pushAll_some (strings_ok hmem) (start_at _) hfit
  rw [hr1] at hr1'
  cases hr1'
  have hfit2 := pushAll_isSome (words_ok _) hat.align (by rw [hr2]; rfl)
  rw [total_le32, length_cons, length_append, hvas, length_map, length_singleton] at hfit2
  unfold Fits
  rw [← total_strings]
  omega

/-- `elf_setup_args` stores only into its page and leaves the layout that a program
expects exactly when strings and tables take a page at most. -/
theorem elfSetupArgs_iff (page : StackPage) (path : List UInt8) {uargv : List (List UInt8)}
    (hlen : ∀ a ∈ uargv, a.length + 1 < 2 ^ 32) :
    (∃ r off, elfSetupArgs page (execArgs path uargv) = some r ∧
      Layout r.1 r.2 (execArgs path uargv) off) ↔ Fits (execArgs path uargv) := by
  have hmem : ∀ a ∈ execArgs path uargv, a.length + 1 < 2 ^ 32 := fun a => execArgs_mem hlen
  have h128 := execArgs_length path uargv
  generalize execArgs path uargv = argv at hmem h128 ⊢
  refine ⟨fun h => ?_, fun hfits => ?_⟩
  · obtain ⟨r, off, hr, -⟩ := h
    exact elfSetupArgs_fits hmem h128 hr
  · unfold Fits at hfits
    rw [← total_strings] at hfits
    unfold elfSetupArgs
    rw [take_of_length_le h128]
    dsimp only
    obtain ⟨r1, hr1, hat, hrow, -, hvas, hva⟩ := pushAll_some (strings_ok hmem) (start_at page)
      (by omega)
    obtain ⟨ws, hws⟩ : ∃ ws, ws = UInt32.ofNat argv.length :: (r1.2 ++ [0]) := ⟨_, rfl⟩
    rw [length_map] at hvas
    have hwlen : ws.length = argv.length + 2 := by
      rw [hws, length_cons, length_append, hvas, length_singleton]
    obtain ⟨r2, hr2, hat2, hrow2, hframe2, -⟩ := pushAll_some (words_ok ws) hat.align
      (by rw [total_le32, hwlen]; omega)
    obtain ⟨top, htop⟩ : ∃ top, top = (4096 - total (argv.map (· ++ [0]))) / 4 * 4 := ⟨_, rfl⟩
    rw [← htop] at hat2 hrow2 hframe2
    rw [total_le32, hwlen] at hat2
    have hlow : 4 * (argv.length + 2) ≤ top := by omega
    -- the words lie in a row of fours
    have hword : ∀ i (h : i < ws.length),
        bytesAt r2.1.page (top - 4 * (argv.length + 2) + 4 * i) 4 = le32 ws[i] := by
      intro i h
      have hblock := hrow2.block i (by rw [length_map]; exact h)
      rw [blockOff, ← map_drop, total_le32, length_drop, getElem_map] at hblock
      rw [show top - 4 * (argv.length + 2) + 4 * i = top - 4 * (ws.length - i) by omega]
      exact hblock
    have hoff : ∀ i, top ≤ argOff argv i := by
      intro i
      have := total_drop_le (argv.map (· ++ [0])) i
      unfold argOff blockOff
      omega
    refine ⟨(r2.1.page, r2.1.va), top - 4 * (argv.length + 2), ?_, ?_, ?_, fun i hi => ?_, ?_,
      fun i hi => ?_, fun i hi => ?_, fun i hi => ?_, ?_⟩
    · rw [hr1, Option.bind_some, ← hws, hr2]
      rfl
    · rw [← hat2.2.1, UInt32.ofNat_toNat]
      exact hat2.2.2
    · have h := hword 0 (by omega)
      rw [Nat.mul_zero, Nat.add_zero] at h
      simpa only [hws, getElem_cons_zero] using h
    · have h := hword (i + 1) (by omega)
      simp only [hws, getElem_cons_succ] at h
      rw [getElem_append_left (by omega), hva i (by omega)] at h
      exact h
    · have h := hword (argv.length + 1) (by omega)
      simp only [hws, getElem_cons_succ] at h
      rw [getElem_append_right (by omega)] at h
      simpa only [hvas, Nat.sub_self, getElem_singleton] using h
    · have h := hrow.block i (by rw [length_map]; exact hi)
      rw [getElem_map, length_append, length_singleton] at h
      exact (bytesAt_congr fun k hk => hframe2 k (Nat.le_trans (hoff i) hk)).trans h
    · have := hoff i
      omega
    · have hdrop : (argv.map (· ++ [0])).drop i =
          (argv[i] ++ [0]) :: (argv.map (· ++ [0])).drop (i + 1) := by
        rw [drop_eq_getElem_cons (by rw [length_map]; exact hi), getElem_map]
      have hle := total_drop_le (argv.map (· ++ [0])) i
      unfold argOff blockOff
      rw [hdrop, total, map_cons, sum_cons, ← total, length_append, length_singleton] at hle ⊢
      omega
    · refine ⟨by omega, ?_⟩
      rw [argOff, blockOff, drop_eq_nil_of_le (by rw [length_map])]
      rfl

theorem elfSetupArgs_one : ∃ r off, elfSetupArgs (fun _ => 0) (execArgs [] [[97]]) = some r ∧
    Layout r.1 r.2 (execArgs [] [[97]]) off :=
  (elfSetupArgs_iff _ [] (by decide)).mpr (by decide)

/-- One argument of 4096 characters, with its NUL, starts below the page. -/
theorem page_of_argument_leaves_page :
    ¬ ∃ r off, elfSetupArgs (fun _ => 0) (execArgs [] [replicate 4096 97]) = some r ∧
      Layout r.1 r.2 (execArgs [] [replicate 4096 97]) off := by
  rintro ⟨r, off, hr, -⟩
  have hfits : Fits [replicate 4096 97] := elfSetupArgs_fits
    (fun a ha => by rw [mem_singleton.mp ha, length_replicate]; decide)
    (Nat.le_of_ble_eq_true rfl) hr
  rw [Fits, map_cons, map_nil, sum_cons, sum_nil, length_replicate] at hfits
  omega

end AdventOS.Kernel.Elf.Args
