import AdventOS.Core.Replay

/-!
# The output rings of agentd's jobs (`user/agentd.c`)

A ring keeps the last 4096 bytes of a stream; `total` counts all of them. `ring_append` and
`ring_read` address the stream by absolute offsets and store its byte `i` at `i % 4096`.

A run mixes appends, of fewer than 2^32 bytes altogether, with the reads of one reader, who starts
at offset 0 and goes on at `next`. `stream` and `log` are history.

* `Holds`: the ring has the last 4096 bytes of the stream.
* `reads_account`: the reads split the stream into bytes returned and bytes skipped.
-/
namespace AdventOS.Agentd.Output
open Function List

def jobRingSz : Nat := 4096

/-- agentd.c:205-208 -/
structure JobRing where
  buf : Nat → UInt8
  total : UInt32

/-- The loop of `ring_append`. agentd.c:1334-1338 -/
def store : (buf : Nat → UInt8) → (pos : Nat) → List UInt8 → Nat → UInt8
  | buf, _, [] => buf
  | buf, pos, c :: data => store (update buf pos c) ((pos + 1) % jobRingSz) data

/-- agentd.c:1325-1340; `n` is the length of `data`. -/
def ringAppend (r : JobRing) (data : List UInt8) : JobRing :=
  if data = [] then r
  else
    let drop := data.length - jobRingSz
    let total := if data.length > jobRingSz then r.total + UInt32.ofNat drop else r.total
    let data := if data.length > jobRingSz then data.drop drop else data
    { buf := store r.buf (total.toNat % jobRingSz) data
      total := total + UInt32.ofNat data.length }

/-- The loop of `ring_read`. agentd.c:1357-1361 -/
def load (buf : Nat → UInt8) : (pos n : Nat) → List UInt8
  | _, 0 => []
  | pos, n + 1 => buf pos :: load buf ((pos + 1) % jobRingSz) n

/-- What `ring_read` copies out and returns through its pointers. -/
structure Read where
  bytes : List UInt8
  next : UInt32
  skipped : UInt32
  deriving DecidableEq, Repr

/-- agentd.c:1347-1363 -/
def ringRead (r : JobRing) (start cap : UInt32) : Read :=
  let lo := if r.total > 4096 then r.total - 4096 else 0
  let skipped := if start < lo then lo - start else 0
  let start := if start < lo then lo else start
  let start := if start > r.total then r.total else start
  let avail := r.total - start
  let n := if avail > cap then cap else avail
  ⟨load r.buf (start.toNat % jobRingSz) n.toNat, start + n, skipped⟩

/-! ## Runs -/

/-- A read of the reader: from where, of how much, when, and its answer. -/
structure Receipt where
  start : UInt32
  cap : UInt32
  total : UInt32
  read : Read

structure State where
  ring : JobRing
  offset : UInt32
  stream : List UInt8
  log : List Receipt

inductive Op
  | append (data : List UInt8)
  | read (cap : UInt32)

def State.start : State := ⟨⟨fun _ => 0, 0⟩, 0, [], []⟩

/-- Appends stop short of 2^32 bytes. -/
def step (s : State) : Op → Option State
  | .append data =>
    if s.stream.length + data.length < 2 ^ 32 then
      some { s with ring := ringAppend s.ring data, stream := s.stream ++ data }
    else none
  | .read cap =>
    let r := ringRead s.ring s.offset cap
    some { s with offset := r.next, log := s.log ++ [⟨s.offset, cap, s.ring.total, r⟩] }

def jobRing : LTS State Op := .ofFn (· = .start) step

/-! ## The window -/

variable {buf : Nat → UInt8} {data stream : List UInt8} {r : JobRing} {p i n : Nat} {s : State}

theorem store_apply (hn : data.length ≤ jobRingSz) (hi : i < jobRingSz) :
    store buf (p % jobRingSz) data ((p + i) % jobRingSz) =
      if h : i < data.length then data[i] else buf ((p + i) % jobRingSz) := by
  induction data generalizing buf p i with
  | nil => rfl
  | cons c data ih =>
    simp only [length_cons] at hn ⊢
    unfold jobRingSz at *
    rw [store, jobRingSz, Nat.mod_add_mod]
    cases i with
    | zero =>
      -- the other bytes go elsewhere: the position is the last one they would reach
      have h := @ih (update buf (p % 4096) c) (p + 1) 4095 (by omega) (by omega)
      rw [show p + 1 + 4095 = p + 4096 by omega, Nat.add_mod_right, dif_neg (by omega),
        update_self] at h
      simpa using h
    | succ i =>
      have h := @ih (update buf (p % 4096) c) (p + 1) i (by omega) (by omega)
      rw [show p + 1 + i = p + (i + 1) by omega] at h
      rw [h]
      by_cases hd : i < data.length
      · rw [dif_pos hd, dif_pos (by omega), getElem_cons_succ]
      · rw [dif_neg hd, dif_neg (by omega), update_of_ne (by omega)]

theorem load_eq : load buf (p % jobRingSz) n =
    (List.range n).map fun i => buf ((p + i) % jobRingSz) := by
  induction n generalizing p with
  | zero => rfl
  | succ n ih =>
    rw [load, Nat.mod_add_mod, ih, range_succ_eq_map, map_cons, map_map]
    congr 1
    refine map_congr_left fun i _ => ?_
    rw [comp_apply, show p + (i + 1) = p + 1 + i by omega]

/-- The ring has the last bytes of the stream. -/
structure Holds (r : JobRing) (stream : List UInt8) : Prop where
  total : r.total.toNat = stream.length
  window : ∀ i (h : i < stream.length), stream.length ≤ i + jobRingSz →
    r.buf (i % jobRingSz) = stream[i]

theorem Holds.store (h : Holds r stream) {skip : List UInt8} {total : UInt32}
    (htotal : total.toNat = (stream ++ skip).length) (hn : data.length ≤ jobRingSz)
    (hskip : skip = [] ∨ data.length = jobRingSz)
    (hlt : (stream ++ skip ++ data).length < 2 ^ 32) :
    Holds ⟨store r.buf (total.toNat % jobRingSz) data, total + UInt32.ofNat data.length⟩
      (stream ++ skip ++ data) := by
  refine ⟨?_, fun i hi hw => ?_⟩
  · rw [UInt32.toNat_add, UInt32.toNat_ofNat', htotal]
    simp only [length_append] at hlt ⊢
    omega
  · dsimp only
    rw [htotal]
    generalize hm : (stream ++ skip).length = m
    rw [length_append, hm] at hi hw
    by_cases hd : m ≤ i
    · obtain ⟨j, rfl⟩ : ∃ j, i = m + j := ⟨i - m, by omega⟩
      rw [store_apply hn (by omega), dif_pos (by omega), getElem_append_right (by omega)]
      simp [hm]
    · -- an older byte: nothing was passed over, and the position is beyond the new ones
      have hz : skip = [] := hskip.resolve_right (by omega)
      subst hz
      rw [append_nil] at hm
      have hpos : i % jobRingSz = (m + (i + jobRingSz - m)) % jobRingSz := by
        rw [show m + (i + jobRingSz - m) = i + jobRingSz by omega, Nat.add_mod_right]
      rw [hpos, store_apply hn (by omega), dif_neg (by omega), ← hpos,
        h.window i (by omega) (by omega), getElem_append_left (by simp; omega)]
      simp

theorem Holds.append (h : Holds r stream) (hlt : (stream ++ data).length < 2 ^ 32) :
    Holds (ringAppend r data) (stream ++ data) := by
  unfold ringAppend
  split
  · rename_i hd
    rw [hd, append_nil]
    exact h
  by_cases hn : data.length > jobRingSz
  · simp only [if_pos hn]
    have hsplit : stream ++ data = stream ++ data.take (data.length - jobRingSz) ++
        data.drop (data.length - jobRingSz) := by
      rw [append_assoc, take_append_drop]
    have hlen : (data.drop (data.length - jobRingSz)).length = jobRingSz := by
      rw [length_drop]
      omega
    rw [hsplit] at hlt ⊢
    refine h.store ?_ hlen.le (.inr hlen) hlt
    rw [UInt32.toNat_add, UInt32.toNat_ofNat', h.total, length_append, length_take]
    simp only [length_append, length_take] at hlt
    omega
  · simp only [if_neg hn]
    have := h.store (show r.total.toNat = (stream ++ []).length by simpa using h.total)
      (Nat.le_of_not_gt hn) (.inl rfl) (by simpa using hlt)
    simpa using this

/-! ## Reads -/

/-- The bytes lie in the stream behind those that were skipped, what was skipped is older than
the last 4096 bytes, and a read stops early at the end of the stream only. -/
structure Receipt.Sound (e : Receipt) (stream : List UInt8) : Prop where
  next : e.read.next.toNat = e.start.toNat + e.read.skipped.toNat + e.read.bytes.length
  bytes : e.read.bytes = (stream.drop (e.start.toNat + e.read.skipped.toNat)).take
    e.read.bytes.length
  le : e.read.next ≤ e.total
  total : e.total.toNat ≤ stream.length
  old : e.read.skipped = 0 ∨ e.start.toNat + e.read.skipped.toNat + jobRingSz ≤ e.total.toNat
  full : e.read.bytes.length = e.cap.toNat ∨ e.read.next = e.total

theorem Receipt.Sound.append {e : Receipt} (h : e.Sound stream) (data : List UInt8) :
    e.Sound (stream ++ data) := by
  have hle := UInt32.le_iff_toNat_le.mp h.le
  have hnext := h.next
  have htotal := h.total
  refine ⟨h.next, ?_, h.le, by rw [length_append]; omega, h.old, h.full⟩
  rw [drop_append_of_le_length (by omega), take_append_of_le_length]
  · exact h.bytes
  · rw [length_drop]
    omega

theorem ringRead_sound (h : Holds r stream) {start : UInt32} (cap : UInt32)
    (hstart : start ≤ r.total) : Receipt.Sound ⟨start, cap, r.total, ringRead r start cap⟩ stream := by
  have h4096 : (4096 : UInt32).toNat = jobRingSz := rfl
  have hle := UInt32.le_iff_toNat_le.mp hstart
  have htotal := h.total
  -- where the window starts, and where the read does
  generalize hlo : (if r.total > 4096 then r.total - 4096 else 0) = lo
  have hlo' : lo.toNat = r.total.toNat - jobRingSz := by
    rw [← hlo]
    split
    · rename_i hgt
      rw [UInt32.toNat_sub_of_le _ _ (UInt32.le_of_lt hgt), h4096]
    · rename_i hgt
      have := UInt32.le_iff_toNat_le.mp (UInt32.not_lt.mp hgt)
      rw [UInt32.toNat_zero]
      omega
  generalize hst : (if start < lo then lo else start) = st
  have hst' : st.toNat = max start.toNat lo.toNat := by
    rw [← hst]
    split
    · rename_i hlt
      have := UInt32.lt_iff_toNat_lt.mp hlt
      omega
    · rename_i hlt
      have := UInt32.le_iff_toNat_le.mp (UInt32.not_lt.mp hlt)
      omega
  generalize hsk : (if start < lo then lo - start else 0) = skipped
  have hsk' : skipped.toNat = st.toNat - start.toNat := by
    rw [← hsk, hst']
    split
    · rename_i hlt
      have := UInt32.lt_iff_toNat_lt.mp hlt
      rw [UInt32.toNat_sub_of_le _ _ (UInt32.le_of_lt hlt)]
      omega
    · rename_i hlt
      have := UInt32.le_iff_toNat_le.mp (UInt32.not_lt.mp hlt)
      rw [UInt32.toNat_zero]
      omega
  have hin : st ≤ r.total := UInt32.le_iff_toNat_le.mpr (by omega)
  generalize hn : (if r.total - st > cap then cap else r.total - st) = n
  have hn' : n.toNat = min cap.toNat (r.total.toNat - st.toNat) := by
    have havail := UInt32.toNat_sub_of_le _ _ hin
    rw [← hn]
    split
    · rename_i hgt
      have := UInt32.lt_iff_toNat_lt.mp hgt
      omega
    · rename_i hgt
      have := UInt32.le_iff_toNat_le.mp (UInt32.not_lt.mp hgt)
      omega
  have hread : ringRead r start cap =
      ⟨load r.buf (st.toNat % jobRingSz) n.toNat, st + n, skipped⟩ := by
    unfold ringRead
    simp [hlo, hst, hsk, if_neg (UInt32.not_lt.mpr hin), hn]
  have hnext : (st + n).toNat = st.toNat + n.toNat := by
    have := r.total.toNat_lt
    rw [UInt32.toNat_add]
    omega
  have hlen : (load r.buf (st.toNat % jobRingSz) n.toNat).length = n.toNat := by
    rw [load_eq, length_map, length_range]
  rw [hread]
  refine ⟨?_, ?_, ?_, h.total.le, ?_, ?_⟩
  · dsimp only
    rw [hlen]
    omega
  · rw [hlen, load_eq, show start.toNat + skipped.toNat = st.toNat by omega]
    refine ext_getElem (by simp; omega) fun i h1 h2 => ?_
    rw [getElem_map, getElem_range, getElem_take, getElem_drop]
    rw [length_map, length_range] at h1
    exact h.window _ (by omega) (by omega)
  · refine UInt32.le_iff_toNat_le.mpr ?_
    dsimp only
    omega
  · by_cases hlt : start.toNat < lo.toNat
    · refine .inr ?_
      dsimp only
      omega
    · refine .inl (UInt32.toNat_inj.mp ?_)
      rw [hsk', UInt32.toNat_zero]
      omega
  · dsimp only
    rw [hlen, ← UInt32.toNat_inj]
    omega

/-- The reads, in order, go from `a` to `b`: each starts where the one before stopped. -/
def Covers : (a : UInt32) → List Receipt → (b : UInt32) → Prop
  | a, [], b => a = b
  | a, e :: log, b => e.start = a ∧ Covers e.read.next log b

theorem Covers.snoc {a b : UInt32} {log : List Receipt} {e : Receipt} (h : Covers a log b)
    (he : e.start = b) : Covers a (log ++ [e]) e.read.next := by
  induction log generalizing a with
  | nil => exact ⟨he.trans h.symm, rfl⟩
  | cons x log ih => exact ⟨h.1, ih h.2⟩

structure Accounts (s : State) : Prop where
  holds : Holds s.ring s.stream
  offset : s.offset ≤ s.ring.total
  covers : Covers 0 s.log s.offset
  sound : ∀ e ∈ s.log, e.Sound s.stream

theorem accounts_inductive : jobRing.Inductive Accounts where
  init s hs := by
    subst hs
    refine ⟨⟨rfl, fun i hi => absurd hi (Nat.not_lt_zero i)⟩, UInt32.le_refl 0, rfl, fun e he => ?_⟩
    cases he
  step s op s' h hs := by
    cases op with
    | append data =>
      simp only [jobRing, LTS.ofFn_step, step] at hs
      split at hs
      swap
      · cases hs
      rename_i hlt
      cases hs
      have hholds : Holds (ringAppend s.ring data) (s.stream ++ data) :=
        h.holds.append (by rw [length_append]; exact hlt)
      refine ⟨hholds, ?_, h.covers, fun e he => (h.sound e he).append data⟩
      have := UInt32.le_iff_toNat_le.mp h.offset
      rw [UInt32.le_iff_toNat_le, hholds.total, length_append]
      rw [h.holds.total] at this
      dsimp only
      omega
    | read cap =>
      cases hs
      have hsound := ringRead_sound h.holds cap h.offset
      refine ⟨h.holds, hsound.le, h.covers.snoc rfl, fun e he => ?_⟩
      rcases mem_append.mp he with he | he
      · exact h.sound e he
      · obtain rfl := mem_singleton.mp he
        exact hsound

/-- After any appends and reads the reads cover `[0, offset)` in order: each returns
the bytes of the stream between what it skipped and `next`, skips only what is older than the last
4096 bytes at that time, and starts where the one before stopped. -/
theorem reads_account (h : jobRing.Reachable s) :
    Covers 0 s.log s.offset ∧ s.offset.toNat ≤ s.stream.length ∧ ∀ e ∈ s.log, e.Sound s.stream := by
  have ha := accounts_inductive.reachable s h
  refine ⟨ha.covers, ?_, ha.sound⟩
  rw [← ha.holds.total]
  exact UInt32.le_iff_toNat_le.mp ha.offset

/-- Three bytes in two appends, read two at a time. -/
def threeBytes : State := LTS.replay step .start [.append [1, 2], .read 2, .append [3], .read 2]

theorem reads_account_threeBytes :
    threeBytes.log.map (·.read) = [⟨[1, 2], 2, 0⟩, ⟨[3], 3, 0⟩] ∧
      Covers 0 threeBytes.log threeBytes.offset := by
  have hr : jobRing.Reachable threeBytes := .replay _ (.init rfl) rfl
  exact ⟨by decide, (reads_account hr).1⟩

end AdventOS.Agentd.Output
