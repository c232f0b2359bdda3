import Mathlib

/-!
# Sealing under a counter that processes copy

Several processes send on one stream, each with its own copy of the current key and of a counter
IV; sealing a packet uses the copy's pair and advances the copy. The receiver advances its pair
with every packet and replaces it when a packet announces new keys.

The pairs used are distinct, and the receiver follows them, as long as the sender that seals is
the *owner*: the process whose copy is where the receiver will be once it has everything sealed so
far (`Owned`). The rules:

* `Owned.seal`, `Owned.rekey`: the owner seals, with or without new keys;
* `Owned.write`, `Owned.fork`: a packet goes out; a copy is made;
* `Owned.transfer`: a process whose copy equals the owner's becomes the owner, when the owner has
  nothing left to write;
* `Owned.unique`, `Owned.opens_wire`: what the two sides are promised.

`inc` is the counter's increment and `N` a bound on the packets for one key (`Period`).
-/
namespace AdventOS.Sealing
open Function List Option

variable {K I : Type}

/-- A packet: the pair it was sealed with (none: sent in clear), and the pair it
tells the receiver to use from now on. -/
structure Packet (K I : Type) where
  nonce : Option (K × I)
  newKeys : Option (K × I)
  deriving DecidableEq, Repr

def nonces (log : List (Packet K I)) : List (K × I) := log.filterMap (·.nonce)

/-! ## Receiver -/

section Receiver

variable (inc : I → I)

def advance (st : Option (K × I)) (p : Packet K I) : Option (K × I) :=
  match p.newKeys with
  | some ks => some ks
  | none => st.map fun x => (x.1, inc x.2)

def follow (st : Option (K × I)) (log : List (Packet K I)) : Option (K × I) :=
  log.foldl (advance inc) st

/-- Every packet was sealed with the pair the receiver has when it opens it. -/
def Opens : Option (K × I) → List (Packet K I) → Prop
  | _, [] => True
  | st, p :: ps => p.nonce = st ∧ Opens (advance inc st p) ps

@[simp] theorem follow_append (st : Option (K × I)) (l m : List (Packet K I)) :
    follow inc st (l ++ m) = follow inc (follow inc st l) m := by
  simp [follow]

@[simp] theorem follow_single (st : Option (K × I)) (p : Packet K I) :
    follow inc st [p] = advance inc st p := rfl

theorem opens_append (l m : List (Packet K I)) :
    ∀ st, Opens inc st (l ++ m) ↔ Opens inc st l ∧ Opens inc (follow inc st l) m := by
  induction l with
  | nil => intro st; simp [Opens, follow]
  | cons p l ih =>
    intro st
    simp only [cons_append, Opens, ih, and_assoc]
    rfl

theorem opens_snoc (l : List (Packet K I)) (p : Packet K I) (st : Option (K × I)) :
    Opens inc st (l ++ [p]) ↔ Opens inc st l ∧ p.nonce = follow inc st l := by
  simp [opens_append, Opens]

end Receiver

/-! ## Senders -/

/-- A process's copy of the sending state, and the packets it has sealed but not
written. A write that fails leaves its packet, and those sealed later, here. -/
structure Sender (K I : Type) where
  keys : Option (K × I)
  unsent : List (Packet K I)

/-- The processes, what they sealed, in order, and what was written. -/
structure Net (K I : Type) where
  procs : Nat → Sender K I
  log : List (Packet K I)
  wire : List (Packet K I)

def Net.start : Net K I where
  procs := fun _ => ⟨none, []⟩
  log := []
  wire := []

section Ops

variable (inc : I → I) (net : Net K I)

def Net.seal (i : Nat) : Net K I :=
  let p : Packet K I := ⟨(net.procs i).keys, none⟩
  { net with
    procs := update net.procs i
      ⟨(net.procs i).keys.map fun x => (x.1, inc x.2), (net.procs i).unsent ++ [p]⟩
    log := net.log ++ [p] }

def Net.rekey (i : Nat) (ks : K × I) : Net K I :=
  let p : Packet K I := ⟨(net.procs i).keys, some ks⟩
  { net with
    procs := update net.procs i ⟨some ks, (net.procs i).unsent ++ [p]⟩
    log := net.log ++ [p] }

def Net.write (i : Nat) : Option (Net K I) :=
  match (net.procs i).unsent with
  | [] => none
  | p :: ps => some { net with
      procs := update net.procs i ⟨(net.procs i).keys, ps⟩
      wire := net.wire ++ [p] }

def Net.fork (i j : Nat) : Net K I :=
  { net with procs := update net.procs j ⟨(net.procs i).keys, []⟩ }

@[simp] theorem Net.seal_log (i : Nat) :
    (net.seal inc i).log = net.log ++ [⟨(net.procs i).keys, none⟩] := rfl

@[simp] theorem Net.rekey_log (i : Nat) (ks : K × I) :
    (net.rekey i ks).log = net.log ++ [⟨(net.procs i).keys, some ks⟩] := rfl

@[simp] theorem Net.fork_log (i j : Nat) : (net.fork i j).log = net.log := rfl

variable {i j : Nat} {net' : Net K I}

theorem Net.seal_ne (h : j ≠ i) : (net.seal inc i).procs j = net.procs j := by
  simp [Net.seal, h]

theorem Net.rekey_ne (h : j ≠ i) (ks : K × I) : (net.rekey i ks).procs j = net.procs j := by
  simp [Net.rekey, h]

theorem Net.fork_ne {k : Nat} (h : k ≠ j) : (net.fork i j).procs k = net.procs k := by
  simp [Net.fork, h]

@[simp] theorem Net.fork_same (i j : Nat) : (net.fork i j).procs j = ⟨(net.procs i).keys, []⟩ := by
  simp [Net.fork]

theorem Net.write_log (h : net.write i = some net') : net'.log = net.log := by
  unfold Net.write at h
  split at h
  · cases h
  · cases h; rfl

theorem Net.write_ne (h : net.write i = some net') (hj : j ≠ i) : net'.procs j = net.procs j := by
  unfold Net.write at h
  split at h
  · cases h
  · cases h; simp [hj]

theorem Net.write_keys (h : net.write i = some net') (j : Nat) :
    (net'.procs j).keys = (net.procs j).keys := by
  by_cases hj : j = i
  · unfold Net.write at h
    split at h
    · cases h
    · cases h; simp [hj]
  · rw [net.write_ne h hj]

end Ops

/-! ## Ownership -/

section Owner

variable [DecidableEq K] (inc : I → I)

def keyCount (log : List (Packet K I)) (k : K) : Nat := (nonces log).countP fun x => x.1 = k

def FreshKey (log : List (Packet K I)) (k : K) : Prop := ∀ x ∈ nonces log, x.1 ≠ k

/-- Fewer than `N` increments do not come back. -/
def Period (N : Nat) : Prop := ∀ b m n, m < n → n < N → inc^[m] b ≠ inc^[n] b

/-- The pairs used so far are distinct, and those under the receiver's key are
the ones it counted through since it took the key. -/
structure Distinct (log : List (Packet K I)) : Prop where
  nodup : (nonces log).Nodup
  counted : ∀ k i, follow inc none log = some (k, i) → ∃ b, i = inc^[keyCount log k] b ∧
      ∀ j, (k, j) ∈ nonces log → ∃ m < keyCount log k, j = inc^[m] b

/-- `o` is the process that may seal next. -/
structure Owned (o : Nat) (net : Net K I) : Prop where
  opens : Opens inc none net.log
  keys : (net.procs o).keys = follow inc none net.log
  wire : net.log = net.wire ++ (net.procs o).unsent
  others : ∀ i, i ≠ o → (net.procs i).unsent = []
  distinct : Distinct inc net.log

omit [DecidableEq K] in
theorem nonces_snoc (log : List (Packet K I)) (p : Packet K I) :
    nonces (log ++ [p]) = nonces log ++ p.nonce.toList := by
  cases hp : p.nonce <;> simp [nonces, hp]

variable {log : List (Packet K I)} {i : Nat}

theorem keyCount_fresh {k : K} (h : FreshKey log k) : keyCount log k = 0 := by
  unfold keyCount
  rw [countP_eq_zero]
  intro x hx
  simpa using h x hx

theorem keyCount_snoc (log : List (Packet K I)) (p : Packet K I) (k : K) : keyCount (log ++ [p]) k =
      keyCount log k + if (p.nonce.map Prod.fst) = some k then 1 else 0 := by
  unfold keyCount
  rw [nonces_snoc, countP_append]
  cases hp : p.nonce with
  | none => simp
  | some x => simp [countP_cons]

theorem Distinct.next_unused {N : Nat} {x : K × I}
    (h : Distinct inc log) (hN : Period inc N) (hx : follow inc none log = some x)
    (hlt : keyCount log x.1 < N) : x ∉ nonces log := by
  obtain ⟨k, i⟩ := x
  obtain ⟨b, hi, hb⟩ := h.counted k i hx
  intro hmem
  obtain ⟨m, hm, hj⟩ := hb i hmem
  exact hN b m _ hm hlt (hj.symm.trans hi)

theorem Distinct.snoc {N : Nat} (h : Distinct inc log)
    (hN : Period inc N) (hlt : ∀ x, follow inc none log = some x → keyCount log x.1 < N) :
    Distinct inc (log ++ [⟨follow inc none log, none⟩]) := by
  cases hx : follow inc none log with
  | none =>
    refine ⟨by simpa [nonces_snoc] using h.nodup, fun k i hk => ?_⟩
    simp [advance, hx] at hk
  | some x =>
    obtain ⟨k, i⟩ := x
    have hnew := h.next_unused inc hN hx (hlt _ hx)
    obtain ⟨b, hi, hb⟩ := h.counted k i hx
    refine ⟨?_, fun k' i' hk => ?_⟩
    · rw [nonces_snoc]
      exact List.Nodup.append h.nodup (by simp) (by simpa using hnew)
    · simp only [follow_append, hx, follow_single, advance, map_some,
        Option.some.injEq, Prod.mk.injEq] at hk
      obtain ⟨rfl, rfl⟩ := hk
      have hc : keyCount (log ++ [⟨some (k, i), none⟩]) k = keyCount log k + 1 := by
        simp [keyCount_snoc]
      refine ⟨b, by rw [hc, iterate_succ_apply', ← hi], fun j hj => ?_⟩
      rw [hc]
      rw [nonces_snoc] at hj
      simp only [toList_some, mem_append, mem_singleton, Prod.mk.injEq, true_and] at hj
      rcases hj with hj | rfl
      · obtain ⟨m, hm, hj⟩ := hb j hj
        exact ⟨m, by omega, hj⟩
      · exact ⟨keyCount log k, by omega, hi⟩

theorem Distinct.snoc_rekey {N : Nat} {ks : K × I} (h : Distinct inc log) (hN : Period inc N)
    (hlt : ∀ x, follow inc none log = some x → keyCount log x.1 < N)
    (hfresh : FreshKey log ks.1) (hne : ∀ x, follow inc none log = some x → x.1 ≠ ks.1) :
    Distinct inc (log ++ [⟨follow inc none log, some ks⟩]) := by
  have hmem : ∀ x ∈ nonces (log ++ [⟨follow inc none log, some ks⟩]), x.1 ≠ ks.1 := by
    intro x hx
    rw [nonces_snoc] at hx
    simp only [mem_append, mem_toList] at hx
    rcases hx with hx | hx
    · exact hfresh x hx
    · exact hne x hx
  refine ⟨?_, fun k i hk => ?_⟩
  · rw [nonces_snoc]
    refine List.Nodup.append h.nodup ?_ fun x hx hx' => ?_
    · cases follow inc none log <;> simp
    · simp only [mem_toList] at hx'
      exact h.next_unused inc hN hx' (hlt x hx') hx
  · simp only [follow_append, follow_single, advance, Option.some.injEq] at hk
    subst hk
    refine ⟨i, by rw [keyCount_fresh hmem]; rfl, fun j hj => ?_⟩
    exact absurd rfl (hmem (k, j) hj)

variable {inc} {N : Nat} {o : Nat} {net : Net K I}

theorem owned_start (o : Nat) : Owned inc o (Net.start : Net K I) where
  opens := trivial
  keys := rfl
  wire := rfl
  others _ _ := rfl
  distinct := ⟨by simp [Net.start, nonces], fun k i h => by simp [Net.start, follow] at h⟩

theorem Owned.bound (h : Owned inc o net)
    (hlt : ∀ x, (net.procs o).keys = some x → keyCount net.log x.1 < N) :
    ∀ x, follow inc none net.log = some x → keyCount net.log x.1 < N :=
  fun x hx => hlt x (h.keys.trans hx)

theorem Owned.seal (h : Owned inc o net) (hN : Period inc N)
    (hlt : ∀ x, (net.procs o).keys = some x → keyCount net.log x.1 < N) :
    Owned inc o (net.seal inc o) where
  opens := (opens_snoc inc _ _ _).2 ⟨h.opens, h.keys⟩
  keys := by simp [Net.seal, advance, h.keys]
  wire := by simp [Net.seal, ← h.wire, ← append_assoc]
  others i hi := by rw [net.seal_ne inc hi]; exact h.others i hi
  distinct := by
    rw [Net.seal_log, h.keys]
    exact h.distinct.snoc inc hN (h.bound hlt)

theorem Owned.rekey (h : Owned inc o net) (hN : Period inc N) {ks : K × I}
    (hlt : ∀ x, (net.procs o).keys = some x → keyCount net.log x.1 < N)
    (hfresh : FreshKey net.log ks.1) (hne : ∀ x, (net.procs o).keys = some x → x.1 ≠ ks.1) :
    Owned inc o (net.rekey o ks) where
  opens := (opens_snoc inc _ _ _).2 ⟨h.opens, h.keys⟩
  keys := by simp [Net.rekey, advance]
  wire := by simp [Net.rekey, ← h.wire, ← append_assoc]
  others i hi := by rw [net.rekey_ne hi]; exact h.others i hi
  distinct := by
    rw [Net.rekey_log, h.keys]
    exact h.distinct.snoc_rekey inc hN (h.bound hlt) hfresh fun x hx => hne x (h.keys.trans hx)

theorem Owned.write (h : Owned inc o net) {net' : Net K I}
    (hw : net.write i = some net') : Owned inc o net' := by
  have hio : i = o := by
    by_contra hne
    simp [Net.write, h.others i hne] at hw
  subst hio
  refine ⟨by rw [net.write_log hw]; exact h.opens, ?_, ?_, fun j hj => ?_,
    by rw [net.write_log hw]; exact h.distinct⟩
  · rw [net.write_keys hw, net.write_log hw]; exact h.keys
  · have hwire := h.wire
    unfold Net.write at hw
    split at hw
    · cases hw
    · rename_i p ps hu
      cases hw
      simp [hwire, hu]
  · rw [net.write_ne hw hj]; exact h.others j hj

theorem Owned.fork (h : Owned inc o net) {j : Nat} (hj : j ≠ o) : Owned inc o (net.fork i j) where
  opens := h.opens
  keys := by rw [net.fork_ne (Ne.symm hj)]; exact h.keys
  wire := by rw [net.fork_ne (Ne.symm hj)]; exact h.wire
  others k hk := by
    by_cases hkj : k = j
    · subst hkj; simp
    · rw [net.fork_ne hkj]; exact h.others k hk
  distinct := h.distinct

theorem Owned.transfer (h : Owned inc o net)
    (hkeys : (net.procs i).keys = (net.procs o).keys) (hsent : (net.procs o).unsent = [])
    (hi : (net.procs i).unsent = []) : Owned inc i net where
  opens := h.opens
  keys := hkeys.trans h.keys
  wire := by rw [hi, ← hsent]; exact h.wire
  others j _ := by
    by_cases hjo : j = o
    · subst hjo; exact hsent
    · exact h.others j hjo
  distinct := h.distinct

theorem Owned.unique (h : Owned inc o net) : (nonces net.log).Nodup := h.distinct.nodup

theorem Owned.opens_wire (h : Owned inc o net) : Opens inc none net.wire := by
  have hop := h.opens
  rw [h.wire, opens_append] at hop
  exact hop.1

end Owner

end AdventOS.Sealing
