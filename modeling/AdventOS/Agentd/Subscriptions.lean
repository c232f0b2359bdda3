import AdventOS.Core.Word
import AdventOS.Agentd.Jobs
import AdventOS.Agentd.Kv

/-!
# agentd's subscription tables (`user/agentd.c`)

A client is subscribed to four kinds of things, and each kind is kept in its own way: a job has a
mask of connection slots; a cron entry has a list of four descriptors; resource URIs have a table
of their own, which the rows of subscribers point into; a watch on the keys of a namespace is a row
with a descriptor. A closing connection is removed from all of them.

Here are the tables and what each operation does to the rows of each client: `Subscribed`,
`CronEntry.has`, `Resources.Has` and `WatchTable.Has` say what is stored for a descriptor.
-/
namespace AdventOS.Agentd.Subscriptions
open Json Jobs Function List
open Fs (CStr)

/-! ## Connections -/

/-- `MAX_CONN` -/
def maxConn : Nat := 4

/-- An open connection; `client` is history and tells apart the clients that have had the slot or
the descriptor. -/
structure Conn where
  fd : Nat
  client : Nat
  deriving DecidableEq

abbrev Conns := Nat → Option Conn

/-- agentd.c:3526-3534 -/
def connByFd (conns : Conns) (fd : Nat) : Option Nat :=
  (List.range maxConn).find? fun i => (conns i).any fun c => c.fd = fd

/-- agentd.c:3964-3979 -/
def addConn (conns : Conns) (fd client : Nat) : Option Conns :=
  ((List.range maxConn).find? fun i => (conns i).isNone).map fun i =>
    update conns i (some ⟨fd, client⟩)

/-! ## Jobs -/

/-- agentd.c:1636-1644 -/
def jobIdFromParams (t : Table) (id : Int) : Option Nat :=
  if id < 0 ∨ jobMax ≤ id then none
  else if (t id.toNat).state = .free then none
  else some id.toNat

def setMask (t : Table) (id : Nat) (mask : UInt32) : Table :=
  update t id { t id with subMask := mask }

/-- agentd.c:1792-1806 -/
def emitShellJobSubscribe (t : Table) (cidx : Nat) (id : Int) : Option (Nat × Table) :=
  (jobIdFromParams t id).map fun j => (j, setMask t j ((t j).subMask ||| Word.bit cidx))

/-- agentd.c:1808-1821 -/
def emitShellJobUnsubscribe (t : Table) (cidx : Nat) (id : Int) : Option (Nat × Table) :=
  (jobIdFromParams t id).map fun j => (j, setMask t j ((t j).subMask &&& ~~~Word.bit cidx))

/-- agentd.c:1763-1790; the masks of the connections only mirror those of the jobs and
are left out. -/
def emitShellJobDelete (t : Table) (id : Int) : Table :=
  (jobIdFromParams t id).elim t fun j =>
    if (t j).state = .run then t else update t j (jobClear (t j))

/-- agentd.c:3690-3695 -/
def dropFromJobs (t : Table) (cidx : Nat) : Table := fun j =>
  if j < jobMax then { t j with subMask := (t j).subMask &&& ~~~Word.bit cidx } else t j

/-- The connections that are sent a job's notification; agentd.c:3487-3491 -/
def jobAudience (mask : UInt32) : List Nat :=
  (List.range maxConn).filter fun i => mask &&& Word.bit i ≠ 0

/-! ## Cron entries -/

def maxCronEntries : Nat := 32
def cronMaxSubscribers : Nat := 4

/-- What identifies an entry, and its subscribers; the other fields are those of `Agentd.Cron`. -/
structure CronEntry where
  inUse : Bool
  id : Nat
  subscribers : Nat → Option Nat

abbrev CronTable := Nat → CronEntry

/-- agentd.c:1842-1865 -/
def cronClear : CronEntry := ⟨false, 0, fun _ => none⟩

/-- agentd.c:1827-1833 -/
def cronFind (t : CronTable) (id : Int) : Option Nat :=
  if id ≤ 0 then none
  else (List.range maxCronEntries).find? fun i => (t i).inUse && ((t i).id : Int) == id

/-- agentd.c:1835-1840 -/
def cronAllocSlot (t : CronTable) : Option Nat :=
  (List.range maxCronEntries).find? fun i => !(t i).inUse

def subscriberSlots : List Nat := List.range cronMaxSubscribers

/-- agentd.c:1965-1973 -/
def cronSubscriberAdd (subs : Nat → Option Nat) (fd : Nat) : Nat → Option Nat :=
  if subscriberSlots.any fun k => subs k == some fd then subs
  else
    (subscriberSlots.find? fun k => (subs k).isNone).elim subs fun k =>
      update subs k (some fd)

/-- agentd.c:1974-1982 -/
def cronSubscriberRemove (subs : Nat → Option Nat) (fd : Nat) : Nat → Option Nat :=
  (subscriberSlots.find? fun k => subs k == some fd).elim subs fun k =>
    update subs k none

/-- agentd.c:3720-3726 -/
def dropFromEntry (e : CronEntry) (fd : Nat) : CronEntry :=
  if e.inUse then
    { e with subscribers := fun k => if e.subscribers k = some fd then none else e.subscribers k }
  else e

/-- The descriptors that a fired entry is announced to; agentd.c:2057-2063 -/
def cronAudience (e : CronEntry) : List Nat := subscriberSlots.filterMap e.subscribers

/-! ## Resources -/

def maxResUris : Nat := 16
def maxResSubs : Nat := 32
def resUriMax : Nat := 128

structure ResUri where
  inUse : Bool
  uri : Bytes
  lastHash : UInt32
  deriving DecidableEq

structure ResSub where
  inUse : Bool
  connFd : Nat
  uriIdx : Nat
  deriving DecidableEq

/-- `g_res_uris` and `g_res_subs` -/
structure Resources where
  uris : Nat → ResUri
  subs : Nat → ResSub

/-- agentd.c:296-304 -/
def fnv1a32 (bytes : Bytes) : UInt32 :=
  bytes.foldl (fun h b => (h ^^^ b.toUInt32) * 0x01000193) 0x811C9DC5

/-- The slot, and the table with it; agentd.c:3022-3045 -/
def resUriGetOrAlloc (uris : Nat → ResUri) (uri : Bytes) : Option (Nat × (Nat → ResUri)) :=
  ((List.range maxResUris).find? fun i => (uris i).inUse && (uris i).uri == uri).elim
    (if resUriMax ≤ uri.length then none
      else ((List.range maxResUris).find? fun i => !(uris i).inUse).map fun i =>
        (i, update uris i ⟨true, uri, 0⟩))
    fun i => some (i, uris)

/-- A row that points to the URI is in use. -/
def refersTo (subs : Nat → ResSub) (i : Nat) : Bool :=
  (List.range maxResSubs).any fun j => (subs j).inUse && (subs j).uriIdx == i

/-- agentd.c:3048-3056 -/
def resUriReleaseIfUnused (r : Resources) (i : Nat) : Resources :=
  if maxResUris ≤ i then r
  else if refersTo r.subs i then r
  else
    { r with uris := update r.uris i { r.uris i with inUse := false, uri := [] } }

def setHash (uris : Nat → ResUri) (i : Nat) (h : UInt32) : Nat → ResUri :=
  update uris i { uris i with lastHash := h }

/-- Whether the call is answered `ok`, and the tables; `content` is what `read_resource_by_uri`
gives. agentd.c:3058-3115 -/
def handleResourcesSubscribe (r : Resources) (fd : Nat) (uri : Bytes) (content : Option Bytes) :
    Bool × Resources :=
  if uri = [] ∨ resUriMax ≤ uri.length then (false, r)
  else
    content.elim (false, r) fun bytes =>
      (resUriGetOrAlloc r.uris uri).elim (false, r) fun x =>
        let r' : Resources := { r with uris := setHash x.2 x.1 (fnv1a32 bytes) }
        if (List.range maxResSubs).any fun j => r.subs j == ⟨true, fd, x.1⟩ then (true, r')
        else
          ((List.range maxResSubs).find? fun j => !(r.subs j).inUse).elim
            (false, resUriReleaseIfUnused r' x.1) fun j =>
              (true, { r' with subs := update r.subs j ⟨true, fd, x.1⟩ })

/-- The row of a descriptor and a URI. -/
def subOf (r : Resources) (fd : Nat) (uri : Bytes) : Option Nat :=
  (List.range maxResSubs).find? fun j =>
    (r.subs j).inUse && (r.subs j).connFd == fd && decide ((r.subs j).uriIdx < maxResUris) &&
      (r.uris (r.subs j).uriIdx).inUse && (r.uris (r.subs j).uriIdx).uri == uri

def clearSub (r : Resources) (j : Nat) : Resources :=
  { r with subs := update r.subs j { r.subs j with inUse := false } }

/-- Whether a row was removed, and the tables; agentd.c:3117-3152 -/
def handleResourcesUnsubscribe (r : Resources) (fd : Nat) (uri : Bytes) : Bool × Resources :=
  if uri = [] ∨ resUriMax ≤ uri.length then (false, r)
  else
    (subOf r fd uri).elim (false, r) fun j =>
      (true, resUriReleaseIfUnused (clearSub r j) (r.subs j).uriIdx)

/-- agentd.c:3702-3708 -/
def dropFromResources (r : Resources) (fd : Nat) : Resources :=
  (List.range maxResUris).foldl resUriReleaseIfUnused
    { r with subs := fun j =>
        if (r.subs j).inUse ∧ (r.subs j).connFd = fd then { r.subs j with inUse := false }
        else r.subs j }

/-- The descriptors that a change is announced to; agentd.c:3565-3571 -/
def resAudience (r : Resources) (i : Nat) : List Nat :=
  ((List.range maxResSubs).filter fun j => (r.subs j).inUse && (r.subs j).uriIdx == i).map
    fun j => (r.subs j).connFd

/-- A slot's turn of the poll: whether its subscribers are notified, and the table.
agentd.c:3951-3961 -/
def pollResource (r : Resources) (i : Nat) (content : Option Bytes) : Bool × Resources :=
  if (r.uris i).inUse = false then (false, r)
  else
    content.elim (false, r) fun bytes =>
      if fnv1a32 bytes = (r.uris i).lastHash then (false, r)
      else (true, { r with uris := setHash r.uris i (fnv1a32 bytes) })

/-! ## Watches on keys -/

def maxKvWatches : Nat := 16
def kvWatchNsMax : Nat := 32
def kvWatchPrefixMax : Nat := 64

/-- A row; its strings are what the client sent. -/
structure KvWatch where
  inUse : Bool
  id : Nat
  connFd : Nat
  ns : Bytes
  keyPrefix : Bytes
  deriving DecidableEq

/-- `g_kv_watches` and `g_kv_watch_next_id` -/
structure WatchTable where
  rows : Nat → KvWatch
  nextId : Nat

/-- The row that is taken, and the table. The counter is an `int`.
agentd.c:1246-1278 -/
def emitKvWatch (t : WatchTable) (fd : Nat) (ns keyPrefix : Bytes) : Option WatchTable :=
  if ns = [] ∨ kvWatchNsMax ≤ ns.length ∨ kvWatchPrefixMax ≤ keyPrefix.length then none
  else
    ((List.range maxKvWatches).find? fun i => !(t.rows i).inUse).map fun i =>
      { rows := update t.rows i ⟨true, t.nextId + 1, fd, ns, keyPrefix⟩
        nextId := t.nextId + 1 }

def watchOf (t : WatchTable) (fd : Nat) (wid : Int) : Option Nat :=
  (List.range maxKvWatches).find? fun i =>
    (t.rows i).inUse && ((t.rows i).id : Int) == wid && (t.rows i).connFd == fd

def clearWatch (t : WatchTable) (i : Nat) : WatchTable :=
  { t with rows := update t.rows i { t.rows i with inUse := false } }

/-- What is answered as `ok`, if the call does not fail, and the table;
agentd.c:1280-1302 -/
def emitKvUnwatch (t : WatchTable) (fd : Nat) (wid : Int) : Option Bool × WatchTable :=
  if wid ≤ 0 then (none, t)
  else (watchOf t fd wid).elim (some false, t) fun i => (some true, clearWatch t i)

/-- agentd.c:3709-3713 -/
def dropFromWatches (t : WatchTable) (fd : Nat) : WatchTable :=
  { t with rows := fun i =>
      if (t.rows i).inUse ∧ (t.rows i).connFd = fd then { t.rows i with inUse := false }
      else t.rows i }

/-- The arrays of a row are read as C strings; agentd.c:3608-3620, 3625-3629 -/
def watchMatches (w : KvWatch) (ns key : CStr) : Bool :=
  w.inUse && cString w.ns == ns && (cString w.keyPrefix).isPrefixOf key

/-- The descriptors that a change of a key is announced to, one for each watch;
agentd.c:3622-3634 -/
def kvAudience (t : WatchTable) (ns key : CStr) : List Nat :=
  ((List.range maxKvWatches).filter fun i => watchMatches (t.rows i) ns key).map
    fun i => (t.rows i).connFd

/-! ## Job masks -/

/-- The connection slot `cidx` is set in the mask of the job with this serial. -/
def Subscribed (t : Table) (cidx serial : Nat) : Prop :=
  ∃ j, j < jobMax ∧ (t j).serial = serial ∧ Word.has (t j).subMask cidx = true

/-- Only open connections are in a mask, and only of a slot with a job. -/
structure JobsOk (t : Table) (births : Nat) (isOpen : Nat → Prop) : Prop where
  isOpen : ∀ j, j < jobMax → ∀ i, Word.has (t j).subMask i = true → isOpen i
  taken : ∀ j, j < jobMax → ∀ i, Word.has (t j).subMask i = true → (t j).state ≠ .free
  serial : ∀ j k, j < jobMax → k < jobMax → (t j).state ≠ .free → (t k).state ≠ .free →
    (t j).serial = (t k).serial → j = k
  fresh : ∀ j, j < jobMax → (t j).state ≠ .free → (t j).serial < births

variable {t : Table} {births : Nat} {isOpen : Nat → Prop}

variable {m : UInt32} {cidx fd i j k : Nat} {id : Int} {live' : Nat → Prop}
  {subs : Nat → Option Nat}

theorem has_andNot_bit {c : Nat} (hc : c < 32)
    (h : Word.has (m &&& ~~~Word.bit c) i = true) : Word.has m i = true ∧ i ≠ c := by
  rw [Word.has_andNot, Word.has_bit hc, Bool.and_eq_true, Bool.not_eq_true',
    decide_eq_false_iff_not] at h
  exact h

theorem has_or_bit {c : Nat} (hc : c < 32)
    (h : Word.has (m ||| Word.bit c) i = true) : Word.has m i = true ∨ i = c := by
  rw [Word.has_or, Word.has_bit hc, Bool.or_eq_true, decide_eq_true_iff] at h
  exact h

theorem jobIdFromParams_some (h : jobIdFromParams t id = some j) :
    j < jobMax ∧ (t j).state ≠ .free := by
  unfold jobIdFromParams at h
  split at h
  · cases h
  split at h
  · cases h
  rename_i hf
  cases h
  exact ⟨by omega, hf⟩

theorem mem_jobAudience (h : i ∈ jobAudience m) :
    i < maxConn ∧ Word.has m i = true := by
  obtain ⟨hi, hm⟩ := mem_filter.mp h
  have hi := mem_range.mp hi
  refine ⟨hi, ?_⟩
  by_contra hn
  have h32 : i < 32 := lt_trans hi (by decide)
  exact of_decide_eq_true hm ((Word.and_bit_eq_zero h32).mpr (Bool.eq_false_iff.mpr hn))

/-- Jobs with the serials they had, and subscribers that may subscribe. -/
theorem JobsOk.remask (h : JobsOk t births isOpen) {t' : Table} {isOpen' : Nat → Prop}
    (hsame : ∀ k, (t' k).serial = (t k).serial ∧ ((t' k).state = .free ↔ (t k).state = .free))
    (hm : ∀ k, k < jobMax → ∀ i, Word.has (t' k).subMask i = true →
      isOpen' i ∧ (t k).state ≠ .free) : JobsOk t' births isOpen' where
  isOpen k hk i hi := (hm k hk i hi).1
  taken k hk i hi hf := (hm k hk i hi).2 ((hsame k).2.mp hf)
  serial k l hk hl h1 h2 he := by
    rw [Ne, (hsame k).2] at h1
    rw [Ne, (hsame l).2] at h2
    rw [(hsame k).1, (hsame l).1] at he
    exact h.serial k l hk hl h1 h2 he
  fresh k hk h1 := by
    rw [Ne, (hsame k).2] at h1
    rw [(hsame k).1]
    exact h.fresh k hk h1

theorem JobsOk.setMask (h : JobsOk t births isOpen) {mask : UInt32}
    (hs : (t j).state ≠ .free) (hm : ∀ i, Word.has mask i = true → isOpen i) :
    JobsOk (setMask t j mask) births isOpen := by
  unfold Subscriptions.setMask
  refine h.remask (fun k => ?_) fun k hk i hi => ?_
  · by_cases hk : k = j
    · rw [hk, update_self]
      exact ⟨rfl, Iff.rfl⟩
    · rw [update_of_ne hk]
      exact ⟨rfl, Iff.rfl⟩
  · by_cases hkj : k = j
    · rw [hkj, update_self] at hi
      exact ⟨hm i hi, hkj ▸ hs⟩
    · rw [update_of_ne hkj] at hi
      exact ⟨h.isOpen k hk i hi, h.taken k hk i hi⟩

theorem subscribed_setMask {serial : Nat} {mask : UInt32}
    (h : Subscribed (setMask t j mask) i serial) :
    (∃ k, k < jobMax ∧ k ≠ j ∧ (t k).serial = serial ∧ Word.has (t k).subMask i = true) ∨
      (t j).serial = serial ∧ Word.has mask i = true := by
  obtain ⟨k, hk, hser, hm⟩ := h
  unfold setMask at hser hm
  by_cases hkj : k = j
  · subst hkj
    rw [update_self] at hser hm
    exact .inr ⟨hser, hm⟩
  · rw [update_of_ne hkj] at hser hm
    exact .inl ⟨k, hk, hkj, hser, hm⟩

section
variable (h : JobsOk t births isOpen)
include h

theorem JobsOk.subscribe {t' : Table} (hc : cidx < maxConn) (hopen : isOpen cidx)
    (hs : emitShellJobSubscribe t cidx id = some (j, t')) : JobsOk t' births isOpen ∧
      ∀ i serial, Subscribed t' i serial →
        Subscribed t i serial ∨ i = cidx ∧ serial = (t j).serial := by
  have hc : cidx < 32 := lt_trans hc (by decide)
  obtain ⟨k, hk, he⟩ := Option.map_eq_some_iff.mp hs
  cases he
  obtain ⟨hlt, hfree⟩ := jobIdFromParams_some hk
  refine ⟨h.setMask hfree fun i hi => ?_, fun i serial hsub => ?_⟩
  · rcases has_or_bit hc hi with hi | rfl
    · exact h.isOpen j hlt i hi
    · exact hopen
  · rcases subscribed_setMask hsub with ⟨k, hk, -, hser, hm⟩ | ⟨hser, hm⟩
    · exact .inl ⟨k, hk, hser, hm⟩
    · rcases has_or_bit hc hm with hm | rfl
      · exact .inl ⟨j, hlt, hser, hm⟩
      · exact .inr ⟨rfl, hser.symm⟩

theorem JobsOk.unsubscribe {t' : Table} (hc : cidx < maxConn)
    (hs : emitShellJobUnsubscribe t cidx id = some (j, t')) :
    JobsOk t' births isOpen ∧ ∀ i serial, Subscribed t' i serial →
      Subscribed t i serial ∧ ¬(i = cidx ∧ serial = (t j).serial) := by
  have hc : cidx < 32 := lt_trans hc (by decide)
  obtain ⟨k, hk, he⟩ := Option.map_eq_some_iff.mp hs
  cases he
  obtain ⟨hlt, hfree⟩ := jobIdFromParams_some hk
  refine ⟨h.setMask hfree fun i hi => h.isOpen j hlt i (has_andNot_bit hc hi).1,
    fun i serial hsub => ?_⟩
  rcases subscribed_setMask hsub with ⟨k, hk, hkj, hser, hm⟩ | ⟨hser, hm⟩
  · refine ⟨⟨k, hk, hser, hm⟩, fun hx => hkj ?_⟩
    exact h.serial k j hk hlt (h.taken k hk i hm) hfree (hser.trans hx.2)
  · obtain ⟨hm, hi⟩ := has_andNot_bit hc hm
    exact ⟨⟨j, hlt, hser, hm⟩, fun hx => hi hx.1⟩

theorem JobsOk.replaced {slot n : Nat} {j : Job} (hn : births ≤ n) (hm : j.subMask = 0)
    (hj : j.state = .free ∨ births ≤ j.serial ∧ j.serial < n) :
    JobsOk (update t slot j) n isOpen ∧
      ∀ i serial, Subscribed (update t slot j) i serial → Subscribed t i serial := by
  have hold : ∀ k, Word.has (update t slot j k).subMask = Word.has (t k).subMask ∧
      k ≠ slot ∨ ∀ i, Word.has (update t slot j k).subMask i = false := by
    intro k
    by_cases hk : k = slot
    · subst hk
      rw [update_self, hm]
      exact .inr fun i => Word.has_zero
    · rw [update_of_ne hk]
      exact .inl ⟨rfl, hk⟩
  have hmask : ∀ {k i}, Word.has (update t slot j k).subMask i = true →
      k ≠ slot ∧ Word.has (t k).subMask i = true := by
    intro k i hi
    rcases hold k with ⟨he, hk⟩ | he
    · exact ⟨hk, he ▸ hi⟩
    · rw [he i] at hi
      cases hi
  have hser : ∀ k, k < jobMax → (update t slot j k).state ≠ .free →
      k = slot ∧ births ≤ (update t slot j k).serial ∧
          (update t slot j k).serial < n ∨
        k ≠ slot ∧ (update t slot j k).serial = (t k).serial ∧ (t k).serial < births ∧
          (t k).state ≠ .free := by
    intro k hk hs
    by_cases hks : k = slot
    · subst hks
      rw [update_self] at hs ⊢
      exact .inl ⟨rfl, hj.resolve_left hs⟩
    · rw [update_of_ne hks] at hs ⊢
      exact .inr ⟨hks, rfl, h.fresh k hk hs, hs⟩
  refine ⟨⟨fun k hk i hi => h.isOpen k hk i (hmask hi).2, fun k hk i hi => ?_,
    fun k l hk hl h1 h2 he => ?_, fun k hk h1 => ?_⟩, fun i serial hsub => ?_⟩
  · obtain ⟨hks, hi⟩ := hmask hi
    rw [update_of_ne hks]
    exact h.taken k hk i hi
  · rcases hser k hk h1 with ⟨rfl, e1, -⟩ | ⟨-, e1, f1, s1⟩
    · rcases hser l hl h2 with ⟨rfl, -⟩ | ⟨-, e2, f2, -⟩
      · rfl
      · omega
    · rcases hser l hl h2 with ⟨rfl, e2, -⟩ | ⟨-, e2, -, s2⟩
      · omega
      · exact h.serial k l hk hl s1 s2 (e1.symm.trans (he.trans e2))
  · rcases hser k hk h1 with ⟨-, e⟩ | ⟨-, e, f, -⟩
    · omega
    · omega
  · obtain ⟨k, hk, hs, hm⟩ := hsub
    obtain ⟨hks, hm⟩ := hmask hm
    rw [update_of_ne hks] at hs
    exact ⟨k, hk, hs, hm⟩

theorem JobsOk.mono {isOpen' : Nat → Prop} (hm : ∀ i, isOpen i → isOpen' i) :
    JobsOk t births isOpen' :=
  { h with isOpen := fun j hj i hi => hm i (h.isOpen j hj i hi) }

theorem JobsOk.older : JobsOk t (births + 1) isOpen :=
  { h with fresh := fun j hj hs => Nat.lt_succ_of_lt (h.fresh j hj hs) }

theorem JobsOk.spawn (o : Spawn) :
    JobsOk (spawnTable t births o) (births + 1) isOpen ∧
      ∀ i serial, Subscribed (spawnTable t births o) i serial → Subscribed t i serial := by
  cases hs : jobAllocSlot t with
  | none =>
    rw [spawnTable_full hs]
    exact ⟨h.older, fun _ _ hsub => hsub⟩
  | some slot =>
    cases o with
    | refused => exact ⟨h.older, fun _ _ hsub => hsub⟩
    | failed =>
      rw [spawnTable_failed hs]
      exact h.replaced (Nat.le_succ _) rfl (.inl rfl)
    | started pid =>
      rw [spawnTable_started hs]
      exact h.replaced (Nat.le_succ _) rfl (.inr ⟨le_rfl, Nat.lt_succ_self _⟩)

theorem JobsOk.delete (id : Int) :
    JobsOk (emitShellJobDelete t id) births isOpen ∧
      ∀ i serial, Subscribed (emitShellJobDelete t id) i serial → Subscribed t i serial := by
  unfold emitShellJobDelete
  cases jobIdFromParams t id with
  | none => exact ⟨h, fun _ _ hsub => hsub⟩
  | some j =>
    dsimp only [Option.elim]
    split
    · exact ⟨h, fun _ _ hsub => hsub⟩
    · exact h.replaced le_rfl rfl (.inl rfl)

theorem JobsOk.ended (hrun : (t j).state = .run) :
    JobsOk (update t j { t j with state := .exit }) births isOpen ∧
      ∀ i serial, Subscribed (update t j { t j with state := .exit }) i serial →
        Subscribed t i serial := by
  have hsame : ∀ k, (update t j { t j with state := .exit } k).subMask = (t k).subMask ∧
      (update t j { t j with state := .exit } k).serial = (t k).serial ∧
      ((update t j { t j with state := .exit } k).state = .free ↔
        (t k).state = .free) := by
    intro k
    by_cases hk : k = j
    · subst hk
      rw [update_self, hrun]
      exact ⟨rfl, rfl, nofun, nofun⟩
    · rw [update_of_ne hk]
      exact ⟨rfl, rfl, Iff.rfl⟩
  refine ⟨h.remask (fun k => (hsame k).2) fun k hk i hi => ?_, fun i serial hsub => ?_⟩
  · rw [(hsame k).1] at hi
    exact ⟨h.isOpen k hk i hi, h.taken k hk i hi⟩
  · obtain ⟨k, hk, hs, hm⟩ := hsub
    rw [(hsame k).2.1] at hs
    rw [(hsame k).1] at hm
    exact ⟨k, hk, hs, hm⟩

theorem JobsOk.drop (hc : cidx < maxConn) :
    JobsOk (dropFromJobs t cidx) births (fun i => isOpen i ∧ i ≠ cidx) ∧
      ∀ i serial, Subscribed (dropFromJobs t cidx) i serial → Subscribed t i serial := by
  have hc : cidx < 32 := lt_trans hc (by decide)
  have hsame : ∀ k, (dropFromJobs t cidx k).serial = (t k).serial ∧
      ((dropFromJobs t cidx k).state = .free ↔ (t k).state = .free) := by
    intro k
    unfold dropFromJobs
    split <;> exact ⟨rfl, Iff.rfl⟩
  have hmask : ∀ {k i}, k < jobMax → Word.has (dropFromJobs t cidx k).subMask i = true →
      Word.has (t k).subMask i = true ∧ i ≠ cidx := by
    intro k i hk hi
    rw [dropFromJobs, if_pos hk] at hi
    exact has_andNot_bit hc hi
  refine ⟨h.remask hsame fun k hk i hi => ?_, fun i serial hsub => ?_⟩
  · obtain ⟨hi, hne⟩ := hmask hk hi
    exact ⟨⟨h.isOpen k hk i hi, hne⟩, h.taken k hk i hi⟩
  · obtain ⟨k, hk, hs, hm⟩ := hsub
    rw [(hsame k).1] at hs
    exact ⟨k, hk, hs, (hmask hk hm).1⟩

end
/-! ## Cron entries -/

/-- The descriptor is a subscriber of the entry with this id. -/
def CronTable.Has (t : CronTable) (fd id : Nat) : Prop :=
  ∃ i, i < maxCronEntries ∧ (t i).inUse = true ∧ (t i).id = id ∧
    ∃ k, (t i).subscribers k = some fd

/-- An entry that is not in use has no subscribers, nor has one that `cron_find` cannot find
behind an entry with the same id. -/
structure CronOk (t : CronTable) (nextId : Nat) (live : Nat → Prop) : Prop where
  idle : ∀ i, i < maxCronEntries → (t i).inUse = false → ∀ k, (t i).subscribers k = none
  live : ∀ i, i < maxCronEntries → ∀ k fd, (t i).subscribers k = some fd → live fd
  bound : ∀ i, i < maxCronEntries → ∀ k fd, (t i).subscribers k = some fd → k < cronMaxSubscribers
  once : ∀ i, i < maxCronEntries → ∀ k l fd, (t i).subscribers k = some fd →
    (t i).subscribers l = some fd → k = l
  fresh : ∀ i, i < maxCronEntries → (t i).inUse = true → (t i).id < nextId
  first : ∀ i k, i < k → k < maxCronEntries → (t i).inUse = true → (t k).inUse = true →
    (t i).id = (t k).id → ∀ l, (t k).subscribers l = none

variable {c : CronTable} {nextId : Nat} {live : Nat → Prop}

theorem CronOk.mono (h : CronOk c nextId live) (hm : ∀ f, live f → live' f) :
    CronOk c nextId live' :=
  { h with live := fun i hi k f hk => hm f (h.live i hi k f hk) }

theorem cronFind_some (h : cronFind c id = some i) :
    i < maxCronEntries ∧ (c i).inUse = true ∧ ((c i).id : Int) = id ∧
      ∀ k, k < i → ¬((c k).inUse = true ∧ (c k).id = (c i).id) := by
  unfold cronFind at h
  split at h
  · cases h
  obtain ⟨hlt, hp⟩ := scan_some h
  rw [Bool.and_eq_true, beq_iff_eq] at hp
  refine ⟨hlt, hp.1, hp.2, fun k hk hx => ?_⟩
  obtain ⟨n, hn, hget, hbefore⟩ := List.find?_eq_some_iff_getElem.mp h |>.2
  rw [getElem_range] at hget
  subst hget
  have := hbefore k hk
  rw [getElem_range, hx.1, hx.2, hp.2] at this
  simp at this

def setSubscribers (c : CronTable) (i : Nat) (subs : Nat → Option Nat) : CronTable :=
  update c i { c i with subscribers := subs }

theorem CronOk.changed (h : CronOk c nextId live)
    (hi : cronFind c id = some i)
    (hlive : ∀ k fd, subs k = some fd → live fd)
    (hbound : ∀ k fd, subs k = some fd → k < cronMaxSubscribers)
    (honce : ∀ k l fd, subs k = some fd → subs l = some fd → k = l) :
    CronOk (setSubscribers c i subs) nextId live := by
  obtain ⟨hlt, huse, -, hbefore⟩ := cronFind_some hi
  have hsame : ∀ k, (setSubscribers c i subs k).inUse = (c k).inUse ∧
      (setSubscribers c i subs k).id = (c k).id := by
    intro k
    unfold setSubscribers
    by_cases hk : k = i
    · subst hk
      rw [update_self]
      exact ⟨rfl, rfl⟩
    · rw [update_of_ne hk]
      exact ⟨rfl, rfl⟩
  have hsubs : ∀ k, k = i ∧ (setSubscribers c i subs k).subscribers = subs ∨
      k ≠ i ∧ (setSubscribers c i subs k).subscribers = (c k).subscribers := by
    intro k
    unfold setSubscribers
    by_cases hk : k = i
    · subst hk
      rw [update_self]
      exact .inl ⟨rfl, rfl⟩
    · rw [update_of_ne hk]
      exact .inr ⟨hk, rfl⟩
  refine ⟨fun k hk hu => ?_, fun k hk => ?_, fun k hk => ?_, fun k hk => ?_, fun k hk hu => ?_,
    fun k l hkl hl h1 h2 he => ?_⟩
  · rw [(hsame k).1] at hu
    rcases hsubs k with ⟨rfl, -⟩ | ⟨-, e⟩
    · rw [huse] at hu
      cases hu
    · rw [e]
      exact h.idle k hk hu
  · rcases hsubs k with ⟨-, e⟩ | ⟨-, e⟩ <;> rw [e]
    · exact hlive
    · exact h.live k hk
  · rcases hsubs k with ⟨-, e⟩ | ⟨-, e⟩ <;> rw [e]
    · exact hbound
    · exact h.bound k hk
  · rcases hsubs k with ⟨-, e⟩ | ⟨-, e⟩ <;> rw [e]
    · exact honce
    · exact h.once k hk
  · rw [(hsame k).1] at hu
    rw [(hsame k).2]
    exact h.fresh k hk hu
  · rw [(hsame k).1] at h1
    rw [(hsame l).1] at h2
    rw [(hsame k).2, (hsame l).2] at he
    rcases hsubs l with ⟨rfl, -⟩ | ⟨-, e⟩
    · exact absurd ⟨h1, he⟩ (hbefore k hkl)
    · rw [e]
      exact h.first k l hkl hl h1 h2 he

theorem has_setSubscribers {id : Nat}
    (h : (setSubscribers c i subs).Has fd id) :
    (∃ k, k < maxCronEntries ∧ k ≠ i ∧ (c k).inUse = true ∧ (c k).id = id ∧
      ∃ l, (c k).subscribers l = some fd) ∨
      (c i).inUse = true ∧ (c i).id = id ∧ ∃ l, subs l = some fd := by
  obtain ⟨k, hk, hu, hid, l, hl⟩ := h
  unfold setSubscribers at hu hid hl
  by_cases hki : k = i
  · subst hki
    rw [update_self] at hu hid hl
    exact .inr ⟨hu, hid, l, hl⟩
  · rw [update_of_ne hki] at hu hid hl
    exact .inl ⟨k, hk, hki, hu, hid, l, hl⟩

theorem cronSubscriberAdd_some {f : Nat}
    (h : cronSubscriberAdd subs fd k = some f) :
    subs k = some f ∨ f = fd ∧ k < cronMaxSubscribers ∧
      ∀ l, l < cronMaxSubscribers → subs l ≠ some fd := by
  unfold cronSubscriberAdd at h
  split at h
  · exact .inl h
  rename_i hnot
  cases hs : subscriberSlots.find? fun k => (subs k).isNone with
  | none =>
    rw [hs] at h
    exact .inl h
  | some l =>
    rw [hs] at h
    replace h : update subs l (some fd) k = some f := h
    by_cases hk : k = l
    · subst hk
      rw [update_self] at h
      cases h
      refine .inr ⟨rfl, (scan_some hs).1, fun l hl he => hnot ?_⟩
      exact any_eq_true.mpr ⟨l, mem_range.mpr hl, beq_iff_eq.mpr he⟩
    · rw [update_of_ne hk] at h
      exact .inl h

theorem cronSubscriberAdd_place {l : Nat}
    (hno : ∀ l, l < cronMaxSubscribers → subs l ≠ some fd)
    (hk : cronSubscriberAdd subs fd k = some fd ∧ k < cronMaxSubscribers)
    (hl : cronSubscriberAdd subs fd l = some fd ∧ l < cronMaxSubscribers) : k = l := by
  unfold cronSubscriberAdd at hk hl
  split at hk
  · exact absurd hk.1 (hno k hk.2)
  cases hs : subscriberSlots.find? fun k => (subs k).isNone with
  | none =>
    rw [hs] at hk
    exact absurd hk.1 (hno k hk.2)
  | some m =>
    rename_i hnot
    rw [if_neg hnot, hs] at hl
    rw [hs] at hk
    have hat : ∀ {n}, update subs m (some fd) n = some fd ∧ n < cronMaxSubscribers →
        n = m := by
      rintro n ⟨he, hn⟩
      by_contra hne
      rw [update_of_ne hne] at he
      exact hno n hn he
    exact (hat hk).trans (hat hl).symm

theorem CronOk.subscribe (h : CronOk c nextId live)
    (hi : cronFind c id = some i) (hfd : live fd) :
    CronOk (setSubscribers c i (cronSubscriberAdd (c i).subscribers fd)) nextId live ∧
      ∀ f n, (setSubscribers c i (cronSubscriberAdd (c i).subscribers fd)).Has f n →
        c.Has f n ∨ f = fd ∧ n = (c i).id := by
  obtain ⟨hlt, huse, -⟩ := cronFind_some hi
  refine ⟨h.changed hi (fun k f hk => ?_) (fun k f hk => ?_) fun k l f hk hl => ?_,
    fun f n hf => ?_⟩
  · rcases cronSubscriberAdd_some hk with hk | ⟨rfl, -⟩
    · exact h.live i hlt k f hk
    · exact hfd
  · rcases cronSubscriberAdd_some hk with hk | ⟨-, hk, -⟩
    · exact h.bound i hlt k f hk
    · exact hk
  · rcases cronSubscriberAdd_some hk with ok | ⟨rfl, bk, no⟩
    · rcases cronSubscriberAdd_some hl with ol | ⟨rfl, -, no⟩
      · exact h.once i hlt k l f ok ol
      · exact absurd ok (no k (h.bound i hlt k f ok))
    · rcases cronSubscriberAdd_some hl with ol | ⟨-, bl, -⟩
      · exact absurd ol (no l (h.bound i hlt l f ol))
      · exact cronSubscriberAdd_place no ⟨hk, bk⟩ ⟨hl, bl⟩
  · rcases has_setSubscribers hf with ⟨k, hk, -, hu, hid, l, hl⟩ | ⟨hu, hid, l, hl⟩
    · exact .inl ⟨k, hk, hu, hid, l, hl⟩
    · rcases cronSubscriberAdd_some hl with ol | ⟨rfl, -⟩
      · exact .inl ⟨i, hlt, hu, hid, l, ol⟩
      · exact .inr ⟨rfl, hid.symm⟩

theorem cronSubscriberRemove_some {f : Nat}
    (hbound : ∀ k f, subs k = some f → k < cronMaxSubscribers)
    (honce : ∀ k l f, subs k = some f → subs l = some f → k = l)
    (h : cronSubscriberRemove subs fd k = some f) : subs k = some f ∧ f ≠ fd := by
  unfold cronSubscriberRemove at h
  cases hs : subscriberSlots.find? fun k => subs k == some fd with
  | none =>
    rw [hs] at h
    replace h : subs k = some f := h
    refine ⟨h, ?_⟩
    rintro rfl
    have := scan_none hs (hbound k f h)
    rw [h, beq_self_eq_true] at this
    cases this
  | some l =>
    rw [hs] at h
    replace h : update subs l none k = some f := h
    have hl := beq_iff_eq.mp (scan_some hs).2
    by_cases hk : k = l
    · subst hk
      rw [update_self] at h
      cases h
    · rw [update_of_ne hk] at h
      refine ⟨h, ?_⟩
      rintro rfl
      exact hk (honce k l f h hl)

theorem CronOk.unsubscribe (h : CronOk c nextId live)
    (hi : cronFind c id = some i) :
    CronOk (setSubscribers c i (cronSubscriberRemove (c i).subscribers fd)) nextId live ∧
      ∀ f n, (setSubscribers c i (cronSubscriberRemove (c i).subscribers fd)).Has f n →
        c.Has f n ∧ ¬(f = fd ∧ n = (c i).id) := by
  obtain ⟨hlt, huse, -, hbefore⟩ := cronFind_some hi
  have hold : ∀ {k f}, cronSubscriberRemove (c i).subscribers fd k = some f →
      (c i).subscribers k = some f ∧ f ≠ fd := fun hk =>
    cronSubscriberRemove_some (h.bound i hlt) (h.once i hlt) hk
  refine ⟨h.changed hi (fun k f hk => h.live i hlt k f (hold hk).1)
    (fun k f hk => h.bound i hlt k f (hold hk).1)
    fun k l f hk hl => h.once i hlt k l f (hold hk).1 (hold hl).1, fun f n hf => ?_⟩
  rcases has_setSubscribers hf with ⟨k, hk, hki, hu, hid, l, hl⟩ | ⟨hu, hid, l, hl⟩
  · refine ⟨⟨k, hk, hu, hid, l, hl⟩, fun hx => ?_⟩
    -- another entry with the id stands behind, and has no subscribers
    have hle : i ≤ k := by
      by_contra hlt
      exact hbefore k (not_le.mp hlt) ⟨hu, hid.trans hx.2⟩
    have hik := lt_of_le_of_ne hle (Ne.symm hki)
    rw [h.first i k hik hk huse hu (hx.2.symm.trans hid.symm) l] at hl
    cases hl
  · obtain ⟨hl, hne⟩ := hold hl
    exact ⟨⟨i, hlt, hu, hid, l, hl⟩, fun hx => hne hx.1⟩

theorem CronOk.replaced (h : CronOk c nextId live) {n : Nat} {e : CronEntry} (hle : nextId ≤ n)
    (hn : ∀ k, e.subscribers k = none) (he : e.inUse = true → nextId ≤ e.id ∧ e.id < n) :
    CronOk (update c i e) n live ∧
      ∀ f m, (CronTable.Has (update c i e) f m) → c.Has f m := by
  have hsubs : ∀ {k l f}, (update c i e k).subscribers l = some f →
      k ≠ i ∧ (c k).subscribers l = some f := by
    intro k l f hl
    by_cases hk : k = i
    · subst hk
      rw [update_self, hn] at hl
      cases hl
    · rw [update_of_ne hk] at hl
      exact ⟨hk, hl⟩
  refine ⟨⟨fun k hk hu l => ?_, fun k hk l f hl => h.live k hk l f (hsubs hl).2,
    fun k hk l f hl => h.bound k hk l f (hsubs hl).2,
    fun k hk l m f hl hm => h.once k hk l m f (hsubs hl).2 (hsubs hm).2,
    fun k hk hu => ?_, fun k l hkl hl h1 h2 hid m => ?_⟩, fun f m hf => ?_⟩
  · by_cases hki : k = i
    · subst hki
      rw [update_self]
      exact hn l
    · rw [update_of_ne hki] at hu ⊢
      exact h.idle k hk hu l
  · by_cases hki : k = i
    · subst hki
      rw [update_self] at hu ⊢
      exact (he hu).2
    · rw [update_of_ne hki] at hu ⊢
      exact lt_of_lt_of_le (h.fresh k hk hu) hle
  · by_cases hli : l = i
    · subst hli
      rw [update_self]
      exact hn m
    · rw [update_of_ne hli] at h2 hid ⊢
      by_cases hki : k = i
      · subst hki
        rw [update_self] at h1 hid
        have hold := h.fresh l hl h2
        rw [← hid] at hold
        exact absurd (he h1).1 (not_le.mpr hold)
      · rw [update_of_ne hki] at h1 hid
        exact h.first k l hkl hl h1 h2 hid m
  · obtain ⟨k, hk, hu, hid, l, hl⟩ := hf
    obtain ⟨hki, hl⟩ := hsubs hl
    rw [update_of_ne hki] at hu hid
    exact ⟨k, hk, hu, hid, l, hl⟩

theorem CronOk.drop (h : CronOk c nextId live) (fd : Nat) :
    CronOk (fun i => dropFromEntry (c i) fd) nextId (fun f => live f ∧ f ≠ fd) ∧
      ∀ f n, CronTable.Has (fun i => dropFromEntry (c i) fd) f n → c.Has f n := by
  have hsame : ∀ i, (dropFromEntry (c i) fd).inUse = (c i).inUse ∧
      (dropFromEntry (c i) fd).id = (c i).id := by
    intro i
    unfold dropFromEntry
    split <;> exact ⟨rfl, rfl⟩
  have hsubs : ∀ {i k f}, i < maxCronEntries → (dropFromEntry (c i) fd).subscribers k = some f →
      (c i).subscribers k = some f ∧ f ≠ fd := by
    intro i k f hi hk
    unfold dropFromEntry at hk
    split at hk
    · dsimp only at hk
      split at hk
      · cases hk
      · rename_i hne
        exact ⟨hk, fun he => hne (he ▸ hk)⟩
    · rename_i hu
      rw [h.idle i hi (Bool.eq_false_iff.mpr hu) k] at hk
      cases hk
  refine ⟨⟨fun i hi hu k => ?_, fun i hi k f hk => ?_,
    fun i hi k f hk => h.bound i hi k f (hsubs hi hk).1,
    fun i hi k l f hk hl => h.once i hi k l f (hsubs hi hk).1 (hsubs hi hl).1,
    fun i hi hu => ?_, fun i k hik hk h1 h2 hid l => ?_⟩, fun f n hf => ?_⟩
  · rw [(hsame i).1] at hu
    rw [dropFromEntry, if_neg (by rw [hu]; decide)]
    exact h.idle i hi hu k
  · obtain ⟨ho, hne⟩ := hsubs hi hk
    exact ⟨h.live i hi k f ho, hne⟩
  · rw [(hsame i).1] at hu
    rw [(hsame i).2]
    exact h.fresh i hi hu
  · rw [(hsame i).1] at h1
    rw [(hsame k).1] at h2
    rw [(hsame i).2, (hsame k).2] at hid
    cases hl : (dropFromEntry (c k) fd).subscribers l with
    | none => rfl
    | some f =>
      have := (hsubs hk hl).1
      rw [h.first i k hik hk h1 h2 hid l] at this
      cases this
  · obtain ⟨i, hi, hu, hid, k, hk⟩ := hf
    rw [(hsame i).1] at hu
    rw [(hsame i).2] at hid
    exact ⟨i, hi, hu, hid, k, (hsubs hi hk).1⟩

/-! ## Resources -/

/-- A row that is in use has this descriptor and points to this URI. -/
def Resources.Has (r : Resources) (fd : Nat) (uri : Bytes) : Prop :=
  ∃ j, j < maxResSubs ∧ (r.subs j).inUse = true ∧ (r.subs j).connFd = fd ∧
    (r.uris (r.subs j).uriIdx).uri = uri

/-- The tables, where the entries with `settled` are in use only when a row points to them. -/
structure ResLinked (r : Resources) (live settled : Nat → Prop) : Prop where
  used : ∀ j, j < maxResSubs → (r.subs j).inUse = true →
    (r.subs j).uriIdx < maxResUris ∧ (r.uris (r.subs j).uriIdx).inUse = true ∧
      live (r.subs j).connFd
  once : ∀ j k, j < maxResSubs → k < maxResSubs → (r.subs j).inUse = true →
    (r.subs k).inUse = true → (r.subs j).connFd = (r.subs k).connFd →
    (r.subs j).uriIdx = (r.subs k).uriIdx → j = k
  distinct : ∀ i k, i < maxResUris → k < maxResUris → (r.uris i).inUse = true →
    (r.uris k).inUse = true → (r.uris i).uri = (r.uris k).uri → i = k
  length : ∀ i, i < maxResUris → (r.uris i).inUse = true →
    (r.uris i).uri ≠ [] ∧ (r.uris i).uri.length < resUriMax
  needed : ∀ i, i < maxResUris → settled i → (r.uris i).inUse = true → refersTo r.subs i = true

/-- All entries are settled. -/
def ResOk (r : Resources) (live : Nat → Prop) : Prop := ResLinked r live fun _ => True

variable {r : Resources} {settled : Nat → Prop}

theorem ResLinked.mono (h : ResLinked r live settled)
    (hm : ∀ f, live f → live' f) : ResLinked r live' settled :=
  { h with
    used := fun j hj hu =>
      have hx := h.used j hj hu
      ⟨hx.1, hx.2.1, hm _ hx.2.2⟩ }

theorem refersTo_iff {subs : Nat → ResSub} :
    refersTo subs i = true ↔ ∃ j, j < maxResSubs ∧ (subs j).inUse = true ∧ (subs j).uriIdx = i := by
  unfold refersTo
  rw [any_eq_true]
  constructor
  · rintro ⟨j, hj, h⟩
    rw [Bool.and_eq_true, beq_iff_eq] at h
    exact ⟨j, mem_range.mp hj, h⟩
  · rintro ⟨j, hj, h⟩
    refine ⟨j, mem_range.mpr hj, ?_⟩
    rw [Bool.and_eq_true, beq_iff_eq]
    exact h

theorem ResLinked.release (h : ResLinked r live settled) (x : Nat) :
    ResLinked (resUriReleaseIfUnused r x) live (fun i => settled i ∨ i = x) ∧
      ∀ fd uri, (resUriReleaseIfUnused r x).Has fd uri → r.Has fd uri := by
  unfold resUriReleaseIfUnused
  split
  · refine ⟨{ h with needed := fun i hi hs => h.needed i hi (hs.resolve_right ?_) },
      fun _ _ hh => hh⟩
    rintro rfl
    omega
  split
  · rename_i href
    refine ⟨{ h with needed := fun i hi hs hu => ?_ }, fun _ _ hh => hh⟩
    rcases hs with hs | rfl
    · exact h.needed i hi hs hu
    · exact href
  rename_i href
  have hne : ∀ j, j < maxResSubs → (r.subs j).inUse = true → (r.subs j).uriIdx ≠ x :=
    fun j hj hu he => href (refersTo_iff.mpr ⟨j, hj, hu, he⟩)
  have hkeep : ∀ {i}, (update r.uris x { r.uris x with inUse := false, uri := [] } i).inUse
      = true → i ≠ x ∧ update r.uris x { r.uris x with inUse := false, uri := [] } i =
        r.uris i := by
    intro i hi
    by_cases hix : i = x
    · subst hix
      rw [update_self] at hi
      cases hi
    · exact ⟨hix, update_of_ne hix _ _⟩
  refine ⟨⟨fun j hj hu => ?_, h.once, fun i k hi hk hu hv he => ?_, fun i hi hu => ?_,
    fun i hi hs hu => ?_⟩, fun fd uri hh => ?_⟩
  · obtain ⟨h1, h2, h3⟩ := h.used j hj hu
    dsimp only
    rw [update_of_ne (hne j hj hu)]
    exact ⟨h1, h2, h3⟩
  · dsimp only at hu hv he
    have h1 := (hkeep hu).2
    have h2 := (hkeep hv).2
    rw [h1] at hu he
    rw [h2] at hv he
    exact h.distinct i k hi hk hu hv he
  · dsimp only at hu ⊢
    have h1 := (hkeep hu).2
    rw [h1] at hu ⊢
    exact h.length i hi hu
  · dsimp only at hu
    obtain ⟨hix, he⟩ := hkeep hu
    rw [he] at hu
    exact h.needed i hi (hs.resolve_right hix) hu
  · obtain ⟨j, hj, hu, hfd, hur⟩ := hh
    dsimp only at hu hfd hur
    rw [update_of_ne (hne j hj hu)] at hur
    exact ⟨j, hj, hu, hfd, hur⟩

theorem resUriGetOrAlloc_spec {uri : Bytes} {uris : Nat → ResUri} (h : ResOk r live)
    (hne : uri ≠ []) (hx : resUriGetOrAlloc r.uris uri = some (i, uris)) (hash : UInt32) :
    i < maxResUris ∧ (setHash uris i hash i).inUse = true ∧ (setHash uris i hash i).uri = uri ∧
      ResLinked { r with uris := setHash uris i hash } live (fun k => k ≠ i) ∧
      ∀ fd u, Resources.Has { r with uris := setHash uris i hash } fd u → r.Has fd u := by
  -- the entry was there, or none had the URI
  have hcase : i < maxResUris ∧ ((r.uris i).inUse = true ∧ (r.uris i).uri = uri ∧ uris = r.uris ∨
      (r.uris i).inUse = false ∧ uri.length < resUriMax ∧
        (∀ k, k < maxResUris → ¬((r.uris k).inUse = true ∧ (r.uris k).uri = uri)) ∧
        uris = update r.uris i ⟨true, uri, 0⟩) := by
    unfold resUriGetOrAlloc at hx
    cases hf : (List.range maxResUris).find? fun i => (r.uris i).inUse && (r.uris i).uri == uri with
    | some k =>
      rw [hf] at hx
      cases hx
      obtain ⟨hk, hp⟩ := scan_some hf
      rw [Bool.and_eq_true, beq_iff_eq] at hp
      exact ⟨hk, .inl ⟨hp.1, hp.2, rfl⟩⟩
    | none =>
      rw [hf] at hx
      split at hx
      · cases hx
      rename_i hlen
      obtain ⟨k, hk, he⟩ := Option.map_eq_some_iff.mp hx
      cases he
      obtain ⟨hk, hp⟩ := scan_some hk
      refine ⟨hk, .inr ⟨by simpa using hp, not_le.mp hlen, fun l hl hx => ?_, rfl⟩⟩
      have := scan_none hf hl
      rw [hx.1, hx.2, beq_self_eq_true] at this
      cases this
  obtain ⟨hi, hcase⟩ := hcase
  have hat : (setHash uris i hash i).inUse = true ∧ (setHash uris i hash i).uri = uri := by
    unfold setHash
    rw [update_self]
    rcases hcase with ⟨h1, h2, rfl⟩ | ⟨-, -, -, rfl⟩
    · exact ⟨h1, h2⟩
    · rw [update_self]
      exact ⟨rfl, rfl⟩
  have hother : ∀ k, k ≠ i → setHash uris i hash k = r.uris k := by
    intro k hk
    unfold setHash
    rw [update_of_ne hk]
    rcases hcase with ⟨-, -, rfl⟩ | ⟨-, -, -, rfl⟩
    · rfl
    · exact update_of_ne hk _ _
  -- no other entry has the URI
  have hapart : ∀ k, k < maxResUris → k ≠ i →
      ¬((r.uris k).inUse = true ∧ (r.uris k).uri = uri) := by
    rintro k hk hki ⟨hu, he⟩
    rcases hcase with ⟨h1, h2, -⟩ | ⟨-, -, hno, -⟩
    · exact hki (h.distinct k i hk hi hu h1 (he.trans h2.symm))
    · exact hno k hk ⟨hu, he⟩
  refine ⟨hi, hat.1, hat.2, ⟨fun j hj hu => ?_, h.once, fun k l hk hl hu hv he => ?_,
    fun k hk hu => ?_, fun k hk hki hu => ?_⟩, fun fd u hh => ?_⟩
  · obtain ⟨h1, h2, h3⟩ := h.used j hj hu
    refine ⟨h1, ?_, h3⟩
    by_cases hidx : (r.subs j).uriIdx = i
    · rw [hidx]
      exact hat.1
    · dsimp only
      rw [hother _ hidx]
      exact h2
  · dsimp only at hu hv he
    by_cases hki : k = i
    · by_cases hli : l = i
      · exact hki.trans hli.symm
      · rw [hother l hli] at hv he
        rw [hki, hat.2] at he
        exact absurd ⟨hv, he.symm⟩ (hapart l hl hli)
    · rw [hother k hki] at hu he
      by_cases hli : l = i
      · rw [hli, hat.2] at he
        exact absurd ⟨hu, he⟩ (hapart k hk hki)
      · rw [hother l hli] at hv he
        exact h.distinct k l hk hl hu hv he
  · dsimp only at hu ⊢
    by_cases hki : k = i
    · rw [hki, hat.2]
      rcases hcase with ⟨h1, h2, -⟩ | ⟨-, hlen, -⟩
      · exact h2 ▸ h.length i hi h1
      · exact ⟨hne, hlen⟩
    · rw [hother k hki] at hu ⊢
      exact h.length k hk hu
  · dsimp only at hu
    rw [hother k hki] at hu
    exact h.needed k hk trivial hu
  · obtain ⟨j, hj, hu, hfd, hur⟩ := hh
    refine ⟨j, hj, hu, hfd, ?_⟩
    dsimp only at hur
    by_cases hidx : (r.subs j).uriIdx = i
    · rw [hidx, hat.2] at hur
      rcases hcase with ⟨-, h2, -⟩ | ⟨hfree, -⟩
      · rw [hidx, h2, hur]
      · have := (h.used j hj hu).2.1
        rw [hidx, hfree] at this
        cases this
    · rw [hother _ hidx] at hur
      exact hur

theorem ResLinked.settle (h : ResLinked r live fun k => k ≠ i)
    (hi : (r.uris i).inUse = true → refersTo r.subs i = true) : ResOk r live :=
  { h with
    needed := fun k hk _ hu => by
      by_cases hki : k = i
      · exact hki ▸ hi (hki ▸ hu)
      · exact h.needed k hk hki hu }

theorem ResLinked.release_last (h : ResLinked r live fun k => k ≠ i) :
    ResOk (resUriReleaseIfUnused r i) live ∧
      ∀ fd uri, (resUriReleaseIfUnused r i).Has fd uri → r.Has fd uri := by
  obtain ⟨h1, h2⟩ := h.release i
  exact ⟨{ h1 with needed := fun k hk _ => h1.needed k hk (ne_or_eq k i) }, h2⟩

theorem ResLinked.add (h : ResLinked r live fun k => k ≠ i) (hi : i < maxResUris)
    (hu : (r.uris i).inUse = true) (hj : j < maxResSubs) (hfree : (r.subs j).inUse = false)
    (hno : ∀ k, k < maxResSubs → r.subs k ≠ ⟨true, fd, i⟩) (hfd : live fd) :
    ResOk { r with subs := update r.subs j ⟨true, fd, i⟩ } live ∧
      ∀ f u, Resources.Has { r with subs := update r.subs j ⟨true, fd, i⟩ } f u →
        r.Has f u ∨ f = fd ∧ u = (r.uris i).uri := by
  have hat : update r.subs j ⟨true, fd, i⟩ j = ⟨true, fd, i⟩ := update_self _ _ _
  have hother : ∀ k, k ≠ j → update r.subs j ⟨true, fd, i⟩ k = r.subs k :=
    fun k hk => update_of_ne hk _ _
  have hnew : ∀ k, k < maxResSubs → (r.subs k).inUse = true →
      ¬((r.subs k).connFd = fd ∧ (r.subs k).uriIdx = i) := by
    rintro k hk hu ⟨h1, h2⟩
    refine hno k hk ?_
    rw [← hu, ← h1, ← h2]
  refine ⟨⟨fun k hk hu' => ?_, fun k l hk hl hu1 hu2 he1 he2 => ?_, h.distinct, h.length,
    fun k hk _ hu' => ?_⟩, fun f u hh => ?_⟩
  · dsimp only at hu' ⊢
    by_cases hkj : k = j
    · rw [hkj, hat]
      exact ⟨hi, hu, hfd⟩
    · rw [hother k hkj] at hu' ⊢
      exact h.used k hk hu'
  · dsimp only at hu1 hu2 he1 he2
    by_cases hkj : k = j
    · by_cases hlj : l = j
      · exact hkj.trans hlj.symm
      · rw [hother l hlj] at hu2 he1 he2
        rw [hkj, hat] at he1 he2
        exact absurd ⟨he1.symm, he2.symm⟩ (hnew l hl hu2)
    · rw [hother k hkj] at hu1 he1 he2
      by_cases hlj : l = j
      · rw [hlj, hat] at he1 he2
        exact absurd ⟨he1, he2⟩ (hnew k hk hu1)
      · rw [hother l hlj] at hu2 he1 he2
        exact h.once k l hk hl hu1 hu2 he1 he2
  · by_cases hki : k = i
    · exact refersTo_iff.mpr
        ⟨j, hj, congrArg ResSub.inUse hat, (congrArg ResSub.uriIdx hat).trans hki.symm⟩
    · obtain ⟨m, hm, hu2, hidx⟩ := refersTo_iff.mp (h.needed k hk hki hu')
      have hmj : m ≠ j := by
        rintro rfl
        rw [hfree] at hu2
        cases hu2
      exact refersTo_iff.mpr ⟨m, hm, (congrArg ResSub.inUse (hother m hmj)).trans hu2,
        (congrArg ResSub.uriIdx (hother m hmj)).trans hidx⟩
  · obtain ⟨k, hk, hu', hf, hur⟩ := hh
    dsimp only at hu' hf hur
    by_cases hkj : k = j
    · rw [hkj, hat] at hf hur
      exact .inr ⟨hf.symm, hur.symm⟩
    · rw [hother k hkj] at hu' hf hur
      exact .inl ⟨k, hk, hu', hf, hur⟩

theorem ResLinked.subscribe (h : ResOk r live) (hfd : live fd) (uri : Bytes)
    (content : Option Bytes) : ResOk (handleResourcesSubscribe r fd uri content).2 live ∧
      ∀ f u, (handleResourcesSubscribe r fd uri content).2.Has f u → r.Has f u ∨
        (handleResourcesSubscribe r fd uri content).1 = true ∧ f = fd ∧ u = uri := by
  unfold handleResourcesSubscribe
  split
  · exact ⟨h, fun _ _ hh => .inl hh⟩
  rename_i hbad
  cases content with
  | none => exact ⟨h, fun _ _ hh => .inl hh⟩
  | some bytes =>
    cases hx : resUriGetOrAlloc r.uris uri with
    | none => exact ⟨h, fun _ _ hh => .inl hh⟩
    | some x =>
      obtain ⟨hi, hu, hur, hlink, hhas⟩ :=
        resUriGetOrAlloc_spec h (fun he => hbad (.inl he)) (show _ = some (x.1, x.2) from hx)
          (fnv1a32 bytes)
      dsimp only [Option.elim]
      split
      · rename_i hdup
        obtain ⟨j, hj, he⟩ := any_eq_true.mp hdup
        rw [beq_iff_eq] at he
        refine ⟨hlink.settle fun _ => refersTo_iff.mpr
          ⟨j, mem_range.mp hj, by rw [he], by rw [he]⟩, fun f u hh => .inl (hhas f u hh)⟩
      · rename_i hdup
        have hno : ∀ k, k < maxResSubs → r.subs k ≠ ⟨true, fd, x.1⟩ := fun k hk he =>
          hdup (any_eq_true.mpr ⟨k, mem_range.mpr hk, beq_iff_eq.mpr he⟩)
        cases hf : (List.range maxResSubs).find? fun j => !(r.subs j).inUse with
        | none =>
          obtain ⟨h1, h2⟩ := hlink.release_last
          exact ⟨h1, fun f u hh => .inl (hhas f u (h2 f u hh))⟩
        | some j =>
          obtain ⟨hj, hfree⟩ := scan_some hf
          obtain ⟨h1, h2⟩ := hlink.add hi hu hj (by simpa using hfree) hno hfd
          refine ⟨h1, fun f u hh => ?_⟩
          rcases h2 f u hh with hh | ⟨rfl, rfl⟩
          · exact .inl (hhas f u hh)
          · exact .inr ⟨rfl, rfl, hur⟩

theorem ResLinked.unsubscribe (h : ResOk r live) (fd : Nat) (uri : Bytes) :
    ResOk (handleResourcesUnsubscribe r fd uri).2 live ∧
      ∀ f u, (handleResourcesUnsubscribe r fd uri).2.Has f u →
        r.Has f u ∧ ¬(f = fd ∧ u = uri) := by
  unfold handleResourcesUnsubscribe
  split
  · rename_i hbad
    refine ⟨h, fun f u hh => ⟨hh, ?_⟩⟩
    rintro ⟨rfl, rfl⟩
    obtain ⟨j, hj, hu, -, hur⟩ := hh
    obtain ⟨h1, h2, -⟩ := h.used j hj hu
    obtain ⟨h3, h4⟩ := h.length _ h1 h2
    rw [hur] at h3 h4
    rcases hbad with hb | hb
    · exact h3 hb
    · omega
  cases hs : subOf r fd uri with
  | none =>
    refine ⟨h, fun f u hh => ⟨hh, ?_⟩⟩
    rintro ⟨rfl, rfl⟩
    obtain ⟨j, hj, hu, hf, hur⟩ : r.Has f u := hh
    obtain ⟨h1, h2, -⟩ := h.used j hj hu
    have := scan_none hs hj
    rw [hu, hf, hur, h2, decide_eq_true h1] at this
    simp at this
  | some j =>
    obtain ⟨hj, hp⟩ := scan_some hs
    simp only [Bool.and_eq_true, beq_iff_eq, decide_eq_true_iff] at hp
    obtain ⟨⟨⟨⟨hu, hf⟩, hidx⟩, hin⟩, hur⟩ := hp
    have hkeep : ∀ {k}, (update r.subs j { r.subs j with inUse := false } k).inUse = true →
        k ≠ j ∧ update r.subs j { r.subs j with inUse := false } k = r.subs k := by
      intro k hk
      by_cases hkj : k = j
      · subst hkj
        rw [update_self] at hk
        cases hk
      · exact ⟨hkj, update_of_ne hkj _ _⟩
    have hlink : ResLinked (clearSub r j) live fun k => k ≠ (r.subs j).uriIdx := by
      refine ⟨fun k hk hu' => ?_, fun k l hk hl h1 h2 he1 he2 => ?_, h.distinct, h.length,
        fun k hk hki hu' => ?_⟩
      · obtain ⟨-, he⟩ := hkeep hu'
        unfold clearSub at hu' ⊢
        dsimp only at hu' ⊢
        rw [he] at hu' ⊢
        exact h.used k hk hu'
      · obtain ⟨-, e1⟩ := hkeep h1
        obtain ⟨-, e2⟩ := hkeep h2
        unfold clearSub at h1 h2 he1 he2
        dsimp only at h1 h2 he1 he2
        rw [e1] at h1 he1 he2
        rw [e2] at h2 he1 he2
        exact h.once k l hk hl h1 h2 he1 he2
      · obtain ⟨m, hm, hu2, hmi⟩ := refersTo_iff.mp (h.needed k hk trivial hu')
        have hmj : m ≠ j := by
          rintro rfl
          exact hki hmi.symm
        have he := update_of_ne hmj { r.subs j with inUse := false } r.subs
        exact refersTo_iff.mpr ⟨m, hm, (congrArg ResSub.inUse he).trans hu2,
          (congrArg ResSub.uriIdx he).trans hmi⟩
    obtain ⟨h1, h2⟩ := hlink.release_last
    refine ⟨h1, fun f u hh => ?_⟩
    obtain ⟨k, hk, hu', hf', hur'⟩ := h2 f u hh
    obtain ⟨hkj, he⟩ := hkeep hu'
    unfold clearSub at hu' hf' hur'
    dsimp only at hu' hf' hur'
    rw [he] at hu' hf' hur'
    refine ⟨⟨k, hk, hu', hf', hur'⟩, ?_⟩
    rintro ⟨rfl, rfl⟩
    obtain ⟨k1, k2, -⟩ := h.used k hk hu'
    exact hkj (h.once k j hk hj hu' hu (hf'.trans hf.symm)
      (h.distinct _ _ k1 hidx k2 hin (hur'.trans hur.symm)))

theorem release_all (l : List Nat) (r : Resources) (settled : Nat → Prop)
    (h : ResLinked r live settled) :
    ResLinked (l.foldl resUriReleaseIfUnused r) live (fun i => settled i ∨ i ∈ l) ∧
      ∀ fd uri, (l.foldl resUriReleaseIfUnused r).Has fd uri → r.Has fd uri := by
  induction l generalizing r settled with
  | nil => exact ⟨{ h with needed := fun i hi hs => h.needed i hi (hs.resolve_right nofun) },
      fun _ _ hh => hh⟩
  | cons x l ih =>
    obtain ⟨h1, h2⟩ := h.release x
    obtain ⟨h3, h4⟩ := ih _ _ h1
    refine ⟨{ h3 with needed := fun i hi hs => h3.needed i hi ?_ },
      fun fd uri hh => h2 fd uri (h4 fd uri hh)⟩
    rcases hs with hs | hs
    · exact .inl (.inl hs)
    · rcases mem_cons.mp hs with rfl | hs
      · exact .inl (.inr rfl)
      · exact .inr hs

theorem ResLinked.drop (h : ResOk r live) (fd : Nat) :
    ResOk (dropFromResources r fd) (fun f => live f ∧ f ≠ fd) ∧
      ∀ f u, (dropFromResources r fd).Has f u → r.Has f u := by
  let subs : Nat → ResSub := fun j =>
    if (r.subs j).inUse ∧ (r.subs j).connFd = fd then { r.subs j with inUse := false }
    else r.subs j
  have hkeep : ∀ {j}, (subs j).inUse = true → (subs j) = r.subs j ∧ (r.subs j).inUse = true ∧
      (r.subs j).connFd ≠ fd := by
    intro j hu
    dsimp only [subs] at hu ⊢
    split at hu
    · cases hu
    · rename_i hno
      rw [if_neg hno]
      exact ⟨rfl, hu, fun he => hno ⟨hu, he⟩⟩
  have hlink : ResLinked { r with subs := subs } (fun f => live f ∧ f ≠ fd) fun _ => False := by
    refine ⟨fun j hj hu => ?_, fun j k hj hk h1 h2 he1 he2 => ?_, h.distinct, h.length,
      fun _ _ hn => hn.elim⟩
    · obtain ⟨he, hu, hne⟩ := hkeep hu
      obtain ⟨u1, u2, u3⟩ := h.used j hj hu
      dsimp only
      rw [he]
      exact ⟨u1, u2, u3, hne⟩
    · obtain ⟨e1, h1, -⟩ := hkeep h1
      obtain ⟨e2, h2, -⟩ := hkeep h2
      dsimp only at he1 he2
      rw [e1, e2] at he1 he2
      exact h.once j k hj hk h1 h2 he1 he2
  obtain ⟨h1, h2⟩ := release_all (List.range maxResUris) _ _ hlink
  refine ⟨{ h1 with needed := fun i hi _ => h1.needed i hi (.inr (mem_range.mpr hi)) },
    fun f u hh => ?_⟩
  obtain ⟨j, hj, hu, hf, hur⟩ := h2 f u hh
  obtain ⟨he, hu, -⟩ := hkeep hu
  dsimp only at hf hur
  rw [he] at hf hur
  exact ⟨j, hj, hu, hf, hur⟩

theorem ResLinked.poll (h : ResOk r live) (i : Nat) (content : Option Bytes) :
    ResOk (pollResource r i content).2 live ∧
      ∀ f u, (pollResource r i content).2.Has f u → r.Has f u := by
  unfold pollResource
  split
  · exact ⟨h, fun _ _ hh => hh⟩
  cases content with
  | none => exact ⟨h, fun _ _ hh => hh⟩
  | some bytes =>
    dsimp only [Option.elim]
    split
    · exact ⟨h, fun _ _ hh => hh⟩
    have hsame : ∀ k, (setHash r.uris i (fnv1a32 bytes) k).inUse = (r.uris k).inUse ∧
        (setHash r.uris i (fnv1a32 bytes) k).uri = (r.uris k).uri := by
      intro k
      unfold setHash
      by_cases hk : k = i
      · subst hk
        rw [update_self]
        exact ⟨rfl, rfl⟩
      · rw [update_of_ne hk]
        exact ⟨rfl, rfl⟩
    refine ⟨⟨fun j hj hu => ?_, h.once, fun k l hk hl hu hv he => ?_, fun k hk hu => ?_,
      fun k hk hs hu => ?_⟩, fun f u hh => ?_⟩
    · rw [(hsame _).1]
      exact h.used j hj hu
    · rw [(hsame k).1] at hu
      rw [(hsame l).1] at hv
      rw [(hsame k).2, (hsame l).2] at he
      exact h.distinct k l hk hl hu hv he
    · rw [(hsame k).1] at hu
      rw [(hsame k).2]
      exact h.length k hk hu
    · rw [(hsame k).1] at hu
      exact h.needed k hk hs hu
    · obtain ⟨j, hj, hu, hf, hur⟩ := hh
      rw [(hsame _).2] at hur
      exact ⟨j, hj, hu, hf, hur⟩

theorem mem_resAudience (h : fd ∈ resAudience r i) : r.Has fd (r.uris i).uri := by
  obtain ⟨j, hj, rfl⟩ := mem_map.mp h
  obtain ⟨hj, hp⟩ := mem_filter.mp hj
  rw [Bool.and_eq_true, beq_iff_eq] at hp
  exact ⟨j, mem_range.mp hj, hp.1, rfl, by rw [hp.2]⟩

/-! ## Watches -/

/-- A row in use has this descriptor, id, namespace and prefix. -/
def WatchTable.Has (t : WatchTable) (fd id : Nat) (ns keyPrefix : Bytes) : Prop :=
  ∃ i, i < maxKvWatches ∧ t.rows i = ⟨true, id, fd, ns, keyPrefix⟩

/-- `good` is what is known of the namespaces and prefixes. -/
structure WatchOk (t : WatchTable) (live : Nat → Prop) (good : Bytes → Bytes → Prop) : Prop where
  live : ∀ i, i < maxKvWatches → (t.rows i).inUse = true → live (t.rows i).connFd
  fresh : ∀ i, i < maxKvWatches → (t.rows i).inUse = true → (t.rows i).id ≤ t.nextId
  distinct : ∀ i k, i < maxKvWatches → k < maxKvWatches → (t.rows i).inUse = true →
    (t.rows k).inUse = true → (t.rows i).id = (t.rows k).id → i = k
  good : ∀ i, i < maxKvWatches → (t.rows i).inUse = true → good (t.rows i).ns (t.rows i).keyPrefix

variable {w : WatchTable} {good : Bytes → Bytes → Prop}

theorem WatchOk.mono (h : WatchOk w live good) (hm : ∀ f, live f → live' f) :
    WatchOk w live' good :=
  { h with live := fun i hi hu => hm _ (h.live i hi hu) }

theorem WatchOk.watch (h : WatchOk w live good) {ns keyPrefix : Bytes} {w' : WatchTable}
    (hw : emitKvWatch w fd ns keyPrefix = some w') (hfd : live fd) (hgood : good ns keyPrefix) :
    WatchOk w' live good ∧ ∀ f n a b, w'.Has f n a b → w.Has f n a b ∨
      f = fd ∧ n = w'.nextId ∧ a = ns ∧ b = keyPrefix := by
  unfold emitKvWatch at hw
  split at hw
  · cases hw
  obtain ⟨i, hi, rfl⟩ := Option.map_eq_some_iff.mp hw
  have hat : update w.rows i ⟨true, w.nextId + 1, fd, ns, keyPrefix⟩ i =
      ⟨true, w.nextId + 1, fd, ns, keyPrefix⟩ := update_self _ _ _
  have hother : ∀ k, k ≠ i →
      update w.rows i ⟨true, w.nextId + 1, fd, ns, keyPrefix⟩ k = w.rows k :=
    fun k hk => update_of_ne hk _ _
  refine ⟨⟨fun k hk hu => ?_, fun k hk hu => ?_, fun k l hk hl hu hv he => ?_,
    fun k hk hu => ?_⟩, fun f n a b hh => ?_⟩
  · dsimp only at hu ⊢
    by_cases hki : k = i
    · rw [hki, hat]
      exact hfd
    · rw [hother k hki] at hu ⊢
      exact h.live k hk hu
  · dsimp only at hu ⊢
    by_cases hki : k = i
    · rw [hki, hat]
    · rw [hother k hki] at hu ⊢
      exact Nat.le_succ_of_le (h.fresh k hk hu)
  · dsimp only at hu hv he
    by_cases hki : k = i
    · by_cases hli : l = i
      · exact hki.trans hli.symm
      · rw [hother l hli] at hv he
        rw [hki, hat] at he
        have hold := h.fresh l hl hv
        rw [← he] at hold
        exact absurd hold (Nat.not_succ_le_self w.nextId)
    · rw [hother k hki] at hu he
      by_cases hli : l = i
      · rw [hli, hat] at he
        have hold := h.fresh k hk hu
        rw [he] at hold
        exact absurd hold (Nat.not_succ_le_self w.nextId)
      · rw [hother l hli] at hv he
        exact h.distinct k l hk hl hu hv he
  · dsimp only at hu ⊢
    by_cases hki : k = i
    · rw [hki, hat]
      exact hgood
    · rw [hother k hki] at hu ⊢
      exact h.good k hk hu
  · obtain ⟨k, hk, he⟩ := hh
    dsimp only at he
    by_cases hki : k = i
    · rw [hki, hat] at he
      cases he
      exact .inr ⟨rfl, rfl, rfl, rfl⟩
    · rw [hother k hki] at he
      exact .inl ⟨k, hk, he⟩

theorem WatchOk.fewer (h : WatchOk w live good) {rows : Nat → KvWatch}
    (hkeep : ∀ i, i < maxKvWatches → (rows i).inUse = true →
      rows i = w.rows i ∧ live' (w.rows i).connFd) :
    WatchOk { w with rows := rows } live' good := by
  have huse : ∀ i, i < maxKvWatches → (rows i).inUse = true → (w.rows i).inUse = true :=
    fun i hi hu => (hkeep i hi hu).1 ▸ hu
  refine ⟨fun i hi hu => ?_, fun i hi hu => ?_, fun i k hi hk hu hv he => ?_, fun i hi hu => ?_⟩
  · dsimp only
    rw [(hkeep i hi hu).1]
    exact (hkeep i hi hu).2
  · dsimp only
    rw [(hkeep i hi hu).1]
    exact h.fresh i hi (huse i hi hu)
  · dsimp only at he
    rw [(hkeep i hi hu).1, (hkeep k hk hv).1] at he
    exact h.distinct i k hi hk (huse i hi hu) (huse k hk hv) he
  · dsimp only
    rw [(hkeep i hi hu).1]
    exact h.good i hi (huse i hi hu)

theorem WatchOk.unwatch (h : WatchOk w live good) (fd : Nat) (wid : Int) :
    WatchOk (emitKvUnwatch w fd wid).2 live good ∧
      ∀ f n a b, (emitKvUnwatch w fd wid).2.Has f n a b →
        w.Has f n a b ∧ ((emitKvUnwatch w fd wid).1.isSome → ¬(f = fd ∧ (n : Int) = wid)) := by
  unfold emitKvUnwatch
  split
  · exact ⟨h, fun _ _ _ _ hh => ⟨hh, nofun⟩⟩
  cases hs : watchOf w fd wid with
  | none =>
    refine ⟨h, fun f n a b hh => ⟨hh, ?_⟩⟩
    rintro - ⟨rfl, rfl⟩
    obtain ⟨i, hi, he⟩ : w.Has f n a b := hh
    have := scan_none hs hi
    rw [he] at this
    simp at this
  | some i =>
    obtain ⟨hi, hp⟩ := scan_some hs
    simp only [Bool.and_eq_true, beq_iff_eq] at hp
    obtain ⟨⟨hu, hid⟩, hfd⟩ := hp
    have hkeep : ∀ k, (update w.rows i { w.rows i with inUse := false } k).inUse = true →
        k ≠ i ∧ update w.rows i { w.rows i with inUse := false } k = w.rows k := by
      intro k hk
      by_cases hki : k = i
      · subst hki
        rw [update_self] at hk
        cases hk
      · exact ⟨hki, update_of_ne hki _ _⟩
    refine ⟨h.fewer fun k hk hv => ⟨(hkeep k hv).2, h.live k hk ((hkeep k hv).2 ▸ hv)⟩,
      fun f n a b hh => ?_⟩
    obtain ⟨k, hk, he⟩ := hh
    replace he : update w.rows i { w.rows i with inUse := false } k =
      ⟨true, n, f, a, b⟩ := he
    obtain ⟨hki, hold⟩ := hkeep k (by rw [he])
    have he' := hold.symm.trans he
    refine ⟨⟨k, hk, he'⟩, ?_⟩
    rintro - ⟨rfl, hn⟩
    refine hki (h.distinct k i hk hi (by rw [he']) hu ?_)
    rw [he']
    exact Int.natCast_inj.mp (hn.trans hid.symm)

theorem WatchOk.drop (h : WatchOk w live good) (fd : Nat) :
    WatchOk (dropFromWatches w fd) (fun f => live f ∧ f ≠ fd) good ∧
      ∀ f n a b, (dropFromWatches w fd).Has f n a b → w.Has f n a b := by
  have hkeep : ∀ i, ((dropFromWatches w fd).rows i).inUse = true →
      (dropFromWatches w fd).rows i = w.rows i ∧ (w.rows i).inUse = true ∧
        (w.rows i).connFd ≠ fd := by
    intro i hu
    unfold dropFromWatches at hu ⊢
    dsimp only at hu ⊢
    split at hu
    · cases hu
    · rename_i hno
      rw [if_neg hno]
      exact ⟨rfl, hu, fun he => hno ⟨hu, he⟩⟩
  refine ⟨h.fewer fun i hi hu => ?_, fun f n a b hh => ?_⟩
  · obtain ⟨he, hu, hne⟩ := hkeep i hu
    exact ⟨he, h.live i hi hu, hne⟩
  · obtain ⟨i, hi, he⟩ := hh
    obtain ⟨hold, -⟩ := hkeep i (by rw [he])
    exact ⟨i, hi, hold.symm.trans he⟩

theorem mem_kvAudience {ns key : CStr} (h : fd ∈ kvAudience w ns key) :
    ∃ id a b, w.Has fd id a b ∧ cString a = ns ∧ (cString b).isPrefixOf key = true := by
  obtain ⟨i, hi, rfl⟩ := mem_map.mp h
  obtain ⟨hi, hp⟩ := mem_filter.mp hi
  unfold watchMatches at hp
  simp only [Bool.and_eq_true, beq_iff_eq] at hp
  have he : w.rows i = ⟨true, (w.rows i).id, (w.rows i).connFd, (w.rows i).ns,
      (w.rows i).keyPrefix⟩ := by
    conv_lhs => rw [show w.rows i = ⟨(w.rows i).inUse, (w.rows i).id, (w.rows i).connFd,
      (w.rows i).ns, (w.rows i).keyPrefix⟩ from rfl, hp.1.1]
  exact ⟨_, _, _, ⟨i, mem_range.mp hi, he⟩, hp.1.2, hp.2⟩

end AdventOS.Agentd.Subscriptions
