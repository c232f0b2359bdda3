import AdventOS.Core.Replay
import AdventOS.Agentd.Subscriptions

/-!
# Who is sent a notification (`user/agentd.c`)

A run of agentd as its subscription tables see it: connections open and close, descriptors and
slots are used again, clients subscribe and unsubscribe, jobs and cron entries come and go, and
notifications go out. `asked` is history: what each client has asked for and not withdrawn; with
every notification that is sent, `sent` keeps what was asked for by then.

The arrays of a watch are read as C strings, but the client's strings are counted. So:

* `notices_are_wanted`;
* `cut_watch_is_told`: otherwise a client is told of keys that do not begin with its prefix.
-/
namespace AdventOS.Agentd.Notices
open Json Jobs Subscriptions Function List Option
open Fs (CStr)

/-! ## What is asked for and what is told -/

inductive Topic
  | job (serial : Nat)
  | cron (id : Nat)
  | uri (u : Bytes)
  | watch (id : Nat) (ns keyPrefix : Bytes)
  deriving DecidableEq

inductive Notice
  | job (serial : Nat)
  | fired (id : Nat)
  | updated (u : Bytes)
  | changed (ns key : CStr)
  deriving DecidableEq

/-- The notification is about what was asked for. -/
def Covers (t : Topic) (n : Notice) : Prop :=
  match t with
  | .job serial => n = .job serial
  | .cron id => n = .fired id
  | .uri u => n = .updated u
  | .watch _ ns keyPrefix => ∃ key, n = .changed ns key ∧ keyPrefix.isPrefixOf key = true

structure Ask where
  client : Nat
  topic : Topic
  deriving DecidableEq

/-- A notification that was sent, with all that was asked for then. -/
structure Sent where
  client : Nat
  notice : Notice
  asked : List Ask
  deriving DecidableEq

def Sent.Entitled (x : Sent) : Prop := ∃ a ∈ x.asked, a.client = x.client ∧ Covers a.topic x.notice

/-! ## Runs -/

structure Agent where
  conns : Conns
  clients : Nat
  jobs : Table
  births : Nat
  cron : CronTable
  nextCron : Nat
  res : Resources
  watches : WatchTable
  asked : List Ask
  sent : List Sent

/-- `ready` are the connections that have no response half sent. -/
def deliver (s : Agent) (ready : Nat → Bool) (slots : List Nat) (n : Notice) : List Sent :=
  slots.flatMap fun i =>
    if ready i then ((s.conns i).map fun c => ⟨c.client, n, s.asked⟩).toList else []

def announce (s : Agent) (ready : Nat → Bool) (slots : List Nat) (n : Notice) : Agent :=
  { s with sent := deliver s ready slots n ++ s.sent }

def slotsOf (s : Agent) (fds : List Nat) : List Nat := fds.filterMap (connByFd s.conns)

inductive Label
  | connect (fd : Nat)
  | close (i : Nat)
  | jobSubscribe (i : Nat) (id : Int)
  | jobUnsubscribe (i : Nat) (id : Int)
  | jobDelete (id : Int)
  | spawn (o : Spawn)
  | output (j : Nat) (ready : Nat → Bool)
  | ended (j : Nat) (ready : Nat → Bool)
  | cronCreate (saved : Bool)
  | cronDelete (id : Int)
  | cronSubscribe (i : Nat) (id : Int)
  | cronUnsubscribe (i : Nat) (id : Int)
  | fire (k : Nat) (ready : Nat → Bool)
  | resSubscribe (i : Nat) (uri : Bytes) (content : Option Bytes)
  | resUnsubscribe (i : Nat) (uri : Bytes)
  | poll (k : Nat) (content : Option Bytes) (ready : Nat → Bool)
  | kvWatch (i : Nat) (ns keyPrefix : Bytes)
  | kvUnwatch (i : Nat) (wid : Int)
  | kvChanged (ns key : CStr) (ready : Nat → Bool)

/-- A request on connection `i`. -/
def acting (s : Agent) (i : Nat) (f : Conn → Agent) : Option Agent :=
  if i < maxConn then (s.conns i).map f else none

def ask (s : Agent) (client : Nat) (t : Topic) : List Ask := ⟨client, t⟩ :: s.asked

def withdraw (s : Agent) (client : Nat) (t : Topic) : List Ask :=
  s.asked.filter fun a => a ≠ ⟨client, t⟩

def Topic.watchId : Topic → Option Int
  | .watch id _ _ => some id
  | _ => none

/-- The watches of a client with this id are withdrawn. -/
def withdrawWatch (s : Agent) (client : Nat) (wid : Int) : List Ask :=
  s.asked.filter fun a => ¬(a.client = client ∧ a.topic.watchId = some wid)

/-- agentd.c:3679-3728 -/
def closeConn (s : Agent) (i : Nat) (c : Conn) : Agent :=
  { s with
    conns := update s.conns i none
    jobs := dropFromJobs s.jobs i
    cron := fun k => dropFromEntry (s.cron k) c.fd
    res := dropFromResources s.res c.fd
    watches := dropFromWatches s.watches c.fd }

/-- `INT_MAX`; a counter of agentd that passes it is undefined. -/
def intMax : Nat := 2 ^ 31 - 1

/-- The kernel gives a descriptor that is not open. A job's output and its end, the firing of a
cron entry, a turn of the poll and the change of a key are announced. -/
def step (s : Agent) : Label → Option Agent
  | .connect fd =>
    if connByFd s.conns fd = none then
      some ((addConn s.conns fd s.clients).elim s fun conns =>
        { s with conns := conns, clients := s.clients + 1 })
    else none
  | .close i => acting s i fun c => closeConn s i c
  | .jobSubscribe i id => acting s i fun c =>
    (emitShellJobSubscribe s.jobs i id).elim s fun x =>
      { s with jobs := x.2, asked := ask s c.client (.job (s.jobs x.1).serial) }
  | .jobUnsubscribe i id => acting s i fun c =>
    (emitShellJobUnsubscribe s.jobs i id).elim s fun x =>
      { s with jobs := x.2, asked := withdraw s c.client (.job (s.jobs x.1).serial) }
  | .jobDelete id => some { s with jobs := emitShellJobDelete s.jobs id }
  | .spawn o => some { s with jobs := spawnTable s.jobs s.births o, births := s.births + 1 }
  | .output j ready =>
    if j < jobMax ∧ (s.jobs j).state = .run then
      some (announce s ready (jobAudience (s.jobs j).subMask) (.job (s.jobs j).serial))
    else none
  | .ended j ready =>
    if j < jobMax ∧ (s.jobs j).state = .run then
      some (announce { s with jobs := update s.jobs j { s.jobs j with state := .exit } }
        ready (jobAudience (s.jobs j).subMask) (.job (s.jobs j).serial))
    else none
  | .cronCreate saved =>
    if s.nextCron < intMax then
      some ((cronAllocSlot s.cron).elim s fun k =>
        { s with
          cron := update s.cron k
            (if saved then ⟨true, s.nextCron, fun _ => none⟩ else cronClear)
          nextCron := s.nextCron + 1 })
    else none
  | .cronDelete id =>
    some ((cronFind s.cron id).elim s fun k =>
      { s with cron := update s.cron k cronClear })
  | .cronSubscribe i id => acting s i fun c =>
    (cronFind s.cron id).elim s fun k =>
      { s with
        cron := setSubscribers s.cron k (cronSubscriberAdd (s.cron k).subscribers c.fd)
        asked := ask s c.client (.cron (s.cron k).id) }
  | .cronUnsubscribe i id => acting s i fun c =>
    (cronFind s.cron id).elim s fun k =>
      { s with
        cron := setSubscribers s.cron k (cronSubscriberRemove (s.cron k).subscribers c.fd)
        asked := withdraw s c.client (.cron (s.cron k).id) }
  | .fire k ready =>
    if k < maxCronEntries ∧ (s.cron k).inUse = true then
      some (announce s ready (slotsOf s (cronAudience (s.cron k))) (.fired (s.cron k).id))
    else none
  | .resSubscribe i uri content => acting s i fun c =>
    { s with
      res := (handleResourcesSubscribe s.res c.fd uri content).2
      asked := if (handleResourcesSubscribe s.res c.fd uri content).1 then
          ask s c.client (.uri uri) else s.asked }
  | .resUnsubscribe i uri => acting s i fun c =>
    { s with
      res := (handleResourcesUnsubscribe s.res c.fd uri).2
      asked := withdraw s c.client (.uri uri) }
  | .poll k content ready =>
    if k < maxResUris then
      some (announce { s with res := (pollResource s.res k content).2 } ready
        (if (pollResource s.res k content).1 then slotsOf s (resAudience s.res k) else [])
        (.updated (s.res.uris k).uri))
    else none
  | .kvWatch i ns keyPrefix =>
    if s.watches.nextId < intMax then acting s i fun c =>
      (emitKvWatch s.watches c.fd ns keyPrefix).elim s fun w =>
        { s with watches := w, asked := ask s c.client (.watch w.nextId ns keyPrefix) }
    else none
  | .kvUnwatch i wid => acting s i fun c =>
    { s with
      watches := (emitKvUnwatch s.watches c.fd wid).2
      asked := if (emitKvUnwatch s.watches c.fd wid).1.isSome then
          withdrawWatch s c.client wid else s.asked }
  | .kvChanged ns key ready =>
    if (Kv.kvPath ns key).isSome then
      some (announce s ready (slotsOf s (kvAudience s.watches ns key)) (.changed ns key))
    else none

/-- agentd has started: no connection and no job; `cron_load_from_disk` has read the entries. -/
structure Booted (s : Agent) : Prop where
  conns : ∀ i, s.conns i = none
  jobs : ∀ j, s.jobs j = Job.none
  subscribers : ∀ k l, (s.cron k).subscribers l = none
  ids : ∀ k, (s.cron k).inUse = true → (s.cron k).id < s.nextCron
  uris : ∀ i, (s.res.uris i).inUse = false
  subs : ∀ j, (s.res.subs j).inUse = false
  watches : ∀ i, (s.watches.rows i).inUse = false
  sent : s.sent = []

def agentLTS : LTS Agent Label := LTS.ofFn Booted step

/-- The C strings of a watch are what the client sent, or no valid key matches them. -/
def Plain (ns keyPrefix : Bytes) : Prop :=
  NulFree ns ∧ NulFree keyPrefix ∨
    ¬(Kv.kvValidateNs (cString ns) = true ∧
      (cString keyPrefix = [] ∨ Kv.kvValidateKey (cString keyPrefix) = true))

instance (ns keyPrefix : Bytes) : Decidable (Plain ns keyPrefix) :=
  inferInstanceAs (Decidable (((∀ c ∈ ns, c ≠ 0) ∧ ∀ c ∈ keyPrefix, c ≠ 0) ∨ ¬(_ ∧ (_ ∨ _))))

def WatchesPlainly (_ : Agent) : Label → Prop
  | .kvWatch _ ns keyPrefix => Plain ns keyPrefix
  | _ => True

instance (s : Agent) (l : Label) : Decidable (WatchesPlainly s l) := by
  unfold WatchesPlainly
  split <;> infer_instance

/-! ## The invariant -/

/-- The descriptor is an open connection's. -/
def Live (conns : Conns) (fd : Nat) : Prop := ∃ i, i < maxConn ∧ ∃ c, conns i = some c ∧ c.fd = fd

def IsOpen (conns : Conns) (i : Nat) : Prop := i < maxConn ∧ (conns i).isSome = true

/-- What the tables hold for the connection slot `i` and its descriptor. -/
def Held (s : Agent) (i fd : Nat) (t : Topic) : Prop :=
  match t with
  | .job serial => Subscribed s.jobs i serial
  | .cron id => s.cron.Has fd id
  | .uri u => s.res.Has fd u
  | .watch id ns keyPrefix => s.watches.Has fd id ns keyPrefix

/-- No two open connections have one descriptor or one client. -/
structure ConnsOk (conns : Conns) (count : Nat) : Prop where
  fds : ∀ i k c d, i < maxConn → k < maxConn → conns i = some c → conns k = some d →
    c.fd = d.fd → i = k
  clients : ∀ i k c d, i < maxConn → k < maxConn → conns i = some c → conns k = some d →
    c.client = d.client → i = k
  fresh : ∀ i c, i < maxConn → conns i = some c → c.client < count

/-- All that the tables hold was asked for by the present client. -/
structure Inv (s : Agent) : Prop where
  conns : ConnsOk s.conns s.clients
  jobs : JobsOk s.jobs s.births (IsOpen s.conns)
  cron : CronOk s.cron s.nextCron (Live s.conns)
  res : ResOk s.res (Live s.conns)
  watches : WatchOk s.watches (Live s.conns) Plain
  asked : ∀ i c, i < maxConn → s.conns i = some c → ∀ t, Held s i c.fd t → ⟨c.client, t⟩ ∈ s.asked
  sent : ∀ x ∈ s.sent, x.Entitled

variable {s s' : Agent}

theorem inv_booted (h : Booted s) : Inv s where
  conns :=
    { fds := fun i k c d _ _ hc => by
        rw [h.conns i] at hc
        cases hc
      clients := fun i k c d _ _ hc => by
        rw [h.conns i] at hc
        cases hc
      fresh := fun i c _ hc => by
        rw [h.conns i] at hc
        cases hc }
  jobs :=
    { isOpen := fun j _ i hi => by
        rw [h.jobs j, show Job.none.subMask = 0 from rfl, Word.has_zero] at hi
        cases hi
      taken := fun j _ i hi => by
        rw [h.jobs j, show Job.none.subMask = 0 from rfl, Word.has_zero] at hi
        cases hi
      serial := fun j _ _ _ hj => absurd (congrArg Job.state (h.jobs j)) hj
      fresh := fun j _ hj => absurd (congrArg Job.state (h.jobs j)) hj }
  cron :=
    { idle := fun i _ _ k => h.subscribers i k
      live := fun i _ k fd hk => by
        rw [h.subscribers i k] at hk
        cases hk
      bound := fun i _ k fd hk => by
        rw [h.subscribers i k] at hk
        cases hk
      once := fun i _ k l fd hk => by
        rw [h.subscribers i k] at hk
        cases hk
      fresh := fun i _ hu => h.ids i hu
      first := fun _ k _ _ _ _ _ l => h.subscribers k l }
  res :=
    { used := fun j _ hu => by
        rw [h.subs j] at hu
        cases hu
      once := fun j k _ _ hu => by
        rw [h.subs j] at hu
        cases hu
      distinct := fun i k _ _ hu => by
        rw [h.uris i] at hu
        cases hu
      length := fun i _ hu => by
        rw [h.uris i] at hu
        cases hu
      needed := fun i _ _ hu => by
        rw [h.uris i] at hu
        cases hu }
  watches :=
    { live := fun i _ hu => by
        rw [h.watches i] at hu
        cases hu
      fresh := fun i _ hu => by
        rw [h.watches i] at hu
        cases hu
      distinct := fun i k _ _ hu => by
        rw [h.watches i] at hu
        cases hu
      good := fun i _ hu => by
        rw [h.watches i] at hu
        cases hu }
  asked := fun i c _ hc => by
    rw [h.conns i] at hc
    cases hc
  sent := fun x hx => by
    rw [h.sent] at hx
    cases hx

theorem connByFd_some {conns : Conns} {fd i : Nat} (h : connByFd conns fd = some i) :
    i < maxConn ∧ ∃ c, conns i = some c ∧ c.fd = fd := by
  obtain ⟨hi, hp⟩ := scan_some h
  obtain ⟨c, hc, he⟩ := (any_eq_true _ _).mp hp
  exact ⟨hi, c, hc, of_decide_eq_true he⟩

theorem connByFd_none {conns : Conns} {fd : Nat} (h : connByFd conns fd = none) :
    ¬Live conns fd := by
  rintro ⟨i, hi, c, hc, rfl⟩
  have := scan_none h hi
  rw [hc] at this
  simp at this

theorem acting_some {i : Nat} {f : Conn → Agent} (h : acting s i f = some s') :
    ∃ c, i < maxConn ∧ s.conns i = some c ∧ f c = s' := by
  obtain ⟨hi, h⟩ := ite_none_right_eq_some.mp h
  obtain ⟨c, hc, he⟩ := map_eq_some_iff.mp h
  exact ⟨c, hi, hc, he⟩

theorem mem_slotsOf {fds : List Nat} {i : Nat} (h : i ∈ slotsOf s fds) :
    i < maxConn ∧ ∃ c, s.conns i = some c ∧ c.fd ∈ fds := by
  obtain ⟨fd, hfd, hi⟩ := mem_filterMap.mp h
  obtain ⟨hlt, c, hc, rfl⟩ := connByFd_some hi
  exact ⟨hlt, c, hc, hfd⟩

theorem mem_deliver {ready : Nat → Bool} {slots : List Nat} {n : Notice} {x : Sent}
    (h : x ∈ deliver s ready slots n) :
    ∃ i ∈ slots, ∃ c, s.conns i = some c ∧ x = ⟨c.client, n, s.asked⟩ := by
  obtain ⟨i, hi, hx⟩ := mem_flatMap.mp h
  split at hx
  · obtain ⟨c, hc, rfl⟩ := map_eq_some_iff.mp (mem_toList.mp hx)
    exact ⟨i, hi, c, hc, rfl⟩
  · cases hx

/-! ## Steps -/

theorem Inv.announce (hi : Inv s) {ready : Nat → Bool} {slots : List Nat} {n : Notice}
    (h : ∀ i ∈ slots, i < maxConn ∧ ∀ c, s.conns i = some c → ∃ t, Held s i c.fd t ∧ Covers t n) :
    Inv (announce s ready slots n) :=
  { hi with
    sent := forall_mem_append.mpr ⟨fun x hx => by
      obtain ⟨i, hmem, c, hc, rfl⟩ := mem_deliver hx
      obtain ⟨hlt, ht⟩ := h i hmem
      obtain ⟨t, ht, hcov⟩ := ht c hc
      exact ⟨⟨c.client, t⟩, hi.asked i c hlt hc t ht, rfl, hcov⟩, hi.sent⟩ }

section
variable (hi : Inv s)
include hi

theorem Inv.asks {i : Nat} {c : Conn} (hc : s.conns i = some c) {t : Topic}
    (hheld : ∀ k d u, k < maxConn → s.conns k = some d → Held s' k d.fd u → Held s k d.fd u ∨ k = i ∧ u = t) :
    ∀ k d, k < maxConn → s.conns k = some d → ∀ u, Held s' k d.fd u →
      ⟨d.client, u⟩ ∈ ask s c.client t := by
  intro k d hk hd u hu
  rcases hheld k d u hk hd hu with h | ⟨rfl, rfl⟩
  · exact mem_cons_of_mem _ (hi.asked k d hk hd u h)
  · rw [hc] at hd
    cases hd
    exact mem_cons_self

theorem Inv.withdraws {i : Nat} {c : Conn} (hlt : i < maxConn) (hc : s.conns i = some c) {t : Topic}
    (hheld : ∀ k d u, k < maxConn → s.conns k = some d → Held s' k d.fd u → Held s k d.fd u ∧ ¬(k = i ∧ u = t)) :
    ∀ k d, k < maxConn → s.conns k = some d → ∀ u, Held s' k d.fd u →
      ⟨d.client, u⟩ ∈ withdraw s c.client t := by
  intro k d hk hd u hu
  obtain ⟨h, hne⟩ := hheld k d u hk hd hu
  refine mem_filter.mpr ⟨hi.asked k d hk hd u h, decide_eq_true fun he => hne ?_⟩
  injection he with h1 h2
  exact ⟨hi.conns.clients k i d c hk hlt hd hc h1, h2⟩

theorem Inv.slot_of_fd {i k : Nat} {c d : Conn} (hlt : i < maxConn) (hk : k < maxConn)
    (hc : s.conns i = some c) (hd : s.conns k = some d) (h : d.fd = c.fd) : k = i :=
  hi.conns.fds k i d c hk hlt hd hc h

theorem Inv.held_live {i fd : Nat} {t : Topic} (h : Held s i fd t) :
    IsOpen s.conns i ∨ Live s.conns fd := by
  cases t with
  | job serial =>
    obtain ⟨j, hj, -, hm⟩ := h
    exact .inl (hi.jobs.isOpen j hj i hm)
  | cron id =>
    obtain ⟨k, hk, -, -, l, hl⟩ := h
    exact .inr (hi.cron.live k hk l fd hl)
  | uri u =>
    obtain ⟨j, hj, hu, rfl, -⟩ := h
    exact .inr (hi.res.used j hj hu).2.2
  | watch id a b =>
    obtain ⟨k, hk, he⟩ := h
    have := hi.watches.live k hk (by rw [he])
    rw [he] at this
    exact .inr this

theorem Inv.connect {fd : Nat} {conns : Conns} (hfd : ¬Live s.conns fd)
    (h : addConn s.conns fd s.clients = some conns) :
    Inv { s with conns := conns, clients := s.clients + 1 } := by
  obtain ⟨i, hfind, rfl⟩ := map_eq_some_iff.mp h
  obtain ⟨hlt, hfree⟩ := scan_some hfind
  have hfree : s.conns i = none := isNone_iff_eq_none.mp hfree
  have hcase : ∀ k c, update s.conns i (some ⟨fd, s.clients⟩) k = some c →
      k = i ∧ c = ⟨fd, s.clients⟩ ∨ k ≠ i ∧ s.conns k = some c := by
    intro k c hc
    by_cases hk : k = i
    · subst hk
      rw [update_self] at hc
      exact .inl ⟨rfl, (Option.some.inj hc).symm⟩
    · rw [update_of_ne hk] at hc
      exact .inr ⟨hk, hc⟩
  have hold : ∀ k c, s.conns k = some c →
      update s.conns i (some ⟨fd, s.clients⟩) k = some c := by
    intro k c hc
    have hk : k ≠ i := by
      rintro rfl
      rw [hfree] at hc
      cases hc
    rw [update_of_ne hk]
    exact hc
  have hlive : ∀ f, Live s.conns f → Live (update s.conns i (some ⟨fd, s.clients⟩)) f := by
    rintro f ⟨k, hk, c, hc, he⟩
    exact ⟨k, hk, c, hold k c hc, he⟩
  have hopen : ∀ k, IsOpen s.conns k →
      IsOpen (update s.conns i (some ⟨fd, s.clients⟩)) k := by
    rintro k ⟨hk, hs⟩
    obtain ⟨c, hc⟩ := isSome_iff_exists.mp hs
    exact ⟨hk, by rw [hold k c hc]; rfl⟩
  exact
    { conns :=
        { fds := fun k l c d hk hl hc hd he => by
            rcases hcase k c hc with ⟨rfl, rfl⟩ | ⟨-, hc⟩
            · rcases hcase l d hd with ⟨rfl, -⟩ | ⟨-, hd⟩
              · rfl
              · exact absurd ⟨l, hl, d, hd, he.symm⟩ hfd
            · rcases hcase l d hd with ⟨-, rfl⟩ | ⟨-, hd⟩
              · exact absurd ⟨k, hk, c, hc, he⟩ hfd
              · exact hi.conns.fds k l c d hk hl hc hd he
          clients := fun k l c d hk hl hc hd he => by
            rcases hcase k c hc with ⟨rfl, rfl⟩ | ⟨-, hc⟩
            · rcases hcase l d hd with ⟨rfl, -⟩ | ⟨-, hd⟩
              · rfl
              · exact absurd he.symm (hi.conns.fresh l d hl hd).ne
            · rcases hcase l d hd with ⟨-, rfl⟩ | ⟨-, hd⟩
              · exact absurd he (hi.conns.fresh k c hk hc).ne
              · exact hi.conns.clients k l c d hk hl hc hd he
          fresh := fun k c hk hc => by
            rcases hcase k c hc with ⟨-, rfl⟩ | ⟨-, hc⟩
            · exact Nat.lt_succ_self s.clients
            · exact Nat.lt_succ_of_lt (hi.conns.fresh k c hk hc) }
      jobs := hi.jobs.mono hopen
      cron := hi.cron.mono hlive
      res := hi.res.mono hlive
      watches := hi.watches.mono hlive
      asked := fun k c hk hc t ht => by
        rcases hcase k c hc with ⟨rfl, rfl⟩ | ⟨-, hc⟩
        · rcases hi.held_live (show Held s k fd t from ht) with hopen | hl
          · have := hopen.2
            rw [hfree] at this
            cases this
          · exact absurd hl hfd
        · exact hi.asked k c hk hc t ht
      sent := hi.sent }

theorem Inv.close {i : Nat} {c : Conn} (hlt : i < maxConn) (hc : s.conns i = some c) :
    Inv (closeConn s i c) := by
  have hcase : ∀ k d, update s.conns i none k = some d → k ≠ i ∧ s.conns k = some d := by
    intro k d hd
    by_cases hk : k = i
    · subst hk
      rw [update_self] at hd
      cases hd
    · rw [update_of_ne hk] at hd
      exact ⟨hk, hd⟩
  have hold : ∀ k d, k ≠ i → s.conns k = some d → update s.conns i none k = some d :=
    fun k d hk hd => (update_of_ne hk _ _).trans hd
  have hlive : ∀ f, Live s.conns f ∧ f ≠ c.fd → Live (update s.conns i none) f := by
    rintro f ⟨⟨k, hk, d, hd, rfl⟩, hne⟩
    refine ⟨k, hk, d, hold k d ?_ hd, rfl⟩
    rintro rfl
    rw [hc] at hd
    cases hd
    exact hne rfl
  have hopen : ∀ k, IsOpen s.conns k ∧ k ≠ i → IsOpen (update s.conns i none) k := by
    rintro k ⟨⟨hk, hs⟩, hne⟩
    exact ⟨hk, by rw [update_of_ne hne]; exact hs⟩
  obtain ⟨hjobs, hj⟩ := hi.jobs.drop hlt
  obtain ⟨hcron, hcr⟩ := hi.cron.drop c.fd
  obtain ⟨hres, hr⟩ := ResLinked.drop hi.res c.fd
  obtain ⟨hwatch, hw⟩ := hi.watches.drop c.fd
  exact
    { conns :=
        { fds := fun k l d e hk hl hd he =>
            hi.conns.fds k l d e hk hl (hcase k d hd).2 (hcase l e he).2
          clients := fun k l d e hk hl hd he =>
            hi.conns.clients k l d e hk hl (hcase k d hd).2 (hcase l e he).2
          fresh := fun k d hk hd => hi.conns.fresh k d hk (hcase k d hd).2 }
      jobs := hjobs.mono hopen
      cron := hcron.mono hlive
      res := hres.mono hlive
      watches := hwatch.mono hlive
      asked := fun k d hk hd t ht => by
        refine hi.asked k d hk (hcase k d hd).2 t ?_
        cases t with
        | job serial => exact hj k serial ht
        | cron id => exact hcr d.fd id ht
        | uri u => exact hr d.fd u ht
        | watch id a b => exact hw d.fd id a b ht
      sent := hi.sent }

theorem Inv.jobSubscribe {i : Nat} {c : Conn} (hlt : i < maxConn) (hc : s.conns i = some c)
    {id : Int} {j : Nat} {t : Table} (h : emitShellJobSubscribe s.jobs i id = some (j, t)) :
    Inv { s with jobs := t, asked := ask s c.client (.job (s.jobs j).serial) } := by
  obtain ⟨hjobs, hsub⟩ := hi.jobs.subscribe hlt ⟨hlt, by rw [hc]; rfl⟩ h
  exact
    { hi with
      jobs := hjobs
      asked := hi.asks hc fun k d u _ _ hu => by
        cases u with
        | job serial => exact (hsub k serial hu).imp_right fun h => ⟨h.1, congrArg Topic.job h.2⟩
        | cron id => exact .inl hu
        | uri u => exact .inl hu
        | watch id a b => exact .inl hu }

theorem Inv.jobUnsubscribe {i : Nat} {c : Conn} (hlt : i < maxConn) (hc : s.conns i = some c)
    {id : Int} {j : Nat} {t : Table} (h : emitShellJobUnsubscribe s.jobs i id = some (j, t)) :
    Inv { s with jobs := t, asked := withdraw s c.client (.job (s.jobs j).serial) } := by
  obtain ⟨hjobs, hsub⟩ := hi.jobs.unsubscribe hlt h
  exact
    { hi with
      jobs := hjobs
      asked := hi.withdraws hlt hc fun k d u _ _ hu => by
        cases u with
        | job serial =>
          obtain ⟨hold, hne⟩ := hsub k serial hu
          exact ⟨hold, fun hx => hne ⟨hx.1, Topic.job.inj hx.2⟩⟩
        | cron id => exact ⟨hu, fun hx => nomatch hx.2⟩
        | uri u => exact ⟨hu, fun hx => nomatch hx.2⟩
        | watch id a b => exact ⟨hu, fun hx => nomatch hx.2⟩ }

theorem Inv.cronSubscribe {i : Nat} {c : Conn} (hlt : i < maxConn) (hc : s.conns i = some c)
    {id : Int} {k : Nat} (h : cronFind s.cron id = some k) :
    Inv { s with
      cron := setSubscribers s.cron k (cronSubscriberAdd (s.cron k).subscribers c.fd)
      asked := ask s c.client (.cron (s.cron k).id) } := by
  obtain ⟨hcron, hsub⟩ := hi.cron.subscribe h ⟨i, hlt, c, hc, rfl⟩
  exact
    { hi with
      cron := hcron
      asked := hi.asks hc fun k d u hk hd hu => by
        cases u with
        | job serial => exact .inl hu
        | cron id =>
          refine (hsub d.fd id hu).imp_right fun h => ?_
          exact ⟨hi.slot_of_fd hlt hk hc hd h.1, congrArg Topic.cron h.2⟩
        | uri u => exact .inl hu
        | watch id a b => exact .inl hu }

theorem Inv.cronUnsubscribe {i : Nat} {c : Conn} (hlt : i < maxConn) (hc : s.conns i = some c)
    {id : Int} {k : Nat} (h : cronFind s.cron id = some k) :
    Inv { s with
      cron := setSubscribers s.cron k (cronSubscriberRemove (s.cron k).subscribers c.fd)
      asked := withdraw s c.client (.cron (s.cron k).id) } := by
  obtain ⟨hcron, hsub⟩ := hi.cron.unsubscribe h
  exact
    { hi with
      cron := hcron
      asked := hi.withdraws hlt hc fun k d u _ hd hu => by
        cases u with
        | job serial => exact ⟨hu, fun hx => nomatch hx.2⟩
        | cron id =>
          obtain ⟨hold, hne⟩ := hsub d.fd id hu
          refine ⟨hold, fun hx => hne ⟨?_, Topic.cron.inj hx.2⟩⟩
          have hd := hx.1 ▸ hd
          rw [hc] at hd
          exact congrArg Conn.fd (Option.some.inj hd).symm
        | uri u => exact ⟨hu, fun hx => nomatch hx.2⟩
        | watch id a b => exact ⟨hu, fun hx => nomatch hx.2⟩ }

theorem Inv.cronReplaced {k n : Nat} {e : CronEntry} (hle : s.nextCron ≤ n)
    (hn : ∀ l, e.subscribers l = none) (he : e.inUse = true → s.nextCron ≤ e.id ∧ e.id < n) :
    Inv { s with cron := update s.cron k e, nextCron := n } := by
  obtain ⟨hcron, hsub⟩ := hi.cron.replaced (i := k) hle hn he
  exact
    { hi with
      cron := hcron
      asked := fun i c hlt hc u hu => by
        refine hi.asked i c hlt hc u ?_
        cases u with
        | job serial => exact hu
        | cron id => exact hsub c.fd id hu
        | uri u => exact hu
        | watch id a b => exact hu }

theorem Inv.jobsChanged {t : Table} {n : Nat}
    (h : JobsOk t n (IsOpen s.conns) ∧ ∀ i serial, Subscribed t i serial → Subscribed s.jobs i serial) :
    Inv { s with jobs := t, births := n } :=
  { hi with
    jobs := h.1
    asked := fun i c hlt hc u hu => by
      refine hi.asked i c hlt hc u ?_
      cases u with
      | job serial => exact h.2 i serial hu
      | cron id => exact hu
      | uri u => exact hu
      | watch id a b => exact hu }

theorem Inv.resSubscribe {i : Nat} {c : Conn} (hlt : i < maxConn) (hc : s.conns i = some c)
    (uri : Bytes) (content : Option Bytes) :
    Inv { s with
      res := (handleResourcesSubscribe s.res c.fd uri content).2
      asked := if (handleResourcesSubscribe s.res c.fd uri content).1 then
          ask s c.client (.uri uri) else s.asked } := by
  obtain ⟨hres, hsub⟩ := ResLinked.subscribe hi.res
    (show Live s.conns c.fd from ⟨i, hlt, c, hc, rfl⟩) uri content
  refine { hi with res := hres, asked := ?_ }
  split
  · refine hi.asks hc fun k d u hk hd hu => ?_
    cases u with
    | job serial => exact .inl hu
    | cron id => exact .inl hu
    | uri u =>
      refine (hsub d.fd u hu).imp_right fun h => ?_
      exact ⟨hi.slot_of_fd hlt hk hc hd h.2.1, congrArg Topic.uri h.2.2⟩
    | watch id a b => exact .inl hu
  · rename_i hno
    intro k d hk hd u hu
    refine hi.asked k d hk hd u ?_
    cases u with
    | job serial => exact hu
    | cron id => exact hu
    | uri u => exact (hsub d.fd u hu).resolve_right fun h => hno h.1
    | watch id a b => exact hu

theorem Inv.resUnsubscribe {i : Nat} {c : Conn} (hlt : i < maxConn) (hc : s.conns i = some c)
    (uri : Bytes) :
    Inv { s with
      res := (handleResourcesUnsubscribe s.res c.fd uri).2
      asked := withdraw s c.client (.uri uri) } := by
  obtain ⟨hres, hsub⟩ := ResLinked.unsubscribe hi.res c.fd uri
  exact
    { hi with
      res := hres
      asked := hi.withdraws hlt hc fun k d u _ hd hu => by
        cases u with
        | job serial => exact ⟨hu, fun hx => nomatch hx.2⟩
        | cron id => exact ⟨hu, fun hx => nomatch hx.2⟩
        | uri u =>
          obtain ⟨hold, hne⟩ := hsub d.fd u hu
          refine ⟨hold, fun hx => hne ⟨?_, Topic.uri.inj hx.2⟩⟩
          have hd := hx.1 ▸ hd
          rw [hc] at hd
          exact congrArg Conn.fd (Option.some.inj hd).symm
        | watch id a b => exact ⟨hu, fun hx => nomatch hx.2⟩ }

theorem Inv.polled (k : Nat) (content : Option Bytes) :
    Inv { s with res := (pollResource s.res k content).2 } := by
  obtain ⟨hres, hsub⟩ := ResLinked.poll hi.res k content
  exact
    { hi with
      res := hres
      asked := fun i c hlt hc u hu => by
        refine hi.asked i c hlt hc u ?_
        cases u with
        | job serial => exact hu
        | cron id => exact hu
        | uri u => exact hsub c.fd u hu
        | watch id a b => exact hu }

theorem Inv.kvWatch {i : Nat} {c : Conn} (hlt : i < maxConn) (hc : s.conns i = some c)
    {ns keyPrefix : Bytes} {w : WatchTable} (hplain : Plain ns keyPrefix)
    (h : emitKvWatch s.watches c.fd ns keyPrefix = some w) :
    Inv { s with watches := w, asked := ask s c.client (.watch w.nextId ns keyPrefix) } := by
  obtain ⟨hwatch, hsub⟩ := hi.watches.watch h ⟨i, hlt, c, hc, rfl⟩ hplain
  exact
    { hi with
      watches := hwatch
      asked := hi.asks hc fun k d u hk hd hu => by
        cases u with
        | job serial => exact .inl hu
        | cron id => exact .inl hu
        | uri u => exact .inl hu
        | watch id a b =>
          refine (hsub d.fd id a b hu).imp_right fun hx => ?_
          obtain ⟨hfd, rfl, rfl, rfl⟩ := hx
          exact ⟨hi.slot_of_fd hlt hk hc hd hfd, rfl⟩ }

theorem Inv.kvUnwatch {i : Nat} {c : Conn} (hlt : i < maxConn) (hc : s.conns i = some c) (wid : Int) :
    Inv { s with
      watches := (emitKvUnwatch s.watches c.fd wid).2
      asked := if (emitKvUnwatch s.watches c.fd wid).1.isSome then
          withdrawWatch s c.client wid else s.asked } := by
  obtain ⟨hwatch, hsub⟩ := hi.watches.unwatch c.fd wid
  have hold : ∀ {k : Nat} {d : Conn} {u : Topic}, k < maxConn → s.conns k = some d →
      Held { s with watches := (emitKvUnwatch s.watches c.fd wid).2 } k d.fd u →
      ⟨d.client, u⟩ ∈ s.asked := by
    intro k d u hk hd hu
    refine hi.asked k d hk hd u ?_
    cases u with
    | job serial => exact hu
    | cron id => exact hu
    | uri u => exact hu
    | watch id a b => exact (hsub d.fd id a b hu).1
  refine { hi with watches := hwatch, asked := ?_ }
  split
  · rename_i hsome
    intro k d hk hd u hu
    refine mem_filter.mpr ⟨hold hk hd hu, decide_eq_true ?_⟩
    rintro ⟨hcl, hid⟩
    cases u with
    | job serial => cases hid
    | cron id => cases hid
    | uri u => cases hid
    | watch id a b =>
      have hki := hi.conns.clients k i d c hk hlt hd hc hcl
      subst hki
      rw [hc] at hd
      cases hd
      exact (hsub c.fd id a b hu).2 hsome ⟨rfl, Option.some.inj hid⟩
  · exact fun k d hk hd u hu => hold hk hd hu

end
theorem kvPath_valid {ns key : CStr} (h : (Kv.kvPath ns key).isSome = true) :
    Kv.kvValidateNs ns = true ∧ Kv.kvValidateKey key = true := by
  unfold Kv.kvPath at h
  split at h
  · cases h
  rename_i hns
  split at h
  · cases h
  rename_i hkey
  exact ⟨by simpa using hns, by simpa using hkey⟩

theorem kvValidateKey_prefix {key q : CStr} (h : Kv.kvValidateKey key = true) (hq : q <+: key) :
    q = [] ∨ Kv.kvValidateKey q = true := by
  obtain ⟨rest, rfl⟩ := hq
  cases q with
  | nil => exact .inl rfl
  | cons b q =>
    right
    unfold Kv.kvValidateKey at h ⊢
    simp only [cons_append, Bool.and_eq_true, decide_eq_true_iff, List.head?_cons,
      all_cons, all_append, length_cons, length_append] at h ⊢
    obtain ⟨⟨⟨-, h1⟩, h2, h3, -⟩, h4⟩ := h
    exact ⟨⟨⟨by simp, h1⟩, h2, h3⟩, by omega⟩

theorem plain_covers {ns key : CStr} {a b : Bytes} {id : Nat} (hplain : Plain a b)
    (hvalid : (Kv.kvPath ns key).isSome = true) (hns : cString a = ns)
    (hkey : (cString b).isPrefixOf key = true) : Covers (.watch id a b) (.changed ns key) := by
  obtain ⟨hv1, hv2⟩ := kvPath_valid hvalid
  rcases hplain with ⟨ha, hb⟩ | hno
  · rw [cString_self ha] at hns
    rw [cString_self hb] at hkey
    exact ⟨key, by rw [hns], hkey⟩
  · exact absurd ⟨hns ▸ hv1, kvValidateKey_prefix hv2 ( isPrefixOf_iff_prefix.mp hkey)⟩ hno

theorem audience_job {j : Nat} (hj : j < jobMax) :
    ∀ i ∈ jobAudience (s.jobs j).subMask, i < maxConn ∧ ∀ c, s.conns i = some c →
      ∃ t, Held s i c.fd t ∧ Covers t (.job (s.jobs j).serial) := by
  intro i hm
  obtain ⟨hlt, hbit⟩ := mem_jobAudience hm
  exact ⟨hlt, fun _ _ => ⟨.job (s.jobs j).serial, ⟨j, hj, rfl, hbit⟩, rfl⟩⟩

theorem audience_fds {fds : List Nat} {n : Notice}
    (h : ∀ i fd, fd ∈ fds → ∃ t, Held s i fd t ∧ Covers t n) :
    ∀ i ∈ slotsOf s fds, i < maxConn ∧ ∀ c, s.conns i = some c →
      ∃ t, Held s i c.fd t ∧ Covers t n := by
  intro i hm
  obtain ⟨hlt, c, hc, hfd⟩ := mem_slotsOf hm
  refine ⟨hlt, fun d hd => ?_⟩
  rw [hc] at hd
  cases hd
  exact h i c.fd hfd

theorem inv_step (s : Agent) (l : Label) (s' : Agent) (hi : Inv s)
    (h : (agentLTS.restrict WatchesPlainly).step s l s') : Inv s' := by
  obtain ⟨hplain, h⟩ := h
  cases l with
  | connect fd =>
    obtain ⟨hfd, h⟩ := ite_none_right_eq_some.mp h
    cases h
    cases hadd : addConn s.conns fd s.clients with
    | none => exact hi
    | some conns => exact hi.connect (connByFd_none hfd) hadd
  | close i =>
    obtain ⟨c, hlt, hc, rfl⟩ := acting_some h
    exact hi.close hlt hc
  | jobSubscribe i id =>
    obtain ⟨c, hlt, hc, rfl⟩ := acting_some h
    cases hx : emitShellJobSubscribe s.jobs i id with
    | none => exact hi
    | some x => exact hi.jobSubscribe hlt hc (show _ = some (x.1, x.2) from hx)
  | jobUnsubscribe i id =>
    obtain ⟨c, hlt, hc, rfl⟩ := acting_some h
    cases hx : emitShellJobUnsubscribe s.jobs i id with
    | none => exact hi
    | some x => exact hi.jobUnsubscribe hlt hc (show _ = some (x.1, x.2) from hx)
  | jobDelete id =>
    cases h
    exact hi.jobsChanged (hi.jobs.delete id)
  | spawn o =>
    cases h
    exact hi.jobsChanged (hi.jobs.spawn o)
  | output j ready =>
    obtain ⟨⟨hj, -⟩, h⟩ := ite_none_right_eq_some.mp h
    cases h
    exact hi.announce (audience_job hj)
  | ended j ready =>
    obtain ⟨⟨hj, hrun⟩, h⟩ := ite_none_right_eq_some.mp h
    cases h
    exact (hi.announce (audience_job hj)).jobsChanged (hi.jobs.ended hrun)
  | cronCreate saved =>
    obtain ⟨-, h⟩ := ite_none_right_eq_some.mp h
    cases h
    cases cronAllocSlot s.cron with
    | none => exact hi
    | some k =>
      refine hi.cronReplaced (Nat.le_succ _) (fun l => ?_) fun hu => ?_
      · split <;> rfl
      · split at hu
        · rename_i hs
          rw [if_pos hs]
          exact ⟨le_rfl, Nat.lt_succ_self _⟩
        · cases hu
  | cronDelete id =>
    cases h
    cases cronFind s.cron id with
    | none => exact hi
    | some k => exact hi.cronReplaced le_rfl (fun _ => rfl) nofun
  | cronSubscribe i id =>
    obtain ⟨c, hlt, hc, rfl⟩ := acting_some h
    cases hk : cronFind s.cron id with
    | none => exact hi
    | some k => exact hi.cronSubscribe hlt hc hk
  | cronUnsubscribe i id =>
    obtain ⟨c, hlt, hc, rfl⟩ := acting_some h
    cases hk : cronFind s.cron id with
    | none => exact hi
    | some k => exact hi.cronUnsubscribe hlt hc hk
  | fire k ready =>
    obtain ⟨⟨hk, hu⟩, h⟩ := ite_none_right_eq_some.mp h
    cases h
    refine hi.announce (audience_fds fun i fd hfd => ?_)
    obtain ⟨l, -, hl⟩ := mem_filterMap.mp hfd
    exact ⟨.cron (s.cron k).id, ⟨k, hk, hu, rfl, l, hl⟩, rfl⟩
  | resSubscribe i uri content =>
    obtain ⟨c, hlt, hc, rfl⟩ := acting_some h
    exact hi.resSubscribe hlt hc uri content
  | resUnsubscribe i uri =>
    obtain ⟨c, hlt, hc, rfl⟩ := acting_some h
    exact hi.resUnsubscribe hlt hc uri
  | poll k content ready =>
    obtain ⟨-, h⟩ := ite_none_right_eq_some.mp h
    cases h
    refine (hi.announce ?_).polled k content
    split
    · exact audience_fds fun i fd hfd => ⟨.uri (s.res.uris k).uri, mem_resAudience hfd, rfl⟩
    · exact fun i hm => nomatch hm
  | kvWatch i ns keyPrefix =>
    obtain ⟨-, h⟩ := ite_none_right_eq_some.mp h
    obtain ⟨c, hlt, hc, rfl⟩ := acting_some h
    cases hw : emitKvWatch s.watches c.fd ns keyPrefix with
    | none => exact hi
    | some w => exact hi.kvWatch hlt hc hplain hw
  | kvUnwatch i wid =>
    obtain ⟨c, hlt, hc, rfl⟩ := acting_some h
    exact hi.kvUnwatch hlt hc wid
  | kvChanged ns key ready =>
    obtain ⟨hvalid, h⟩ := ite_none_right_eq_some.mp h
    cases h
    refine hi.announce (audience_fds fun i fd hfd => ?_)
    obtain ⟨id, a, b, hhas, hns, hkey⟩ := mem_kvAudience hfd
    obtain ⟨k, hk, he⟩ := hhas
    have hgood := hi.watches.good k hk (by rw [he])
    rw [he] at hgood
    exact ⟨.watch id a b, ⟨k, hk, he⟩, plain_covers hgood hvalid hns hkey⟩

theorem inv_inductive : (agentLTS.restrict WatchesPlainly).Inductive Inv where
  init := fun _ h => inv_booted h
  step := inv_step

/-! ## Main result -/

/-- In every run in which the C strings of each watch are what the client sent, or
match no valid key: every notification goes to a client that has asked for its object and has not
withdrawn that; the entry of a URI is in use exactly when a row of an open connection points to
it; and no two rows have one connection and one URI. -/
theorem notices_are_wanted (s : Agent) (hs : (agentLTS.restrict WatchesPlainly).Reachable s) :
    (∀ x ∈ s.sent, x.Entitled) ∧
      (∀ i, i < maxResUris → ((s.res.uris i).inUse = true ↔
        ∃ j, j < maxResSubs ∧ (s.res.subs j).inUse = true ∧ (s.res.subs j).uriIdx = i ∧
          Live s.conns (s.res.subs j).connFd)) ∧
      ∀ j k, j < maxResSubs → k < maxResSubs → (s.res.subs j).inUse = true →
        (s.res.subs k).inUse = true → (s.res.subs j).connFd = (s.res.subs k).connFd →
        (s.res.uris (s.res.subs j).uriIdx).uri = (s.res.uris (s.res.subs k).uriIdx).uri →
        j = k := by
  have hi := inv_inductive.reachable s hs
  have hr := hi.res
  refine ⟨hi.sent, fun i hlt => ⟨fun hu => ?_, ?_⟩, fun j k hj hk hu hv hfd huri => ?_⟩
  · obtain ⟨j, hj, huse, hidx⟩ := refersTo_iff.mp (hr.needed i hlt trivial hu)
    exact ⟨j, hj, huse, hidx, (hr.used j hj huse).2.2⟩
  · rintro ⟨j, hj, huse, rfl, -⟩
    exact (hr.used j hj huse).2.1
  · obtain ⟨j1, j2, -⟩ := hr.used j hj hu
    obtain ⟨k1, k2, -⟩ := hr.used k hk hv
    exact hr.once j k hj hk hu hv hfd (hr.distinct _ _ j1 k1 j2 k2 huri)

/-- No cron entry was stored. -/
def boot : Agent :=
  { conns := fun _ => none, clients := 0, jobs := fun _ => Job.none, births := 0
    cron := fun _ => cronClear, nextCron := 1
    res := ⟨fun _ => ⟨false, [], 0⟩, fun _ => ⟨false, 0, 0⟩⟩
    watches := ⟨fun _ => ⟨false, 0, 0, [], []⟩, 0⟩, asked := [], sent := [] }

theorem boot_booted : Booted boot :=
  ⟨fun _ => rfl, fun _ => rfl, fun _ _ => rfl, fun _ h => (by cases h), fun _ => rfl, fun _ => rfl,
    fun _ => rfl, rfl⟩

/-- A job's output and a key of one client's; the other client's URI; a third client gets the first
one's slot and descriptor, and is told nothing. -/
def threeClients : List Label :=
  [.connect 7, .connect 8, .spawn (.started 100), .jobSubscribe 0 0, .kvWatch 0 [97] [120],
    .resSubscribe 1 [107] (some []), .output 0 fun _ => true,
    .kvChanged [97] [120, 121] fun _ => true, .poll 0 (some [1]) fun _ => true, .close 0,
    .connect 7, .kvChanged [97] [120] fun _ => true, .ended 0 fun _ => true]

theorem three_clients_told :
    ∃ s : Agent, s.sent.map (fun x => (x.client, x.notice)) =
        [(1, .updated [107]), (0, .changed [97] [120, 121]), (0, .job 0)] ∧
      (∀ x ∈ s.sent, x.Entitled) ∧
      (∀ i, i < maxResUris → ((s.res.uris i).inUse = true ↔
        ∃ j, j < maxResSubs ∧ (s.res.subs j).inUse = true ∧ (s.res.subs j).uriIdx = i ∧
          Live s.conns (s.res.subs j).connFd)) ∧
      ∀ j k, j < maxResSubs → k < maxResSubs → (s.res.subs j).inUse = true →
        (s.res.subs k).inUse = true → (s.res.subs j).connFd = (s.res.subs k).connFd →
        (s.res.uris (s.res.subs j).uriIdx).uri = (s.res.uris (s.res.subs k).uriIdx).uri →
        j = k := by
  have hrun : (LTS.exec (LTS.guarded WatchesPlainly step) boot threeClients).map
      (fun s => s.sent.map fun x => (x.client, x.notice)) =
        some [(1, .updated [107]), (0, .changed [97] [120, 121]), (0, .job 0)] := by
    decide +kernel
  obtain ⟨s, hs, hp⟩ := map_eq_some_iff.mp hrun
  exact ⟨s, hp, notices_are_wanted s ⟨boot, _, boot_booted, LTS.run_restrict_of_exec hs⟩⟩

/-- The prefix `x`, NUL, `y` is kept as `x`. -/
def cutWatch : List Label :=
  [.connect 7, .kvWatch 0 [97] [120, 0, 121], .kvChanged [97] [120, 122] fun _ => true]

theorem cut_watch_is_told :
    ¬ ∀ s, agentLTS.Reachable s → ∀ x ∈ s.sent, x.Entitled := by
  intro h
  have hs : agentLTS.Reachable (LTS.replay step boot cutWatch) :=
    LTS.Reachable.replay cutWatch (LTS.Reachable.init boot_booted) (by decide +kernel)
  have hsent : (LTS.replay step boot cutWatch).sent =
      [⟨0, .changed [97] [120, 122], [⟨0, .watch 1 [97] [120, 0, 121]⟩]⟩] := by decide +kernel
  obtain ⟨a, ha, -, hcov⟩ := h _ hs ⟨0, .changed [97] [120, 122],
    [⟨0, .watch 1 [97] [120, 0, 121]⟩]⟩ (by rw [hsent]; exact mem_singleton_self _)
  obtain rfl := mem_singleton.mp ha
  obtain ⟨key, hkey, hpre⟩ := hcov
  injection hkey with _ hkey
  subst hkey
  cases hpre

end AdventOS.Agentd.Notices
