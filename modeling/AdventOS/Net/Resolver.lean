import AdventOS.Core.LTS
import AdventOS.Net.Dns

/-!
# The resolver over whole runs (`kernel/dns.c`)

Interrupts are on while a system call runs, and `pit_sleep` gives up the kernel lock: datagrams
arrive between any two steps, and several tasks can be inside `dns_resolve`, which share the
one response buffer, flag and expected id. A step of a run is a datagram, the passing of time,
the start of a lookup, or a lookup's next step: trying a server, a turn of the waiting loop, or
a turn of the parser.

`takes` is what `on_dns_reply` looks at: the id and the length. The sender, the question and the
owner of the record are looked at nowhere, the id is a tick count, and the clock that entries
expire by can be set back. So the answers are genuine only while the datagrams taken are
(`Careful`):

* `answers_genuine`;
* `stranger_answers`: one datagram of anybody who guesses the id decides what a name means.
-/
namespace AdventOS.Net.Resolver
open List Option
open Tcp (Ip)
open Dns

/-! ## The cache -/

structure CacheEntry where
  inUse : Bool
  name : CString
  ip : Ip
  expiresAt : UInt32

/-- The clock has reached the end of an entry's time. -/
def CacheEntry.expired (e : CacheEntry) (now : UInt32) : Bool := e.expiresAt ≤ now

/-- dns.c:158-168 -/
def cacheLookup (cache : List CacheEntry) (now : UInt32) (name : CString) : Option Ip :=
  (cache.find? fun e => e.inUse && !e.expired now && nameEq e.name.bytes name.bytes).map (·.ip)

/-- dns.c:185-188 -/
def clampTtl (ttl : UInt32) : UInt32 :=
  let ttl := if ttl < 30 then 30 else ttl
  if ttl > 3600 then 3600 else ttl

/-- dns.c:170-191 -/
def cacheStore (cache : List CacheEntry) (now : UInt32) (name : CString) (ip : Ip)
    (ttl : UInt32) : List CacheEntry :=
  match cache.findIdx? fun e => !e.inUse || e.expired now with
  | none => cache
  | some slot => cache.set slot ⟨true, name.truncate, ip, now + clampTtl ttl⟩

/-! ## State -/

/-- A query that was sent. -/
structure Query where
  name : CString
  server : Ip
  packet : List UInt8

/-- A datagram for port 53000. -/
structure Datagram where
  src : Ip
  port : UInt16
  bytes : List UInt8

/-- A datagram that was taken: when, and which queries were outstanding then. -/
structure Receipt extends Datagram where
  time : Nat
  outstanding : List Query

/-- Where a call of `dns_resolve` stands: before it tries server `sx`; in the waiting loop; before
it parses the response; in the loop over the answers, with `k` of them left from offset `p` on. -/
inductive Phase
  | send (sx : Nat)
  | wait (sx waited : Nat)
  | start
  | answers (mn p k : Nat)

/-- A call of `dns_resolve` that went to the network. `asked` are the servers it has sent to. -/
structure Lookup where
  name : CString
  packet : List UInt8
  phase : Phase
  asked : List Ip

/-- An address that `dns_resolve` has returned: at which second, with the clock showing what,
and whether from a response or from the cache. `ttl` is the record's. -/
structure Answer where
  name : CString
  ip : Ip
  ttl : UInt32
  time : Nat
  clock : UInt32
  fresh : Bool
  deriving DecidableEq

/-- `clock` is what `rtc_epoch_corrected` returns, `ticks` what `pit_ticks` returns. `seconds`,
`receipts`, `answers` and `stray` (a read outside the datagram) are the history of the run. -/
structure State where
  servers : List Ip
  cache : List CacheEntry
  haveResp : Bool
  resp : Buf
  expectingId : UInt16
  listening : Bool
  clock : UInt32
  ticks : UInt32
  lookups : List Lookup
  seconds : Nat
  receipts : List Receipt
  answers : List Answer
  stray : Bool

inductive Event
  | pass (seconds : Nat) (clock ticks : UInt32)
  | datagram (d : Datagram)
  | resolve (name : CString)
  | run (i : Nat) (sent : Bool)

def Init (s : State) : Prop :=
  (∀ e ∈ s.cache, e.inUse = false) ∧ s.haveResp = false ∧ s.listening = false ∧
    s.lookups = [] ∧ s.receipts = [] ∧ s.answers = [] ∧ s.stray = false

/-! ## Steps -/

def dnsPort : UInt16 := 53

/-- `sizeof(g_resp_buf)` -/
def respBufSize : Nat := 1500

/-- `DNS_RESPONSE_TIMEOUT_MS` -/
def dnsResponseTimeoutMs : Nat := 2000

/-- What is asked of a datagram. udp.c:104-107 and dns.c:196-199 -/
def takes (s : State) (d : Datagram) : Bool :=
  s.listening && dnsHdrSize ≤ d.bytes.length &&
    half (message d.bytes) 0 = s.expectingId.toNat && d.bytes.length ≤ respBufSize

/-- `memcpy(g_resp_buf, data, len)`: what stood behind `len` is still there. -/
def copyIn (m : Buf) (bs : List UInt8) : Buf where
  mem i := if i < bs.length then bs.getD i 0 else m.mem i
  n := bs.length

/-- The lookup has sent queries and has not begun to read a response. -/
def Phase.waits : Phase → Bool
  | .send _ => true
  | .wait _ _ => true
  | .start => true
  | .answers _ _ _ => false

def Lookup.outstanding (l : Lookup) : List Query :=
  if l.phase.waits then l.asked.map fun server => ⟨l.name, server, l.packet⟩ else []

/-- dns.c:193-204 -/
def onDnsReply (s : State) (d : Datagram) : State :=
  if takes s d then
    { s with
      resp := copyIn s.resp d.bytes
      haveResp := true
      receipts := ⟨d, s.seconds, s.lookups.flatMap Lookup.outstanding⟩ :: s.receipts }
  else s

/-- The id of the next query. dns.c:261-262 -/
def nextId (ticks : UInt32) : UInt16 := if ticks.toUInt16 = 0 then 1 else ticks.toUInt16

/-- dns.c:243-277 -/
def dnsResolve (s : State) (name : CString) : State :=
  match cacheLookup s.cache s.clock name with
  | some ip => { s with answers := ⟨name, ip, 0, s.seconds, s.clock, false⟩ :: s.answers }
  | none =>
    if s.servers = [] then s
    else
      match queryPacket (nextId s.ticks) name with
      | none => { s with expectingId := nextId s.ticks }
      | some packet =>
        { s with
          expectingId := nextId s.ticks
          lookups := ⟨name, packet, .send 0, []⟩ :: s.lookups }

def setPhase (s : State) (i : Nat) (l : Lookup) (phase : Phase) : State :=
  { s with lookups := s.lookups.set i { l with phase } }

/-- The call returns -1. -/
def giveUp (s : State) (i : Nat) : State := { s with lookups := s.lookups.eraseIdx i }

/-- The call stores the address and returns it. dns.c:330-333 -/
def deliver (s : State) (i : Nat) (name : CString) (ip : Ip) (ttl : UInt32) : State :=
  { s with
    cache := cacheStore s.cache s.clock name ip ttl
    lookups := s.lookups.eraseIdx i
    answers := ⟨name, ip, ttl, s.seconds, s.clock, true⟩ :: s.answers }

/-- Trying server `sx`; `sent` is whether `udp_send` succeeds. dns.c:283-289 -/
def trySend (s : State) (i : Nat) (l : Lookup) (sx : Nat) (sent : Bool) : State :=
  match s.servers[sx]? with
  | none => giveUp s i
  | some server =>
    let s := { s with haveResp := false, resp := { s.resp with n := 0 }, listening := true }
    if sent then setPhase s i { l with asked := server :: l.asked } (.wait sx 0)
    else setPhase s i l (.send (sx + 1))

/-- A turn of the waiting loop. dns.c:290-294 -/
def waitTurn (s : State) (i : Nat) (l : Lookup) (sx waited : Nat) : State :=
  if s.haveResp then setPhase s i l .start
  else if waited < dnsResponseTimeoutMs then setPhase s i l (.wait sx (waited + 20))
  else setPhase s i l (.send (sx + 1))

def noteReads (s : State) (safe : Bool) : State := { s with stray := s.stray || !safe }

/-- dns.c:300-313 -/
def startTurn (s : State) (i : Nat) (l : Lookup) : State :=
  let r := (parseStart s.resp s.resp.n).run
  match r.val with
  | none => noteReads (giveUp s i) r.safe
  | some start => noteReads (setPhase s i l (.answers s.resp.n start.1 start.2)) r.safe

/-- dns.c:316-337 -/
def answerTurn (s : State) (i : Nat) (l : Lookup) (mn p : Nat) : Nat → State
  | 0 => giveUp s i
  | k + 1 =>
    let r := (answerStep s.resp mn p).run
    match r.val with
    | none => noteReads (giveUp s i) r.safe
    | some (.next q) => noteReads (setPhase s i l (.answers mn q k)) r.safe
    | some (.address ip ttl) => noteReads (deliver s i l.name ip ttl) r.safe

def runTurn (s : State) (i : Nat) (l : Lookup) (sent : Bool) : State :=
  match l.phase with
  | .send sx => trySend s i l sx sent
  | .wait sx waited => waitTurn s i l sx waited
  | .start => startTurn s i l
  | .answers mn p k => answerTurn s i l mn p k

def step (s : State) : Event → Option State
  | .pass seconds clock ticks => some { s with seconds := s.seconds + seconds, clock, ticks }
  | .datagram d => some (onDnsReply s d)
  | .resolve name => some (dnsResolve s name)
  | .run i sent => (s.lookups[i]?).map fun l => runTurn s i l sent

def resolver : LTS State Event := .ofFn Init step

/-! ## What an answer has to be -/

/-- A datagram that was taken answers one of the queries outstanding then. -/
structure Replies (servers : List Ip) (name : CString) (r : Receipt) : Prop where
  query : ∃ q ∈ r.outstanding, q.name = name ∧ q.server ∈ servers ∧ r.src = q.server ∧
    Asks (message q.packet) (labels name.bytes) dnsTypeA dnsClassIn ∧
    half (message r.bytes) 0 = half (message q.packet) 0
  port : r.port = dnsPort
  responds : Responds (message r.bytes) name

/-- An address that was taken from a response: the response answers a query for the name, and
the record is an A record of the name. -/
def FromRecord (servers : List Ip) (receipts : List Receipt) (a : Answer) : Prop :=
  ∃ r ∈ receipts, r.time ≤ a.time ∧ Replies servers a.name r ∧
    Gives (message r.bytes) a.name a.ip a.ttl

/-- An address that was returned was taken from a response, now or within the record's TTL. -/
def Genuine (s : State) (a : Answer) : Prop :=
  ∃ b ∈ s.answers, b.fresh = true ∧ b.name = a.name ∧ b.ip = a.ip ∧ b.time ≤ a.time ∧
    a.time - b.time < (clampTtl b.ttl).toNat ∧ FromRecord s.servers s.receipts b

/-- A datagram that is taken while a lookup waits is an answer to it, from a server it has asked,
and the first A record is one of the name; while the response is read, none replaces it. -/
def Fits (s : State) (d : Datagram) (l : Lookup) : Phase → Prop
  | .send _ => True
  | .wait _ _ => d.src ∈ l.asked ∧ d.port = dnsPort ∧ Responds (message d.bytes) l.name ∧
      FirstBelongs (message d.bytes) l.name
  | .start => d.src ∈ l.asked ∧ d.port = dnsPort ∧ Responds (message d.bytes) l.name ∧
      FirstBelongs (message d.bytes) l.name
  | .answers _ _ _ => Same s.resp (message d.bytes)

/-- The clock keeps up with the time that passes; the datagrams taken fit; a lookup that is not
answered by the cache has the network for itself, and its name fits into the cache. -/
def Careful (s : State) : Event → Prop
  | .pass seconds clock _ => s.clock.toNat + seconds ≤ clock.toNat
  | .datagram d => takes s d = true → ∀ l ∈ s.lookups, Fits s d l l.phase
  | .resolve name => name.bytes.length ≤ 63 ∧
      (s.lookups = [] ∨ (cacheLookup s.cache s.clock name).isSome = true)
  | .run _ _ => True

/-! ## The invariant -/

/-- A cache entry holds an address as it was taken, for as long as the clock says. -/
def Backed (s : State) (e : CacheEntry) : Prop :=
  e.inUse = true → ∃ a ∈ s.answers, a.fresh = true ∧ a.name = e.name ∧ a.ip = e.ip ∧
    a.time ≤ s.seconds ∧ a.clock.toNat + (s.seconds - a.time) ≤ s.clock.toNat ∧
    e.expiresAt.toNat ≤ a.clock.toNat + (clampTtl a.ttl).toNat

/-- The buffer holds a datagram that was taken and that answers the lookup. -/
structure Holds (s : State) (name : CString) (r : Receipt) : Prop where
  mem : r ∈ s.receipts
  time : r.time ≤ s.seconds
  same : Same s.resp (message r.bytes)
  replies : Replies s.servers name r
  first : FirstBelongs (message r.bytes) name

/-- The answers before offset `p`, of which `k` are left, hold no address. -/
structure Passed (m : Buf) (mn p k : Nat) : Prop where
  mn : mn = m.n
  place : ∃ j, answerAt m j = some p ∧ j + k = ancount m ∧
    ∀ i q, i < j → answer m i = some q → q.isAddress = false

def PhaseOk (s : State) (l : Lookup) : Phase → Prop
  | .send _ => True
  | .wait _ _ => s.haveResp = true → ∃ r, Holds s l.name r
  | .start => ∃ r, Holds s l.name r
  | .answers mn p k => ∃ r, Holds s l.name r ∧ Passed (message r.bytes) mn p k

structure LookupOk (s : State) (l : Lookup) : Prop where
  short : l.name.bytes.length ≤ 63
  packet : queryPacket s.expectingId l.name = some l.packet
  asked : ∀ server ∈ l.asked, server ∈ s.servers
  phase : PhaseOk s l l.phase

structure Inv (s : State) : Prop where
  cache : ∀ e ∈ s.cache, Backed s e
  answers : ∀ a ∈ s.answers, Genuine s a
  fresh : ∀ a ∈ s.answers, a.fresh = true → FromRecord s.servers s.receipts a
  stray : s.stray = false
  one : s.lookups.length ≤ 1
  lookups : ∀ l ∈ s.lookups, LookupOk s l

/-! ## Single steps -/

theorem clampTtl_pos (ttl : UInt32) : 0 < (clampTtl ttl).toNat := by
  unfold clampTtl
  dsimp only
  split
  · split <;> decide
  · rename_i h
    split
    · decide
    · rw [UInt32.lt_iff_toNat_lt, show (30 : UInt32).toNat = 30 from rfl] at h
      omega

variable {s t : State} {name : CString} {ip : Ip} {l : Lookup} {i : Nat}

theorem cacheLookup_backed
    (hc : ∀ e ∈ s.cache, Backed s e) (h : cacheLookup s.cache s.clock name = some ip) :
    ∃ b ∈ s.answers, b.fresh = true ∧ b.name = name ∧ b.ip = ip ∧ b.time ≤ s.seconds ∧
      s.seconds - b.time < (clampTtl b.ttl).toNat := by
  obtain ⟨e, he, rfl⟩ := map_eq_some_iff.mp h
  have hp := List.find?_some he
  simp only [Bool.and_eq_true, Bool.not_eq_true', CacheEntry.expired, decide_eq_false_iff_not,
    nameEq_iff] at hp
  obtain ⟨⟨huse, hexp⟩, hname⟩ := hp
  obtain ⟨a, ha, hf, hn, hip, ht, hclk, hend⟩ := hc e (mem_of_find?_eq_some he) huse
  have hlt : s.clock.toNat < e.expiresAt.toNat := by
    rw [UInt32.le_iff_toNat_le] at hexp
    omega
  have hname' : e.name = name := by
    cases hE : e.name
    cases name
    rw [hE] at hname
    cases hname
    rfl
  exact ⟨a, ha, hf, hn.trans hname', hip, ht, by omega⟩

theorem cacheStore_mem {cache : List CacheEntry} {now ttl : UInt32}
    {e : CacheEntry} (h : e ∈ cacheStore cache now name ip ttl) :
    e ∈ cache ∨ e = ⟨true, name.truncate, ip, now + clampTtl ttl⟩ := by
  unfold cacheStore at h
  split at h
  · exact .inl h
  · exact mem_or_eq_of_mem_set h

theorem FromRecord.grow {servers : List Ip} {rs rs' : List Receipt} {a : Answer}
    (h : FromRecord servers rs a) (hr : ∀ r ∈ rs, r ∈ rs') : FromRecord servers rs' a := by
  obtain ⟨r, hrm, h⟩ := h
  exact ⟨r, hr r hrm, h⟩

theorem Genuine.grow {a : Answer} (h : Genuine s a) (hsv : t.servers = s.servers)
    (ha : ∀ b ∈ s.answers, b ∈ t.answers) (hr : ∀ r ∈ s.receipts, r ∈ t.receipts) :
    Genuine t a := by
  obtain ⟨b, hb, hf, hn, hip, ht, httl, hrec⟩ := h
  exact ⟨b, ha b hb, hf, hn, hip, ht, httl, hsv ▸ hrec.grow hr⟩

theorem Backed.grow {e : CacheEntry} (h : Backed s e)
    (ha : ∀ b ∈ s.answers, b ∈ t.answers) (hs : t.seconds = s.seconds) (hc : t.clock = s.clock) :
    Backed t e := by
  intro hu
  obtain ⟨a, hm, h⟩ := h hu
  rw [hs, hc]
  exact ⟨a, ha a hm, h⟩

theorem LookupOk.keep {s t : State} {l : Lookup} (h : LookupOk s l)
    (hid : t.expectingId = s.expectingId) (hsv : t.servers = s.servers)
    (hresp : t.resp = s.resp) (hhave : t.haveResp = s.haveResp)
    (hrec : t.receipts = s.receipts) (hsec : s.seconds ≤ t.seconds) : LookupOk t l := by
  have hholds : ∀ r, Holds s l.name r → Holds t l.name r := fun r hr =>
    ⟨hrec ▸ hr.mem, hr.time.trans hsec, hresp ▸ hr.same, hsv ▸ hr.replies, hr.first⟩
  refine ⟨h.short, hid ▸ h.packet, hsv ▸ h.asked, ?_⟩
  have hp := h.phase
  cases hph : l.phase with
  | send sx => trivial
  | wait sx waited =>
    rw [hph] at hp
    intro hh
    obtain ⟨r, hr⟩ := hp (hhave ▸ hh)
    exact ⟨r, hholds r hr⟩
  | start =>
    rw [hph] at hp
    obtain ⟨r, hr⟩ := hp
    exact ⟨r, hholds r hr⟩
  | answers mn p k =>
    rw [hph] at hp
    obtain ⟨r, hr, hpass⟩ := hp
    exact ⟨r, hholds r hr, hpass⟩

theorem Inv.frame (h : Inv s) (hcache : t.cache = s.cache)
    (hans : t.answers = s.answers) (hrec : ∀ r ∈ s.receipts, r ∈ t.receipts)
    (hsv : t.servers = s.servers) (hsec : t.seconds = s.seconds) (hclk : t.clock = s.clock)
    (hstray : t.stray = false) (hone : t.lookups.length ≤ 1)
    (hl : ∀ l ∈ t.lookups, LookupOk t l) : Inv t where
  cache e he := (h.cache e (hcache ▸ he)).grow (fun _ hb => hans ▸ hb) hsec hclk
  answers a ha := (h.answers a (hans ▸ ha)).grow hsv (fun _ hb => hans ▸ hb) hrec
  fresh a ha hf := by
    rw [hsv]
    exact (h.fresh a (hans ▸ ha) hf).grow hrec
  stray := hstray
  one := hone
  lookups := hl

theorem Inv.pass {seconds : Nat} {clock ticks : UInt32} (h : Inv s)
    (hc : s.clock.toNat + seconds ≤ clock.toNat) :
    Inv { s with seconds := s.seconds + seconds, clock, ticks } where
  cache e he hu := by
    obtain ⟨a, ha, hf, hn, hip, ht, hclk, hend⟩ := h.cache e he hu
    refine ⟨a, ha, hf, hn, hip, ?_, ?_, hend⟩
    · show a.time ≤ s.seconds + seconds
      omega
    · show a.clock.toNat + (s.seconds + seconds - a.time) ≤ clock.toNat
      omega
  answers a ha := (h.answers a ha).grow rfl (fun _ hb => hb) fun _ hr => hr
  fresh := h.fresh
  stray := h.stray
  one := h.one
  lookups l hl := (h.lookups l hl).keep rfl rfl rfl rfl rfl (Nat.le_add_right _ _)

theorem half_queryPacket {id : UInt16} {pkt : List UInt8}
    (h : queryPacket id name = some pkt) : half (message pkt) 0 = id.toNat := by
  obtain ⟨bs, _, rfl⟩ := map_eq_some_iff.mp h
  have hid := id.toNat_lt
  have hb : queryHdr id ++ bs ++ [0, 1, 0, 1] = [] ++ UInt8.ofNat (id.toNat / 256) ::
      UInt8.ofNat (id.toNat % 256) :: ([1, 0, 0, 1, 0, 0, 0, 0, 0, 0] ++ bs ++ [0, 1, 0, 1]) := by
    simp [queryHdr, be16]
  rw [hb]
  refine (message_half (o := 0) rfl).trans ?_
  rw [UInt8.toNat_ofNat', UInt8.toNat_ofNat']
  omega

theorem copyIn_same (m : Buf) (bs : List UInt8) : Same (copyIn m bs) (message bs) where
  n := rfl
  mem _ hi := if_pos hi

theorem mem_outstanding {server : Ip} (hw : l.phase.waits = true)
    (h : server ∈ l.asked) : (⟨l.name, server, l.packet⟩ : Query) ∈ l.outstanding := by
  unfold Lookup.outstanding
  rw [if_pos hw]
  exact mem_map_of_mem h

theorem Holds.arrived {s : State} {d : Datagram} {l : Lookup} (hl : l ∈ s.lookups)
    (ho : LookupOk s l) (hw : l.phase.waits = true) (ht : takes s d = true)
    (hsrc : d.src ∈ l.asked) (hport : d.port = dnsPort)
    (hresp : Responds (message d.bytes) l.name) (hfirst : FirstBelongs (message d.bytes) l.name) :
    Holds (onDnsReply s d) l.name ⟨d, s.seconds, s.lookups.flatMap Lookup.outstanding⟩ := by
  have heq : onDnsReply s d = { s with
      resp := copyIn s.resp d.bytes
      haveResp := true
      receipts := ⟨d, s.seconds, s.lookups.flatMap Lookup.outstanding⟩ :: s.receipts } := if_pos ht
  rw [heq]
  refine ⟨mem_cons_self, Nat.le_refl _, copyIn_same _ _, ⟨?_, hport, hresp⟩, hfirst⟩
  refine ⟨⟨l.name, d.src, l.packet⟩, ?_, rfl, ho.asked _ hsrc, rfl, queryPacket_asks ho.packet, ?_⟩
  · exact mem_flatMap.mpr ⟨l, hl, mem_outstanding hw hsrc⟩
  · rw [half_queryPacket ho.packet]
    simp only [takes, Bool.and_eq_true, decide_eq_true_eq] at ht
    exact ht.1.2

theorem Inv.datagram {d : Datagram} (h : Inv s)
    (hc : takes s d = true → ∀ l ∈ s.lookups, Fits s d l l.phase) : Inv (onDnsReply s d) := by
  by_cases ht : takes s d = true
  swap
  · have heq : onDnsReply s d = s := if_neg ht
    rw [heq]
    exact h
  have heq : onDnsReply s d = { s with
      resp := copyIn s.resp d.bytes
      haveResp := true
      receipts := ⟨d, s.seconds, s.lookups.flatMap Lookup.outstanding⟩ :: s.receipts } := if_pos ht
  have hlookups : ∀ l ∈ s.lookups, LookupOk (onDnsReply s d) l := by
    intro l hl
    have ho := h.lookups l hl
    have hfit := hc ht l hl
    have harr := @Holds.arrived s d l hl ho
    refine ⟨ho.short, by rw [heq]; exact ho.packet, by rw [heq]; exact ho.asked, ?_⟩
    have hp := ho.phase
    cases hph : l.phase with
    | send sx => trivial
    | wait sx waited =>
      rw [hph] at hfit harr
      exact fun _ => ⟨_, harr rfl ht hfit.1 hfit.2.1 hfit.2.2.1 hfit.2.2.2⟩
    | start =>
      rw [hph] at hfit harr
      exact ⟨_, harr rfl ht hfit.1 hfit.2.1 hfit.2.2.1 hfit.2.2.2⟩
    | answers mn p k =>
      -- the same bytes again: the buffer still holds the datagram that is being read
      rw [hph] at hfit hp
      obtain ⟨r, hr, hpass⟩ := hp
      have hsame : Same (copyIn s.resp d.bytes) (message r.bytes) :=
        (copyIn_same _ _).trans (hfit.symm.trans hr.same)
      rw [heq]
      exact ⟨r, ⟨mem_cons_of_mem _ hr.mem, hr.time, hsame, hr.replies, hr.first⟩, hpass⟩
  refine h.frame (by rw [heq]) (by rw [heq]) ?_ (by rw [heq]) (by rw [heq]) (by rw [heq])
    (by rw [heq]; exact h.stray) (by rw [heq]; exact h.one) ?_
  · rw [heq]
    exact fun r hr => mem_cons_of_mem _ hr
  · intro l hl
    exact hlookups l (by rw [heq] at hl; exact hl)

theorem Inv.resolve (h : Inv s) (hshort : name.bytes.length ≤ 63)
    (hone : s.lookups = [] ∨ (cacheLookup s.cache s.clock name).isSome = true) :
    Inv (dnsResolve s name) := by
  unfold dnsResolve
  cases hc : cacheLookup s.cache s.clock name with
  | some ip =>
    obtain ⟨b, hb, hf, hn, hip, ht, httl⟩ := cacheLookup_backed h.cache hc
    refine ⟨?_, ?_, ?_, h.stray, h.one, ?_⟩
    · exact fun e he => (h.cache e he).grow (fun _ hb => mem_cons_of_mem _ hb) rfl rfl
    · intro a ha
      rcases mem_cons.mp ha with rfl | ha
      · exact ⟨b, mem_cons_of_mem _ hb, hf, hn, hip, ht, httl, h.fresh b hb hf⟩
      · exact (h.answers a ha).grow rfl (fun _ hb => mem_cons_of_mem _ hb) fun _ hr => hr
    · intro a ha hfr
      rcases mem_cons.mp ha with rfl | ha
      · cases hfr
      · exact h.fresh a ha hfr
    · exact fun l hl => (h.lookups l hl).keep rfl rfl rfl rfl rfl (Nat.le_refl _)
  | none =>
    rw [hc] at hone
    have hnil : s.lookups = [] := hone.resolve_right (by simp)
    by_cases hsv : s.servers = []
    · rw [if_pos hsv]
      exact h
    rw [if_neg hsv]
    cases hq : queryPacket (nextId s.ticks) name with
    | none =>
      refine h.frame rfl rfl (fun _ hr => hr) rfl rfl rfl h.stray h.one ?_
      intro l hl
      rw [show s.lookups = [] from hnil] at hl
      cases hl
    | some packet =>
      refine h.frame rfl rfl (fun _ hr => hr) rfl rfl rfl h.stray ?_ ?_
      · rw [hnil]
        exact Nat.le_refl _
      · intro l hl
        rw [show s.lookups = [] from hnil] at hl
        obtain rfl := mem_singleton.mp hl
        exact ⟨hshort, hq, fun _ h => (not_mem_nil h).elim, trivial⟩

/-! ## The steps of a lookup -/

theorem Inv.only (h : Inv s) (hl : s.lookups[i]? = some l) :
    i = 0 ∧ s.lookups = [l] := by
  have hone := h.one
  have hi := (List.getElem?_eq_some_iff.mp hl).1
  obtain rfl : i = 0 := by omega
  refine ⟨rfl, ?_⟩
  cases hs : s.lookups with
  | nil => rw [hs] at hl; cases hl
  | cons a as =>
    rw [hs] at hl hone
    obtain rfl := Option.some.inj hl
    obtain rfl := length_eq_zero_iff.mp (Nat.le_zero.mp (Nat.le_of_succ_le_succ hone))
    rfl

theorem Inv.giveUp (h : Inv s)
    (hl : s.lookups[i]? = some l) : Inv (giveUp s i) := by
  obtain ⟨rfl, hone⟩ := h.only hl
  refine h.frame rfl rfl (fun _ hr => hr) rfl rfl rfl h.stray ?_ ?_
  · show (s.lookups.eraseIdx 0).length ≤ 1
    rw [hone]
    exact Nat.zero_le _
  · intro k hk
    have hk' : k ∈ s.lookups.eraseIdx 0 := hk
    rw [hone] at hk'
    cases hk'

theorem Inv.setPhase {l' : Lookup} {phase : Phase} (h : Inv s)
    (hl : s.lookups[i]? = some l) (hcache : t.cache = s.cache) (hans : t.answers = s.answers)
    (hrec : t.receipts = s.receipts) (hsv : t.servers = s.servers) (hsec : t.seconds = s.seconds)
    (hclk : t.clock = s.clock) (hstray : t.stray = s.stray) (hls : t.lookups = s.lookups)
    (hok : LookupOk t { l' with phase }) : Inv (setPhase t i l' phase) := by
  obtain ⟨rfl, hone⟩ := h.only hl
  have hset : t.lookups.set 0 { l' with phase } = [{ l' with phase }] := by
    rw [hls, hone]
    rfl
  refine h.frame hcache hans (fun r hr => hrec ▸ hr) hsv hsec hclk (hstray.trans h.stray) ?_ ?_
  · show (t.lookups.set 0 { l' with phase }).length ≤ 1
    rw [hset]
    exact Nat.le_refl _
  · intro k hk
    have hk' : k ∈ t.lookups.set 0 { l' with phase } := hk
    rw [hset] at hk'
    obtain rfl := mem_singleton.mp hk'
    exact hok.keep rfl rfl rfl rfl rfl (Nat.le_refl _)

theorem Inv.trySend {sx : Nat} {sent : Bool} (h : Inv s)
    (hl : s.lookups[i]? = some l) : Inv (trySend s i l sx sent) := by
  have ho := h.lookups l (mem_of_getElem? hl)
  unfold Resolver.trySend
  cases hsv : s.servers[sx]? with
  | none => exact h.giveUp hl
  | some server =>
    dsimp only
    cases sent with
    | true =>
      rw [if_pos rfl]
      refine h.setPhase hl rfl rfl rfl rfl rfl rfl rfl rfl ⟨ho.short, ho.packet, ?_, ?_⟩
      · intro a ha
        rcases mem_cons.mp ha with rfl | ha
        · exact mem_of_getElem? hsv
        · exact ho.asked a ha
      · exact fun hh => nomatch hh
    | false =>
      rw [if_neg Bool.false_ne_true]
      exact h.setPhase hl rfl rfl rfl rfl rfl rfl rfl rfl ⟨ho.short, ho.packet, ho.asked, trivial⟩

theorem Inv.waitTurn {sx waited : Nat} (h : Inv s)
    (hl : s.lookups[i]? = some l) (hph : l.phase = .wait sx waited) :
    Inv (waitTurn s i l sx waited) := by
  have ho := h.lookups l (mem_of_getElem? hl)
  have hp := ho.phase
  rw [hph] at hp
  unfold Resolver.waitTurn
  split
  · rename_i hh
    exact h.setPhase hl rfl rfl rfl rfl rfl rfl rfl rfl ⟨ho.short, ho.packet, ho.asked, hp hh⟩
  · split
    · exact h.setPhase hl rfl rfl rfl rfl rfl rfl rfl rfl ⟨ho.short, ho.packet, ho.asked, hp⟩
    · exact h.setPhase hl rfl rfl rfl rfl rfl rfl rfl rfl ⟨ho.short, ho.packet, ho.asked, trivial⟩

theorem Inv.noteReads {safe : Bool} (h : Inv s) (hs : safe = true) :
    Inv (noteReads s safe) := by
  subst hs
  have heq : Resolver.noteReads s true = s := by
    unfold Resolver.noteReads
    simp
  rw [heq]
  exact h

theorem Inv.startTurn (h : Inv s)
    (hl : s.lookups[i]? = some l) (hph : l.phase = .start) : Inv (startTurn s i l) := by
  have ho := h.lookups l (mem_of_getElem? hl)
  have hp := ho.phase
  rw [hph] at hp
  obtain ⟨r, hr⟩ := hp
  have hok := parseStart_ok (m := s.resp)
  unfold Resolver.startTurn
  dsimp only
  cases hv : (parseStart s.resp s.resp.n).run.val with
  | none => exact (h.giveUp hl).noteReads hok.1
  | some start =>
    obtain ⟨hend, hcount, hhdr⟩ := hok.2 start hv
    unfold dnsHdrSize at hhdr
    refine Inv.noteReads ?_ hok.1
    refine h.setPhase hl rfl rfl rfl rfl rfl rfl rfl rfl ⟨ho.short, ho.packet, ho.asked, r, hr, ?_⟩
    refine ⟨hr.same.n, 0, ?_, ?_, fun i q hi => (Nat.not_lt_zero i hi).elim⟩
    · show questionEnd (message r.bytes) = some start.1
      rw [← hr.same.questionEnd]
      exact hend
    · rw [Nat.zero_add, hcount]
      exact hr.same.half (by omega)

theorem Inv.deliver {r : Receipt} {ttl : UInt32}
    (h : Inv s) (hl : s.lookups[i]? = some l) (hr : Holds s l.name r)
    (hg : Gives (message r.bytes) l.name ip ttl) : Inv (deliver s i l.name ip ttl) := by
  obtain ⟨rfl, hone⟩ := h.only hl
  have ho := h.lookups l (mem_of_getElem? hl)
  have hfrom : FromRecord s.servers s.receipts ⟨l.name, ip, ttl, s.seconds, s.clock, true⟩ :=
    ⟨r, hr.mem, hr.time, hr.replies, hg⟩
  have herase : (Resolver.deliver s 0 l.name ip ttl).lookups = [] := by
    show s.lookups.eraseIdx 0 = []
    rw [hone]
    rfl
  refine ⟨?_, ?_, ?_, h.stray, ?_, ?_⟩
  · intro e he
    rcases cacheStore_mem he with he | rfl
    · exact (h.cache e he).grow (fun _ hb => mem_cons_of_mem _ hb) rfl rfl
    · refine fun _ => ⟨_, mem_cons_self, rfl, (CString.truncate_eq ho.short).symm, rfl,
        Nat.le_refl _, ?_, ?_⟩
      · show s.clock.toNat + (s.seconds - s.seconds) ≤ s.clock.toNat
        omega
      · rw [UInt32.toNat_add]
        exact Nat.mod_le _ _
  · intro a ha
    rcases mem_cons.mp ha with rfl | ha
    · refine ⟨_, mem_cons_self, rfl, rfl, rfl, Nat.le_refl _, ?_, hfrom⟩
      show s.seconds - s.seconds < _
      rw [Nat.sub_self]
      exact clampTtl_pos ttl
    · exact (h.answers a ha).grow rfl (fun _ hb => mem_cons_of_mem _ hb) fun _ hr => hr
  · intro a ha hf
    rcases mem_cons.mp ha with rfl | ha
    · exact hfrom
    · exact h.fresh a ha hf
  · rw [herase]
    exact Nat.zero_le _
  · intro k hk
    rw [herase] at hk
    cases hk

theorem Inv.answerTurn {mn p k : Nat} (h : Inv s)
    (hl : s.lookups[i]? = some l) (hph : l.phase = .answers mn p k) :
    Inv (answerTurn s i l mn p k) := by
  have ho := h.lookups l (mem_of_getElem? hl)
  have hp := ho.phase
  rw [hph] at hp
  obtain ⟨r, hr, hmn, j, hj, hcount, hbefore⟩ := hp
  cases k with
  | zero => exact h.giveUp hl
  | succ k =>
    obtain rfl : mn = s.resp.n := hmn.trans hr.same.n.symm
    have hok := answerStep_ok (m := s.resp) (p := p)
    unfold Resolver.answerTurn
    dsimp only
    cases hv : (answerStep s.resp s.resp.n p).run.val with
    | none => exact (h.giveUp hl).noteReads hok.1
    | some w =>
      obtain ⟨q, hq, rfl⟩ := hok.2 w hv
      have hq' : recordAt (message r.bytes) p = some q := by rw [← hr.same.recordAt, hq]
      have hans : answer (message r.bytes) j = some q := by
        unfold answer
        rw [hj]
        exact hq'
      rw [hr.same.walked hq]
      unfold Record.walked
      by_cases ha : q.isAddress = true
      · rw [if_pos ha]
        have hbelongs := hr.first j q (by omega) hans ha hbefore
        exact (h.deliver hl hr ⟨j, q, by omega, hans, ha, hbelongs, rfl, rfl⟩).noteReads hok.1
      · rw [if_neg ha]
        refine Inv.noteReads ?_ hok.1
        refine h.setPhase hl rfl rfl rfl rfl rfl rfl rfl rfl
          ⟨ho.short, ho.packet, ho.asked, r, hr, ?_⟩
        refine ⟨hmn, j + 1, ?_, by omega, ?_⟩
        · show ((answerAt (message r.bytes) j).bind fun p =>
            (recordAt (message r.bytes) p).map fun r => r.rdata + r.rdlen) = _
          rw [hj, bind_some, hq']
          rfl
        · intro i q' hi hq'
          rcases Nat.lt_succ_iff_lt_or_eq.mp hi with hi | rfl
          · exact hbefore i q' hi hq'
          · rw [hans] at hq'
            obtain rfl := Option.some.inj hq'
            exact Bool.not_eq_true _ ▸ ha

theorem Inv.runTurn {sent : Bool} (h : Inv s)
    (hl : s.lookups[i]? = some l) : Inv (runTurn s i l sent) := by
  unfold Resolver.runTurn
  split
  · exact h.trySend hl
  · rename_i hph
    exact h.waitTurn hl hph
  · rename_i hph
    exact h.startTurn hl hph
  · rename_i hph
    exact h.answerTurn hl hph

/-! ## Runs -/

theorem inv_init (h : Init s) : Inv s := by
  obtain ⟨hcache, _, _, hl, _, ha, hstray⟩ := h
  refine ⟨fun e he hu => ?_, fun a h => ?_, fun a h => ?_, hstray, ?_, fun l h => ?_⟩
  · rw [hcache e he] at hu
    cases hu
  · rw [ha] at h
    cases h
  · rw [ha] at h
    cases h
  · rw [hl]
    exact Nat.zero_le _
  · rw [hl] at h
    cases h

theorem inv_step {e : Event} (h : Inv s) (hc : Careful s e)
    (hs : step s e = some t) : Inv t := by
  cases e with
  | pass seconds clock ticks =>
    obtain rfl := Option.some.inj hs
    exact h.pass hc
  | datagram d =>
    obtain rfl := Option.some.inj hs
    exact h.datagram hc
  | resolve name =>
    obtain rfl := Option.some.inj hs
    exact h.resolve hc.1 hc.2
  | run i sent =>
    obtain ⟨l, hl, rfl⟩ := map_eq_some_iff.mp hs
    exact h.runTurn hl

theorem inv_inductive : (resolver.restrict Careful).Inductive Inv where
  init _ h := inv_init h
  step _ _ _ h hs := inv_step h hs.1 hs.2

/-- In a run in which the datagrams taken fit, lookups do not overlap and the clock
is not set back, every address that is returned for a name is genuine, and the parser reads only
inside the datagram. The parser does so on every datagram that nobody replaces, and ends. -/
theorem answers_genuine (s : State) (hs : (resolver.restrict Careful).Reachable s) :
    ((∀ a ∈ s.answers, Genuine s a) ∧ s.stray = false) ∧
    (∀ m : Buf, (parseResponse m).run.safe = true) ∧
    ∀ (m : Buf) (mn start fuel : Nat), mn - start ≤ fuel →
      skipLoop m mn start fuel start = skipName m mn start := by
  have h := inv_inductive.reachable s hs
  refine ⟨⟨h.answers, h.stray⟩, fun m => parseResponse_ok.1, fun m mn start fuel hf => ?_⟩
  exact skipLoop_enough hf (Nat.le_refl _)

/-! ## Two replies to one query -/

def host : CString := .ofBytes [97]

def nameServer : Ip := ⟨10, 0, 2, 3⟩

/-- One server is configured, and nothing has happened yet. -/
def booted : State where
  servers := [nameServer]
  cache := List.replicate 16 ⟨false, .ofBytes [], ⟨0, 0, 0, 0⟩, 0⟩
  haveResp := false
  resp := ⟨fun _ => 0, 0⟩
  expectingId := 0
  listening := false
  clock := 1000
  ticks := 7
  lookups := []
  seconds := 0
  receipts := []
  answers := []
  stray := false

theorem booted_init : Init booted := by
  refine ⟨?_, rfl, rfl, rfl, rfl, rfl, rfl⟩
  intro e he
  rw [eq_of_mem_replicate he]

/-- A reply with the id of the query that asks for the addresses of `a`, and one A record. -/
def replyBytes : List UInt8 :=
  [0, 7, 0x81, 0x80, 0, 1, 0, 1, 0, 0, 0, 0, 1, 97, 0, 0, 1, 0, 1,
    0xC0, 12, 0, 1, 0, 1, 0, 0, 0, 60, 0, 4, 9, 9, 9, 9]

def reply : Datagram := ⟨nameServer, 53, replyBytes⟩

/-- The same from elsewhere. -/
def forged : Datagram := ⟨⟨6, 6, 6, 6⟩, 1234, replyBytes⟩

def after (s : State) (e : Event) : State := (step s e).getD s

theorem step_after {e : Event} (h : (step s e).isSome = true) :
    step s e = some (after s e) := by
  unfold after
  cases hs : step s e with
  | none => rw [hs] at h; cases h
  | some t => rfl

/-- The query is sent, and the lookup waits. -/
def waiting : State := after (after booted (.resolve host)) (.run 0 true)

/-- The lookup leaves the waiting loop, finds the answer section and takes the address. -/
def finished (s : State) : State :=
  after (after (after s (.run 0 true)) (.run 0 true)) (.run 0 true)

theorem reply_answer : answer (message replyBytes) 0 = some ⟨19, 1, 1, 60, 31, 4⟩ := by
  decide +kernel

theorem reply_question : NameAt (message replyBytes) 12 [[97]] 15 :=
  .label (by decide) (by decide) (by decide) (.root (by decide) (by decide))

theorem reply_fits (l : Lookup) (hl : l ∈ waiting.lookups) : Fits waiting reply l l.phase := by
  have hone : waiting.lookups =
      [⟨host, queryHdr 7 ++ [1, 97, 0] ++ [0, 1, 0, 1], .wait 0 0, [nameServer]⟩] := by rfl
  rw [hone] at hl
  obtain rfl := mem_singleton.mp hl
  refine ⟨mem_singleton.mpr rfl, rfl,
    ⟨by decide, [[97]], ⟨15, reply_question, by decide, rfl, rfl⟩, rfl⟩, ?_⟩
  intro k r hk hr _ _
  have hcount : ancount (message replyBytes) = 1 := by decide
  have hk' : k < ancount (message replyBytes) := hk
  obtain rfl : k = 0 := by omega
  obtain rfl := Option.some.inj (reply_answer.symm.trans hr)
  exact ⟨rfl, [[97]], 21, [[97]],
    .pointer (by decide) (by decide) (by decide) reply_question, rfl, .self⟩

theorem careful_after (e : Event) (h : (resolver.restrict Careful).Reachable s)
    (hc : Careful s e) (hs : (step s e).isSome = true) :
    (resolver.restrict Careful).Reachable (after s e) :=
  h.step ⟨hc, step_after hs⟩

theorem reachable_after (e : Event) (h : resolver.Reachable s)
    (hs : (step s e).isSome = true) : resolver.Reachable (after s e) :=
  h.step (step_after hs)

theorem waiting_reachable : (resolver.restrict Careful).Reachable waiting := by
  have h := careful_after (.resolve host) (.init booted_init) ⟨by decide, .inl rfl⟩ rfl
  exact careful_after (.run 0 true) h trivial rfl

theorem finished_reachable :
    (resolver.restrict Careful).Reachable (finished (after waiting (.datagram reply))) := by
  have h := careful_after (.datagram reply) waiting_reachable (fun _ => reply_fits) rfl
  have h1 := careful_after (.run 0 true) h trivial rfl
  have h2 := careful_after (.run 0 true) h1 trivial rfl
  exact careful_after (.run 0 true) h2 trivial rfl

theorem fitting_reply_genuine :
    Genuine (finished (after waiting (.datagram reply))) ⟨host, ⟨9, 9, 9, 9⟩, 60, 0, 1000, true⟩ :=
  (answers_genuine _ finished_reachable).1.1 _ (mem_singleton.mpr rfl)

/-- A datagram from anybody's port and address, with the id right, becomes the answer. -/
theorem stranger_answers :
    ¬ ∀ s, resolver.Reachable s → ∀ a ∈ s.answers, Genuine s a := by
  intro h
  have h0 := reachable_after (.datagram forged) waiting_reachable.of_restrict rfl
  have h1 := reachable_after (.run 0 true) h0 rfl
  have h2 := reachable_after (.run 0 true) h1 rfl
  have h3 := reachable_after (.run 0 true) h2 rfl
  obtain ⟨b, hb, _, _, _, _, _, r, hr, _, hrep, _⟩ :=
    h _ h3 ⟨host, ⟨9, 9, 9, 9⟩, 60, 0, 1000, true⟩ (mem_singleton.mpr rfl)
  have hport : r.port = 1234 := by
    have hr' : r ∈ (finished (after waiting (.datagram forged))).receipts := hr
    obtain rfl := mem_singleton.mp hr'
    rfl
  exact absurd (hport.symm.trans hrep.port) (by decide)

end AdventOS.Net.Resolver
