import AdventOS.Core.Replay
import AdventOS.Net.Ip

/-!
# ARP (`kernel/arp.c`)

Hosts on one segment. Each learns the sender of every ARP packet it hears and answers requests for
its own address. What was sent may be heard by any host, in any order, again and again or never.

* `lookups_true`: no host learns a wrong hardware address.
-/
namespace AdventOS.Net.Arp
open Function List Ipv4
open Tcp (Ip)

structure Mac where
  (b0 b1 b2 b3 b4 b5 : UInt8)

structure Host where
  ip : Ip
  mac : Mac

/-! ## The cache -/

/-- An entry that is not `used` is `none`. arp.c:8-14 -/
abbrev Cache := Fin 16 → Option (Ip × Mac)

def holds (c : Cache) (ip : Ip) (i : Fin 16) : Bool := (c i).any (·.1 = ip)

/-- The entry of the address, else the first free one, else the first. arp.c:21-46 -/
def arpCacheInsert (c : Cache) (ip : Ip) (mac : Mac) : Cache :=
  let i := ((finRange 16).find? (holds c ip)).getD
    (((finRange 16).find? fun i => (c i).isNone).getD 0)
  update c i (some (ip, mac))

/-- arp.c:48-60 -/
def arpLookup (c : Cache) (ip : Ip) : Option Mac :=
  ((finRange 16).find? (holds c ip)).bind fun i => (c i).map (·.2)

theorem arpLookup_some (h : arpLookup c ip = some mac) : ∃ i, c i = some (ip, mac) := by
  obtain ⟨i, hf, hm⟩ := Option.bind_eq_some_iff.mp h
  obtain ⟨e, hc, rfl⟩ := Option.map_eq_some_iff.mp hm
  have hip := find?_some hf
  rw [holds, hc] at hip
  exact ⟨i, hc.trans (by rw [← of_decide_eq_true hip])⟩

/-! ## Packets -/

def macAt (bs : List UInt8) (o : Nat) : Mac :=
  ⟨bs.getD o 0, bs.getD (o + 1) 0, bs.getD (o + 2) 0, bs.getD (o + 3) 0, bs.getD (o + 4) 0,
    bs.getD (o + 5) 0⟩

/-- Ethernet and IPv4, with their lengths, the operation and the four addresses. -/
def arpPkt (my : Host) (op : UInt8) (mac : Mac) (ip : Ip) : List UInt8 :=
  let addresses (m : Mac) (a : Ip) := [m.b0, m.b1, m.b2, m.b3, m.b4, m.b5, a.b0, a.b1, a.b2, a.b3]
  [0, 1, 8, 0, 6, 4, 0, op] ++ addresses my.mac my.ip ++ addresses mac ip

/-- arp.c:62-77 -/
def arpSendRequest (my : Host) (target : Ip) : List UInt8 := arpPkt my 1 ⟨0, 0, 0, 0, 0, 0⟩ target

/-- arp.c:79-93 -/
def arpSendReply (my : Host) (mac : Mac) (ip : Ip) : List UInt8 := arpPkt my 2 mac ip

/-- The cache and the reply. arp.c:95-118 -/
def arpRx (my : Host) (c : Cache) (p : List UInt8) : Cache × Option (List UInt8) :=
  if p.length < 28 ∨ u16At p 0 ≠ 1 ∨ u16At p 2 ≠ 0x0800 then (c, none)
  else
    (arpCacheInsert c (ipAt p 14) (macAt p 8),
      if u16At p 6 = 1 ∧ ipAt p 24 = my.ip then some (arpSendReply my (macAt p 8) (ipAt p 14))
      else none)

theorem arpRx_cache (h : (arpRx my c p).1 i = some e) :
    c i = some e ∨ e = (ipAt p 14, macAt p 8) := by
  unfold arpRx at h
  split at h
  · exact .inl h
  · unfold arpCacheInsert at h
    simp only [update_apply] at h
    split at h
    · exact .inr (Option.some.inj h).symm
    · exact .inl h

theorem arpRx_reply (h : (arpRx my c p).2 = some r) : ipAt r 14 = my.ip ∧ macAt r 8 = my.mac := by
  unfold arpRx at h
  split at h
  · cases h
  · rw [Option.ite_none_right_eq_some] at h
    rw [← Option.some.inj h.2]
    exact ⟨rfl, rfl⟩

/-! ## The segment -/

/-- `wire` is everything that was sent. -/
structure Lan (H : Type) where
  caches : H → Cache
  wire : List (List UInt8)

inductive Lbl (H : Type)
  | request (h : H) (target : Ip)
  | hear (h : H) (p : List UInt8)

variable {H : Type} [DecidableEq H] (hosts : H → Host)

def step (s : Lan H) : Lbl H → Option (Lan H)
  | .request h target => some { s with wire := arpSendRequest (hosts h) target :: s.wire }
  | .hear h p =>
    if p ∈ s.wire then
      let r := arpRx (hosts h) (s.caches h) p
      some ⟨update s.caches h r.1, r.2.toList ++ s.wire⟩
    else none

def lan : LTS (Lan H) (Lbl H) :=
  .ofFn (fun s => s = ⟨fun _ _ => none, []⟩) (step hosts)

/-- Every packet is from the host that it names, and every entry is a host's. -/
structure Inv (s : Lan H) : Prop where
  wire : ∀ p ∈ s.wire, ∃ g, ipAt p 14 = (hosts g).ip ∧ macAt p 8 = (hosts g).mac
  caches : ∀ h i e, s.caches h i = some e → ∃ g, e = ((hosts g).ip, (hosts g).mac)

theorem inv_inductive : (lan hosts).Inductive (Inv hosts) where
  init := by
    rintro s rfl
    exact ⟨fun p hp => absurd hp not_mem_nil, fun h i e he => by cases he⟩
  step := by
    intro s l s' hi hs
    cases l with
    | request h target =>
      cases hs
      refine ⟨fun p hp => ?_, hi.caches⟩
      rcases mem_cons.mp hp with rfl | hp
      · exact ⟨h, rfl, rfl⟩
      · exact hi.wire p hp
    | hear h p =>
      obtain ⟨hp, hs⟩ := Option.ite_none_right_eq_some.mp (show step hosts s _ = _ from hs)
      obtain rfl := Option.some.inj hs
      refine ⟨fun q hq => ?_, fun g i e he => ?_⟩
      · rcases mem_append.mp hq with hq | hq
        · exact ⟨h, arpRx_reply (Option.mem_toList.mp hq)⟩
        · exact hi.wire q hq
      · simp only [update_apply] at he
        split at he
        · rcases arpRx_cache he with hc | rfl
          · exact hi.caches h i e hc
          · obtain ⟨g', hip, hmac⟩ := hi.wire p hp
            exact ⟨g', by rw [hip, hmac]⟩
        · exact hi.caches g i e he

/-- Whatever was sent and heard, a lookup gives the address of the host with that IP
address. -/
theorem lookups_true (h : (lan hosts).Reachable s) (g : H) (ip : Ip) (mac : Mac)
    (hl : arpLookup (s.caches g) ip = some mac) : ∃ g', hosts g' = ⟨ip, mac⟩ := by
  obtain ⟨i, hi⟩ := arpLookup_some hl
  obtain ⟨g', he⟩ := ((inv_inductive hosts).reachable s h).caches g i _ hi
  cases he
  exact ⟨g', rfl⟩

def two (g : Bool) : Host :=
  if g then ⟨⟨10, 0, 0, 1⟩, ⟨2, 0, 0, 0, 0, 1⟩⟩ else ⟨⟨10, 0, 0, 2⟩, ⟨2, 0, 0, 0, 0, 2⟩⟩

/-- One host asks, the other answers. -/
theorem answer_true : ∃ s : Lan Bool, arpLookup (s.caches true) (two false).ip = some (two false).mac ∧
    ∃ g, two g = ⟨(two false).ip, (two false).mac⟩ := by
  let s := LTS.replay (step two) ⟨fun _ _ => none, []⟩ [.request true (two false).ip,
    .hear false (arpSendRequest (two true) (two false).ip),
    .hear true (arpSendReply (two false) (two true).mac (two true).ip)]
  have h : (lan two).Reachable s := LTS.Reachable.replay _ (.init rfl) (by decide)
  have hl : arpLookup (s.caches true) (two false).ip = some (two false).mac := by rfl
  exact ⟨s, hl, lookups_true two h true _ _ hl⟩

end AdventOS.Net.Arp
