import Mathlib
import AdventOS.Net.Tcp

/-!
# IPv4 input and output (`kernel/ip.c`, `kernel/eth.c`)

A received frame is a list of bytes, and what `ip_rx` passes on is an offset in it and a length.
Lengths are subtracted modulo 2^32; TCP and UDP take the result as an `int`.

* `ethRx_slices_iff`.
-/
namespace AdventOS.Net.Ipv4
open Tcp (Ip)

/-! ## Input -/

def u8At (bs : List UInt8) (o : Nat) : Nat := (bs.getD o 0).toNat

/-- `ntohs` of the half-word at `o`. -/
def u16At (bs : List UInt8) (o : Nat) : Nat := 256 * u8At bs o + u8At bs (o + 1)

def ipAt (bs : List UInt8) (o : Nat) : Ip :=
  ⟨bs.getD o 0, bs.getD (o + 1) 0, bs.getD (o + 2) 0, bs.getD (o + 3) 0⟩

/-- `sizeof(struct eth_hdr)` -/
def ethHdrSize : Nat := 14

/-- `sizeof(struct ip_hdr)` -/
def ipHdrSize : Nat := 20

def ethTypeArp : Nat := 0x0806

def ethTypeIpv4 : Nat := 0x0800

inductive Proto
  | icmp
  | tcp
  | udp
  deriving DecidableEq, Repr

/-- The cases of the `switch` in ip.c:154-170 -/
def protoOf (n : Nat) : Option Proto :=
  if n = 1 then some .icmp else if n = 6 then some .tcp else if n = 17 then some .udp else none

/-- ip.c:12-15 -/
def isIpBroadcast (ip : Ip) : Bool := ip = ⟨255, 255, 255, 255⟩

/-- ip.c:17-19 -/
def weHaveIp (my : Ip) : Bool := my ≠ ⟨0, 0, 0, 0⟩

/-- `(int)n` of a `uint32_t`. -/
def asInt (n : Nat) : Int := if n < 2 ^ 31 then n else n - 2 ^ 32

/-- What becomes of a frame: nobody sees it, ARP does, or a protocol gets the bytes from `off`
on, `len` of them. -/
inductive Rx
  | drop
  | arp (off len : Nat)
  | pass (proto : Proto) (off : Nat) (len : Int)
  deriving DecidableEq, Repr

/-- The length as the protocol's parameter type has it: `uint32_t` for ICMP, else `int`. -/
def lengthFor (proto : Proto) (blen : Nat) : Int :=
  match proto with
  | .icmp => blen
  | .tcp => asInt blen
  | .udp => asInt blen

/-- ip.c:127-171 for the payload of a frame, of which it starts at `base`. -/
def ipRx (my : Ip) (base : Nat) (payload : List UInt8) : Rx :=
  if payload.length < ipHdrSize then .drop
  else if u8At payload 0 / 16 ≠ 4 then .drop
  else
    let ihl := u8At payload 0 % 16 * 4
    if ihl < ipHdrSize then .drop
    else if u16At payload 2 > payload.length then .drop
    else
      let dst := ipAt payload 16
      let isBcast := isIpBroadcast dst
      let matchesUs := weHaveIp my && dst = my
      if !matchesUs && !isBcast && weHaveIp my then .drop
      else
        let blen := (u16At payload 2 + 2 ^ 32 - ihl) % 2 ^ 32
        match protoOf (u8At payload 9) with
        | none => .drop
        | some proto => .pass proto (base + ihl) (lengthFor proto blen)

/-- eth.c:9-21 -/
def ethRx (my : Ip) (frame : List UInt8) : Rx :=
  if frame.length < ethHdrSize then .drop
  else
    let plen := frame.length - ethHdrSize
    if u16At frame 12 = ethTypeArp then .arp ethHdrSize plen
    else if u16At frame 12 = ethTypeIpv4 then ipRx my ethHdrSize (frame.drop ethHdrSize)
    else .drop

/-! ## What input has to do -/

/-- The fields of an IPv4 header that say where things are, in a frame of `ETH_TYPE_IPV4`. -/
structure Consistent (payload : List UInt8) : Prop where
  header : ipHdrSize ≤ payload.length
  version : u8At payload 0 / 16 = 4
  ihl : ipHdrSize ≤ u8At payload 0 % 16 * 4
  total : u8At payload 0 % 16 * 4 ≤ u16At payload 2
  received : u16At payload 2 ≤ payload.length

/-- A slice that is passed on lies in the frame and starts after the header, options included;
a frame with an inconsistent header is dropped. -/
structure Slices (my : Ip) (frame : List UInt8) : Prop where
  inside : ∀ proto off len, ethRx my frame = .pass proto off len →
    off = ethHdrSize + u8At frame ethHdrSize % 16 * 4 ∧ 0 ≤ len ∧ off + len ≤ frame.length
  dropped : ethHdrSize ≤ frame.length → u16At frame 12 = ethTypeIpv4 →
    ¬ Consistent (frame.drop ethHdrSize) → ethRx my frame = .drop

/-- The tests before the `switch`, and the protocols of its cases. -/
structure Accepted (my : Ip) (frame : List UInt8) : Prop where
  framed : ethHdrSize + ipHdrSize ≤ frame.length
  ethertype : u16At frame 12 = ethTypeIpv4
  version : u8At frame 14 / 16 = 4
  ihl : ipHdrSize ≤ u8At frame 14 % 16 * 4
  total : u16At frame 16 ≤ frame.length - ethHdrSize
  dst : weHaveIp my = true → ipAt frame 30 = my ∨ isIpBroadcast (ipAt frame 30) = true
  proto : (protoOf (u8At frame 23)).isSome

theorem u8At_drop (bs : List UInt8) (n o : Nat) : u8At (bs.drop n) o = u8At bs (n + o) := by
  unfold u8At
  rw [List.getD_eq_getElem?_getD, List.getElem?_drop, List.getD_eq_getElem?_getD]

theorem u16At_drop (bs : List UInt8) (n o : Nat) : u16At (bs.drop n) o = u16At bs (n + o) := by
  unfold u16At
  rw [u8At_drop, u8At_drop, add_assoc]

theorem ipAt_drop (bs : List UInt8) (n o : Nat) : ipAt (bs.drop n) o = ipAt bs (n + o) := by
  unfold ipAt
  simp [add_assoc]

theorem payload_fields (frame : List UInt8) : (frame.drop ethHdrSize).length = frame.length - 14 ∧
      u8At (frame.drop ethHdrSize) 0 = u8At frame 14 ∧
      u16At (frame.drop ethHdrSize) 2 = u16At frame 16 ∧
      u8At (frame.drop ethHdrSize) 9 = u8At frame 23 ∧
      ipAt (frame.drop ethHdrSize) 16 = ipAt frame 30 :=
  ⟨List.length_drop, u8At_drop frame 14 0, u16At_drop frame 14 2, u8At_drop frame 14 9,
    ipAt_drop frame 14 16⟩

theorem u8At_lt (bs : List UInt8) (o : Nat) : u8At bs o < 256 := (bs.getD o 0).toNat_lt

theorem u16At_lt (bs : List UInt8) (o : Nat) : u16At bs o < 65536 := by
  have h1 := u8At_lt bs o
  have h2 := u8At_lt bs (o + 1)
  unfold u16At
  omega

/-- The address test of ip.c:139-144, the other way round. -/
theorem notForUs_iff {my dst : Ip} :
    (!(weHaveIp my && dst = my) && !isIpBroadcast dst && weHaveIp my) = false ↔
      (weHaveIp my = true → dst = my ∨ isIpBroadcast dst = true) := by
  cases hhave : weHaveIp my with
  | false => simp
  | true =>
    by_cases hdst : dst = my
    · simp [hdst]
    · simp [hdst]

theorem ethRx_of_accepted {my : Ip} {frame : List UInt8} (h : Accepted my frame) :
    ∃ proto, protoOf (u8At frame 23) = some proto ∧ ethRx my frame =
      .pass proto (ethHdrSize + u8At frame 14 % 16 * 4) (lengthFor proto
        ((u16At frame 16 + 2 ^ 32 - u8At frame 14 % 16 * 4) % 2 ^ 32)) := by
  obtain ⟨hframed, htype, hversion, hihl, htotal, hdst, hproto⟩ := h
  obtain ⟨proto, hproto⟩ := Option.isSome_iff_exists.1 hproto
  obtain ⟨hlen, hv, ht, hp, hd⟩ := payload_fields frame
  refine ⟨proto, hproto, ?_⟩
  unfold ethHdrSize at hframed htotal
  have hfor : ¬ (!(weHaveIp my && ipAt frame 30 = my) && !isIpBroadcast (ipAt frame 30) &&
      weHaveIp my) = true := by
    rw [notForUs_iff.2 hdst]
    simp
  unfold ethRx ipRx
  rw [if_neg (by unfold ethHdrSize; omega), htype, if_neg (by decide), if_pos rfl, hlen, hv, ht,
    hp, hd, if_neg (by omega), if_neg (not_not.2 hversion), if_neg (Nat.not_lt.2 hihl),
    if_neg (Nat.not_lt.2 htotal), if_neg hfor, hproto]

theorem accepted_of_pass {my : Ip} {frame : List UInt8} {proto : Proto} {off : Nat} {len : Int}
    (h : ethRx my frame = .pass proto off len) : Accepted my frame := by
  unfold ethRx at h
  split at h
  · cases h
  rename_i hlen
  split at h
  · cases h
  split at h
  · rename_i htype
    obtain ⟨hdrop, hv, ht, hp, hd⟩ := payload_fields frame
    unfold ipRx at h
    rw [hv, ht, hp, hd, hdrop] at h
    dsimp only at h
    split at h
    · cases h
    split at h
    · cases h
    split at h
    · cases h
    split at h
    · cases h
    split at h
    · cases h
    rename_i h1 h2 h3 h4 h5
    cases hproto : protoOf (u8At frame 23) with
    | none =>
      rw [hproto] at h
      cases h
    | some p =>
      refine ⟨?_, htype, not_not.1 h2, Nat.not_lt.1 h3, Nat.not_lt.1 h4,
        notForUs_iff.1 (by simpa using h5), ?_⟩
      · unfold ethHdrSize at hlen ⊢
        omega
      · rw [hproto]
        rfl
  · cases h

theorem ipRx_ne_arp {my : Ip} {base off len : Nat} {payload : List UInt8} :
    ipRx my base payload ≠ .arp off len := by
  unfold ipRx
  dsimp only
  split
  · simp
  split
  · simp
  split
  · simp
  split
  · simp
  split
  · simp
  cases protoOf (u8At payload 9) with
  | none => simp
  | some proto => simp

/-- The total length does not even cover the header. -/
def ShortTotal (frame : List UInt8) : Prop := u16At frame 16 < u8At frame 14 % 16 * 4

theorem lengthFor_of_lt {proto : Proto} {n : Nat} (h : n < 2 ^ 31) : lengthFor proto n = n := by
  have hint : asInt n = n := if_pos h
  cases proto with
  | icmp => rfl
  | tcp => exact hint
  | udp => exact hint

/-- Frames are sliced right exactly when no frame that passes the tests has a
total length below its header length. -/
theorem ethRx_slices_iff (my : Ip) (frame : List UInt8) :
    Slices my frame ↔ (Accepted my frame → ¬ ShortTotal frame) := by
  have hihl : u8At frame 14 % 16 * 4 ≤ 60 := by omega
  have hmax := u16At_lt frame 16
  obtain ⟨hdrop, hv, ht, -, -⟩ := payload_fields frame
  constructor
  · intro ⟨_, hdropped⟩ hacc hshort
    obtain ⟨proto, -, hpass⟩ := ethRx_of_accepted hacc
    have hnot : ¬ Consistent (frame.drop ethHdrSize) := by
      intro hc
      have htotal := hc.total
      rw [hv, ht] at htotal
      exact absurd htotal (Nat.not_le.2 hshort)
    have hframed := hacc.framed
    rw [hdropped (by omega) hacc.ethertype hnot] at hpass
    cases hpass
  · intro h
    refine ⟨fun proto off len hpass => ?_, fun hlen htype hnot => ?_⟩
    · have hacc := accepted_of_pass hpass
      have hlong := h hacc
      unfold ShortTotal at hlong
      obtain ⟨p, -, heq⟩ := ethRx_of_accepted hacc
      rw [hpass] at heq
      have htotal := hacc.total
      have hframed := hacc.framed
      obtain ⟨rfl, rfl, rfl⟩ := Rx.pass.inj heq
      have hblen : (u16At frame 16 + 2 ^ 32 - u8At frame 14 % 16 * 4) % 2 ^ 32 =
          u16At frame 16 - u8At frame 14 % 16 * 4 := by omega
      rw [hblen, lengthFor_of_lt (by omega)]
      refine ⟨rfl, by omega, ?_⟩
      omega
    · cases hrx : ethRx my frame with
      | drop => rfl
      | arp off len =>
        unfold ethRx at hrx
        rw [if_neg (Nat.not_lt.2 hlen), htype, if_neg (by decide), if_pos rfl] at hrx
        exact absurd hrx ipRx_ne_arp
      | pass proto off len =>
        have hacc := accepted_of_pass hrx
        have hlong := h hacc
        refine absurd ⟨?_, ?_, ?_, ?_, ?_⟩ hnot
        · have hframed := hacc.framed
          unfold ethHdrSize at hframed
          omega
        · rw [hv]
          exact hacc.version
        · rw [hv]
          exact hacc.ihl
        · rw [hv, ht]
          exact Nat.not_lt.1 hlong
        · rw [ht, hdrop]
          exact hacc.total

/-- A ping of 34 bytes with four bytes of options in its header, and a total length of `total`. -/
def optionsFrame (total : UInt8) : List UInt8 :=
  List.replicate 12 0 ++ [0x08, 0x00] ++ [0x46, 0, 0, total, 0, 0, 0, 0, 64, 1, 0, 0] ++
    [10, 0, 2, 2] ++ [10, 0, 2, 15] ++ [0, 0, 0, 0] ++ [8, 0, 0, 0, 0, 0, 0, 0]

/-- A total length of 20 passes 4294967292 bytes to ICMP. -/
theorem ethRx_slices_outside : ¬ ∀ (my : Ip) (frame : List UInt8), Slices my frame := by
  intro h
  have hpass : ethRx ⟨10, 0, 2, 15⟩ (optionsFrame 20) = .pass .icmp 38 4294967292 := by
    decide
  have hlen : (optionsFrame 20).length = 46 := by
    decide
  obtain ⟨-, -, hend⟩ := (h _ _).inside _ _ _ hpass
  rw [hlen] at hend
  omega

end AdventOS.Net.Ipv4
