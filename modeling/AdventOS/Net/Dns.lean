import AdventOS.Core.Checked
import AdventOS.Net.Tcp

/-!
# DNS messages: the query, and the parser of responses (`kernel/dns.c`)

The response buffer is a `Buf`: `n` bytes of the last datagram taken, and behind them what
earlier ones left. Every read is checked against `n`.

* `skipLoop_enough`: `skip_name` ends, whatever the bytes are;
* `parseStart_ok`, `answerStep_ok`: the parser reads only inside the datagram, and what it
  returns is the record of the answer section at that place;
* `queryPacket_asks`: the packet that is sent asks for the name, and for nothing else.
-/
namespace AdventOS.Net.Dns
open List Option
open Tcp (Ip)

/-! ## Names -/

/-- A C string: the bytes before its NUL. -/
structure CString where
  bytes : List UInt8
  noNul : 0 ∉ bytes
  deriving DecidableEq

/-- The C string at the start of an array. -/
def CString.ofBytes (bs : List UInt8) : CString where
  bytes := bs.takeWhile (· ≠ 0)
  noNul h := by simpa using mem_takeWhile_imp h

/-- What the copy loop of `cache_store` leaves of a name: `name[64]` has room for 63 bytes. -/
def CString.truncate (name : CString) : CString where
  bytes := name.bytes.take 63
  noNul h := name.noNul (mem_of_mem_take h)

theorem CString.truncate_eq {name : CString} (h : name.bytes.length ≤ 63) :
    name.truncate = name := by
  unfold CString.truncate
  simp only [take_of_length_le h]

/-- dns.c:149-156. The lists end where the strings have their NUL. -/
def nameEq : List UInt8 → List UInt8 → Bool
  | a :: as, b :: bs => if a = b then nameEq as bs else false
  | [], [] => true
  | _ :: _, [] => false
  | [], _ :: _ => false

theorem nameEq_iff {a b : List UInt8} : nameEq a b = true ↔ a = b := by
  induction a generalizing b with
  | nil => cases b <;> simp [nameEq]
  | cons x xs ih =>
    cases b with
    | nil => simp [nameEq]
    | cons y ys => by_cases h : x = y <;> simp [nameEq, h, ih]

abbrev Label := List UInt8

def dot : UInt8 := 46

/-- The labels of a host name; a dot at its end stands for nothing. -/
def labels : List UInt8 → List Label
  | [] => []
  | c :: cs =>
    if c = dot then [] :: labels cs
    else
      match labels cs with
      | [] => [[c]]
      | l :: ls => (c :: l) :: ls

/-- A label in a message, behind its length. -/
def wireLabel (l : Label) : List UInt8 := UInt8.ofNat l.length :: l

/-- A name in a message, with the length 0 at its end. -/
def wire (ls : List Label) : List UInt8 := ls.flatMap wireLabel ++ [0]

/-- The label up to the next dot, and what is left behind that dot. -/
def firstLabel (p : List UInt8) : Label := p.takeWhile (· ≠ dot)

def restLabels (p : List UInt8) : List UInt8 := (p.dropWhile (· ≠ dot)).drop 1

/-- The loop of `encode_name`: `dst` is what stands before `o`. Every turn takes a byte of `p`
at least, so its length is fuel enough. -/
def encodeLoop (cap : Nat) : Nat → List UInt8 → List UInt8 → Option (List UInt8)
  | _, [], dst => if dst.length + 1 > cap then none else some (dst ++ [0])
  | 0, _ :: _, _ => none
  | fuel + 1, c :: cs, dst =>
    let label := firstLabel (c :: cs)
    if label.length = 0 ∨ label.length > 63 then none
    else if dst.length + 1 + label.length + 1 > cap then none
    else encodeLoop cap fuel (restLabels (c :: cs)) (dst ++ wireLabel label)

/-- dns.c:210-226 -/
def encodeName (name : CString) (cap : Nat) : Option (List UInt8) :=
  encodeLoop cap name.bytes.length name.bytes []

/-! ## The query -/

def dnsTypeA : Nat := 1

def dnsTypeCname : Nat := 5

def dnsClassIn : Nat := 1

/-- `sizeof(struct dns_hdr)` -/
def dnsHdrSize : Nat := 12

/-- `htons` -/
def be16 (x : UInt16) : List UInt8 := [UInt8.ofNat (x.toNat / 256), UInt8.ofNat (x.toNat % 256)]

/-- The header that `dns_resolve` fills in. dns.c:263-268 -/
def queryHdr (id : UInt16) : List UInt8 := be16 id ++ [1, 0, 0, 1, 0, 0, 0, 0, 0, 0]

/-- dns.c:259-277: the packet for a name that `encode_name` takes. -/
def queryPacket (id : UInt16) (name : CString) : Option (List UInt8) :=
  (encodeName name (512 - dnsHdrSize - 4)).map fun bs => queryHdr id ++ bs ++ [0, 1, 0, 1]

/-! ## The parser -/

/-- `(m[p] << 8) | m[p + 1]` -/
def half (m : Buf) (p : Nat) : Nat := 256 * (m.mem p).toNat + (m.mem (p + 1)).toNat

def word (m : Buf) (p : Nat) : UInt32 := UInt32.ofNat (65536 * half m p + half m (p + 2))

def quad (m : Buf) (p : Nat) : Ip := ⟨m.mem p, m.mem (p + 1), m.mem (p + 2), m.mem (p + 3)⟩

def readHalf (m : Buf) (p : Nat) : Acc Nat := do
  Acc.span m.n p 2
  pure (half m p)

def readWord (m : Buf) (p : Nat) : Acc UInt32 := do
  Acc.span m.n p 4
  pure (word m p)

def readQuad (m : Buf) (p : Nat) : Acc Ip := do
  Acc.span m.n p 4
  pure (quad m p)

/-- The loop of `skip_name`; every turn moves `p` on, so `msg_len - at` turns are enough. -/
def skipLoop (msg : Buf) (msgLen start : Nat) : Nat → Nat → Parse Nat
  | 0, _ => Parse.fail
  | fuel + 1, p =>
    if p < msgLen then do
      let b ← OptionT.lift (msg.read p)
      if b = 0 then return p - start + 1
      else if b &&& 0xC0 = 0xC0 then return p - start + 2
      else if p + 1 + b.toNat ≥ msgLen then Parse.fail
      else skipLoop msg msgLen start fuel (p + 1 + b.toNat)
    else Parse.fail

/-- dns.c:231-241 -/
def skipName (msg : Buf) (msgLen start : Nat) : Parse Nat :=
  skipLoop msg msgLen start (msgLen - start) start

/-- dns.c:300-313: where the answers start, and how many the header announces.
(`qdcount` is read from the packet sent, which always says 1.) -/
def parseStart (m : Buf) (mn : Nat) : Parse (Nat × Nat) :=
  if mn < dnsHdrSize then Parse.fail
  else do
    let ancount ← OptionT.lift (readHalf m 6)
    if ancount < 1 then Parse.fail
    else do
      let sn ← skipName m mn dnsHdrSize
      let p := dnsHdrSize + (sn + 4)
      if p > mn then Parse.fail
      else return (p, ancount)

/-- What one turn of the loop over the answers comes to. -/
inductive Walked
  | next (p : Nat)
  | address (ip : Ip) (ttl : UInt32)
  deriving DecidableEq

/-- dns.c:317-335 -/
def answerStep (m : Buf) (mn p : Nat) : Parse Walked := do
  let sn ← skipName m mn p
  let p := p + sn
  if p + 10 > mn then Parse.fail
  else do
    let type ← OptionT.lift (readHalf m p)
    let ttl ← OptionT.lift (readWord m (p + 4))
    let rdlen ← OptionT.lift (readHalf m (p + 8))
    let p := p + 10
    if p + rdlen > mn then Parse.fail
    else if type = dnsTypeA ∧ rdlen = 4 then do
      let ip ← OptionT.lift (readQuad m p)
      return .address ip ttl
    else return .next (p + rdlen)

/-- The loop over the answers, `k` of which are left. dns.c:316-337 -/
def answersLoop (m : Buf) (mn : Nat) : Nat → Nat → Parse (Ip × UInt32)
  | 0, _ => Parse.fail
  | k + 1, p => do
    match (← answerStep m mn p) with
    | .next p => answersLoop m mn k p
    | .address ip ttl => return (ip, ttl)

/-- The parser on a buffer that nobody changes meanwhile. -/
def parseResponse (m : Buf) : Parse (Ip × UInt32) := do
  let start ← parseStart m m.n
  answersLoop m m.n start.2 start.1

variable {m m' : Buf} {fuel o p start : Nat} {r : Record}

theorem skipLoop_enough {mn f g : Nat} (hf : mn - p ≤ f) (hg : mn - p ≤ g) :
    skipLoop m mn start f p = skipLoop m mn start g p := by
  induction f generalizing g p with
  | zero =>
    cases g with
    | zero => rfl
    | succ g => rw [skipLoop, skipLoop, if_neg (by omega)]
  | succ f ih =>
    cases g with
    | zero => rw [skipLoop, skipLoop, if_neg (by omega)]
    | succ g =>
      have hnext : ∀ b : UInt8, skipLoop m mn start f (p + 1 + b.toNat) =
          skipLoop m mn start g (p + 1 + b.toNat) := fun b => ih (by omega) (by omega)
      simp only [skipLoop, hnext]

theorem skipLoop_ok :
    Parse.Ok (skipLoop m m.n start fuel p) fun _ => True := by
  induction fuel generalizing p with
  | zero => exact Parse.Ok.fail
  | succ fuel ih =>
    refine Parse.Ok.ite (fun hp => ?_) fun _ => Parse.Ok.fail
    refine Parse.Ok.bind (P := fun _ => True) (Parse.Ok.lift ⟨by simpa using hp, trivial⟩) ?_
    intro b _
    refine Parse.Ok.ite (fun _ => Parse.Ok.pure trivial) fun _ => ?_
    refine Parse.Ok.ite (fun _ => Parse.Ok.pure trivial) fun _ => ?_
    exact Parse.Ok.ite (fun _ => Parse.Ok.fail) fun _ => ih

theorem skipName_ok :
    Parse.Ok (skipName m m.n p) fun sn => (skipName m m.n p).run.val = some sn :=
  (Parse.Ok.self skipLoop_ok).mono fun _ h => h.2

theorem readHalf_ok (h : p + 2 ≤ m.n) :
    Parse.Ok (OptionT.lift (readHalf m p)) (· = half m p) :=
  Parse.Ok.lift (Acc.Ok.bind (Acc.ok_span h) fun _ _ => Acc.Ok.pure rfl)

theorem readWord_ok (h : p + 4 ≤ m.n) :
    Parse.Ok (OptionT.lift (readWord m p)) (· = word m p) :=
  Parse.Ok.lift (Acc.Ok.bind (Acc.ok_span h) fun _ _ => Acc.Ok.pure rfl)

theorem readQuad_ok (h : p + 4 ≤ m.n) :
    Parse.Ok (OptionT.lift (readQuad m p)) (· = quad m p) :=
  Parse.Ok.lift (Acc.Ok.bind (Acc.ok_span h) fun _ _ => Acc.Ok.pure rfl)

/-! ## The sections of a message -/

/-- A resource record: where its owner's name stands, its fixed fields, and where its data is. -/
structure Record where
  owner : Nat
  type : Nat
  cls : Nat
  ttl : UInt32
  rdata : Nat
  rdlen : Nat
  deriving DecidableEq

/-- The fields behind a name of `sn` bytes. -/
def fields (m : Buf) (p sn : Nat) : Record where
  owner := p
  type := half m (p + sn)
  cls := half m (p + sn + 2)
  ttl := word m (p + sn + 4)
  rdata := p + sn + 10
  rdlen := half m (p + sn + 8)

/-- The record at `p`, when there is room for it. -/
def recordAt (m : Buf) (p : Nat) : Option Record :=
  (skipName m m.n p).run.val.bind fun sn =>
    if p + sn + 10 ≤ m.n ∧ (fields m p sn).rdata + (fields m p sn).rdlen ≤ m.n then
      some (fields m p sn)
    else none

def questionEnd (m : Buf) : Option Nat :=
  (skipName m m.n dnsHdrSize).run.val.bind fun sn =>
    if dnsHdrSize + (sn + 4) ≤ m.n then some (dnsHdrSize + (sn + 4)) else none

def answerAt (m : Buf) : Nat → Option Nat
  | 0 => questionEnd m
  | k + 1 => (answerAt m k).bind fun p => (recordAt m p).map fun r => r.rdata + r.rdlen

def answer (m : Buf) (k : Nat) : Option Record := (answerAt m k).bind (recordAt m)

def ancount (m : Buf) : Nat := half m 6

/-- What the loop takes for an address: the class is not looked at. -/
def Record.isAddress (r : Record) : Bool := r.type = dnsTypeA && r.rdlen = 4

theorem Record.isAddress_iff :
    r.isAddress = true ↔ r.type = dnsTypeA ∧ r.rdlen = 4 := by
  unfold Record.isAddress
  rw [Bool.and_eq_true, decide_eq_true_iff, decide_eq_true_iff]

/-- What a turn of the loop makes of a record. -/
def Record.walked (m : Buf) (r : Record) : Walked :=
  if r.isAddress then .address (quad m r.rdata) r.ttl else .next (r.rdata + r.rdlen)

theorem parseStart_ok :
    Parse.Ok (parseStart m m.n) fun s =>
      questionEnd m = some s.1 ∧ s.2 = ancount m ∧ dnsHdrSize ≤ m.n := by
  refine Parse.Ok.ite (fun _ => Parse.Ok.fail) fun hlen => ?_
  have hhdr : 12 ≤ m.n := by unfold dnsHdrSize at hlen; omega
  refine Parse.Ok.bind (readHalf_ok (by omega)) ?_
  intro count hcount
  refine Parse.Ok.ite (fun _ => Parse.Ok.fail) fun _ => ?_
  refine Parse.Ok.bind skipName_ok ?_
  intro sn hsn
  refine Parse.Ok.ite (fun _ => Parse.Ok.fail) fun hp => Parse.Ok.pure ?_
  refine ⟨?_, hcount, hhdr⟩
  unfold questionEnd
  rw [hsn, bind_some, if_pos (by omega)]

/-- A turn of the loop reads inside the datagram and goes by the record at its place. -/
theorem answerStep_ok :
    Parse.Ok (answerStep m m.n p) fun w => ∃ r, recordAt m p = some r ∧ w = r.walked m := by
  refine Parse.Ok.bind skipName_ok ?_
  intro sn hsn
  refine Parse.Ok.ite (fun _ => Parse.Ok.fail) fun hfix => ?_
  refine Parse.Ok.bind (readHalf_ok (by omega)) ?_
  intro type htype
  refine Parse.Ok.bind (readWord_ok (by omega)) ?_
  intro ttl httl
  refine Parse.Ok.bind (readHalf_ok (by omega)) ?_
  intro rdlen hrdlen
  refine Parse.Ok.ite (fun _ => Parse.Ok.fail) fun hdata => ?_
  subst htype httl hrdlen
  have hrec : recordAt m p = some (fields m p sn) := by
    unfold recordAt
    rw [hsn, bind_some]
    exact if_pos ⟨by omega, by simp only [fields]; omega⟩
  refine Parse.Ok.ite (fun haddr => ?_) fun haddr => ?_
  · refine Parse.Ok.bind (readQuad_ok (by omega)) ?_
    intro ip hip
    subst hip
    refine Parse.Ok.pure ⟨_, hrec, ?_⟩
    unfold Record.walked
    rw [if_pos (Record.isAddress_iff.mpr haddr)]
    rfl
  · refine Parse.Ok.pure ⟨_, hrec, ?_⟩
    unfold Record.walked
    rw [if_neg (fun h => haddr (Record.isAddress_iff.mp h))]
    rfl

theorem answersLoop_ok {k : Nat} :
    Parse.Ok (answersLoop m m.n k p) fun _ => True := by
  induction k generalizing p with
  | zero => exact Parse.Ok.fail
  | succ k ih =>
    refine Parse.Ok.bind answerStep_ok ?_
    intro w _
    cases w with
    | next p => exact ih
    | address ip ttl => exact Parse.Ok.pure trivial

theorem parseResponse_ok : Parse.Ok (parseResponse m) fun _ => True :=
  Parse.Ok.bind parseStart_ok fun _ _ => answersLoop_ok

/-! ## Names in a message -/

/-- The name at `o`, with its compression pointers followed, and where it ends. A pointer
points back. -/
inductive NameAt (m : Buf) : Nat → List Label → Nat → Prop
  | root {o : Nat} : o < m.n → m.mem o = 0 → NameAt m o [] (o + 1)
  | label {o e : Nat} {ls : List Label} : o < m.n → m.mem o ≠ 0 → (m.mem o).toNat ≤ 63 →
      NameAt m (o + 1 + (m.mem o).toNat) ls e →
      NameAt m o (m.bytes (o + 1) (m.mem o).toNat :: ls) e
  | pointer {o e : Nat} {ls : List Label} : o + 1 < m.n → 192 ≤ (m.mem o).toNat →
      half m o - 49152 < o → NameAt m (half m o - 49152) ls e → NameAt m o ls (o + 2)

/-! ## The query asks for the name -/

def message (bs : List UInt8) : Buf := ⟨fun i => bs.getD i 0, bs.length⟩

theorem labels_cons_eq {p : List UInt8} (h : p ≠ []) :
    labels p = firstLabel p :: labels (restLabels p) := by
  induction p with
  | nil => exact absurd rfl h
  | cons c cs ih =>
    unfold firstLabel restLabels
    by_cases hc : c = dot
    · simp [labels, hc]
    · cases cs with
      | nil => simp [labels, hc]
      | cons d ds =>
        have hrest := ih (by simp)
        rw [labels, if_neg hc, hrest]
        simp [firstLabel, restLabels, hc]

theorem restLabels_length (c : UInt8) (cs : List UInt8) :
    (restLabels (c :: cs)).length ≤ cs.length := by
  unfold restLabels
  have h := (dropWhile_suffix (· ≠ dot) (l := c :: cs)).length_le
  rw [length_drop]
  simp only [length_cons] at h
  omega

theorem encodeLoop_eq {cap : Nat} {p dst out : List UInt8} (hf : p.length ≤ fuel)
    (h : encodeLoop cap fuel p dst = some out) :
    out = dst ++ wire (labels p) ∧ ∀ l ∈ labels p, 0 < l.length ∧ l.length ≤ 63 := by
  induction fuel generalizing p dst with
  | zero =>
    obtain rfl := length_eq_zero_iff.mp (Nat.le_zero.mp hf)
    simp only [encodeLoop] at h
    split at h
    · cases h
    · obtain rfl := Option.some.inj h
      simp [labels, wire]
  | succ fuel ih =>
    cases p with
    | nil =>
      simp only [encodeLoop] at h
      split at h
      · cases h
      · obtain rfl := Option.some.inj h
        simp [labels, wire]
    | cons c cs =>
      simp only [encodeLoop] at h
      split at h
      · cases h
      · split at h
        · cases h
        · have hshort := restLabels_length c cs
          simp only [length_cons] at hf
          obtain ⟨hout, hls⟩ := ih (by omega) h
          rw [labels_cons_eq (cons_ne_nil c cs)]
          refine ⟨?_, ?_⟩
          · rw [hout]
            simp [wire, append_assoc]
          · intro l hl
            rcases mem_cons.mp hl with rfl | hl
            · omega
            · exact hls l hl

theorem message_bytes (pre l post : List UInt8) :
    (message (pre ++ l ++ post)).bytes pre.length l.length = l := by
  refine ext_getElem (by simp) ?_
  intro i h1 h2
  simp only [Buf.bytes, message, getElem_map, getElem_range, append_assoc]
  rw [getD_eq_getElem?_getD, List.getElem?_append_right (by omega),
    List.getElem?_append_left (by omega)]
  simp [h2]

theorem message_mem {pre post : List UInt8} {b : UInt8} (ho : o = pre.length) :
    (message (pre ++ b :: post)).mem o = b := by
  subst ho
  simp [message]

theorem message_half {pre post : List UInt8} {a b : UInt8} (ho : o = pre.length) :
    half (message (pre ++ a :: b :: post)) o = 256 * a.toNat + b.toNat := by
  have hb : (message (pre ++ a :: b :: post)).mem (o + 1) = b := by
    rw [show pre ++ a :: b :: post = (pre ++ [a]) ++ b :: post by simp]
    exact message_mem (by simp [ho])
  unfold half
  rw [message_mem ho, hb]

theorem wire_nameAt {ls : List Label} (hls : ∀ l ∈ ls, 0 < l.length ∧ l.length ≤ 63) :
    ∀ (pre post : List UInt8) {o : Nat}, o = pre.length →
      NameAt (message (pre ++ wire ls ++ post)) o ls (o + (wire ls).length) := by
  induction ls with
  | nil =>
    intro pre post o ho
    have hlist : pre ++ wire [] ++ post = pre ++ 0 :: post := by simp [wire]
    rw [hlist]
    exact .root (by simp [message, ho]) (message_mem ho)
  | cons l ls ih =>
    intro pre post o ho
    obtain ⟨hpos, h63⟩ := hls l mem_cons_self
    -- the same bytes, cut behind the length, behind the label, and around the label
    have hcut : pre ++ wire (l :: ls) ++ post =
        pre ++ UInt8.ofNat l.length :: (l ++ (wire ls ++ post)) := by
      simp [wire, wireLabel, append_assoc]
    have hcut' : pre ++ wire (l :: ls) ++ post =
        (pre ++ wireLabel l) ++ wire ls ++ post := by
      simp [wire, append_assoc]
    have hcut'' : pre ++ wire (l :: ls) ++ post =
        (pre ++ [UInt8.ofNat l.length]) ++ l ++ (wire ls ++ post) := by
      simp [wire, wireLabel, append_assoc]
    have hn : (UInt8.ofNat l.length).toNat = l.length := by
      rw [UInt8.toNat_ofNat']
      exact Nat.mod_eq_of_lt (by omega)
    have hrest := ih (fun k hk => hls k (mem_cons_of_mem _ hk)) (pre ++ wireLabel l) post
      (o := o + 1 + l.length) (by simp [wireLabel, ho]; omega)
    have hlabel := message_bytes (pre ++ [UInt8.ofNat l.length]) l (wire ls ++ post)
    rw [← hcut'] at hrest
    rw [← hcut'', length_append, length_singleton, ← ho] at hlabel
    have hb : (message (pre ++ wire (l :: ls) ++ post)).mem o = UInt8.ofNat l.length := by
      rw [hcut]
      exact message_mem ho
    have ho' : o < (message (pre ++ wire (l :: ls) ++ post)).n := by
      rw [hcut]
      simp [message, ho]
    have hend : o + (wire (l :: ls)).length = o + 1 + l.length + (wire ls).length := by
      simp [wire, wireLabel]
      omega
    rw [hend]
    generalize message (pre ++ wire (l :: ls) ++ post) = m at hrest hlabel hb ho' ⊢
    have hmem : (m.mem o).toNat = l.length := by rw [hb, hn]
    have h : NameAt m o (m.bytes (o + 1) (m.mem o).toNat :: ls)
        (o + 1 + l.length + (wire ls).length) := by
      refine .label ho' ?_ (by omega) (by rw [hmem]; exact hrest)
      intro h0
      rw [h0] at hmem
      exact absurd hmem (by simp; omega)
    rwa [hmem, hlabel] at h

/-- The question of a message, at its fixed place: a name, a type and a class. -/
def Asks (m : Buf) (ls : List Label) (type cls : Nat) : Prop :=
  ∃ e, NameAt m dnsHdrSize ls e ∧ e + 4 ≤ m.n ∧ half m e = type ∧ half m (e + 2) = cls

theorem queryPacket_asks {id : UInt16} {name : CString} {pkt : List UInt8}
    (h : queryPacket id name = some pkt) :
    Asks (message pkt) (labels name.bytes) dnsTypeA dnsClassIn := by
  obtain ⟨bs, hbs, rfl⟩ := map_eq_some_iff.mp h
  obtain ⟨hout, hls⟩ := encodeLoop_eq (Nat.le_refl _) hbs
  rw [nil_append] at hout
  subst hout
  have hhdr : dnsHdrSize = (queryHdr id).length := rfl
  have hname := wire_nameAt hls (queryHdr id) [0, 1, 0, 1] hhdr
  generalize wire (labels name.bytes) = w at hname ⊢
  have hlen : dnsHdrSize + w.length = (queryHdr id ++ w).length := by
    rw [length_append, hhdr]
  refine ⟨_, hname, ?_, ?_, ?_⟩
  · show _ ≤ (queryHdr id ++ w ++ [0, 1, 0, 1]).length
    rw [length_append, hlen]
    exact Nat.le_refl _
  · exact message_half hlen
  · rw [show queryHdr id ++ w ++ [0, 1, 0, 1] = (queryHdr id ++ w ++ [0, 1]) ++ [0, 1] by simp]
    exact message_half (by rw [hlen]; simp [Nat.add_assoc])

/-! ## Whose address a record gives -/

def lower (b : UInt8) : UInt8 := if 65 ≤ b ∧ b ≤ 90 then b + 32 else b

/-- Names are compared without regard to case. -/
def SameName (a b : List Label) : Prop := a.map (·.map lower) = b.map (·.map lower)

/-- The names that the CNAMEs of a message lead to from `name`. -/
inductive Alias (m : Buf) (name : List Label) : List Label → Prop
  | self : Alias m name name
  | cname {ls owner target : List Label} {k e e' : Nat} {r : Record} : Alias m name ls →
      k < ancount m → answer m k = some r → r.type = dnsTypeCname → r.cls = dnsClassIn →
      NameAt m r.owner owner e → SameName owner ls → NameAt m r.rdata target e' →
      Alias m name target

/-- The record's owner is `name`, directly or through CNAMEs of the message. -/
def Belongs (m : Buf) (name : CString) (r : Record) : Prop :=
  r.cls = dnsClassIn ∧ ∃ owner e ls, NameAt m r.owner owner e ∧ SameName owner ls ∧
    Alias m (labels name.bytes) ls

/-- The message has an A record of `name` with this address and this TTL. -/
def Gives (m : Buf) (name : CString) (ip : Ip) (ttl : UInt32) : Prop :=
  ∃ k r, k < ancount m ∧ answer m k = some r ∧ r.isAddress = true ∧ Belongs m name r ∧
    quad m r.rdata = ip ∧ r.ttl = ttl

/-- The message is a response to a question for the addresses of `name`. -/
def Responds (m : Buf) (name : CString) : Prop :=
  128 ≤ (m.mem 2).toNat ∧ ∃ ls, Asks m ls dnsTypeA dnsClassIn ∧ SameName ls (labels name.bytes)

/-- The first A record of the answer section belongs to `name`. -/
def FirstBelongs (m : Buf) (name : CString) : Prop :=
  ∀ k r, k < ancount m → answer m k = some r → r.isAddress = true →
    (∀ j q, j < k → answer m j = some q → q.isAddress = false) → Belongs m name r

/-! ## Buffers that hold the same message -/

/-- The same bytes, up to what stands behind them. -/
structure Same (m m' : Buf) : Prop where
  n : m.n = m'.n
  mem : ∀ i, i < m.n → m.mem i = m'.mem i

theorem Same.symm (h : Same m m') : Same m' m :=
  ⟨h.n.symm, fun i hi => (h.mem i (h.n ▸ hi)).symm⟩

theorem Same.trans {a b c : Buf} (h : Same a b) (h' : Same b c) : Same a c :=
  ⟨h.n.trans h'.n, fun i hi => (h.mem i hi).trans (h'.mem i (h.n ▸ hi))⟩

theorem Same.half (h : Same m m') (hp : p + 2 ≤ m.n) :
    half m p = half m' p := by
  unfold Dns.half
  rw [h.mem p (by omega), h.mem (p + 1) (by omega)]

theorem Same.quad (h : Same m m') (hp : p + 4 ≤ m.n) :
    quad m p = quad m' p := by
  unfold Dns.quad
  rw [h.mem p (by omega), h.mem (p + 1) (by omega), h.mem (p + 2) (by omega),
    h.mem (p + 3) (by omega)]

theorem Same.fields (h : Same m m') {sn : Nat} (hp : p + sn + 10 ≤ m.n) :
    fields m p sn = fields m' p sn := by
  unfold Dns.fields word
  rw [h.half (by omega : p + sn + 2 ≤ m.n), h.half (by omega : p + sn + 2 + 2 ≤ m.n),
    h.half (by omega : p + sn + 4 + 2 ≤ m.n), h.half (by omega : p + sn + 4 + 2 + 2 ≤ m.n),
    h.half (by omega : p + sn + 8 + 2 ≤ m.n)]

theorem Same.skipLoop (h : Same m m') :
    skipLoop m m.n start fuel p = skipLoop m' m'.n start fuel p := by
  rw [← h.n]
  induction fuel generalizing p with
  | zero => rfl
  | succ fuel ih =>
    simp only [Dns.skipLoop]
    by_cases hp : p < m.n
    · have hread : m.read p = m'.read p := by
        unfold Buf.read
        rw [h.mem p hp, h.n]
      rw [if_pos hp, if_pos hp, hread]
      simp only [ih]
    · rw [if_neg hp, if_neg hp]

theorem Same.skipName (h : Same m m') (p : Nat) :
    skipName m m.n p = skipName m' m'.n p := by
  unfold Dns.skipName
  rw [h.skipLoop, h.n]

theorem Same.questionEnd (h : Same m m') : questionEnd m = questionEnd m' := by
  unfold Dns.questionEnd
  rw [h.skipName, h.n]

theorem Same.recordAt (h : Same m m') (p : Nat) : recordAt m p = recordAt m' p := by
  unfold Dns.recordAt
  rw [h.skipName]
  refine congrArg _ (funext fun sn => ?_)
  by_cases hp : p + sn + 10 ≤ m.n
  · rw [h.fields hp, h.n]
  · rw [if_neg fun hc => hp hc.1, if_neg fun hc => hp (h.n ▸ hc.1)]

theorem recordAt_inside (h : recordAt m p = some r) :
    r.rdata + r.rdlen ≤ m.n := by
  obtain ⟨sn, _, h⟩ := bind_eq_some_iff.mp h
  split at h
  · rename_i hr
    obtain rfl := Option.some.inj h
    exact hr.2
  · cases h

theorem Same.walked (h : Same m m')
    (hr : Dns.recordAt m p = some r) : r.walked m = r.walked m' := by
  unfold Record.walked
  by_cases ha : r.isAddress = true
  · have hlen := (Record.isAddress_iff.mp ha).2
    have hin := recordAt_inside hr
    rw [if_pos ha, if_pos ha, h.quad (by omega)]
  · rw [if_neg ha, if_neg ha]

end AdventOS.Net.Dns
