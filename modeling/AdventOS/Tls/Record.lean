import AdventOS.Tls.X509

/-!
# TLS records

Record I/O of `libcrypto/tls.c` as programs over a connection: the bytes the peer
still delivers, the outcomes of the writes to come, and what was written.

A program stops with the return value of the function it belongs to, or at an
access outside an array (`Stop.overrun`): nothing is said about what a process does
from then on. Each access whose extent the peer or the caller decides is noted in
`log` before it is made, with what decides it; `Access.Fits` is the bound it has
to keep.

`Sound p` says that the accesses noted by `p` are the only ones that can go wrong:
`p` overruns an array exactly if it notes one that does not fit. It is closed under
sequencing (`Sound.bind`), so each function needs it only for its own steps.
-/
namespace AdventOS.Tls
open List

/-! ## Programs -/

/-- The arrays that record contents and handshake messages are stored to. -/
inductive Array
  | recbuf
  | recbuf2
  | appBuf
  | cfin
  | sfin
  | encBuf
  | chBody
  | chMsg
  | pskBody
  | pskMsg
  | certPk
  | hsBuf
  | finishedVerify
  | shBody
  | shMsg
  | pskShMsg
  | certBody
  | cvBody
  | flight
  deriving DecidableEq

/-- Their sizes, with `TLS_MAX_FRAGMENT` = 6144 and `X509_MAX_CERT` = 1600. -/
def Array.cap : Array → Nat
  | .recbuf => 6144 + 16
  | .recbuf2 => 6144 + 16
  | .appBuf => 6144 + 16
  | .cfin => 64
  | .sfin => 64
  | .encBuf => 6144 + 1
  | .chBody => 512
  | .chMsg => 4 + 512
  | .pskBody => 32 + 2 + 64 + 32
  | .pskMsg => 4 + 32 + 2 + 64 + 32
  | .certPk => 65
  | .hsBuf => 6144 + 16
  | .finishedVerify => 32
  | .shBody => 256
  | .shMsg => 4 + 256
  | .pskShMsg => 4 + 64
  | .certBody => 1600 + 16
  | .cvBody => 160
  | .flight => 6144

/-- An access with what decides its extent. -/
inductive Access
  | record (t : Array) (want avail : Nat)
  | encrypt (ptLen : Int)
  | serverName (len : Nat)
  | pskIdentity (len : Nat)
  | leafKey (der : Bytes)
  | certificate (len : Int)
  deriving DecidableEq

/-- The access stays inside its array. A record is stored up to its length or to
the end of what the peer delivers; a length that `send_encrypted` or the
certificate check refuses is not stored at all. -/
def Access.Fits : Access → Prop
  | .record t want avail => min want avail ≤ t.cap
  | .encrypt n => 0 ≤ n ∧ n ≤ 6144 ∨ 6383 < n ∧ n < 2 ^ 31 - 17
  | .serverName len => len ≤ 387
  | .pskIdentity len => len ≤ 64
  | .leafKey der => longRsaKey der = false
  | .certificate len => len < 2 ^ 31 - 9

instance (a : Access) : Decidable a.Fits :=
  match a with
  | .record t want avail => inferInstanceAs (Decidable (min want avail ≤ t.cap))
  | .encrypt n =>
    inferInstanceAs (Decidable (0 ≤ n ∧ n ≤ 6144 ∨ 6383 < n ∧ n < 2 ^ 31 - 17))
  | .serverName len => inferInstanceAs (Decidable (len ≤ 387))
  | .pskIdentity len => inferInstanceAs (Decidable (len ≤ 64))
  | .leafKey der => inferInstanceAs (Decidable (longRsaKey der = false))
  | .certificate len => inferInstanceAs (Decidable (len < 2 ^ 31 - 9))

/-- How a program stops: the function returns, or an array is overrun. -/
inductive Stop
  | ret (code : Int)
  | overrun
  deriving DecidableEq

/-- A connection as a process sees it. When no outcome is left, writes succeed. -/
structure Conn where
  inp : Bytes
  sends : List Bool
  sent : Bytes
  log : List Access

abbrev Prog := EStateM Stop Conn

/-- Returns from the function if the test fails. -/
def require (ok : Prop) [Decidable ok] (code : Int) : Prog Unit :=
  if ok then pure () else throw (.ret code)

/-- A parser that gives an error code. -/
def parsed {α : Type} : Except Int α → Prog α
  | .ok a => pure a
  | .error code => throw (.ret code)

/-- A call that failed makes the caller return. -/
def expect {α : Type} (code : Int) : Option α → Prog α
  | some a => pure a
  | none => throw (.ret code)

/-- Stores `n` bytes at the start of an array. -/
def store (t : Array) (n : Nat) : Prog Unit :=
  if t.cap < n then throw .overrun else pure ()

def note (a : Access) : Prog Unit := modify fun s => { s with log := a :: s.log }

/-! ## Reading and writing -/

/-- tls.c:29-38 on a buffer of its own; `none` is -1. -/
def readN (n : Nat) : Prog (Option Bytes) := fun s =>
  if s.inp.length < n then .ok none { s with inp := [] }
  else .ok (some (s.inp.take n)) { s with inp := s.inp.drop n }

/-- The same, to one of the arrays: what arrives is stored as it arrives. -/
def readInto (t : Array) (n : Nat) : Prog (Option Bytes) := do
  let s ← get
  note (.record t n s.inp.length)
  store t (min n s.inp.length)
  readN n

/-- tls.c:40-49; `true` is success. -/
def writeAll (l : Bytes) : Prog Bool := fun s =>
  match s.sends with
  | true :: rest => .ok true { s with sends := rest, sent := s.sent ++ l }
  | false :: rest => .ok false { s with sends := rest }
  | [] => .ok true { s with sent := s.sent ++ l }

def be16 (n : Nat) : Bytes := [UInt8.ofNat (n / 256), UInt8.ofNat n]

def recordHeader (ty : UInt8) (len : Nat) : Bytes := [ty, 3, 3] ++ be16 len

/-- tls.c:60-71 -/
def sendRecord (ty : UInt8) (frag : Bytes) : Prog Bool :=
  if frag.length > 6144 + 256 then pure false
  else writeAll (recordHeader ty frag.length ++ frag)

/-- A C `int`. -/
abbrev CInt := { n : Int // -2 ^ 31 ≤ n ∧ n < 2 ^ 31 }

/-- `int` arithmetic of 32 bits. -/
def wrap32 (x : Int) : Int := x.bmod (2 ^ 32)

variable (cr : Primitives)

/-- tls.c:73-100, on the `n` bytes at `pt`. -/
def sendEncrypted (k : Keys) (ty : UInt8) (pt : Bytes) (n : Int) : Prog (Bool × Keys) := do
  note (.encrypt n)
  if wrap32 (n + 1 + 16) > 6144 + 256 then pure (false, k)
  else do
    -- `buf[pt_len] = inner_type` comes before the array for a negative length
    if n < 0 then throw .overrun
    store .encBuf (n.toNat + 1)
    let hdr := recordHeader 23 (n.toNat + 1 + 16)
    let ct := gcmEncrypt cr k.key (buildNonce k) hdr (pt.take n.toNat ++ [ty])
    let ok ← writeAll (hdr ++ ct.1 ++ ct.2)
    pure (ok, k.next)

/-- The bytes of a list of known length. -/
def u16At (l : Bytes) (i : Nat) : Nat := 256 * (l.getD i 0).toNat + (l.getD (i + 1) 0).toNat

def u24At (l : Bytes) (i : Nat) : Nat := 65536 * (l.getD i 0).toNat + u16At l (i + 1)

/-- The next header that is not a ChangeCipherSpec; these are drained.
tls.c:112-129 -/
def recvHeaderLoop : (fuel : Nat) → Prog (Option Bytes)
  | 0 => pure none
  | fuel + 1 => do
    match ← readN 5 with
    | none => pure none
    | some hdr =>
      if u16At hdr 3 > 6144 + 256 then pure none
      else if hdr.getD 0 0 = 20 then do
        match ← readN (u16At hdr 3) with
        | none => pure none
        | some _ => recvHeaderLoop fuel
      else pure (some hdr)

def recvHeader : Prog (Option Bytes) := do
  let s ← get
  recvHeaderLoop (s.inp.length + 1)

/-- What `recv_record` leaves: its value, the array, and `*out_len`. -/
structure Record where
  ty : UInt8
  out : Bytes
  len : Nat

def Record.content (r : Record) : Bytes := r.out.take r.len

/-- tls.c:108-135: `k == 0`. -/
def recvPlain (t : Array) : Prog (Option Record) := do
  match ← recvHeader with
  | none => pure none
  | some hdr =>
    match ← readInto t (u16At hdr 3) with
    | none => pure none
    | some out => pure (some ⟨hdr.getD 0 0, out, u16At hdr 3⟩)

/-- The last byte that is not zero, or the first byte. tls.c:149-150 -/
def ptEnd (l : Bytes) : Nat := (l.reverse.dropWhile (· == 0)).length - 1

/-- tls.c:108-154: `k != 0`. The record counter moves once the tag
is right. -/
def recvEncrypted (k : Keys) (t : Array) : Prog (Option Record × Keys) := do
  match ← recvHeader with
  | none => pure (none, k)
  | some hdr =>
    if u16At hdr 3 < 16 then pure (none, k)
    else do
      match ← readInto t (u16At hdr 3 - 16) with
      | none => pure (none, k)
      | some ct =>
        match ← readN 16 with
        | none => pure (none, k)
        | some tag =>
          match gcmDecrypt cr k.key (buildNonce k) hdr ct tag with
          | none => pure (none, k)
          | some out =>
            if u16At hdr 3 - 16 < 1 then pure (none, k.next)
            else pure (some ⟨out.getD (ptEnd out) 0, out, ptEnd out⟩, k.next)

/-! ## Rules -/

section
variable {α β : Type}

variable {p : Prog α} {f : α → Prog β} {s t : Conn} {a : α} {n : Nat} {l pt rest : Bytes}
  {cs : List Ccs} {ty : UInt8}

theorem Prog.bind_ok {b : β}
    (h : (p >>= f) s = .ok b t) : ∃ a u, p s = .ok a u ∧ f a u = .ok b t := by
  change EStateM.bind p f s = _ at h
  unfold EStateM.bind at h
  split at h
  · rename_i a u hp
    exact ⟨a, u, hp, h⟩
  · cases h

theorem require_ok {ok : Prop} [Decidable ok] {code : Int} {u : Unit}
    (h : require ok code s = .ok u t) : ok ∧ t = s := by
  unfold require at h
  split at h
  · rename_i hok
    cases h
    exact ⟨hok, rfl⟩
  · cases h

theorem parsed_ok {r : Except Int α} (h : parsed r s = .ok a t) :
    r = .ok a ∧ t = s := by
  cases r with
  | ok b => cases h; exact ⟨rfl, rfl⟩
  | error code => cases h

theorem expect_ok {o : Option α} {code : Int}
    (h : expect code o s = .ok a t) : o = some a ∧ t = s := by
  cases o with
  | some b => cases h; exact ⟨rfl, rfl⟩
  | none => cases h

def after (r : EStateM.Result Stop Conn α) : Conn :=
  match r with
  | .ok _ s => s
  | .error _ s => s

def overran (r : EStateM.Result Stop Conn α) : Bool :=
  match r with
  | .error .overrun _ => true
  | _ => false

/-- The program overruns an array exactly if one of the accesses it notes does not fit. -/
def Sound (p : Prog α) : Prop :=
  ∀ s, ∃ new, (after (p s)).log = new ++ s.log ∧
    (overran (p s) = true ↔ ∃ a ∈ new, ¬ a.Fits)

theorem Sound.quiet (hlog : ∀ s, (after (p s)).log = s.log)
    (hov : ∀ s, overran (p s) = false) : Sound p := by
  intro s
  refine ⟨[], hlog s, ?_⟩
  simp [hov s]

theorem Sound.pure (a : α) : Sound (Pure.pure a : Prog α) :=
  .quiet (fun _ => rfl) fun _ => rfl

theorem Sound.ret (code : Int) : Sound (throw (.ret code) : Prog α) :=
  .quiet (fun _ => rfl) fun _ => rfl

theorem Sound.bind (hp : Sound p) (hf : ∀ a, Sound (f a)) :
    Sound (p >>= f) := by
  intro s
  obtain ⟨new, hlog, hov⟩ := hp s
  change ∃ new', (after (EStateM.bind p f s)).log = _ ∧ (overran (EStateM.bind p f s) = true ↔ _)
  unfold EStateM.bind
  cases hps : p s with
  | ok a t =>
    rw [hps] at hlog hov
    obtain ⟨new', hlog', hov'⟩ := hf a t
    refine ⟨new' ++ new, ?_, ?_⟩
    · rw [hlog', show t.log = new ++ s.log from hlog, append_assoc]
    · have hfit : ∀ x ∈ new, x.Fits := by
        intro x hx
        by_contra hno
        have : false = true := hov.2 ⟨x, hx, hno⟩
        cases this
      rw [hov']
      constructor
      · intro ⟨x, hx, hno⟩
        exact ⟨x, mem_append_left _ hx, hno⟩
      · intro ⟨x, hx, hno⟩
        rcases mem_append.1 hx with hx | hx
        · exact ⟨x, hx, hno⟩
        · exact absurd (hfit x hx) hno
  | error e t =>
    rw [hps] at hlog hov
    refine ⟨new, hlog, ?_⟩
    cases e with
    | ret code => exact hov
    | overrun => exact hov

theorem Sound.ite {c : Prop} [Decidable c] {q : Prog α} (hp : c → Sound p)
    (hq : ¬ c → Sound q) : Sound (if c then p else q) := by
  by_cases h : c
  · rw [if_pos h]
    exact hp h
  · rw [if_neg h]
    exact hq h

theorem Sound.get {f : Conn → Prog α} (hf : ∀ s, Sound (f s)) : Sound (get >>= f) := by
  intro s
  exact hf s s

theorem Prog.bind_run (h : p s = .ok a t) :
    (p >>= f) s = f a t := by
  change EStateM.bind p f s = _
  unfold EStateM.bind
  rw [h]

theorem require_run {ok : Prop} [Decidable ok] (h : ok) (code : Int) (s : Conn) :
    require ok code s = .ok () s := by
  unfold require
  rw [if_pos h]
  rfl

theorem readN_append (hn : n = l.length)
    (h : s.inp = l ++ rest) : readN n s = .ok (some l) { s with inp := rest } := by
  unfold readN
  rw [h, if_neg (by rw [length_append]; omega), hn, take_left, drop_left]

theorem readInto_append {t : Array} (hn : n = l.length)
    (hcap : l.length ≤ t.cap) (h : s.inp = l ++ rest) :
    ∃ log, readInto t n s = .ok (some l) { s with inp := rest, log := log } := by
  have hmin : ¬ t.cap < min n s.inp.length := by omega
  refine ⟨.record t n s.inp.length :: s.log, ?_⟩
  obtain ⟨u, hu⟩ : ∃ u : Conn, u = { s with log := .record t n s.inp.length :: s.log } := ⟨_, rfl⟩
  have hstore : store t (min n s.inp.length) u = .ok () u := by
    unfold store
    rw [if_neg hmin]
    rfl
  have hread : readN n u = .ok (some l) { u with inp := rest } :=
    readN_append hn (by rw [hu]; exact h)
  calc readInto t n s = (store t (min n s.inp.length) >>= fun _ => readN n) u := by rw [hu]; rfl
    _ = readN n u := Prog.bind_run hstore
    _ = _ := by rw [hread, hu]

theorem writeAll_run (h : s.sends = []) :
    writeAll l s = .ok true { s with sent := s.sent ++ l } := by
  unfold writeAll
  rw [h]

@[simp] theorem recordHeader_length (ty : UInt8) (n : Nat) : (recordHeader ty n).length = 5 := rfl

theorem u16At_be16_mod (n : Nat) (l r : Bytes) :
    u16At (l ++ be16 n ++ r) l.length = n % 2 ^ 16 := by
  have hhi : (l ++ be16 n ++ r).getD l.length 0 = UInt8.ofNat (n / 256) := by simp [be16]
  have hlo : (l ++ be16 n ++ r).getD (l.length + 1) 0 = UInt8.ofNat n := by simp [be16]
  unfold u16At
  rw [hhi, hlo, UInt8.toNat_ofNat', UInt8.toNat_ofNat']
  omega

theorem u16At_be16 (h : n < 2 ^ 16) (l r : Bytes) :
    u16At (l ++ be16 n ++ r) l.length = n := by
  rw [u16At_be16_mod, Nat.mod_eq_of_lt h]

theorem u16At_recordHeader (h : n < 2 ^ 16) (ty : UInt8) :
    u16At (recordHeader ty n) 3 = n := by
  have := u16At_be16 h [ty, 3, 3] []
  rwa [append_nil] at this

/-- A ChangeCipherSpec record, no longer than `recv_record` takes a record to be. -/
structure Ccs where
  major : UInt8
  minor : UInt8
  payload : Bytes
  fits : payload.length ≤ 6144 + 256

def Ccs.bytes (c : Ccs) : Bytes := [20, c.major, c.minor] ++ be16 c.payload.length ++ c.payload

def ccsBytes (l : List Ccs) : Bytes := l.flatMap Ccs.bytes

theorem recvHeaderLoop_cons {fuel : Nat} {c : Ccs}
    (h : s.inp = c.bytes ++ rest) :
    recvHeaderLoop (fuel + 1) s = recvHeaderLoop fuel { s with inp := rest } := by
  have hc := c.fits
  have hsplit : s.inp = ([20, c.major, c.minor] ++ be16 c.payload.length) ++
      (c.payload ++ rest) := by
    rw [h, Ccs.bytes, append_assoc]
  have hlen : u16At ([20, c.major, c.minor] ++ be16 c.payload.length) 3 = c.payload.length := by
    have := u16At_be16 (n := c.payload.length) (by omega) [20, c.major, c.minor] []
    rwa [append_nil] at this
  rw [recvHeaderLoop, Prog.bind_run (readN_append (n := 5) rfl hsplit)]
  dsimp only
  rw [hlen, if_neg (by omega), if_pos (by rfl), Prog.bind_run (readN_append rfl rfl)]

theorem recvHeaderLoop_ccs {fuel : Nat}
    (hfuel : cs.length < fuel) (hty : ty ≠ 20) (hn : n ≤ 6144 + 256)
    (h : s.inp = ccsBytes cs ++ (recordHeader ty n ++ rest)) :
    recvHeaderLoop fuel s = .ok (some (recordHeader ty n)) { s with inp := rest } := by
  induction cs generalizing fuel s with
  | nil =>
    obtain ⟨f, rfl⟩ := Nat.exists_eq_succ_of_ne_zero (by omega : fuel ≠ 0)
    unfold recvHeaderLoop
    rw [Prog.bind_run (readN_append (recordHeader_length ty n).symm h)]
    dsimp only
    rw [u16At_recordHeader (by omega), if_neg (by omega),
      if_neg (show (recordHeader ty n).getD 0 0 ≠ 20 from hty)]
    rfl
  | cons c cs ih =>
    obtain ⟨f, rfl⟩ := Nat.exists_eq_succ_of_ne_zero (by omega : fuel ≠ 0)
    have hcons : s.inp = c.bytes ++ (ccsBytes cs ++ (recordHeader ty n ++ rest)) := by
      rw [h, ccsBytes, flatMap_cons, append_assoc]
      rfl
    rw [recvHeaderLoop_cons hcons]
    exact ih (by rw [length_cons] at hfuel; omega) rfl

theorem ccs_length_le (cs : List Ccs) : cs.length ≤ (ccsBytes cs).length := by
  induction cs with
  | nil => exact Nat.le_refl 0
  | cons c cs ih =>
    have hb : 5 ≤ c.bytes.length := by simp [Ccs.bytes, be16]
    have hcons : ccsBytes (c :: cs) = c.bytes ++ ccsBytes cs := flatMap_cons
    rw [hcons, length_append, length_cons]
    omega

theorem recvHeader_ccs (hty : ty ≠ 20) (hn : n ≤ 6144 + 256)
    (h : s.inp = ccsBytes cs ++ (recordHeader ty n ++ rest)) :
    recvHeader s = .ok (some (recordHeader ty n)) { s with inp := rest } := by
  have hle := ccs_length_le cs
  have hlen : cs.length < s.inp.length + 1 := by
    rw [h, length_append]
    omega
  exact recvHeaderLoop_ccs hlen hty hn h

/-- The record that `send_record` writes. -/
def plainRecord (ty : UInt8) (frag : Bytes) : Bytes := recordHeader ty frag.length ++ frag

theorem sendRecord_run {frag : Bytes}
    (hlen : frag.length ≤ 6144 + 256) (h : s.sends = []) :
    sendRecord ty frag s = .ok true { s with sent := s.sent ++ plainRecord ty frag } := by
  unfold sendRecord
  rw [if_neg (by omega)]
  exact writeAll_run h

theorem recvPlain_run {t : Array} {frag : Bytes}
    (hty : ty ≠ 20) (hlen : frag.length ≤ 6144 + 256) (hcap : frag.length ≤ t.cap)
    (h : s.inp = ccsBytes cs ++ (plainRecord ty frag ++ rest)) :
    ∃ log, recvPlain t s =
      .ok (some ⟨ty, frag, frag.length⟩) { s with inp := rest, log := log } := by
  have hhdr : recvHeader s =
      .ok (some (recordHeader ty frag.length)) { s with inp := frag ++ rest } :=
    recvHeader_ccs hty hlen (by rw [h, plainRecord, append_assoc])
  obtain ⟨log, hread⟩ := readInto_append (s := { s with inp := frag ++ rest }) (t := t)
    (u16At_recordHeader (by omega) ty) hcap rfl
  refine ⟨log, ?_⟩
  unfold recvPlain
  rw [Prog.bind_run hhdr]
  dsimp only
  rw [Prog.bind_run hread, u16At_recordHeader (by omega)]
  rfl

/-- The record that `send_encrypted` writes. -/
def sealedRecord (k : Keys) (ty : UInt8) (pt : Bytes) : Bytes :=
  let hdr := recordHeader 23 (pt.length + 1 + 16)
  let ct := gcmEncrypt cr k.key (buildNonce k) hdr (pt ++ [ty])
  hdr ++ ct.1 ++ ct.2

theorem sendEncrypted_run {k : Keys} (ty : UInt8)
    (hlen : pt.length ≤ 6144) (h : s.sends = []) :
    ∃ log, sendEncrypted cr k ty pt pt.length s = .ok (true, k.next)
      { s with sent := s.sent ++ sealedRecord cr k ty pt, log := log } := by
  have hguard : ¬ wrap32 ((pt.length : Int) + 1 + 16) > 6144 + 256 := by
    have hwrap : wrap32 ((pt.length : Int) + 1 + 16) = pt.length + 1 + 16 := by
      exact Int.bmod_eq_of_le (by norm_num; omega) (by norm_num; omega)
    omega
  have hcap : ¬ Array.cap .encBuf < (pt.length : Int).toNat + 1 := by
    change ¬ 6144 + 1 < pt.length + 1
    omega
  refine ⟨.encrypt pt.length :: s.log, ?_⟩
  obtain ⟨u, hu⟩ : ∃ u : Conn, u = { s with log := .encrypt pt.length :: s.log } := ⟨_, rfl⟩
  have hstore : store .encBuf ((pt.length : Int).toNat + 1) u = .ok () u := by
    unfold store
    rw [if_neg hcap]
    rfl
  have hwrite : writeAll (sealedRecord cr k ty pt) u =
      .ok true { u with sent := u.sent ++ sealedRecord cr k ty pt } :=
    writeAll_run (by rw [hu]; exact h)
  unfold sendEncrypted
  rw [Prog.bind_run (show note _ s = .ok () u by rw [hu]; rfl), if_neg hguard,
    if_neg (by omega)]
  change (store _ _ >>= _) u = _
  rw [Prog.bind_run hstore, Int.toNat_natCast, take_length]
  change (writeAll (sealedRecord cr k ty pt) >>= fun ok => pure (ok, k.next)) u = _
  rw [Prog.bind_run hwrite, hu]
  rfl

theorem ptEnd_append (h : ty ≠ 0) : ptEnd (pt ++ [ty]) = pt.length := by
  unfold ptEnd
  rw [reverse_append, reverse_singleton, singleton_append, dropWhile_cons,
    if_neg (by simpa using h)]
  simp

theorem recvEncrypted_run {k : Keys} {t : Array}
    (hty : ty ≠ 0) (hlen : pt.length ≤ 6144) (hcap : pt.length + 1 ≤ t.cap)
    (h : s.inp = ccsBytes cs ++ (sealedRecord cr k ty pt ++ rest)) :
    ∃ log, recvEncrypted cr k t s = .ok (some ⟨ty, pt ++ [ty], pt.length⟩, k.next)
      { s with inp := rest, log := log } := by
  obtain ⟨n, hn⟩ : ∃ n, n = pt.length + 1 + 16 := ⟨_, rfl⟩
  obtain ⟨hdr, hhdr⟩ : ∃ hdr, hdr = recordHeader 23 n := ⟨_, rfl⟩
  obtain ⟨ct, hct⟩ : ∃ ct, ct = gcmEncrypt cr k.key (buildNonce k) hdr (pt ++ [ty]) := ⟨_, rfl⟩
  have hctlen : ct.1.length = pt.length + 1 := by
    rw [hct, gcmEncrypt_length, length_append, length_singleton]
  have htaglen : ct.2.length = 16 := by rw [hct, gcmEncrypt_tag_length]
  have hu16 : u16At hdr 3 = n := by rw [hhdr]; exact u16At_recordHeader (by omega) _
  have hseal : sealedRecord cr k ty pt = hdr ++ ct.1 ++ ct.2 := by rw [hct, hhdr, hn]; rfl
  have hread1 : recvHeader s = .ok (some hdr) { s with inp := ct.1 ++ (ct.2 ++ rest) } := by
    have hinp : s.inp = ccsBytes cs ++ (recordHeader 23 n ++ (ct.1 ++ (ct.2 ++ rest))) := by
      rw [h, hseal, hhdr, append_assoc, append_assoc]
    rw [hhdr]
    exact recvHeader_ccs (by decide) (by omega) hinp
  obtain ⟨log, hread2⟩ := readInto_append (s := { s with inp := ct.1 ++ (ct.2 ++ rest) })
    (t := t) (n := n - 16) (by omega) (by omega) rfl
  have hread3 : readN 16 { s with inp := ct.2 ++ rest, log := log } =
      .ok (some ct.2) { s with inp := rest, log := log } := readN_append htaglen.symm rfl
  have hopen : gcmDecrypt cr k.key (buildNonce k) hdr ct.1 ct.2 = some (pt ++ [ty]) := by
    rw [hct]
    exact gcmDecrypt_gcmEncrypt cr ..
  have hlast : (pt ++ [ty]).getD (ptEnd (pt ++ [ty])) 0 = ty := by
    rw [ptEnd_append hty, getD_append_right _ _ _ _ (Nat.le_refl _), Nat.sub_self]
    rfl
  refine ⟨log, ?_⟩
  unfold recvEncrypted
  rw [Prog.bind_run hread1]
  dsimp only
  rw [hu16, if_neg (by omega), Prog.bind_run hread2]
  dsimp only
  rw [Prog.bind_run hread3]
  dsimp only
  rw [hopen]
  dsimp only
  rw [if_neg (by omega), hlast, ptEnd_append hty]
  rfl

end

end AdventOS.Tls
