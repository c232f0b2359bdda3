import AdventOS.Agentd.Requests
import AdventOS.Core.Lines
import AdventOS.Core.Replay

/-!
# agentd's connections (`user/agentd.c`)

The event loop serves four connections, a turn each: it sends a piece of a response, or reads and
dispatches the first line in `req[]`. Requests that wait for a job are parked and answered by
`process_pending_waits`. Notifications are written to a connection in between, around `resp[]`.

A connection remembers, beside its fields, what was read and written, which lines were sent and
for which request, and how it ended.

* `serves`.
* `pipelined_line_lost`: a line that arrives behind another is read and never answered.

The subscriptions, the handlers (whose results are in the labels) and the descriptors are left out.
-/
namespace AdventOS.Agentd.Conns
open Json Requests Lines List Option

/-! ## Model -/

/-- `REQ_MAX` -/
def reqMax : Nat := 4096

/-- `SEND_CHUNK` -/
def sendChunk : Nat := 1024

/-- `MAX_CONN` -/
def maxConn : Nat := 4

def notifBuf : Nat := 1280

def newline : UInt8 := 10

/-- `enum conn_state` -/
inductive ConnState
  | free
  | idle
  | send
  | pendingWait
  deriving DecidableEq

/-- Why a connection was closed. -/
inductive Ending
  | eof
  | writeFailed
  | lineTooLong
  | overflow
  deriving DecidableEq

/-- A line that was put on its way: the response to a request line, or a notification. -/
structure Frame where
  text : Bytes
  line : Option Bytes
  deriving DecidableEq

def Frame.bytes (f : Frame) : Bytes := f.text ++ [newline]

structure Conn where
  state : ConnState
  req : Bytes
  resp : Bytes
  respSent : Nat
  wait : Wait
  /-- All that was read. -/
  received : Bytes
  /-- All that was written. -/
  wire : Bytes
  sent : List Frame
  /-- The request line of a parked connection. -/
  waiting : Option Bytes
  /-- The last turn found nothing to read. -/
  quiet : Bool
  /-- The peer is gone. -/
  gone : Bool
  ending : Option Ending

/-- agentd.c:3679-3728 -/
def Conn.close (c : Conn) (e : Ending) : Conn :=
  { c with state := .free, req := [], resp := [], respSent := 0, ending := some e }

/-- The kernel takes up to `taken` bytes, none when the write fails.
agentd.c:3652-3677 -/
def Conn.trySendMore (c : Conn) (taken : Nat) : Conn :=
  if c.state = .send then
    let wn := min taken (min sendChunk (c.resp.length - c.respSent))
    if wn = 0 then c.close .writeFailed
    else
      let c := { c with
        respSent := c.respSent + wn
        wire := c.wire ++ (c.resp.drop c.respSent).take wn }
      if c.resp.length ≤ c.respSent then { c with state := .idle, resp := [], respSent := 0 } else c
  else c

/-- agentd.c:3733-3739 -/
def Conn.prepareSend (c : Conn) (text line : Bytes) : Conn :=
  (Agentd.prepareSend text).elim c fun resp =>
    { c with
      state := .send
      resp := resp
      respSent := 0
      sent := c.sent ++ [⟨text, some line⟩]
      waiting := none }

/-- What a turn meets: the bytes that `sys_read` returns (none when it would block, the empty list
at the end of the stream), the result of the handler, and how much of the response is taken. -/
structure Io where
  read : Option Bytes
  handler : Option Outcome
  taken : Nat

/-- The first line is dispatched and consumed. agentd.c:3785-3802 -/
def Conn.dispatchLine (jobs : Nat → JobEnd) (now : UInt32) (c : Conn) (io : Io) : Conn :=
  let line := c.req.takeWhile (· ≠ newline)
  let rest := (c.req.dropWhile (· ≠ newline)).drop 1
  match dispatch jobs now line io.handler with
  | .parked w => { c with state := .pendingWait, req := rest, wait := w, waiting := some line }
  | .result t => (({ c with req := rest } : Conn).prepareSend t line).trySendMore io.taken
  | .error id code msg =>
    (({ c with req := rest } : Conn).prepareSend (respErrorMsg id code msg) line).trySendMore io.taken

/-- What is read is put behind what is there. -/
def Conn.take (c : Conn) (b : Bytes) : Conn :=
  { c with req := c.req ++ b, received := c.received ++ b, quiet := false }

/-- agentd.c:3755-3784 -/
def Conn.readMore (jobs : Nat → JobEnd) (now : UInt32) (c : Conn) (io : Io) : Conn :=
  io.read.elim { c with quiet := true } fun b =>
    let b := b.take (reqMax - c.req.length)
    if b = [] then c.close .eof
    else if newline ∈ (c.take b).req then (c.take b).dispatchLine jobs now io
    else if reqMax ≤ (c.take b).req.length then (c.take b).close .lineTooLong
    else c.take b

/-- agentd.c:3745-3802 -/
def Conn.tryDispatchOneRequest (jobs : Nat → JobEnd) (now : UInt32) (c : Conn) (io : Io) : Conn :=
  match c.state with
  | .free => c
  | .send => c.trySendMore io.taken
  | .pendingWait => c
  | .idle => if reqMax ≤ c.req.length then c.close .lineTooLong else c.readMore jobs now io

def Conn.jobDone (jobs : Nat → JobEnd) (c : Conn) : Bool :=
  c.wait.job < Jobs.jobMax && (jobs c.wait.job).state = .exit

def Conn.timedOut (jobs : Nat → JobEnd) (now : UInt32) (c : Conn) : Bool :=
  !c.jobDone jobs && (c.wait.deadlineMs - now).toInt32 ≤ 0

/-- One round of `process_pending_waits`; agentd.c:3871-3930 -/
def Conn.resolve (jobs : Nat → JobEnd) (now : UInt32) (c : Conn) (taken : Nat) : Conn :=
  if c.state = .pendingWait ∧ (c.jobDone jobs || c.timedOut jobs now) = true then
    (deferredText c.wait (jobs c.wait.job) (c.timedOut jobs now)).elim (c.close .overflow) fun text =>
      (c.prepareSend text (c.waiting.getD [])).trySendMore taken
  else c

/-- The bytes that the writes of a notification take, behind the last of which the next write
fails. agentd.c:3452-3461 -/
def writeLoop : Bytes → List Nat → Bytes
  | _, [] => []
  | buf, wn :: ws =>
    if min wn buf.length = 0 then [] else buf.take wn ++ writeLoop (buf.drop wn) ws

/-- agentd.c:3440-3444 -/
def Conn.idleForNotif (c : Conn) : Bool := c.state ≠ .free && c.state ≠ .send

/-- The notification `note` is in a buffer of its own. agentd.c:3446-3462, and the
bounds of its callers, such as 3483-3486 -/
def Conn.sendNotif (c : Conn) (note : Result) (writes : List Nat) : Conn :=
  if note.text.length + 1 < notifBuf ∧ c.idleForNotif = true then
    let buf := note.text ++ [newline]
    let out := writeLoop buf writes
    { c with
      wire := c.wire ++ out
      sent := if out = buf then c.sent ++ [⟨note.text, none⟩] else c.sent }
  else c

/-- A connection that was just accepted in the slot; agentd.c:3964-3973 -/
def Conn.added (c : Conn) : Conn where
  state := .idle
  req := []
  resp := []
  respSent := 0
  wait := c.wait
  received := []
  wire := []
  sent := []
  waiting := none
  quiet := false
  gone := false
  ending := none

/-- `resolved`: the waits have been looked at since the last tick. -/
structure Sys where
  conns : Nat → Conn
  jobs : Nat → JobEnd
  now : UInt32
  resolved : Bool

/-- A piece of the event loop, or something around it: `jobs` is what becomes of the job table,
`reset` a peer that goes away. What a handler notifies while a line is dispatched is a `notify`
before that turn. -/
inductive Label
  | accept
  | service (i : Nat) (io : Io)
  | jobs (t : Nat → JobEnd)
  | notify (i : Nat) (note : Result) (writes : List Nat)
  | resolve (taken : Nat → Nat)
  | tick
  | reset (i : Nat)

def Sys.update (s : Sys) (i : Nat) (f : Conn → Conn) : Sys :=
  { s with conns := Function.update s.conns i (f (s.conns i)) }

/-- agentd.c:3964-3978 -/
def Sys.addConn (s : Sys) : Sys :=
  ((List.range maxConn).find? fun i => (s.conns i).state = .free).elim s fun i =>
    s.update i Conn.added

/-- agentd.c:4015-4090 -/
def step (s : Sys) : Label → Option Sys
  | .accept => if s.resolved = false then some s.addConn else none
  | .service i io =>
    if s.resolved = false ∧ i < maxConn then
      some (s.update i fun c => c.tryDispatchOneRequest s.jobs s.now io)
    else none
  | .jobs t => some { s with jobs := t }
  | .notify i note writes =>
    if i < maxConn then some (s.update i fun c => c.sendNotif note writes) else none
  | .resolve taken =>
    if s.resolved = false then
      some { s with
        conns := fun i => if i < maxConn then (s.conns i).resolve s.jobs s.now (taken i)
          else s.conns i
        resolved := true }
    else none
  | .tick => if s.resolved = true then some { s with now := s.now + 10, resolved := false } else none
  | .reset i =>
    if i < maxConn then some (s.update i fun c => { c with gone := true }) else none

def Conn.Blank (c : Conn) : Prop :=
  c.state = .free ∧ c.received = [] ∧ c.wire = [] ∧ c.sent = [] ∧ c.ending = none ∧
    c.quiet = false ∧ c.waiting = none

def agentdLTS : LTS Sys Label :=
  LTS.ofFn (fun s => s.resolved = false ∧ ∀ i, (s.conns i).Blank) step

/-! ## What is to hold -/

/-- The request lines that were answered, in the order of the responses. -/
def Conn.answered (c : Conn) : List Bytes := c.sent.filterMap Frame.line

structure Served (c : Conn) : Prop where
  /-- What is written are these lines, cut off at most where the response in flight ends. -/
  written : c.wire <+: c.sent.flatMap Frame.bytes
  whole : c.state ≠ .send → c.ending ≠ some .writeFailed → c.wire = c.sent.flatMap Frame.bytes
  /-- Each is one JSON text. -/
  json : ∀ f ∈ c.sent, newline ∉ f.text ∧ ∃ raw, Text f.text raw
  /-- A response has the id of its request. -/
  ids : ∀ f ∈ c.sent, ∀ line ∈ f.line, Answers line f.text
  /-- One for each of the first lines, in order. -/
  order : c.answered <+: lines newline c.received
  /-- No line is left when there is nothing more to read. -/
  all : c.quiet = true ∨ c.ending = some .eof → c.answered = lines newline c.received
  /-- The connection ends with the stream, or because the peer is gone. -/
  ends : ∀ e ∈ c.ending, e = .eof ∨ e = .writeFailed ∧ c.gone = true

/-- The time left to a parked connection, at most five minutes; it is up for less than a turn. -/
def Timely (s : Sys) (c : Conn) : Prop :=
  c.state = .pendingWait →
    -10 < (c.wait.deadlineMs - s.now).toInt32.toInt ∧
      (c.wait.deadlineMs - s.now).toInt32.toInt ≤ waitMaxMs ∧
      (s.resolved = true → 0 < (c.wait.deadlineMs - s.now).toInt32.toInt)

/-- A line that can be answered: with an id that can be echoed, and a response that fits. -/
def LineOk (jobs : Nat → JobEnd) (now : UInt32) (line : Bytes) (h : Option Outcome) : Prop :=
  IdSafe line ∧ (dispatch jobs now line h).Whole (lineId line)

/-- What is read of an idle connection: when it is nothing, no complete line is left in the
buffer; else a line is no longer than the buffer, and the first one can be answered. -/
def ReadOk (jobs : Nat → JobEnd) (now : UInt32) (c : Conn) (io : Io) : Prop :=
  io.read.elim (newline ∉ c.req) fun b =>
    let b := b.take (reqMax - c.req.length)
    if b = [] then newline ∉ c.req
    else if newline ∈ c.req ++ b then
      LineOk jobs now ((c.req ++ b).takeWhile (· ≠ newline)) io.handler ∧
        (c.gone = true ∨ 0 < io.taken)
    else (c.req ++ b).length < reqMax

/-- Reads as above; a write of a response takes something unless the peer is gone; a notification
is written whole or not at all. -/
def Careful (s : Sys) : Label → Prop
  | .service i io =>
    ((s.conns i).state = .idle → ReadOk s.jobs s.now (s.conns i) io) ∧
      ((s.conns i).state = .send → (s.conns i).gone = true ∨ 0 < io.taken)
  | .notify _ note writes =>
    writeLoop (note.text ++ [newline]) writes = [] ∨
      writeLoop (note.text ++ [newline]) writes = note.text ++ [newline]
  | .resolve taken =>
    ∀ i < maxConn, (s.conns i).state = .pendingWait → (s.conns i).gone = true ∨ 0 < taken i
  | _ => True

/-! ## Invariant -/

/-- What is still to be written of the frames: the rest of the response in flight. -/
def Conn.Rest (c : Conn) (rest : Bytes) : Prop :=
  c.wire ++ rest = c.sent.flatMap Frame.bytes ∧
    (c.state = .send → rest = c.resp.drop c.respSent ∧ rest ≠ []) ∧
    (c.state ≠ .send → c.ending ≠ some .writeFailed → rest = [])

/-- The lines that came in are the answered ones, the parked one, and those in the buffer. -/
def Conn.Books (c : Conn) (parked : List Bytes) : Prop :=
  lines newline c.received = c.answered ++ (parked ++ lines newline c.req) ∧
    unfinished newline c.received = unfinished newline c.req ∧ c.req.length < reqMax

def FramesOk (fs : List Frame) : Prop :=
  ∀ f ∈ fs, (newline ∉ f.text ∧ ∃ raw, Text f.text raw) ∧ ∀ line ∈ f.line, Answers line f.text

structure Inv (c : Conn) : Prop where
  frames : FramesOk c.sent
  rest : ∃ rest, c.Rest rest
  books : c.state ≠ .free → c.ending = none ∧ c.Books c.waiting.toList
  parked : c.state = .pendingWait → ∃ line, c.waiting = some line ∧ ∀ j t, ∃ text,
    deferredText c.wait j t = some text ∧ Reply line text
  notParked : c.state ≠ .pendingWait → c.waiting = none
  order : c.answered <+: lines newline c.received
  all : c.quiet = true ∨ c.ending = some .eof → c.answered = lines newline c.received
  ends : ∀ e ∈ c.ending, e = .eof ∨ e = .writeFailed ∧ c.gone = true

theorem FramesOk.snoc {fs : List Frame} {f : Frame} (h : FramesOk fs)
    (hf : (newline ∉ f.text ∧ ∃ raw, Text f.text raw) ∧ ∀ line ∈ f.line, Answers line f.text) :
    FramesOk (fs ++ [f]) := by
  intro g hg
  rcases mem_append.mp hg with hg | hg
  · exact h g hg
  · exact mem_singleton.mp hg ▸ hf

variable {c : Conn} {line text b : Bytes} {taken : Nat} {jobs : Nat → JobEnd} {now : UInt32}

theorem Conn.Blank.inv (h : c.Blank) : Inv c := by
  obtain ⟨hstate, -, hwire, hsent, hend, hquiet, hwaiting⟩ := h
  have hanswered : c.answered = [] := by
    unfold Conn.answered
    rw [hsent]
    rfl
  exact {
    frames := hsent ▸ forall_mem_nil _
    rest := by
      refine ⟨[], ?_, fun hs => ?_, fun _ _ => rfl⟩
      · rw [hwire, hsent]
        rfl
      · rw [hstate] at hs
        cases hs
    books := fun hs => absurd hstate hs
    parked := by
      intro hs
      rw [hstate] at hs
      cases hs
    notParked := fun _ => hwaiting
    order := hanswered ▸ nil_prefix
    all := by
      rintro (hq | he)
      · rw [hquiet] at hq
        cases hq
      · rw [hend] at he
        cases he
    ends := by
      intro e he
      rw [hend] at he
      cases he }

/-! ## Closing and sending -/

theorem Inv.closeEof (h : Inv c) (hs : c.state = .idle) (hreq : newline ∉ c.req) :
    Inv (c.close .eof) := by
  have hidle : c.state ≠ .pendingWait ∧ c.state ≠ .send ∧ c.state ≠ .free := by rw [hs]; decide
  obtain ⟨hend, hlines, -⟩ := h.books hidle.2.2
  obtain ⟨rest, hflat, -, hnil⟩ := h.rest
  have hrest : rest = [] := hnil hidle.2.1 (by rw [hend]; decide)
  rw [h.notParked hidle.1, lines_of_notMem hreq] at hlines
  exact {
    frames := h.frames
    rest := ⟨rest, hflat, fun hs => (nomatch hs), fun _ _ => hrest⟩
    books := fun hs => absurd rfl hs
    parked := fun hs => (nomatch hs)
    notParked := fun _ => h.notParked hidle.1
    order := h.order
    all := fun _ => (hlines.trans (append_nil _)).symm
    ends := fun e he => .inl (Option.some.inj he).symm }

theorem Inv.closeFailed (h : Inv c) (hs : c.state = .send) (hg : c.gone = true) :
    Inv (c.close .writeFailed) := by
  obtain ⟨rest, hflat, -⟩ := h.rest
  exact {
    frames := h.frames
    rest := ⟨rest, hflat, fun hs => (nomatch hs), fun _ hne => absurd rfl hne⟩
    books := fun hs => absurd rfl hs
    parked := fun hs => (nomatch hs)
    notParked := fun _ => h.notParked (by rw [hs]; decide)
    order := h.order
    all := fun ha => h.all (ha.imp_right fun he => (nomatch he))
    ends := fun e he => .inr ⟨(Option.some.inj he).symm, hg⟩ }

theorem Inv.trySendMore (h : Inv c) (hs : c.state = .send) (ht : c.gone = true ∨ 0 < taken) :
    Inv (c.trySendMore taken) := by
  have hfree : c.state ≠ .free := by rw [hs]; decide
  have hpend : c.state ≠ .pendingWait := by rw [hs]; decide
  obtain ⟨rest, hflat, hsend, -⟩ := h.rest
  obtain ⟨rfl, hne⟩ := hsend hs
  have hroom : 0 < c.resp.length - c.respSent := by
    rw [← length_drop]
    exact length_pos_of_ne_nil hne
  unfold Conn.trySendMore
  rw [if_pos hs]
  dsimp only
  split
  · rename_i hzero
    refine h.closeFailed hs (ht.resolve_right fun hpos => ?_)
    unfold sendChunk at hzero
    omega
  · generalize hw : min taken (min sendChunk (c.resp.length - c.respSent)) = wn at *
    have hsplit : (c.resp.drop c.respSent).take wn ++ c.resp.drop (c.respSent + wn) =
        c.resp.drop c.respSent := by
      rw [← drop_drop]
      exact take_append_drop _ _
    split
    · rename_i hdone
      have hend : c.resp.drop (c.respSent + wn) = [] := drop_eq_nil_of_le hdone
      exact {
        frames := h.frames
        rest := by
          refine ⟨[], ?_, fun hs => (nomatch hs), fun _ _ => rfl⟩
          rw [hend, append_nil] at hsplit
          rw [append_nil, hsplit]
          exact hflat
        books := fun _ => h.books hfree
        parked := fun hs => (nomatch hs)
        notParked := fun _ => h.notParked hpend
        order := h.order
        all := h.all
        ends := h.ends }
    · rename_i hmore
      exact {
        frames := h.frames
        rest := by
          refine ⟨c.resp.drop (c.respSent + wn), ?_, fun _ => ⟨rfl, fun hnil => ?_⟩,
            fun hne => absurd hs hne⟩
          · rw [append_assoc, hsplit]
            exact hflat
          · exact hmore (drop_eq_nil_iff.mp hnil)
        books := fun _ => h.books hfree
        parked := fun hp => absurd hp hpend
        notParked := fun _ => h.notParked hpend
        order := h.order
        all := h.all
        ends := h.ends }

/-! ## Answering a line -/

/-- The connection owes the response to one line, before those in the buffer. -/
structure Ready (c : Conn) (line : Bytes) : Prop where
  frames : FramesOk c.sent
  wire : c.wire = c.sent.flatMap Frame.bytes
  ending : c.ending = none
  books : c.Books [line]
  quiet : c.quiet = false

theorem Ready.not_all {p : Prop} (h : Ready c line) :
    c.quiet = true ∨ c.ending = some .eof → p := by
  rintro (hq | he)
  · rw [h.quiet] at hq
    cases hq
  · rw [h.ending] at he
    cases he

theorem Ready.not_ends {p : Ending → Prop} (h : Ready c line) : ∀ e ∈ c.ending, p e := by
  intro e he
  rw [h.ending] at he
  cases he

theorem Ready.replied (h : Ready c line) (hr : Reply line text) :
    Inv (c.prepareSend text line) ∧ (c.prepareSend text line).state = .send ∧
      (c.prepareSend text line).gone = c.gone := by
  obtain ⟨hlines, hunf, hlen⟩ := h.books
  let f : Frame := ⟨text, some line⟩
  have hanswered : (c.sent ++ [f]).filterMap Frame.line = c.answered ++ [line] := by
    rw [filterMap_append]
    rfl
  have hflat : [f].flatMap Frame.bytes = text ++ [10] := append_nil _
  have hbooks : lines newline c.received =
      (c.sent ++ [f]).filterMap Frame.line ++ lines newline c.req := by
    rw [hanswered, hlines, append_assoc]
  unfold Conn.prepareSend
  rw [hr.sent, elim_some]
  refine ⟨?_, rfl, rfl⟩
  exact {
    frames := h.frames.snoc ⟨⟨hr.answers.1, hr.answers.2.imp fun _ hx => hx.1⟩,
      fun l hl => Option.some.inj hl ▸ hr.answers⟩
    rest := by
      refine ⟨text ++ [10], ?_, fun _ => ⟨rfl, fun hnil => ?_⟩, fun hne => absurd rfl hne⟩
      · rw [flatMap_append, h.wire, hflat]
      · exact append_ne_nil_of_right_ne_nil _ (cons_ne_nil _ _) hnil
    books := fun _ => ⟨h.ending, hbooks, hunf, hlen⟩
    parked := fun hs => (nomatch hs)
    notParked := fun _ => rfl
    order := ⟨_, hbooks.symm⟩
    all := h.not_all
    ends := h.not_ends }

theorem Ready.parked {w : Wait} (h : Ready c line)
    (hw : ∀ j t, ∃ text, deferredText w j t = some text ∧ Reply line text) :
    Inv { c with state := .pendingWait, wait := w, waiting := some line } where
  frames := h.frames
  rest := by
    refine ⟨[], ?_, fun hs => (nomatch hs), fun _ _ => rfl⟩
    rw [append_nil, h.wire]
  books := fun _ => ⟨h.ending, h.books⟩
  parked := fun _ => ⟨line, rfl, hw⟩
  notParked := fun hs => absurd rfl hs
  order := ⟨_, h.books.1.symm⟩
  all := h.not_all
  ends := h.not_ends

theorem Inv.ready (h : Inv c) (hs : c.state = .pendingWait) (hw : c.waiting = some line) :
    Ready c line := by
  obtain ⟨hend, hbooks⟩ := h.books (by rw [hs]; decide)
  rw [hw] at hbooks
  obtain ⟨rest, hflat, -, hnil⟩ := h.rest
  have hrest : rest = [] := hnil (by rw [hs]; decide) (by rw [hend]; decide)
  rw [hrest, append_nil] at hflat
  refine ⟨h.frames, hflat, hend, hbooks, ?_⟩
  by_contra hq
  have hall := h.all (.inl (Bool.eq_true_of_not_eq_false hq))
  have hlen := congrArg List.length (hall.trans hbooks.1)
  simp only [length_append, toList_some, length_singleton] at hlen
  omega

/-! ## A turn of a connection -/

theorem Inv.take_lines (h : Inv c) (hs : c.state = .idle) :
    lines newline (c.take b).received = c.answered ++ lines newline (c.req ++ b) ∧
      unfinished newline (c.take b).received = unfinished newline (c.req ++ b) := by
  obtain ⟨-, hlines, hunf, -⟩ := h.books (by rw [hs]; decide)
  rw [h.notParked (by rw [hs]; decide)] at hlines
  constructor
  · show lines newline (c.received ++ b) = _
    rw [lines_append, hlines, hunf, @lines_append _ _ newline c.req b]
    show (c.answered ++ lines newline c.req) ++ _ = _
    rw [append_assoc]
  · show unfinished newline (c.received ++ b) = _
    rw [unfinished_append, hunf, ← unfinished_append]

theorem Inv.wire_idle (h : Inv c) (hs : c.state = .idle) : c.wire = c.sent.flatMap Frame.bytes := by
  obtain ⟨hend, -⟩ := h.books (by rw [hs]; decide)
  obtain ⟨rest, hflat, -, hnil⟩ := h.rest
  rw [hnil (by rw [hs]; decide) (by rw [hend]; decide), append_nil] at hflat
  exact hflat

theorem Inv.takeShort (h : Inv c) (hs : c.state = .idle)
    (hlen : (c.req ++ b).length < reqMax) : Inv (c.take b) := by
  obtain ⟨hend, -⟩ := h.books (by rw [hs]; decide)
  obtain ⟨hlines, hunf⟩ := h.take_lines (b := b) hs
  have hwaiting : c.waiting = none := h.notParked (by rw [hs]; decide)
  exact {
    frames := h.frames
    rest := h.rest
    books := fun _ => by
      refine ⟨hend, ?_, hunf, hlen⟩
      show lines newline (c.take b).received = c.answered ++ (c.waiting.toList ++ _)
      rw [hwaiting]
      exact hlines
    parked := fun hp => absurd (hs.symm.trans hp) (by decide)
    notParked := fun _ => hwaiting
    order := ⟨_, hlines.symm⟩
    all := by
      rintro (hq | he)
      · cases hq
      · exact absurd (hend.symm.trans he) (by decide)
    ends := h.ends }

theorem Inv.takeLine (h : Inv c) (hs : c.state = .idle) (hb : newline ∈ c.req ++ b)
    (hlen : (c.req ++ b).length ≤ reqMax) :
    Ready { c.take b with req := ((c.req ++ b).dropWhile (· ≠ newline)).drop 1 }
      ((c.req ++ b).takeWhile (· ≠ newline)) := by
  obtain ⟨hend, -⟩ := h.books (by rw [hs]; decide)
  obtain ⟨hlines, hunf⟩ := h.take_lines (b := b) hs
  have hsplit := takeWhile_line hb
  have hnot : newline ∉ (c.req ++ b).takeWhile (· ≠ newline) := takeWhile_notMem
  refine ⟨h.frames, h.wire_idle hs, hend, ⟨?_, ?_, ?_⟩, rfl⟩
  · refine hlines.trans ?_
    rw [hsplit, lines_cons hnot, ← hsplit]
    rfl
  · refine hunf.trans ?_
    rw [hsplit, unfinished_cons, ← hsplit]
  · have hcount := congrArg List.length hsplit
    simp only [length_append, length_cons] at hcount hlen
    show (((c.req ++ b).dropWhile (· ≠ newline)).drop 1).length < reqMax
    omega

variable {io : Io} {k : Nat} {s : Sys}

theorem dispatchLine_inv (h : Ready { c with req := (c.req.dropWhile (· ≠ newline)).drop 1 }
      (c.req.takeWhile (· ≠ newline)))
    (hline : LineOk jobs now (c.req.takeWhile (· ≠ newline)) io.handler)
    (ht : c.gone = true ∨ 0 < io.taken) : Inv (c.dispatchLine jobs now io) := by
  have hreply : ∀ text, Reply (c.req.takeWhile (· ≠ newline)) text →
      Inv ((({ c with req := (c.req.dropWhile (· ≠ newline)).drop 1 } : Conn).prepareSend text
        (c.req.takeWhile (· ≠ newline))).trySendMore io.taken) := by
    intro text hr
    obtain ⟨hinv, hstate, hgone⟩ := h.replied hr
    exact hinv.trySendMore hstate (by rw [hgone]; exact ht)
  have hd := dispatch_replies hline.1 hline.2
  unfold Conn.dispatchLine
  dsimp only
  split
  · rename_i w hw
    rcases hd with ⟨w', hw', hdef⟩ | ⟨hno, -⟩
    · obtain rfl : w' = w := Dispatched.parked.inj (hw'.symm.trans hw)
      exact h.parked hdef
    · exact absurd hw (hno w)
  · rename_i t hres
    rcases hd with ⟨w', hw', -⟩ | ⟨-, hr⟩
    · exact nomatch hw'.symm.trans hres
    · rw [hres] at hr
      exact hreply t hr
  · rename_i id code msg hres
    rcases hd with ⟨w', hw', -⟩ | ⟨-, hr⟩
    · exact nomatch hw'.symm.trans hres
    · rw [hres] at hr
      exact hreply _ hr

theorem Inv.quieted (h : Inv c) (hs : c.state = .idle) (hreq : newline ∉ c.req) :
    Inv { c with quiet := true } := by
  obtain ⟨-, hlines, -⟩ := h.books (by rw [hs]; decide)
  rw [h.notParked (by rw [hs]; decide), lines_of_notMem hreq] at hlines
  exact {
    frames := h.frames
    rest := h.rest
    books := h.books
    parked := h.parked
    notParked := h.notParked
    order := h.order
    all := fun _ => (hlines.trans (append_nil _)).symm
    ends := h.ends }

theorem Inv.readMore (h : Inv c) (hs : c.state = .idle) (hok : ReadOk jobs now c io) :
    Inv (c.readMore jobs now io) := by
  unfold Conn.readMore
  unfold ReadOk at hok
  cases hr : io.read with
  | none =>
    rw [hr] at hok
    exact h.quieted hs hok
  | some b =>
    rw [hr] at hok
    dsimp only [elim_some] at hok ⊢
    split at hok
    · rename_i hnil
      rw [if_pos hnil]
      exact h.closeEof hs hok
    · rename_i hne
      rw [if_neg hne]
      obtain ⟨-, -, -, hreq⟩ := h.books (by rw [hs]; decide)
      have hlen : (c.req ++ b.take (reqMax - c.req.length)).length ≤ reqMax := by
        rw [length_append, length_take]
        omega
      split at hok
      · rename_i hline
        rw [if_pos (show newline ∈ (c.take (b.take (reqMax - c.req.length))).req from hline)]
        exact dispatchLine_inv (h.takeLine hs hline hlen) hok.1 hok.2
      · rename_i hline
        rw [if_neg (show ¬newline ∈ (c.take (b.take (reqMax - c.req.length))).req from hline),
          if_neg (show ¬reqMax ≤ (c.take (b.take (reqMax - c.req.length))).req.length from
            Nat.not_le_of_lt hok)]
        exact h.takeShort hs hok

theorem Inv.service (h : Inv c) (hok : c.state = .idle → ReadOk jobs now c io)
    (ht : c.state = .send → c.gone = true ∨ 0 < io.taken) :
    Inv (c.tryDispatchOneRequest jobs now io) := by
  unfold Conn.tryDispatchOneRequest
  cases hs : c.state with
  | free => exact h
  | send => exact h.trySendMore hs (ht hs)
  | pendingWait => exact h
  | idle =>
    obtain ⟨-, -, -, hreq⟩ := h.books (by rw [hs]; decide)
    rw [if_neg (Nat.not_le_of_lt hreq)]
    exact h.readMore hs (hok hs)

/-! ## The resolver, notifications and new connections -/

theorem note_text (note : Result) : Text note.text note.raw := by
  have h := note.reads [] fun c hc => (nomatch hc)
  rw [append_nil] at h
  exact ⟨_, _, .nil, h, .nil⟩

theorem Inv.resolve (h : Inv c) (ht : c.state = .pendingWait → c.gone = true ∨ 0 < taken) :
    Inv (c.resolve jobs now taken) := by
  unfold Conn.resolve
  split
  · rename_i hdue
    obtain ⟨line, hw, hdef⟩ := h.parked hdue.1
    obtain ⟨text, htext, hr⟩ := hdef (jobs c.wait.job) (c.timedOut jobs now)
    obtain ⟨hinv, hstate, hgone⟩ := (h.ready hdue.1 hw).replied hr
    rw [htext, hw]
    exact hinv.trySendMore hstate (by rw [hgone]; exact ht hdue.1)
  · exact h

theorem Inv.notified (h : Inv c) {note : Result} {writes : List Nat}
    (hw : writeLoop (note.text ++ [newline]) writes = [] ∨
      writeLoop (note.text ++ [newline]) writes = note.text ++ [newline]) :
    Inv (c.sendNotif note writes) := by
  unfold Conn.sendNotif
  split
  · rename_i hguard
    have hstate : c.state ≠ .free ∧ c.state ≠ .send := by
      have hidle := hguard.2
      unfold Conn.idleForNotif at hidle
      simpa using hidle
    obtain ⟨hend, hbooks⟩ := h.books hstate.1
    obtain ⟨rest, hflat, -, hnil⟩ := h.rest
    rw [hnil hstate.2 (by rw [hend]; decide), append_nil] at hflat
    dsimp only
    rcases hw with hw | hw
    · have hne : ¬([] : Bytes) = note.text ++ [newline] :=
        fun he => append_ne_nil_of_right_ne_nil _ (cons_ne_nil _ _) he.symm
      rw [hw, if_neg hne, append_nil]
      exact h
    · rw [hw, if_pos rfl]
      have hkeep : (c.sent ++ [(⟨note.text, none⟩ : Frame)]).filterMap Frame.line = c.answered := by
        rw [filterMap_append]
        exact append_nil _
      exact {
        frames := h.frames.snoc ⟨⟨note.line, _, note_text note⟩, fun _ hl => (nomatch hl)⟩
        rest := by
          refine ⟨[], ?_, fun hs => absurd hs hstate.2, fun _ _ => rfl⟩
          rw [append_nil, flatMap_append, hflat]
          exact congrArg _ (append_nil _).symm
        books := fun _ => by
          refine ⟨hend, ?_, hbooks.2⟩
          show _ = (c.sent ++ [(⟨note.text, none⟩ : Frame)]).filterMap Frame.line ++ _
          rw [hkeep]
          exact hbooks.1
        parked := h.parked
        notParked := h.notParked
        order := by
          show (c.sent ++ [(⟨note.text, none⟩ : Frame)]).filterMap Frame.line <+: _
          rw [hkeep]
          exact h.order
        all := fun ha => hkeep.trans (h.all ha)
        ends := h.ends }
  · exact h

theorem Inv.added (c : Conn) : Inv c.added where
  frames := forall_mem_nil _
  rest := ⟨[], rfl, fun hs => (nomatch hs), fun _ _ => rfl⟩
  books := fun _ => ⟨rfl, rfl, rfl, (by decide : 0 < reqMax)⟩
  parked := fun hs => (nomatch hs)
  notParked := fun _ => rfl
  order := nil_prefix
  all := fun _ => rfl
  ends := fun _ he => (nomatch he)

theorem Inv.reset (h : Inv c) : Inv { c with gone := true } where
  frames := h.frames
  rest := h.rest
  books := h.books
  parked := h.parked
  notParked := h.notParked
  order := h.order
  all := h.all
  ends := fun e he => (h.ends e he).imp_right fun hw => ⟨hw.1, rfl⟩

/-! ## Waiting -/

/-- The deadline is `k - 10` ms away. -/
def Conn.Left (now : UInt32) (c : Conn) (k : Nat) : Prop :=
  c.wait.deadlineMs + 10 = now + UInt32.ofNat k ∧ 0 < k ∧ (k : Int) ≤ waitMaxMs + 10

/-- The time left to a parked connection, as `Timely` has it. -/
def Conn.InTime (now : UInt32) (resolved : Bool) (c : Conn) : Prop :=
  c.state = .pendingWait → ∃ k, c.Left now k ∧ (resolved = true → 10 < k)

theorem toInt_near {x : UInt32} (h : (x.toNat + 10) % 2 ^ 32 = k) (hk : k ≤ 300010) :
    x.toInt32.toInt = (k : Int) - 10 := by
  have hbv : x.toInt32.toInt = (x.toNat : Int).bmod (2 ^ 32) := by
    rw [Int32.toInt, UInt32.toBitVec_toInt32, BitVec.toInt_eq_toNat_bmod]
    rfl
  rw [hbv, Int.bmod_def]
  omega

theorem Conn.Left.toInt (h : c.Left now k) :
    (c.wait.deadlineMs - now).toInt32.toInt = (k : Int) - 10 := by
  obtain ⟨hk, -, hle⟩ := h
  unfold waitMaxMs at hle
  refine toInt_near ?_ (by omega)
  have hnat := congrArg UInt32.toNat hk
  rw [UInt32.toNat_add, UInt32.toNat_add, UInt32.toNat_ofNat'] at hnat
  rw [UInt32.toNat_sub]
  have h10 : (10 : UInt32).toNat = 10 := rfl
  have hnow := now.toNat_lt
  omega

theorem Conn.Left.tick (h : c.Left now k) (hk : 10 < k) : c.Left (now + 10) (k - 10) := by
  obtain ⟨heq, -, hle⟩ := h
  refine ⟨?_, by omega, by omega⟩
  obtain ⟨m, rfl⟩ := Nat.exists_eq_add_of_lt hk
  rw [heq, show 10 + m + 1 - 10 = m + 1 by omega, UInt32.add_assoc,
    show 10 + m + 1 = 10 + (m + 1) by omega, UInt32.ofNat_add 10 (m + 1)]
  rfl

theorem InTime.of_not {resolved : Bool} (h : c.state ≠ .pendingWait) : c.InTime now resolved :=
  fun hs => absurd hs h

theorem trySendMore_not_parked (hs : c.state ≠ .pendingWait) :
    (c.trySendMore taken).state ≠ .pendingWait := by
  unfold Conn.trySendMore
  split
  · dsimp only
    split
    · exact fun h => nomatch h
    · split
      · exact fun h => nomatch h
      · exact hs
  · exact hs

theorem prepareSend_not_parked (hs : c.state ≠ .pendingWait) :
    (c.prepareSend text line).state ≠ .pendingWait := by
  unfold Conn.prepareSend
  cases Agentd.prepareSend text with
  | none => exact hs
  | some resp => exact fun h => nomatch h

theorem dispatchLine_inTime (hs : c.state ≠ .pendingWait) :
    (c.dispatchLine jobs now io).InTime now false := by
  have hrest : ({ c with req := (c.req.dropWhile (· ≠ newline)).drop 1 } : Conn).state ≠
      .pendingWait := hs
  unfold Conn.dispatchLine
  dsimp only
  split
  · rename_i w hw
    have hfor : (dispatch jobs now (c.req.takeWhile (· ≠ newline)) io.handler).For jobs now
        (lineId (c.req.takeWhile (· ≠ newline))) := dispatch_for _ _
    rw [hw] at hfor
    obtain ⟨-, -, -, ms, hms, hdeadline⟩ := hfor
    refine fun _ => ⟨ms + 10, ⟨?_, by omega, by omega⟩, fun hr => (nomatch hr)⟩
    rw [hdeadline, UInt32.ofNat_add, UInt32.add_assoc]
    rfl
  · exact InTime.of_not (trySendMore_not_parked (prepareSend_not_parked hrest))
  · exact InTime.of_not (trySendMore_not_parked (prepareSend_not_parked hrest))

theorem service_inTime (h : c.InTime now false) :
    (c.tryDispatchOneRequest jobs now io).InTime now false := by
  unfold Conn.tryDispatchOneRequest
  cases hs : c.state with
  | free => exact h
  | send => exact InTime.of_not (trySendMore_not_parked (by rw [hs]; decide))
  | pendingWait => exact h
  | idle =>
    have hidle : c.state ≠ .pendingWait := by rw [hs]; decide
    dsimp only
    split
    · exact InTime.of_not fun h => nomatch h
    · unfold Conn.readMore
      cases io.read with
      | none => exact InTime.of_not hidle
      | some b =>
        dsimp only [elim_some]
        split
        · exact InTime.of_not fun h => nomatch h
        · split
          · exact dispatchLine_inTime hidle
          · split
            · exact InTime.of_not fun h => nomatch h
            · exact InTime.of_not hidle

theorem notify_inTime {note : Result} {writes : List Nat} {resolved : Bool}
    (h : c.InTime now resolved) : (c.sendNotif note writes).InTime now resolved := by
  unfold Conn.sendNotif
  split
  · exact h
  · exact h

theorem resolve_inTime (hi : Inv c) (h : c.InTime now false) :
    (c.resolve jobs now taken).InTime now true := by
  unfold Conn.resolve
  split
  · rename_i hdue
    obtain ⟨line, hw, hdef⟩ := hi.parked hdue.1
    obtain ⟨text, htext, hr⟩ := hdef (jobs c.wait.job) (c.timedOut jobs now)
    obtain ⟨-, hstate, -⟩ := (hi.ready hdue.1 hw).replied hr
    rw [htext, hw]
    exact InTime.of_not (trySendMore_not_parked (by rw [getD_some, hstate]; decide))
  · rename_i hdue
    intro hs
    obtain ⟨k, hk, -⟩ := h hs
    refine ⟨k, hk, fun _ => ?_⟩
    by_contra hle
    refine hdue ⟨hs, ?_⟩
    unfold Conn.timedOut
    cases c.jobDone jobs with
    | true => rfl
    | false =>
      have hleft : (c.wait.deadlineMs - now).toInt32 ≤ 0 := by
        rw [Int32.le_iff_toInt_le, hk.toInt]
        show (k : Int) - 10 ≤ 0
        omega
      exact decide_eq_true hleft

/-! ## Runs -/

def SysInv (s : Sys) : Prop :=
  ∀ i < maxConn, Inv (s.conns i) ∧ (s.conns i).InTime s.now s.resolved

theorem SysInv.update {f : Conn → Conn} (h : SysInv s) (i : Nat)
    (hf : Inv (f (s.conns i)) ∧ (f (s.conns i)).InTime s.now s.resolved) : SysInv (s.update i f) := by
  intro j hlt
  by_cases hj : j = i
  · subst hj
    show Inv (Function.update s.conns j _ j) ∧ (Function.update s.conns j _ j).InTime _ _
    rw [Function.update_self]
    exact hf
  · show Inv (Function.update s.conns i _ j) ∧ (Function.update s.conns i _ j).InTime _ _
    rw [Function.update_of_ne hj]
    exact h j hlt

theorem inv_step (s : Sys) (l : Label) (s' : Sys) (h : SysInv s)
    (hstep : (agentdLTS.restrict Careful).step s l s') : SysInv s' := by
  obtain ⟨hcare, hstep⟩ := hstep
  cases l with
  | accept =>
    obtain ⟨-, hs⟩ := ite_none_right_eq_some.mp hstep
    cases hs
    unfold Sys.addConn
    cases (List.range maxConn).find? fun i => (s.conns i).state = .free with
    | none => exact h
    | some i => exact h.update i ⟨Inv.added _, InTime.of_not fun h => nomatch h⟩
  | service i io =>
    obtain ⟨⟨hr, hi⟩, hs⟩ := ite_none_right_eq_some.mp hstep
    cases hs
    obtain ⟨hinv, htime⟩ := h i hi
    rw [hr] at htime
    exact h.update i ⟨hinv.service hcare.1 hcare.2, hr ▸ service_inTime htime⟩
  | jobs t =>
    cases hstep
    exact h
  | notify i note writes =>
    obtain ⟨hi, hs⟩ := ite_none_right_eq_some.mp hstep
    cases hs
    exact h.update i ⟨(h i hi).1.notified hcare, notify_inTime (h i hi).2⟩
  | resolve taken =>
    obtain ⟨hr, hs⟩ := ite_none_right_eq_some.mp hstep
    cases hs
    intro i hi
    obtain ⟨hinv, htime⟩ := h i hi
    rw [hr] at htime
    dsimp only
    rw [if_pos hi]
    exact ⟨hinv.resolve (hcare i hi), resolve_inTime hinv htime⟩
  | tick =>
    obtain ⟨hr, hs⟩ := ite_none_right_eq_some.mp hstep
    cases hs
    intro i hi
    obtain ⟨hinv, htime⟩ := h i hi
    refine ⟨hinv, fun hs => ?_⟩
    obtain ⟨k, hk, hpos⟩ := htime hs
    exact ⟨k - 10, hk.tick (hpos hr), fun hr => (nomatch hr)⟩
  | reset i =>
    obtain ⟨hi, hs⟩ := ite_none_right_eq_some.mp hstep
    cases hs
    exact h.update i ⟨(h i hi).1.reset, (h i hi).2⟩

theorem inv_inductive : (agentdLTS.restrict Careful).Inductive SysInv where
  init := fun s h i _ => ⟨(h.2 i).inv, InTime.of_not (by rw [(h.2 i).1]; decide)⟩
  step := inv_step

theorem Inv.served (h : Inv c) : Served c := by
  obtain ⟨rest, hflat, -, hnil⟩ := h.rest
  exact {
    written := ⟨rest, hflat⟩
    whole := by
      intro hs he
      rw [hnil hs he, append_nil] at hflat
      exact hflat
    json := fun f hf => (h.frames f hf).1
    ids := fun f hf => (h.frames f hf).2
    order := h.order
    all := h.all
    ends := h.ends }

theorem Conn.InTime.timely (h : c.InTime s.now s.resolved) : Timely s c := by
  intro hs
  obtain ⟨k, hk, hpos⟩ := h hs
  have hle := hk.2.2
  have hlow := hk.2.1
  rw [hk.toInt]
  exact ⟨by omega, by omega, fun hr => by have := hpos hr; omega⟩

/-! ## Main result -/

/-- In every run whose turns are careful, on every connection: what was written are
whole JSON lines; the responses answer the first lines that came in, one each, in order, with their
ids; when there was nothing more to read, or the stream has ended, they answer all; and a parked
request is answered in time. -/
theorem serves (h : (agentdLTS.restrict Careful).Reachable s) {i : Nat}
    (hi : i < maxConn) : Served (s.conns i) ∧ Timely s (s.conns i) :=
  have hinv := inv_inductive.reachable s h i hi
  ⟨hinv.1.served, hinv.2.timely⟩

/-- The lines of the client fit the buffer. -/
def Promised (s : Sys) : Label → Prop
  | .service i io =>
    ∀ b ∈ io.read, newline ∈ (s.conns i).req ++ b.take (reqMax - (s.conns i).req.length) ∨
      ((s.conns i).req ++ b.take (reqMax - (s.conns i).req.length)).length < reqMax
  | _ => True

def boot : Sys where
  conns := fun _ => ⟨.free, [], [], 0, ⟨0, 0, ⟨false, 0, []⟩, false⟩, [], [], [], none, false,
    false, none⟩
  jobs := fun _ => ⟨.free, 0⟩
  now := 0
  resolved := false

/-- `{"jsonrpc":"2.0","id":7,"method":"m"}` -/
def callTree : Value :=
  .obj [jsonrpc, (idKey, .num 7), (chars ['m', 'e', 't', 'h', 'o', 'd'], .str (chars ['m']))]

def callLine : Bytes := render callTree

/-- A client calls a method that does not exist; afterwards there is nothing more to read. -/
def accepted : Sys := LTS.after step boot .accept

def called : Sys := LTS.after step accepted (.service 0 ⟨some (callLine ++ [newline]), none, 1000⟩)

def callDone : Sys := LTS.after step called (.service 0 ⟨none, none, 0⟩)

theorem accepted_reachable {C : Sys → Label → Prop} (hc : C boot .accept) :
    (agentdLTS.restrict C).Reachable accepted :=
  LTS.Reachable.careful Label.accept
    ⟨boot, [], ⟨rfl, fun _ => ⟨rfl, rfl, rfl, rfl, rfl, rfl, rfl⟩⟩, .nil _⟩ hc rfl

theorem callLine_ok : LineOk boot.jobs 0 callLine none := by
  have hdispatch : dispatch boot.jobs 0 callLine none =
      .error (.num 7) (-32601) (errMsgFor (-32601)) := by decide +kernel
  refine ⟨fun raw hraw => ?_, ?_⟩
  · obtain rfl : raw = tokens callTree := hraw.unique (render_text callTree)
    refine ⟨by decide +kernel, fun ms hms v hv => ?_⟩
    cases hms
    have hid : rawGet (membersTokens [jsonrpc, (idKey, .num 7),
        (chars ['m', 'e', 't', 'h', 'o', 'd'], .str (chars ['m']))]) idKey =
        some (.num (numberOf 7)) := rfl
    rw [hid] at hv
    cases hv
    exact ⟨by decide, by decide⟩
  · rw [hdispatch]
    show (render (errorEnvelope (.num 7) (-32601) (errMsgFor (-32601)))).length < respMax - 1
    decide +kernel

theorem call_readOk :
    ReadOk boot.jobs 0 (accepted.conns 0) ⟨some (callLine ++ [newline]), none, 1000⟩ := by
  have hreq : (accepted.conns 0).req = [] := rfl
  have htake : (callLine ++ [newline]).take (reqMax - 0) = callLine ++ [newline] := by
    decide
  have hline : (callLine ++ [newline]).takeWhile (· ≠ newline) = callLine := by decide
  unfold ReadOk
  dsimp only [elim_some]
  rw [hreq, length_nil, htake, nil_append, if_neg (by decide),
    if_pos (by decide), hline]
  exact ⟨callLine_ok, .inr (by decide)⟩

theorem callDone_reachable : (agentdLTS.restrict Careful).Reachable callDone ∧
    (callDone.conns 0).answered = [callLine] ∧ (callDone.conns 0).quiet = true := by
  have h1 : (agentdLTS.restrict Careful).Reachable accepted := accepted_reachable trivial
  have h2 : (agentdLTS.restrict Careful).Reachable called := by
    refine LTS.Reachable.careful _ h1 ⟨fun _ => ?_, fun hs => ?_⟩ rfl
    · exact call_readOk
    · cases hs
  have hread : newline ∉ (called.conns 0).req := by decide +kernel
  refine ⟨LTS.Reachable.careful _ h2 ⟨fun _ => hread, fun hs => ?_⟩ rfl, by decide +kernel⟩
  exact absurd hs (by decide +kernel)

/-- The call is answered before the connection falls quiet. -/
theorem call_served : (Served (callDone.conns 0) ∧ Timely callDone (callDone.conns 0)) ∧
    (callDone.conns 0).answered = [callLine] ∧ (callDone.conns 0).quiet = true :=
  ⟨serves callDone_reachable.1 (by decide), callDone_reachable.2⟩

def emptyLine : Bytes := [lbrace, rbrace]

def pipelined : Sys :=
  LTS.after step accepted
    (.service 0 ⟨some (emptyLine ++ [newline] ++ emptyLine ++ [newline]), none, 1000⟩)

def pipelinedEnd : Sys := LTS.after step pipelined (.service 0 ⟨some [], none, 0⟩)

theorem pipelinedEnd_reachable : (agentdLTS.restrict Promised).Reachable pipelinedEnd ∧
    (pipelinedEnd.conns 0).ending = some .eof ∧ (pipelinedEnd.conns 0).answered.length = 1 ∧
    (lines newline (pipelinedEnd.conns 0).received).length = 2 := by
  have h1 : (agentdLTS.restrict Promised).Reachable accepted := accepted_reachable trivial
  have h2 : (agentdLTS.restrict Promised).Reachable pipelined := by
    refine LTS.Reachable.careful _ h1 (fun b hb => ?_) rfl
    cases hb
    exact .inl (by decide +kernel)
  refine ⟨LTS.Reachable.careful _ h2 (fun b hb => ?_) rfl, by decide +kernel⟩
  cases hb
  exact .inl (by decide +kernel)

/-- The second line is read, and the connection closed, without a response to it. -/
theorem pipelined_line_lost : ¬ ∀ s, (agentdLTS.restrict Promised).Reachable s →
    ∀ i < maxConn, Served (s.conns i) := by
  intro h
  obtain ⟨hreach, hend, hone, htwo⟩ := pipelinedEnd_reachable
  have hserved := h _ hreach 0 (by decide)
  rw [hserved.all (.inr hend), htwo] at hone
  cases hone

end AdventOS.Agentd.Conns
