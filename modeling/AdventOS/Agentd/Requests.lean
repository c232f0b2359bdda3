import AdventOS.Agentd.Jobs
import AdventOS.Agentd.Reply
import AdventOS.Json.Exact

/-!
# One request line (`user/agentd.c`)

`dispatch` parses a line, looks for the method and has its handler write the response into
`resp[]`; `shell.job.wait` may park the connection instead, with the id saved for the response
that the resolver writes later. What a handler writes behind `"result":` is a parameter here: any
text of a JSON value, as the writer leaves it or as `json_raw` splices it in. The buffers are the
source's, so a response can be refused, replaced by an error or cut off.

* `id_read`: the id that is read is the id that the line carries.
* `dispatch_for`: whatever the branch, what is written carries that id.
* `deferred_fits`: the resolver's response always fits.
* `dispatch_replies`: what fits is one JSON text in one line, with the id of the request.
-/
namespace AdventOS.Agentd.Requests
open Json List Option

/-! ## Values -/

/-- `json_obj_get(v, key)`; libjson.c:553-562 -/
def members : Value → List (Bytes × Value)
  | .obj ms => ms
  | _ => []

def jsonObjGet (v : Option Value) (key : Bytes) : Option Value :=
  ((v.elim [] members).find? fun m => m.1 = key).map Prod.snd

def isObj : Value → Bool
  | .obj _ => true
  | _ => false

def strOf : Value → Option Bytes
  | .str s => some s
  | _ => none

/-- libjson.c:597-601 -/
def jsonToStr (v : Option Value) : Option Bytes := v.bind strOf

def numOf : Value → Option Int
  | .num n => some n
  | _ => none

/-- `v->num` of a number or a boolean. -/
def intOf : Value → Option Int
  | .num n => some n
  | .bool b => some (if b then 1 else 0)
  | _ => none

/-! ## Ids -/

def idKey : Bytes := chars ['i', 'd']

/-- As `emit_id` tells them apart. agentd.c:517-522 -/
def idOf : Value → RequestId
  | .num n => .num (Int32.ofInt n)
  | .str s => .str s
  | _ => .null

def requestId (id : Option Value) : RequestId := id.elim .null idOf

/-- The `wait_id` fields of a connection. -/
structure SavedId where
  isNum : Bool
  num : Int32
  str : Bytes
  deriving DecidableEq

def waitIdMax : Nat := 64

/-- agentd.c:3199-3212 -/
def captureId : RequestId → SavedId
  | .null => ⟨false, 0, []⟩
  | .num n => ⟨true, n, []⟩
  | .str s => ⟨false, 0, s.take waitIdMax⟩

/-- agentd.c:3214-3218 -/
def emitSavedId (id : SavedId) : RequestId :=
  if id.isNum then .num id.num else if id.str ≠ [] then .str id.str else .null

/-! ## Responses -/

/-- The text of a value behind `"result":`. -/
structure Result where
  text : Bytes
  raw : Raw
  reads : ∀ t, Follows t → Reads (text ++ t) (.value raw) t
  line : 10 ∉ text
  cstr : 0 ∉ text

def Result.ofTree (v : Value) : Result where
  text := render v
  raw := tokens v
  reads := render_reads v
  line := (render_printable v).notMem (by decide)
  cstr := (render_printable v).notMem (by decide)

def resultKey : Bytes := chars ['r', 'e', 's', 'u', 'l', 't']

/-- What `resp_begin_result`, the handler and `resp_end` write; agentd.c:529-545 -/
def resultText (id : RequestId) (t : Bytes) : Bytes :=
  lbrace :: (renderMembers true [jsonrpc, (idKey, emitId id)] ++
    comma :: (renderStr resultKey ++ colon :: (t ++ [rbrace])))

/-- What `resp_error` leaves, cut off where the buffer ends; agentd.c:547-562 -/
def respErrorMsg (id : RequestId) (code : Int) (msg : Bytes) : Bytes :=
  (jsonWFinish (emit (errorEnvelope id code msg) (jsonWInit respMax))).buf

/-- What the resolver needs to answer a parked request. -/
structure Wait where
  job : Nat
  deadlineMs : UInt32
  id : SavedId
  mcpWrap : Bool
  deriving DecidableEq

/-- `dispatch` has written a result, or an error, or it has parked the connection. -/
inductive Dispatched
  | result (text : Bytes)
  | error (id : RequestId) (code : Int) (msg : Bytes)
  | parked (w : Wait)
  deriving DecidableEq

/-- The bytes in `resp[]` that `dispatch` returns the number of. -/
def Dispatched.text : Dispatched → Bytes
  | .result t => t
  | .error id code msg => respErrorMsg id code msg
  | .parked _ => []

/-- The error that a JSON-RPC code stands for. -/
def fails (id : RequestId) (code : Int) : Dispatched := .error id code (errMsgFor code)

/-- `strlen` of a response that the writer finished, else the internal error. -/
def finish (id : RequestId) (t : Bytes) : Dispatched :=
  if (resultText id t).length < respMax then .result (cString (resultText id t))
  else fails id (-32603)

/-- agentd.c:3173-3190 -/
def emitToolsCallEnvelope (id : RequestId) (inner : Bytes) (isError : Bool) : Dispatched :=
  finish id (render (toolResult inner isError))

/-- What a handler does: a result, or a code. -/
inductive Outcome
  | done (r : Result)
  | fails (code : Int32)

/-- agentd.c:3349-3356 -/
def Outcome.byMethod (id : RequestId) : Outcome → Dispatched
  | .done r => finish id r.text
  | .fails code => Requests.fails id code.toInt

/-- agentd.c:3297-3309 -/
def Outcome.byToolsCall (id : RequestId) : Outcome → Dispatched
  | .done r =>
    if r.text.length < innerMax then emitToolsCallEnvelope id r.text false
    else emitToolsCallEnvelope id (errMsgFor (-32603)) true
  | .fails code => emitToolsCallEnvelope id (errMsgFor code.toInt) true

/-! ## Waiting for a job -/

/-- The fields of `struct job` that a wait reads. -/
structure JobEnd where
  state : Jobs.JobState
  exitCode : Int32
  deriving DecidableEq

/-- agentd.c:3222-3232 -/
def emitWaitBody (job : Nat) (j : JobEnd) (timedOut : Bool) : Value :=
  .obj ((chars ['j', 'o', 'b', '_', 'i', 'd'], .num job) ::
    ((if j.state = .exit then
        [(chars ['e', 'x', 'i', 't', '_', 'c', 'o', 'd', 'e'], .num j.exitCode.toInt)]
      else []) ++
    [(chars ['d', 'o', 'n', 'e'], .bool (decide (j.state = .exit))),
      (chars ['t', 'i', 'm', 'e', 'd', '_', 'o', 'u', 't'], .bool timedOut)]))

/-- `char inner[256]` -/
def waitInnerMax : Nat := 256

def waitMaxMs : Int := 300000

def clampTimeout (t : Int) : Int := if t < 0 then 0 else if t > waitMaxMs then waitMaxMs else t

/-- The response for a job that has ended already; agentd.c:3247-3260 -/
def waitDone (id : RequestId) (body : Value) (mcpWrap : Bool) : Dispatched :=
  if mcpWrap then
    (writeOut waitInnerMax body).elim (fails id (-32603)) fun inner =>
      emitToolsCallEnvelope id inner false
  else finish id (render body)

/-- agentd.c:3234-3272 -/
def handleShellJobWait (jobs : Nat → JobEnd) (now : UInt32) (id : RequestId)
    (params : Option Value) (mcpWrap : Bool) : Dispatched :=
  ((jsonObjGet params (chars ['j', 'o', 'b', '_', 'i', 'd'])).bind numOf).elim
    (fails id (-32602)) fun jobId =>
    if jobId < 0 ∨ jobId ≥ Jobs.jobMax then fails id (-32602)
    else if (jobs jobId.toNat).state = .free then fails id (-32602)
    else
      let timeoutMs := clampTimeout (((jsonObjGet params
        (chars ['t', 'i', 'm', 'e', 'o', 'u', 't', '_', 'm', 's'])).bind intOf).getD 5000)
      if (jobs jobId.toNat).state = .exit then
        waitDone id (emitWaitBody jobId.toNat (jobs jobId.toNat) false) mcpWrap
      else .parked ⟨jobId.toNat, now + UInt32.ofNat timeoutMs.toNat, captureId id, mcpWrap⟩

/-! ## Dispatch -/

def toolsCall : Bytes := chars ['t', 'o', 'o', 'l', 's', '/', 'c', 'a', 'l', 'l']

def shellJobWait : Bytes :=
  chars ['s', 'h', 'e', 'l', 'l', '.', 'j', 'o', 'b', '.', 'w', 'a', 'i', 't']

/-- The handler `h` of the named tool, none when there is no such tool.
agentd.c:3274-3310 -/
def handleToolsCall (jobs : Nat → JobEnd) (now : UInt32) (id : RequestId) (params : Option Value)
    (h : Option Outcome) : Dispatched :=
  (jsonToStr (jsonObjGet params (chars ['n', 'a', 'm', 'e']))).elim (fails id (-32602)) fun name =>
    if name = shellJobWait then
      handleShellJobWait jobs now id
        (jsonObjGet params (chars ['a', 'r', 'g', 'u', 'm', 'e', 'n', 't', 's'])) true
    else
      h.elim (emitToolsCallEnvelope id
        (chars ['n', 'o', ' ', 's', 'u', 'c', 'h', ' ', 't', 'o', 'o', 'l']) true)
        (Outcome.byToolsCall id)

/-- The handler `h` of the named method, none when there is no such method.
agentd.c:3316-3357 -/
def dispatchMethod (jobs : Nat → JobEnd) (now : UInt32) (id : RequestId) (method : Bytes)
    (params : Option Value) (h : Option Outcome) : Dispatched :=
  if method = toolsCall then handleToolsCall jobs now id params h
  else if method = shellJobWait then handleShellJobWait jobs now id params false
  else h.elim (fails id (-32601)) (Outcome.byMethod id)

/-- `SCRATCH_MAX` -/
def scratchMax : Nat := 8192

def parseError : Bytes := chars ['P', 'a', 'r', 's', 'e', ' ', 'e', 'r', 'r', 'o', 'r']

def invalidRequest : Bytes :=
  chars ['I', 'n', 'v', 'a', 'l', 'i', 'd', ' ', 'R', 'e', 'q', 'u', 'e', 's', 't']

def lineId (line : Bytes) : RequestId :=
  requestId (jsonObjGet (jsonParse line scratchMax) idKey)

/-- agentd.c:3365-3416 -/
def dispatch (jobs : Nat → JobEnd) (now : UInt32) (line : Bytes) (h : Option Outcome) :
    Dispatched :=
  let root := jsonParse line scratchMax
  if root.elim false isObj = false then .error .null (-32700) parseError
  else if jsonToStr (jsonObjGet root jsonrpc.1) ≠ some (chars ['2', '.', '0']) then
    .error (lineId line) (-32600) invalidRequest
  else
    (jsonToStr (jsonObjGet root (chars ['m', 'e', 't', 'h', 'o', 'd']))).elim
      (.error (lineId line) (-32600) invalidRequest) fun method =>
      dispatchMethod jobs now (lineId line) method
        (jsonObjGet root (chars ['p', 'a', 'r', 'a', 'm', 's'])) h

def waitResult (w : Wait) (j : JobEnd) (timedOut : Bool) : Value :=
  if w.mcpWrap then
    toolResult (jsonWFinish (emit (emitWaitBody w.job j timedOut) (jsonWInit waitInnerMax))).buf
      false
  else emitWaitBody w.job j timedOut

/-- The response of the resolver, none when the writer ran out of room.
agentd.c:3883-3925 -/
def deferredText (w : Wait) (j : JobEnd) (timedOut : Bool) : Option Bytes :=
  let text := resultText (emitSavedId w.id) (render (waitResult w j timedOut))
  if text.length < respMax then some text else none

/-! ## The id of a text -/

/-- The value of the first member with the key. -/
def rawGet (ms : List (List Piece × Raw)) (key : Bytes) : Option Raw :=
  (ms.find? fun m => plain m.1 = key).map Prod.snd

/-- The id that a JSON value carries, null when it has none. -/
def ownId : Raw → Value
  | .obj ms => (rawGet ms idKey).elim .null exact
  | _ => .null

/-- The id that a line carries, null when it is no JSON text. -/
def OwnId (line : Bytes) (v : Value) : Prop :=
  (∃ raw, Text line raw ∧ v = ownId raw) ∨ (∀ raw, ¬Text line raw) ∧ v = .null

/-- An id that can be echoed: null, an integer of 32 bits, or a string of simple pieces. -/
def EchoesId : Raw → Prop
  | .null => True
  | .num n => InRange n
  | .str ps => ∀ p ∈ ps, p.Simple
  | _ => False

/-- A line that is a JSON text fits the scratch, and its id can be echoed. -/
def IdSafe (line : Bytes) : Prop :=
  ∀ raw, Text line raw → (jsonParse line scratchMax).isSome ∧
    ∀ ms, raw = .obj ms → ∀ v ∈ rawGet ms idKey, EchoesId v

/-- The text is one line and one JSON text, with the id of the request line. -/
def Answers (line text : Bytes) : Prop :=
  10 ∉ text ∧ ∃ raw, Text text raw ∧ OwnId line (ownId raw)

theorem idKey_ascii : Ascii idKey :=
  forall_mem_cons.mpr ⟨by decide, forall_mem_singleton.mpr (by decide)⟩

theorem rawGet_meaning {key : Bytes} (hk : Ascii key) (ms : List (List Piece × Raw)) :
    ((membersMeaning ms).find? fun m => m.1 = key).map Prod.snd =
      (rawGet ms key).map meaning := by
  unfold rawGet membersMeaning
  induction ms with
  | nil => rfl
  | cons m ms ih =>
    rw [mapMembers, List.find?_cons, List.find?_cons]
    by_cases h : plain m.1 = key
    · simp only [(key_iff hk).mpr h, h, decide_true, map_some]
      rfl
    · have h' : ¬strBytes m.1 = key := fun he => h ((key_iff hk).mp he)
      simp only [h', h, decide_false]
      exact ih

variable {v : Raw} {line msg : Bytes} {code : Int} {j : JobEnd} {timedOut : Bool} {w : Wait}

theorem idOf_meaning (h : EchoesId v) : emitId (idOf (meaning v)) = exact v := by
  cases v with
  | null => rfl
  | bool b => exact h.elim
  | num n =>
    have h : InRange n := h
    have hint : (Int32.ofInt n.value).toInt = n.value :=
      Int32.toInt_ofInt_of_le h.1 h.2
    show Tree.num (Int32.ofInt (wrap32 n.value)).toInt = Tree.num n.value
    rw [wrap32_of_range h.1 h.2, hint]
  | str ps =>
    show Tree.str (strBytes ps) = Tree.str (plain ps)
    rw [strBytes_plain h]
  | arr l => exact h.elim
  | obj l => exact h.elim

theorem id_read (h : IdSafe line) : OwnId line (emitId (lineId line)) := by
  unfold lineId
  cases hp : jsonParse line scratchMax with
  | none =>
    refine .inr ⟨fun raw hraw => ?_, rfl⟩
    have hsome := (h raw hraw).1
    rw [hp] at hsome
    cases hsome
  | some v =>
    obtain ⟨j, hj, -, rfl⟩ := jsonParse_sound hp
    refine .inl ⟨j, hj, ?_⟩
    cases j with
    | obj ms =>
      have hget : jsonObjGet (some (meaning (.obj ms))) idKey = (rawGet ms idKey).map meaning :=
        rawGet_meaning idKey_ascii ms
      rw [hget]
      show _ = (rawGet ms idKey).elim .null exact
      cases hv : rawGet ms idKey with
      | none => rfl
      | some v => exact idOf_meaning ((h _ hj).2 ms rfl v hv)
    | null => rfl
    | bool b => rfl
    | num n => rfl
    | str ps => rfl
    | arr l => rfl

/-! ## The id of a response -/

theorem exact_emitId (id : RequestId) : exact (tokens (emitId id)) = emitId id := by
  cases id with
  | null => rfl
  | num n =>
    show Tree.num (numberOf n.toInt).value = Tree.num n.toInt
    rw [numberOf_value ⟨n.le_toInt, n.toInt_lt⟩]
  | str s =>
    show Tree.str (plain (s.map pieceOf)) = Tree.str s
    rw [plain_pieces]

theorem ownId_second {id : RequestId} {m : List Piece × Raw} {ms : List (List Piece × Raw)}
    (h : plain m.1 ≠ idKey) :
    ownId (.obj (m :: (idKey.map pieceOf, tokens (emitId id)) :: ms)) = emitId id := by
  have hkey : plain (idKey.map pieceOf) = idKey := plain_pieces _
  unfold ownId rawGet
  simp only [List.find?_cons, h, hkey, decide_false, decide_true, map_some,
    elim_some]
  exact exact_emitId id

theorem jsonrpc_key : plain ((cString jsonrpc.1).map pieceOf) ≠ idKey := by
  rw [plain_pieces]
  decide

def resultRaw (id : RequestId) (raw : Raw) : Raw :=
  .obj [((cString jsonrpc.1).map pieceOf, tokens jsonrpc.2),
    (idKey.map pieceOf, tokens (emitId id)), (resultKey.map pieceOf, raw)]

theorem lastMember_reads {k vt t : Bytes}
    (hv : Reads (vt ++ rbrace :: t) (.value v) (rbrace :: t)) :
    Reads (renderStr k ++ colon :: (vt ++ rbrace :: t)) (.members [(k.map pieceOf, v)]) t := by
  rw [renderStr_append]
  exact .lastMember .nil (renderStr_body _ _) .nil .nil hv .nil

theorem member_reads {k vt s t : Bytes} {ms : List (List Piece × Raw)}
    (hv : Reads (vt ++ comma :: s) (.value v) (comma :: s)) (hms : Reads s (.members ms) t) :
    Reads (renderStr k ++ colon :: (vt ++ comma :: s)) (.members ((k.map pieceOf, v) :: ms)) t := by
  rw [renderStr_append]
  exact .member .nil (renderStr_body _ _) .nil .nil hv .nil hms

theorem resultText_eq (id : RequestId) (t : Bytes) :
    resultText id t = lbrace :: (renderStr (cString jsonrpc.1) ++ colon :: (render jsonrpc.2 ++
      comma :: (renderStr idKey ++ colon :: (render (emitId id) ++
        comma :: (renderStr resultKey ++ colon :: (t ++ [rbrace])))))) := by
  have hid : cString idKey = idKey := by decide
  unfold resultText
  simp only [renderMembers, sep, hid, if_true, Bool.false_eq_true, if_false, nil_append,
    append_nil, append_assoc, cons_append]

theorem resultText_text (id : RequestId) (r : Result) :
    Text (resultText id r.text) (resultRaw id r.raw) := by
  rw [resultText_eq]
  refine ⟨_, _, .nil, .obj ?_, .nil⟩
  exact member_reads (render_reads _ _ (follows_cons rfl))
    (member_reads (render_reads _ _ (follows_cons rfl))
      (lastMember_reads (r.reads [rbrace] (follows_cons rfl))))

theorem resultText_mem {id : RequestId} {r : Result} {c : UInt8} (hc : c.toNat < 32)
    (hr : c ∉ r.text) : c ∉ resultText id r.text := by
  have hout : ∀ b ∈ resultText id r.text, 32 ≤ b.toNat ∨ b ∈ r.text := by
    intro b hb
    rcases mem_cons.mp hb with rfl | hb
    · exact .inl (by decide)
    rcases mem_append.mp hb with hb | hb
    · exact .inl (renderMembers_printable _ _ b hb)
    rcases mem_cons.mp hb with rfl | hb
    · exact .inl (by decide)
    rcases mem_append.mp hb with hb | hb
    · exact .inl (renderStr_printable _ b hb)
    rcases mem_cons.mp hb with rfl | hb
    · exact .inl (by decide)
    rcases mem_append.mp hb with hb | hb
    · exact .inr hb
    · obtain rfl := mem_singleton.mp hb
      exact .inl (by decide)
  intro hm
  rcases hout c hm with h | h
  · omega
  · exact hr h

theorem resultText_answers {id : RequestId} (h : OwnId line (emitId id))
    (r : Result) : Answers line (resultText id r.text) := by
  refine ⟨resultText_mem (by decide) r.line, resultRaw id r.raw, resultText_text id r, ?_⟩
  unfold resultRaw
  rw [ownId_second jsonrpc_key]
  exact h

theorem finish_text {id : RequestId} {v : Value} (hfit : ∀ n ∈ v.numbers, Json.Fits n)
    (hh : height v < jsonWMaxDepth) : (finish id (render v)).text = respond id v := by
  have hrender : resultText id (render v) = render (envelope id v) := by
    rw [resultText_eq]
    unfold envelope
    simp only [render, renderMembers, sep, if_true, Bool.false_eq_true, if_false, nil_append,
      append_nil, append_assoc, cons_append]
    rfl
  have hcstr : cString (resultText id (render v)) = resultText id (render v) :=
    cString_self fun c hc he => resultText_mem (by decide) (Result.ofTree v).cstr (he ▸ hc)
  unfold respond
  rw [writeOut_eq (envelope_numbers hfit) (by rw [envelope_height]; omega), finish, hcstr,
    hrender]
  split
  · rfl
  · rfl

theorem written_buf {cap : Nat} {v : Value} (hfit : ∀ n ∈ v.numbers, Json.Fits n)
    (hh : height v ≤ jsonWMaxDepth) (hlen : (render v).length < cap) :
    (jsonWFinish (emit v (jsonWInit cap))).buf = render v := by
  have hout : writeOut cap v = _ := writeOut_eq hfit hh
  rw [if_pos hlen] at hout
  unfold writeOut at hout
  dsimp only at hout
  split at hout
  · exact Option.some.inj hout
  · cases hout

theorem errorEnvelope_numbers {id : RequestId} (h : Json.Fits code) :
    ∀ n ∈ (errorEnvelope id code msg).numbers, Json.Fits n := by
  intro n hn
  unfold errorEnvelope jsonrpc at hn
  simp only [Tree.numbers, membersNumbers, nil_append, append_nil,
    mem_append, mem_singleton] at hn
  obtain hn | rfl := hn
  · exact emitId_numbers id n hn
  · exact h

theorem errorEnvelope_height {id : RequestId} :
    height (errorEnvelope id code msg) ≤ jsonWMaxDepth := by
  have hid : height (emitId id) = 0 := by cases id <;> rfl
  unfold errorEnvelope jsonrpc
  simp only [height, membersHeight, hid]
  decide

theorem error_answers {id : RequestId}
    (h : OwnId line (emitId id)) (hcode : Json.Fits code)
    (hlen : (render (errorEnvelope id code msg)).length < respMax) :
    Answers line (respErrorMsg id code msg) := by
  unfold respErrorMsg
  rw [written_buf (errorEnvelope_numbers hcode) errorEnvelope_height hlen]
  refine ⟨(render_printable _).notMem (by decide), _, render_text _, ?_⟩
  have hkey : cString (chars ['i', 'd']) = idKey := by decide
  unfold errorEnvelope
  simp only [tokens, membersTokens, hkey]
  rw [ownId_second jsonrpc_key]
  exact h

/-! ## What dispatch writes -/

/-- What is written carries the id; a parked connection waits for a job that runs. -/
def Dispatched.For (jobs : Nat → JobEnd) (now : UInt32) (id : RequestId) : Dispatched → Prop
  | .result t => ∃ r : Result, t = resultText id r.text
  | .error i code _ => i = id ∧ Json.Fits code
  | .parked w => w.id = captureId id ∧ w.job < Jobs.jobMax ∧ (jobs w.job).state = .run ∧
      ∃ ms : Nat, (ms : Int) ≤ waitMaxMs ∧ w.deadlineMs = now + UInt32.ofNat ms

variable {jobs : Nat → JobEnd} {now : UInt32} {id : RequestId}

theorem fails_for (h : Json.Fits code) : (fails id code).For jobs now id := ⟨rfl, h⟩

theorem finish_for (r : Result) : (finish id r.text).For jobs now id := by
  unfold finish
  split
  · exact ⟨r, cString_self fun c hc he => resultText_mem (by decide) r.cstr (he ▸ hc)⟩
  · exact fails_for (by unfold Json.Fits; decide)

theorem toolsCall_for (inner : Bytes) (isError : Bool) :
    (emitToolsCallEnvelope id inner isError).For jobs now id :=
  finish_for (Result.ofTree (toolResult inner isError))

theorem byMethod_for (o : Outcome) : (o.byMethod id).For jobs now id := by
  cases o with
  | done r => exact finish_for r
  | fails code => exact fails_for ⟨code.le_toInt, code.toInt_lt⟩

theorem byToolsCall_for (o : Outcome) : (o.byToolsCall id).For jobs now id := by
  cases o with
  | done r =>
    by_cases hr : r.text.length < innerMax
    · rw [show (Outcome.done r).byToolsCall id = _ from if_pos hr]
      exact toolsCall_for _ _
    · rw [show (Outcome.done r).byToolsCall id = _ from if_neg hr]
      exact toolsCall_for _ _
  | fails code => exact toolsCall_for _ _

theorem clampTimeout_le (t : Int) : 0 ≤ clampTimeout t ∧ clampTimeout t ≤ waitMaxMs := by
  unfold clampTimeout waitMaxMs
  split
  · omega
  · split <;> omega

theorem waitDone_for (body : Value) (mcpWrap : Bool) :
    (waitDone id body mcpWrap).For jobs now id := by
  cases mcpWrap with
  | false => exact finish_for (Result.ofTree body)
  | true =>
    unfold waitDone
    rw [if_pos rfl]
    cases writeOut waitInnerMax body with
    | none => exact fails_for (by unfold Json.Fits; decide)
    | some inner => exact toolsCall_for _ _

theorem handleShellJobWait_for (params : Option Value) (mcpWrap : Bool) :
    (handleShellJobWait jobs now id params mcpWrap).For jobs now id := by
  unfold handleShellJobWait
  cases (jsonObjGet params (chars ['j', 'o', 'b', '_', 'i', 'd'])).bind numOf with
  | none => exact fails_for (by unfold Json.Fits; decide)
  | some jobId =>
    dsimp only [elim_some]
    split
    · exact fails_for (by unfold Json.Fits; decide)
    · split
      · exact fails_for (by unfold Json.Fits; decide)
      · rename_i hfree
        split
        · exact waitDone_for _ _
        · rename_i hexit
          refine ⟨rfl, ?_, ?_, _, ?_, rfl⟩
          · show jobId.toNat < Jobs.jobMax
            omega
          · cases hs : (jobs jobId.toNat).state with
            | free => exact absurd hs hfree
            | run => rfl
            | exit => exact absurd hs hexit
          · have hclamp := clampTimeout_le (((jsonObjGet params
              (chars ['t', 'i', 'm', 'e', 'o', 'u', 't', '_', 'm', 's'])).bind intOf).getD 5000)
            omega

theorem dispatch_for (line : Bytes) (h : Option Outcome) :
    (dispatch jobs now line h).For jobs now (lineId line) := by
  have hcode : Json.Fits (-32600) := by unfold Json.Fits; decide
  unfold dispatch
  dsimp only
  split
  · rename_i hroot
    have hnull : lineId line = .null := by
      unfold lineId
      cases hp : jsonParse line scratchMax with
      | none => rfl
      | some v =>
        rw [hp] at hroot
        cases v with
        | obj ms => cases hroot
        | null => rfl
        | bool b => rfl
        | num n => rfl
        | str s => rfl
        | arr l => rfl
    rw [hnull]
    exact ⟨rfl, by unfold Json.Fits; decide⟩
  · split
    · exact ⟨rfl, hcode⟩
    · cases jsonToStr (jsonObjGet (jsonParse line scratchMax)
        (chars ['m', 'e', 't', 'h', 'o', 'd'])) with
      | none => exact ⟨rfl, hcode⟩
      | some method =>
        show (dispatchMethod _ _ _ _ _ _).For _ _ _
        unfold dispatchMethod handleToolsCall
        split
        · cases jsonToStr (jsonObjGet (jsonObjGet (jsonParse line scratchMax)
            (chars ['p', 'a', 'r', 'a', 'm', 's'])) (chars ['n', 'a', 'm', 'e'])) with
          | none => exact fails_for (by unfold Json.Fits; decide)
          | some name =>
            dsimp only [elim_some]
            split
            · exact handleShellJobWait_for _ _
            · cases h with
              | none => exact toolsCall_for _ _
              | some o => exact byToolsCall_for o
        · split
          · exact handleShellJobWait_for _ _
          · cases h with
            | none => exact fails_for (by unfold Json.Fits; decide)
            | some o => exact byMethod_for o

/-! ## Deferred responses -/

theorem emitWaitBody_numbers {job : Nat} (h : job < Jobs.jobMax) :
    ∀ n ∈ (emitWaitBody job j timedOut).numbers, Json.Fits n := by
  have hjob : Json.Fits job := by
    unfold Json.Fits
    unfold Jobs.jobMax at h
    omega
  intro n hn
  unfold emitWaitBody at hn
  split at hn <;> simp only [Tree.numbers, membersNumbers, cons_append, nil_append,
    append_nil, mem_cons, not_mem_nil, or_false] at hn
  · rcases hn with rfl | rfl
    · exact hjob
    · exact ⟨j.exitCode.le_toInt, j.exitCode.toInt_lt⟩
  · rw [hn]
    exact hjob

theorem emitWaitBody_height {job : Nat} :
    height (emitWaitBody job j timedOut) ≤ jsonWMaxDepth := by
  unfold emitWaitBody
  split <;> simp only [height, membersHeight, cons_append, nil_append] <;> decide

theorem emitWaitBody_weight (job : Nat) (j : JobEnd) (timedOut : Bool) :
    weight (emitWaitBody job j timedOut) < waitInnerMax := by
  unfold emitWaitBody
  split <;> simp only [weight, membersWeight, cons_append, nil_append, chars,
    length_map] <;> decide

theorem waitResult_eq (h : w.job < Jobs.jobMax) :
    waitResult w j timedOut =
      if w.mcpWrap then toolResult (render (emitWaitBody w.job j timedOut)) false
      else emitWaitBody w.job j timedOut := by
  unfold waitResult
  rw [written_buf (emitWaitBody_numbers h) emitWaitBody_height
    ((render_length _).trans_lt (emitWaitBody_weight _ _ _))]

theorem waitResult_length (h : w.job < Jobs.jobMax) :
    (render (waitResult w j timedOut)).length < 2048 := by
  have hbody := (render_length _).trans_lt (emitWaitBody_weight w.job j timedOut)
  unfold waitInnerMax at hbody
  rw [waitResult_eq h]
  split
  · refine (render_length _).trans_lt ?_
    unfold toolResult
    simp only [weight, membersWeight, itemsWeight, chars, length_map, length_cons,
      length_nil]
    omega
  · omega

theorem resultText_length (id : RequestId) (t : Bytes) :
    (resultText id t).length ≤ weight (emitId id) + t.length + 200 := by
  have hmem := renderMembers_length true [jsonrpc, (idKey, emitId id)]
  have hkey := renderStr_length resultKey
  have hk : resultKey.length = 6 := rfl
  have hw : membersWeight [jsonrpc, (idKey, emitId id)] = weight (emitId id) + 82 := by
    have h1 : jsonrpc.1.length = 7 := rfl
    have h2 : weight jsonrpc.2 = 20 := rfl
    have h3 : idKey.length = 2 := rfl
    simp only [membersWeight, h1, h2, h3]
    omega
  unfold resultText
  rw [length_cons, length_append, length_cons, length_append, length_cons,
    length_append, length_singleton]
  omega

theorem deferred_fits (j : JobEnd) (timedOut : Bool) (h : w.job < Jobs.jobMax)
    (hid : w.id.str.length ≤ waitIdMax) :
    deferredText w j timedOut =
        some (resultText (emitSavedId w.id) (render (waitResult w j timedOut))) ∧
      (resultText (emitSavedId w.id) (render (waitResult w j timedOut))).length < respMax - 1 := by
  have hres : (render (waitResult w j timedOut)).length < 2048 := waitResult_length h
  have hlen := resultText_length (emitSavedId w.id) (render (waitResult w j timedOut))
  have hweight : weight (emitId (emitSavedId w.id)) ≤ 386 := by
    unfold emitSavedId
    split
    · show 11 ≤ 386
      decide
    · split
      · show 6 * w.id.str.length + 2 ≤ 386
        unfold waitIdMax at hid
        omega
      · decide
  have hlt : (resultText (emitSavedId w.id) (render (waitResult w j timedOut))).length <
      respMax - 1 := by
    unfold respMax
    omega
  refine ⟨if_pos ?_, hlt⟩
  omega

/-! ## Main lemma -/

/-- An id that a parked connection keeps. -/
def Kept (id : RequestId) : Prop := ∀ s, id = .str s → s ≠ [] ∧ s.length ≤ waitIdMax

/-- A response that is sent whole: it has at most 8190 bytes; a parked connection keeps the id. -/
def Dispatched.Whole (id : RequestId) : Dispatched → Prop
  | .result t => t.length < respMax - 1
  | .error i code msg => (render (errorEnvelope i code msg)).length < respMax - 1
  | .parked _ => Kept id

theorem emitSavedId_capture {id : RequestId} (h : Kept id) : emitSavedId (captureId id) = id := by
  cases id with
  | null => rfl
  | num n => rfl
  | str s =>
    obtain ⟨hne, hlen⟩ := h s rfl
    show emitSavedId ⟨false, 0, s.take waitIdMax⟩ = .str s
    rw [take_of_length_le hlen]
    exact if_pos hne

theorem captureId_length (id : RequestId) : (captureId id).str.length ≤ waitIdMax := by
  cases id with
  | null => exact Nat.zero_le _
  | num n => exact Nat.zero_le _
  | str s => exact length_take_le _ _

/-- What `prepare_send` puts on its way answers the line. -/
structure Reply (line text : Bytes) : Prop where
  answers : Answers line text
  sent : prepareSend text = some (text ++ [10])

theorem Reply.of_length {text : Bytes} (h : Answers line text)
    (hlen : text.length < respMax - 1) : Reply line text := by
  refine ⟨h, if_neg ?_⟩
  have hpos : text.length ≠ 0 := by
    intro h0
    obtain ⟨-, raw, ⟨s1, s2, h1, h2, -⟩, -⟩ := h
    have hle := h1.length_le
    have hlt := h2.length_lt
    omega
  omega

theorem dispatch_replies {h : Option Outcome} (hid : IdSafe line)
    (hwhole : (dispatch jobs now line h).Whole (lineId line)) :
    (∃ w, dispatch jobs now line h = .parked w ∧ ∀ (j : JobEnd) (timedOut : Bool),
        ∃ text, deferredText w j timedOut = some text ∧ Reply line text) ∨
      (∀ w, dispatch jobs now line h ≠ .parked w) ∧
        Reply line (dispatch jobs now line h).text := by
  have hfor : (dispatch jobs now line h).For jobs now (lineId line) := dispatch_for line h
  have hown := id_read hid
  cases hd : dispatch jobs now line h with
  | result t =>
    rw [hd] at hfor hwhole
    obtain ⟨r, rfl⟩ := hfor
    exact .inr ⟨fun w hw => (nomatch hw), .of_length (resultText_answers hown r) hwhole⟩
  | error i code msg =>
    rw [hd] at hfor hwhole
    obtain ⟨rfl, hcode⟩ := hfor
    have hlen : (render (errorEnvelope (lineId line) code msg)).length < respMax - 1 := hwhole
    have hbuf : respErrorMsg (lineId line) code msg = _ :=
      written_buf (errorEnvelope_numbers hcode) errorEnvelope_height (by unfold respMax at *; omega)
    refine .inr ⟨fun w hw => (nomatch hw),
      .of_length (error_answers hown hcode (by unfold respMax at *; omega)) ?_⟩
    show (respErrorMsg _ _ _).length < _
    rw [hbuf]
    exact hlen
  | parked w =>
    rw [hd] at hfor hwhole
    obtain ⟨hw, hjob, -⟩ := hfor
    refine .inl ⟨w, rfl, fun j timedOut => ?_⟩
    obtain ⟨hsome, hlen⟩ := deferred_fits j timedOut hjob
      (hw ▸ captureId_length _)
    refine ⟨_, hsome, .of_length ?_ hlen⟩
    have hsaved : emitSavedId w.id = lineId line := by
      rw [hw]
      exact emitSavedId_capture hwhole
    rw [hsaved]
    exact resultText_answers hown (Result.ofTree (waitResult w j timedOut))

end AdventOS.Agentd.Requests
