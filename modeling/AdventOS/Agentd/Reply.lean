import AdventOS.Json.Fitting

/-!
# agentd's response lines (`user/agentd.c`)

A tool's emitter writes a result tree or fails with a JSON-RPC code. A request that names the
tool as its method gets the tree in a response envelope; `tools/call` renders the tree into a
buffer of its own first and puts that text into a content block of the envelope. The response is
written into 8192 bytes and sent as a line.

* `reply_fits`: a tree whose rendered forms fit their buffers is sent as it is.
-/
namespace AdventOS.Agentd
open Json List

def chars (s : List Char) : Bytes := s.map fun c => UInt8.ofNat c.toNat

def respMax : Nat := 8192

/-- `char inner[4096]` of `handle_tools_call`. -/
def innerMax : Nat := 4096

/-- The `id` of a request, as `emit_id` tells them apart. -/
inductive RequestId
  | null
  | num (n : Int32)
  | str (s : Bytes)
  deriving DecidableEq

/-- agentd.c:517-522 -/
def emitId : RequestId → Value
  | .null => .null
  | .num n => .num n.toInt
  | .str s => .str s

def jsonrpc : Bytes × Value :=
  (chars ['j', 's', 'o', 'n', 'r', 'p', 'c'], .str (chars ['2', '.', '0']))

/-- The tree between `resp_begin_result` and `resp_end`; agentd.c:529-545 -/
def envelope (id : RequestId) (result : Value) : Value :=
  .obj [jsonrpc, (chars ['i', 'd'], emitId id), (chars ['r', 'e', 's', 'u', 'l', 't'], result)]

/-- agentd.c:547-562 -/
def errorEnvelope (id : RequestId) (code : Int) (msg : Bytes) : Value :=
  .obj [jsonrpc, (chars ['i', 'd'], emitId id), (chars ['e', 'r', 'r', 'o', 'r'],
    .obj [(chars ['c', 'o', 'd', 'e'], .num code),
      (chars ['m', 'e', 's', 's', 'a', 'g', 'e'], .str msg)])]

/-- agentd.c:2626-2631 -/
def errMsgFor (code : Int) : Bytes :=
  if code = -32601 then
    chars ['M', 'e', 't', 'h', 'o', 'd', ' ', 'n', 'o', 't', ' ', 'f', 'o', 'u', 'n', 'd']
  else if code = -32602 then
    chars ['I', 'n', 'v', 'a', 'l', 'i', 'd', ' ', 'p', 'a', 'r', 'a', 'm', 's']
  else if code = -32603 then
    chars ['I', 'n', 't', 'e', 'r', 'n', 'a', 'l', ' ', 'e', 'r', 'r', 'o', 'r']
  else chars ['S', 'e', 'r', 'v', 'e', 'r', ' ', 'e', 'r', 'r', 'o', 'r']

/-- The result of `tools/call`; agentd.c:3173-3190 -/
def toolResult (text : Bytes) (isError : Bool) : Value :=
  .obj [(chars ['c', 'o', 'n', 't', 'e', 'n', 't'], .arr [
      .obj [(chars ['t', 'y', 'p', 'e'], .str (chars ['t', 'e', 'x', 't'])),
        (chars ['t', 'e', 'x', 't'], .str text)]]),
    (chars ['i', 's', 'E', 'r', 'r', 'o', 'r'], .bool isError)]

/-- What `resp_error` leaves, cut off where the buffer ends; agentd.c:547-562 -/
def respError (id : RequestId) (code : Int) : Bytes :=
  (jsonWFinish (emit (errorEnvelope id code (errMsgFor code)) (jsonWInit respMax))).buf

def respond (id : RequestId) (result : Value) : Bytes :=
  (writeOut respMax (envelope id result)).getD (respError id (-32603))

/-- What a tool's emitter returns. -/
inductive Emitted
  | done (result : Value)
  | fails (code : Int)

/-- The two ways to call a tool. -/
inductive Via
  | method
  | toolsCall
  deriving DecidableEq

/-- agentd.c:3354-3360 -/
def Emitted.byMethod (id : RequestId) : Emitted → Bytes
  | .done v => respond id v
  | .fails code => respError id code

/-- agentd.c:3302-3311 -/
def Emitted.byToolsCall (id : RequestId) : Emitted → Bytes
  | .done v => (writeOut innerMax v).elim (respond id (toolResult (errMsgFor (-32603)) true))
      fun inner => respond id (toolResult inner false)
  | .fails code => respond id (toolResult (errMsgFor code) true)

/-- The line that `prepare_send` puts on the wire, none when it sends nothing;
agentd.c:3733-3739 -/
def prepareSend (resp : Bytes) : Option Bytes :=
  if resp.length = 0 ∨ respMax - 1 ≤ resp.length then none else some (resp ++ [10])

def Via.reply (id : RequestId) (e : Emitted) : Via → Option Bytes
  | .method => prepareSend (e.byMethod id)
  | .toolsCall => prepareSend (e.byToolsCall id)

/-! ## When the result reaches the client -/

def Via.response (id : RequestId) (v : Value) : Via → Value
  | .method => envelope id v
  | .toolsCall => envelope id (toolResult (render v) false)

/-- The result fits the buffers on its way. -/
def Via.Fits (via : Via) (id : RequestId) (v : Value) : Prop :=
  (via = .toolsCall → (render v).length < innerMax) ∧
    (render (via.response id v)).length < respMax - 1

instance (via : Via) (id : RequestId) (v : Value) : Decidable (via.Fits id v) :=
  inferInstanceAs (Decidable (_ ∧ _))

theorem emitId_numbers (id : RequestId) : ∀ n ∈ (emitId id).numbers, Json.Fits n := by
  cases id with
  | null => exact forall_mem_nil _
  | str s => exact forall_mem_nil _
  | num n =>
    intro m hm
    obtain rfl : m = n.toInt := mem_singleton.mp hm
    exact ⟨n.le_toInt, n.toInt_lt⟩

variable {id : RequestId} {v : Value}

theorem envelope_numbers (h : ∀ n ∈ v.numbers, Json.Fits n) :
    ∀ n ∈ (envelope id v).numbers, Json.Fits n := by
  intro n hn
  unfold envelope jsonrpc at hn
  simp only [Tree.numbers, membersNumbers, nil_append, append_nil, mem_append] at hn
  obtain hn | hn := hn
  · exact emitId_numbers id n hn
  · exact h n hn

theorem envelope_height : height (envelope id v) = height v + 1 := by
  have hid : height (emitId id) = 0 := by cases id <;> rfl
  unfold envelope jsonrpc
  simp [height, membersHeight, hid]

theorem respond_fits (hfit : ∀ n ∈ v.numbers, Json.Fits n)
    (hh : height v < jsonWMaxDepth) (hlen : (render (envelope id v)).length < respMax - 1) :
    prepareSend (respond id v) = some (render (envelope id v) ++ [10]) := by
  have hpos : (render (envelope id v)).length ≠ 0 := by
    unfold envelope
    rw [render, length_cons]
    omega
  unfold respond
  rw [writeOut_eq (envelope_numbers hfit) (by rw [envelope_height]; omega),
    if_pos (by unfold respMax at *; omega), Option.getD_some, prepareSend,
    if_neg (by unfold respMax at *; omega)]

theorem reply_fits {via : Via} (hfit : ∀ n ∈ v.numbers, Json.Fits n)
    (hh : height v < jsonWMaxDepth) (h : via.Fits id v) :
    via.reply id (.done v) = some (render (via.response id v) ++ [10]) := by
  cases via with
  | method => exact respond_fits hfit hh h.2
  | toolsCall =>
    have hin := h.1 rfl
    show prepareSend ((writeOut innerMax v).elim _ _) = _
    rw [writeOut_eq hfit (by omega), if_pos hin]
    refine respond_fits (fun n hn => ?_) (show 3 < 32 by decide) h.2
    unfold toolResult at hn
    simp only [Tree.numbers, itemsNumbers, membersNumbers, append_nil, not_mem_nil] at hn

end AdventOS.Agentd
