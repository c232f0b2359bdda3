import AdventOS.Ssh.Userauth
import AdventOS.Ssh.Channel

/-!
# Bounds of the messages sshd handles

The handlers that take a client's payload apart, together: for each the exact
payloads that keep every read inside the payload (or the saved copy of it) and
every write inside its array, whatever is left in the buffer behind the payload,
in an unset local or behind a struct field, and whatever packet comes next.

The failing payloads are the ones that end where an unchecked `ssh_get_u8` or
`ssh_get_u32` reads, a public key probe whose echo does not fit `ok[256]`, a
KEXINIT longer than `i_c`, and a name-list length that overflows the bounds test.
-/
namespace AdventOS.Ssh

inductive Handler
  | userauth
  | channelOpen
  | channelRequests
  | rekey

/-- The buffer the handler receives into. -/
def Handler.cap : Handler → Nat
  | .userauth => 1024
  | .channelOpen => 256
  | .channelRequests => 4096
  | .rekey => 32768

/-- What a handler meets besides its payload. -/
structure Ambient where
  tl : Nat
  behind : Nat → UInt8
  next : Option Buf

def Handler.inBounds (h : Handler) (cfg : Config) (b : Buf) (amb : Ambient) : Bool :=
  match h with
  | .userauth => (authBody cfg b).safe
  | .channelOpen => (Ssh.channelOpen b).safe
  | .channelRequests => (channelRequest b amb.tl).safe
  | .rekey => (rekeyPath b amb.behind amb.next).safe

def Handler.Bounds (h : Handler) (cfg : Config) (b : Buf) : Prop :=
  match h with
  | .userauth => AuthBounds cfg b
  | .channelOpen => 1 ≤ b.n → b.mem 0 = 90 → (getString b 1 b.n).val.2 + 12 ≤ b.n
  | .channelRequests => RequestBounds b
  | .rekey => RekeyBounds b

/-- A payload of any length the handler's buffer takes is handled in
bounds, whatever surrounds it, exactly if it meets the handler's condition. -/
theorem handled_in_bounds_iff (cfg : Config) (h : Handler) (b : Buf) (hn : b.n ≤ h.cap) :
    (∀ amb, h.inBounds cfg b amb = true) ↔ h.Bounds cfg b := by
  have amb : Ambient := ⟨0, fun _ => 0, none⟩
  cases h with
  | userauth =>
    have hiff := authBody_safe_iff cfg hn
    exact ⟨fun h => hiff.1 (h amb), fun h _ => hiff.2 h⟩
  | channelOpen =>
    have hiff := channelOpen_safe_iff b
    exact ⟨fun h => hiff.1 (h amb), fun h _ => hiff.2 h⟩
  | channelRequests =>
    have hiff := channelRequest_safe_iff b
    exact ⟨fun h => hiff.1 fun tl => h { amb with tl }, fun h a => hiff.2 h a.tl⟩
  | rekey =>
    have hiff := rekeyPath_safe_iff b
    exact ⟨fun h => hiff.1 fun behind next => h { amb with behind, next },
      fun h a => hiff.2 h a.behind a.next⟩

/-! ## Two payloads -/

def demoConfig : Config where
  users := []
  authKeys := []
  sessionId := List.replicate 32 0
  sid_len := by simp
  crypto := ⟨fun _ => [], fun _ _ _ => false⟩

def bufOf (l : List UInt8) : Buf := ⟨fun i => l.getD i 0, l.length⟩

/-- USERAUTH_REQUEST for user `u`, service `s`, up to the method `password`. -/
def noFlag : List UInt8 := 50 :: (sshString [117] ++ sshString [115] ++ sshString passwordLit)

/-- With the flag and a password the request is handled in bounds. -/
theorem handled_in_bounds_password :
    (bufOf (noFlag ++ 0 :: sshString [112])).n ≤ Handler.userauth.cap ∧
      ∀ amb, Handler.userauth.inBounds demoConfig (bufOf (noFlag ++ 0 :: sshString [112])) amb
        = true := by
  have hn : (bufOf (noFlag ++ 0 :: sshString [112])).n ≤ Handler.userauth.cap := by decide
  refine ⟨hn, (handled_in_bounds_iff demoConfig .userauth _ hn).2 ?_⟩
  intro h hv
  have hp : h.p = 23 := by
    have he : (authHeader (bufOf (noFlag ++ 0 :: sshString [112]))).val.map AuthHeader.p
        = some 23 := by decide
    rw [hv] at he
    simpa using he
  have hm : (authHeader (bufOf (noFlag ++ 0 :: sshString [112]))).val.map
      (fun h => (bufOf (noFlag ++ 0 :: sshString [112])).bytes h.ms h.ml) = some passwordLit := by
    decide
  rw [hv] at hm
  simp only [Option.map_some, Option.some.injEq] at hm
  refine ⟨fun _ => by rw [hp]; decide, fun hpk => ?_⟩
  rw [hm] at hpk
  cases hpk

/-- A request that ends with its method makes the server read the byte after the
payload. -/
theorem truncated_request_reads_outside : ¬ ∀ (cfg : Config) (h : Handler) (b : Buf), b.n ≤ h.cap →
      ∀ amb, h.inBounds cfg b amb = true := by
  intro h
  have hsafe := h demoConfig .userauth (bufOf noFlag) (by decide) ⟨0, fun _ => 0, none⟩
  revert hsafe
  decide

end AdventOS.Ssh
