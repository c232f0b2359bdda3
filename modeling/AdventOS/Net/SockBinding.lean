import AdventOS.Net.Sockets

/-!
# Whose callback it is

A callback of a TCB goes to the socket that `user_data` names, if that slot is not
free. When is it the TCB's socket?

`sock_connect` that gives up leaves its TCB waiting for the SYN-ACK, and `sock_close`
leaves a TCB that has not finished closing; both still name the slot, and nothing
clears `user_data`. So the property holds of the runs that keep to `Tidy`: a slot is
taken only when no TCB in use names it, `sock_connect` gives up only when its TCB is
gone, and nothing ends a connection or frees a socket whose `sock_connect` has not
returned.

`Binding` is the invariant. Its first field is the property of the callbacks; `up`
and `asked` are that of `sock_connect`.

**Results.**
* `callbacks_stay_home`.
* `wrong_peer`: a run in which `sock_connect` returns 0 for another server.
-/
namespace AdventOS.Net.Sockets
open Function Option

open Tcp

/-! ## The invariant -/

/-- The TCB `t` is in use and names slot `i`. -/
def Named (tcbs : TcbId → Tcb User) (t : TcbId) (i : SockId) : Prop :=
  (tcbs t).inUse = true ∧ (tcbs t).userData.map Prod.fst = some i

def Unnamed (tcbs : TcbId → Tcb User) (i : SockId) : Prop := ∀ t, ¬ Named tcbs t i

instance (tcbs : TcbId → Tcb User) (i : SockId) : Decidable (Unnamed tcbs i) := by
  unfold Unnamed Named; infer_instance

variable {tcbs tcbs' : TcbId → Tcb User} {t t' : TcbId} {i j : SockId} {u u' : Socks}
  {f : Sock → Sock} {ud : Option User} {k : Kernel.Slot} {c : Call} {s s' : State}
  {payload : List UInt8} {g : Seg} {fs : List (Frame Caller)} {l : Label}

theorem named_of_user {g : Nat}
    (hu : (tcbs t).inUse = true) (h : (tcbs t).userData = some (i, g)) : Named tcbs t i :=
  ⟨hu, by rw [h]; rfl⟩

/-- A `sock_connect` that has not returned has the connection `t`. -/
def Awaited (u : Socks) (t : TcbId) : Prop :=
  ∃ k, ∃ c ∈ u.calls k, (u.socks c.idx).state = .connected ∧ (u.socks c.idx).tcb = some t

instance (u : Socks) (t : TcbId) : Decidable (Awaited u t) := by
  unfold Awaited; infer_instance

/-- The tables are in order around slot `i`. -/
structure Bound (tcbs : TcbId → Tcb User) (u : Socks) (i : SockId) : Prop where
  owns : (u.socks i).state ≠ .free → ∀ t g, (tcbs t).inUse = true →
    (tcbs t).userData = some (i, g) → Owns u t i g
  new : (u.socks i).state = .new → Unnamed tcbs i
  one : (u.socks i).state ≠ .free → (u.socks i).state ≠ .listen →
    ∀ t t', Named tcbs t i → Named tcbs t' i → t = t'
  syn : (u.socks i).state ≠ .free → ∀ t, Named tcbs t i → (tcbs t).state = .synSent →
    (u.socks i).state = .connecting
  lis : (u.socks i).state ≠ .free → ∀ t, Named tcbs t i →
    (tcbs t).state = .listen ∨ (tcbs t).state = .synRcvd → (u.socks i).state = .listen
  busy : ∀ k c, u.calls k = some c → c.idx = i →
    (u.socks i).state = .connecting ∨ (u.socks i).state = .connected
  alone : ∀ k k' c c', u.calls k = some c → u.calls k' = some c' → c.idx = i → c'.idx = i → k = k'
  asked : ∀ k c, u.calls k = some c → c.idx = i → ∀ t, Named tcbs t i →
    (tcbs t).remoteIp = c.ip ∧ (tcbs t).remotePort = c.port
  up : ∀ k c, u.calls k = some c → c.idx = i → (u.socks i).state = .connected →
    ∃ t, (u.socks i).tcb = some t ∧ Named tcbs t i ∧ (tcbs t).state = .established

structure Binding (tcbs : TcbId → Tcb User) (u : Socks) : Prop where
  slot : ∀ i, Bound tcbs u i
  strays : u.strays = []

/-- What most updates do to a TCB in use: it keeps whom it names and its remote end,
and does not go back to an opening state. -/
structure Tame (c c' : Tcb User) : Prop where
  inUse : c.inUse = true
  user : c'.userData = c.userData
  ip : c'.remoteIp = c.remoteIp
  port : c'.remotePort = c.remotePort
  syn : c'.state = .synSent → c.state = .synSent
  lis : c'.state = .listen ∨ c'.state = .synRcvd → c.state = .listen ∨ c.state = .synRcvd

/-- An established connection stays one. -/
def Lasts (c c' : Tcb User) : Prop :=
  c.inUse = true → c.state = .established →
    c'.inUse = true ∧ c'.state = .established ∧ c'.userData = c.userData

theorem Named.of_tame (ht : ∀ t, (tcbs' t).inUse = true → Tame (tcbs t) (tcbs' t))
    (h : Named tcbs' t i) : Named tcbs t i :=
  ⟨(ht t h.1).inUse, by rw [← (ht t h.1).user]; exact h.2⟩

theorem Binding.tame (h : Binding tcbs u)
    (ht : ∀ t, (tcbs' t).inUse = true → Tame (tcbs t) (tcbs' t))
    (hl : ∀ t, Awaited u t → Lasts (tcbs t) (tcbs' t)) : Binding tcbs' u where
  slot i := {
    owns hf t g hu hud := (h.slot i).owns hf t g (ht t hu).inUse ((ht t hu).user ▸ hud)
    new hi t hn := (h.slot i).new hi t (hn.of_tame ht)
    one hf hl t t' hn hn' := (h.slot i).one hf hl t t' (hn.of_tame ht) (hn'.of_tame ht)
    syn hf t hn hs := (h.slot i).syn hf t (hn.of_tame ht) ((ht t hn.1).syn hs)
    lis hf t hn hs := (h.slot i).lis hf t (hn.of_tame ht) ((ht t hn.1).lis hs)
    busy := (h.slot i).busy
    alone := (h.slot i).alone
    asked k c hc hi t hn := by
      rw [(ht t hn.1).ip, (ht t hn.1).port]
      exact (h.slot i).asked k c hc hi t (hn.of_tame ht)
    up k c hc hi hs := by
      obtain ⟨t, htcb, hn, hst⟩ := (h.slot i).up k c hc hi hs
      obtain ⟨hu, hst', hud⟩ := hl t ⟨k, c, hc, by rw [hi]; exact ⟨hs, htcb⟩⟩ hn.1 hst
      exact ⟨t, htcb, ⟨hu, by rw [hud]; exact hn.2⟩, hst'⟩ }
  strays := h.strays

/-- Nothing that `Bound` says about slot `i` has changed, except that fewer TCBs may
name it if no `sock_connect` is waiting there. -/
structure Apart (tcbs tcbs' : TcbId → Tcb User) (u u' : Socks) (i : SockId) : Prop where
  state : (u'.socks i).state = (u.socks i).state
  tcb : (u'.socks i).tcb = (u.socks i).tcb
  epoch : u'.epoch i = u.epoch i
  calls : ∀ k c, c.idx = i → (u'.calls k = some c ↔ u.calls k = some c)
  named : ∀ t, Named tcbs' t i → tcbs' t = tcbs t
  kept : ∀ k c, u.calls k = some c → c.idx = i → ∀ t, Named tcbs t i → tcbs' t = tcbs t

theorem Named.congr (h : Named tcbs t i) (he : tcbs' t = tcbs t) : Named tcbs' t i := by
  unfold Named
  rw [he]
  exact h

theorem Apart.name (ha : Apart tcbs tcbs' u u' i) (h : Named tcbs' t i) : Named tcbs t i :=
  h.congr (ha.named t h).symm

theorem Bound.apart (h : Bound tcbs u i) (ha : Apart tcbs tcbs' u u' i) : Bound tcbs' u' i where
  owns hf t g hu hud := by
    rw [ha.state] at hf
    have he := ha.named t (named_of_user hu hud)
    rw [he] at hu hud
    obtain ⟨hg, ho⟩ := h.owns hf t g hu hud
    refine ⟨hg.trans ha.epoch.symm, ?_⟩
    rw [ha.state, ha.tcb]
    rcases ho with ho | ho | ⟨k, c, hc, hi, hn⟩
    · exact .inl ho
    · exact .inr (.inl ho)
    · exact .inr (.inr ⟨k, c, (ha.calls k c hi).mpr hc, hi, hn⟩)
  new hi t hn := h.new (ha.state ▸ hi) t (ha.name hn)
  one hf hl t t' hn hn' := h.one (ha.state ▸ hf) (ha.state ▸ hl) t t' (ha.name hn) (ha.name hn')
  syn hf t hn hs := by
    rw [ha.state] at hf ⊢
    exact h.syn hf t (ha.name hn) (ha.named t hn ▸ hs)
  lis hf t hn hs := by
    rw [ha.state] at hf ⊢
    exact h.lis hf t (ha.name hn) (ha.named t hn ▸ hs)
  busy k c hc hi := by
    rw [ha.state]
    exact h.busy k c ((ha.calls k c hi).mp hc) hi
  alone k k' c c' hc hc' hi hi' :=
    h.alone k k' c c' ((ha.calls k c hi).mp hc) ((ha.calls k' c' hi').mp hc') hi hi'
  asked k c hc hi t hn := by
    rw [ha.named t hn]
    exact h.asked k c ((ha.calls k c hi).mp hc) hi t (ha.name hn)
  up k c hc hi hs := by
    have hc' := (ha.calls k c hi).mp hc
    obtain ⟨t, htcb, hn, hst⟩ := h.up k c hc' hi (ha.state ▸ hs)
    have he := ha.kept k c hc' hi t hn
    exact ⟨t, ha.tcb.trans htcb, hn.congr he, by rw [he]; exact hst⟩

theorem apart_upd (f : Sock → Sock)
    (h : j ≠ i) : Apart tcbs tcbs u (u.upd i f) j :=
  ⟨by rw [Socks.upd_of_ne f h], by rw [Socks.upd_of_ne f h], rfl, fun _ _ _ => Iff.rfl,
    fun _ _ => rfl, fun _ _ _ _ _ _ => rfl⟩

theorem Binding.data (h : Binding tcbs u)
    (hs : (f (u.socks i)).state = (u.socks i).state)
    (ht : (f (u.socks i)).tcb = (u.socks i).tcb) : Binding tcbs (u.upd i f) :=
  ⟨fun j => (h.slot j).apart ⟨Socks.upd_field Sock.state hs j, Socks.upd_field Sock.tcb ht j, rfl,
    fun _ _ _ => Iff.rfl, fun _ _ => rfl, fun _ _ _ _ _ _ => rfl⟩, h.strays⟩

/-! ## Callbacks -/

theorem note_strays (hs : u.strays = [])
    (h : ∀ i, u'.socks i ≠ u.socks i →
      (ud = some (i, u.epoch i) ∧ Owns u t i (u.epoch i)) ∨ MadeFor u u' t i) :
    (note u t ud u').strays = [] := by
  show u.strays ++ strayed u u' t ud = []
  rw [hs, List.nil_append, strayed, List.map_eq_nil_iff, List.filter_eq_nil_iff]
  intro i _ hi
  obtain ⟨hne, hown, hmade⟩ := of_decide_eq_true hi
  rcases h i hne with ho | hm
  · exact hown ho
  · exact hmade hm

theorem Binding.note
    (h : Binding tcbs u') (hs : (note u t ud u').strays = []) : Binding tcbs (note u t ud u') :=
  ⟨fun i => (h.slot i).apart
    ⟨rfl, rfl, rfl, fun _ _ _ => Iff.rfl, fun _ _ => rfl, fun _ _ _ _ _ _ => rfl⟩, hs⟩

theorem sockForTcb_some
    (h : sockForTcb u ud = some i) : ∃ g, ud = some (i, g) ∧ (u.socks i).state ≠ .free := by
  unfold sockForTcb at h
  split at h
  · cases h
  · rename_i j g
    split at h
    · cases h
    · rename_i hf
      cases h
      exact ⟨g, rfl, hf⟩

theorem Binding.owner (h : Binding tcbs u)
    (hu : (tcbs t).inUse = true) (hi : sockForTcb u (tcbs t).userData = some i) :
    ((tcbs t).userData = some (i, u.epoch i) ∧ Owns u t i (u.epoch i)) ∧
      (u.socks i).state ≠ .free := by
  obtain ⟨g, hud, hf⟩ := sockForTcb_some hi
  have ho := (h.slot i).owns hf t g hu hud
  obtain rfl := ho.1
  exact ⟨⟨hud, ho⟩, hf⟩

theorem Binding.note_upd (h : Binding tcbs u)
    (hu : (tcbs t).inUse = true) (hi : sockForTcb u (tcbs t).userData = some i)
    (h' : Binding tcbs (u.upd i f)) :
    Binding tcbs (Sockets.note u t (tcbs t).userData (u.upd i f)) := by
  refine h'.note (note_strays h.strays fun j hj => ?_)
  by_cases hji : j = i
  · subst hji
    exact .inl (h.owner hu hi).1
  · exact absurd (Socks.upd_of_ne f hji) hj

theorem Binding.note_same (h : Binding tcbs u) (t : TcbId)
    (ud : Option User) : Binding tcbs (Sockets.note u t ud u) :=
  h.note (note_strays h.strays fun _ hi => absurd rfl hi)

theorem Binding.onRecv (h : Binding tcbs u)
    (hu : (tcbs t).inUse = true) (data : List UInt8) :
    Binding tcbs (sockApp.onRecv u t (tcbs t).userData data) := by
  show Binding tcbs (Sockets.note u t (tcbs t).userData (Sockets.onRecv u t (tcbs t).userData data))
  unfold Sockets.onRecv
  split
  · exact h.note_same t _
  · rename_i i hi
    exact h.note_upd hu hi (h.data rfl rfl)

theorem Binding.onClose (h : Binding tcbs u)
    (hu : (tcbs t).inUse = true) : Binding tcbs (sockApp.onClose u t (tcbs t).userData) := by
  show Binding tcbs (Sockets.note u t (tcbs t).userData (Sockets.onClose u t (tcbs t).userData))
  unfold Sockets.onClose
  split
  · exact h.note_same t _
  · rename_i i hi
    exact h.note_upd hu hi (h.data rfl rfl)

theorem Binding.publish (h : Binding tcbs u)
    (hn : Named tcbs t i) (hst : (tcbs t).state = .established)
    (hc : (u.socks i).state = .connecting) :
    Binding tcbs (u.upd i fun s => { s with state := .connected, tcb := some t }) := by
  have hf : (u.socks i).state ≠ .free := by rw [hc]; decide
  have hl : (u.socks i).state ≠ .listen := by rw [hc]; decide
  have honly : ∀ t', Named tcbs t' i → t' = t := fun t' hn' => (h.slot i).one hf hl t' t hn' hn
  refine ⟨fun j => ?_, h.strays⟩
  by_cases hji : j = i
  swap
  · exact (h.slot j).apart (apart_upd _ hji)
  subst hji
  refine ⟨?_, ?_, ?_, ?_, ?_, ?_, (h.slot j).alone, (h.slot j).asked, ?_⟩ <;>
    rw [Socks.upd_self]
  · intro _ t' g hu hud
    refine ⟨((h.slot j).owns hf t' g hu hud).1, .inr (.inl ?_)⟩
    rw [Socks.upd_self, honly t' (named_of_user hu hud)]
  · intro hs
    cases hs
  · intro _ _ t₁ t₂ h₁ h₂
    rw [honly t₁ h₁, honly t₂ h₂]
  · intro _ t' hn' hs
    rw [honly t' hn', hst] at hs
    cases hs
  · intro _ t' hn' hs
    rw [honly t' hn', hst] at hs
    rcases hs with hs | hs <;> cases hs
  · exact fun _ _ _ _ => .inr rfl
  · exact fun _ _ _ _ _ => ⟨t, rfl, hn, hst⟩

/-- The slot `on_connect` takes for a TCB with this `user_data`. -/
def takesSlot (u : Socks) (ud : Option User) : Option SockId :=
  match sockForTcb u ud with
  | none => none
  | some i => if (u.socks i).state = .listen ∧ ¬ qFull (u.socks i) then firstFree u else none

theorem Binding.call_ne (h : Binding tcbs u)
    (hc : u.calls k = some c)
    (hi : (u.socks i).state = .free ∨ (u.socks i).state = .listen ∨ (u.socks i).state = .new) :
    c.idx ≠ i := by
  rintro rfl
  rcases (h.slot c.idx).busy k c hc rfl with hb | hb <;> rw [hb] at hi <;> simp at hi

theorem Binding.adopt (h : Binding tcbs u)
    (hn : Named tcbs t i) (hst : (tcbs t).state = .established)
    (hl : (u.socks i).state = .listen) (hj : (u.socks j).state = .free) (hnew : Unnamed tcbs j) :
    Binding (update tcbs t { tcbs t with userData := some (j, u.epoch j + 1) })
      (((u.bump j).upd j fun _ => connSock t).upd i fun s =>
        { s with pending := s.pending ++ [j] }) := by
  have hij : i ≠ j := by
    rintro rfl
    rw [hl] at hj
    cases hj
  -- `t` names `j` now and nothing else, the other TCBs are as before
  have hnamed : ∀ t' m, Named (update tcbs t
      { tcbs t with userData := some (j, u.epoch j + 1) }) t' m →
      (t' = t ∧ m = j) ∨ (t' ≠ t ∧ Named tcbs t' m) := by
    intro t' m hm
    by_cases ht : t' = t
    · subst ht
      rw [Named, update_self] at hm
      exact .inl ⟨rfl, (Option.some.inj hm.2).symm⟩
    · exact .inr ⟨ht, hm.congr (update_of_ne ht _ _).symm⟩
  refine ⟨fun m => ?_, h.strays⟩
  by_cases hm : m = j
  · subst hm
    have honly : ∀ t', Named (update tcbs t
        { tcbs t with userData := some (m, u.epoch m + 1) }) t' m → t' = t := by
      intro t' hn'
      rcases hnamed t' m hn' with ⟨ht, -⟩ | ⟨-, hn''⟩
      · exact ht
      · exact absurd hn'' (hnew t')
    have hnone : ∀ k c, u.calls k = some c → c.idx = m → False :=
      fun k c hc hi => h.call_ne hc (.inl hj) hi
    refine ⟨?_, ?_, ?_, ?_, ?_, ?_, ?_, ?_, ?_⟩ <;>
      (try rw [Socks.upd_of_ne _ hij.symm, Socks.upd_self])
    · intro _ t' g hu hud
      obtain rfl := honly t' (named_of_user hu hud)
      rw [update_self] at hud
      refine ⟨?_, .inr (.inl ?_)⟩
      · simpa [Socks.bump] using (congrArg Prod.snd (Option.some.inj hud)).symm
      · rw [Socks.upd_of_ne _ hij.symm, Socks.upd_self]
        rfl
    · intro hs
      cases hs
    · intro _ _ t₁ t₂ h₁ h₂
      rw [honly t₁ h₁, honly t₂ h₂]
    · intro _ t' hn' hs
      rw [honly t' hn', update_self] at hs
      exact absurd (hst.symm.trans hs) (by decide)
    · intro _ t' hn' hs
      rw [honly t' hn', update_self] at hs
      rcases hs with hs | hs <;> exact absurd (hst.symm.trans hs) (by decide)
    · exact fun k c hc hi => (hnone k c hc hi).elim
    · exact fun k _ c _ hc _ hi _ => (hnone k c hc hi).elim
    · exact fun k c hc hi => (hnone k c hc hi).elim
    · exact fun k c hc hi => (hnone k c hc hi).elim
  · have hsock : ((((u.bump j).upd j fun _ => connSock t).upd i fun s =>
        { s with pending := s.pending ++ [j] }).socks m).state = (u.socks m).state ∧
        ((((u.bump j).upd j fun _ => connSock t).upd i fun s =>
        { s with pending := s.pending ++ [j] }).socks m).tcb = (u.socks m).tcb := by
      by_cases hmi : m = i
      · subst hmi
        rw [Socks.upd_self, Socks.upd_of_ne _ hm]
        exact ⟨rfl, rfl⟩
      · rw [Socks.upd_of_ne _ hmi, Socks.upd_of_ne _ hm]
        exact ⟨rfl, rfl⟩
    refine (h.slot m).apart ⟨hsock.1, hsock.2, Socks.bump_of_ne hm, fun _ _ _ => Iff.rfl, ?_, ?_⟩
    · intro t' hn'
      rcases hnamed t' m hn' with ⟨-, hmj⟩ | ⟨ht, -⟩
      · exact absurd hmj hm
      · exact update_of_ne ht _ _
    · intro k c hc hi t' hn'
      -- no call waits on the listener that `t` named
      have ht : t' ≠ t := by
        rintro rfl
        have : m = i := Option.some.inj (hn'.2.symm.trans hn.2)
        subst this
        exact h.call_ne hc (.inr (.inl hl)) hi
      exact update_of_ne ht _ _

theorem Binding.onConnect (h : Binding tcbs u)
    (hu : (tcbs t).inUse = true) (hst : (tcbs t).state = .established)
    (hslot : ∀ j, takesSlot u (tcbs t).userData = some j → Unnamed tcbs j) :
    Binding (update tcbs t
        { tcbs t with userData := (sockApp.onConnect u t (tcbs t).userData).2 })
      (sockApp.onConnect u t (tcbs t).userData).1 := by
  have hsame : update tcbs t { tcbs t with userData := (tcbs t).userData } = tcbs :=
    update_eq_self t tcbs
  show Binding (update tcbs t
      { tcbs t with userData := (Sockets.onConnect u t (tcbs t).userData).2 })
    (Sockets.note u t (tcbs t).userData (Sockets.onConnect u t (tcbs t).userData).1)
  unfold Sockets.onConnect
  split
  · rw [hsame]
    exact h.note_same t _
  rename_i i hi
  obtain ⟨⟨hud, howns⟩, hf⟩ := h.owner hu hi
  have hn : Named tcbs t i := named_of_user hu hud
  split
  · rename_i hc
    rw [hsame]
    exact h.note_upd hu hi (h.publish hn hst hc)
  split
  · rw [hsame]
    exact h.note_same t _
  rename_i hlq
  push Not at hlq
  split
  · rw [hsame]
    exact h.note_same t _
  rename_i j hj
  have hfree := firstFree_some hj
  have htake : takesSlot u (tcbs t).userData = some j := by
    unfold takesSlot
    rw [hi]
    simp only
    rw [if_pos ⟨hlq.1, by simpa using hlq.2⟩, hj]
  have hij : j ≠ i := by
    rintro rfl
    exact hf hfree
  have hb := h.adopt hn hst hlq.1 hfree (hslot j htake)
  have hep : ((u.bump j).upd j fun _ => connSock t).epoch j = u.epoch j + 1 := by
    simp [Socks.bump]
  simp only [hep]
  refine hb.note (note_strays h.strays fun m hm => ?_)
  by_cases hmi : m = i
  · subst hmi
    exact .inl ⟨hud, howns⟩
  · by_cases hmj : m = j
    · subst hmj
      refine .inr ⟨hfree, ?_⟩
      rw [Socks.upd_of_ne _ hmi, Socks.upd_self]
      rfl
    · rw [Socks.upd_of_ne _ hmi, Socks.upd_of_ne _ hmj] at hm
      exact absurd rfl hm

theorem Binding.awaited (h : Binding tcbs u)
    (ha : Awaited u t) : (tcbs t).state = .established := by
  obtain ⟨k, c, hc, hs, ht⟩ := ha
  obtain ⟨t', ht', -, hst⟩ := (h.slot c.idx).up k c hc rfl hs
  rw [ht'] at ht
  cases ht
  exact hst

/-! ## The machine's functions -/

/-- Senders inside `tcp_rx` and `tcp_send`, which the sockets do not hear about. -/
def inner : Cont Caller → Bool
  | .connect _ _ | .close _ => false
  | _ => true

/-- What the functions behind `tcp_rx` do: the tables stay in order, calls go on
waiting, no TCB starts to name the socket of a call, and at most one segment is sent
to the machine itself. -/
structure Kept (s s' : State) : Prop where
  ok : Binding s'.tcbs s'.app
  calls : s'.app.calls = s.app.calls
  ret : s'.app.ret = s.app.ret
  named : ∀ k c, s.app.calls k = some c → ∀ t, Named s'.tcbs t c.idx → Named s.tcbs t c.idx
  sends : s'.stack = s.stack ∨ ∃ f, s'.stack = f :: s.stack ∧ inner f.cont = true

theorem Kept.refl (h : Binding s.tcbs s.app) : Kept s s :=
  ⟨h, rfl, rfl, fun _ _ _ _ hn => hn, .inl rfl⟩

theorem Kept.trans {a b c : State} (h : Kept a b) (hs : b.stack = a.stack) (h' : Kept b c) :
    Kept a c := by
  refine ⟨h'.ok, h'.calls.trans h.calls, h'.ret.trans h.ret, fun k x hx t hn => ?_, ?_⟩
  · exact h.named k x hx t (h'.named k x (by rw [h.calls]; exact hx) t hn)
  · rw [← hs]
    exact h'.sends

theorem tame_upd {f : Tcb User → Tcb User}
    (hf : (f (s.tcbs t)).inUse = true → Tame (s.tcbs t) (f (s.tcbs t))) (i : TcbId) :
    ((s.upd t f).tcbs i).inUse = true → Tame (s.tcbs i) ((s.upd t f).tcbs i) := by
  by_cases hi : i = t
  · subst hi
    rw [Machine.upd_self]
    exact hf
  · rw [Machine.upd_of_ne f hi]
    exact fun hu => ⟨hu, rfl, rfl, rfl, id, id⟩

theorem kept_upd {f : Tcb User → Tcb User} (h : Binding s.tcbs s.app)
    (hf : (f (s.tcbs t)).inUse = true → Tame (s.tcbs t) (f (s.tcbs t)))
    (hl : Awaited s.app t → Lasts (s.tcbs t) (f (s.tcbs t))) : Kept s (s.upd t f) := by
  have hlasts : ∀ i, Awaited s.app i → Lasts (s.tcbs i) ((s.upd t f).tcbs i) := by
    intro i
    by_cases hi : i = t
    · subst hi
      rw [Machine.upd_self]
      exact hl
    · rw [Machine.upd_of_ne f hi]
      exact fun _ hu hst => ⟨hu, hst, rfl⟩
  exact ⟨h.tame (tame_upd hf) hlasts, rfl, rfl, fun _ _ _ _ hn => hn.of_tame (tame_upd hf),
    .inl rfl⟩

theorem onRecv_calls (u : Socks) (t : TcbId) (ud : Option User) (data : List UInt8) :
    (sockApp.onRecv u t ud data).calls = u.calls ∧ (sockApp.onRecv u t ud data).ret = u.ret := by
  show (onRecv u t ud data).calls = u.calls ∧ (onRecv u t ud data).ret = u.ret
  unfold onRecv
  split <;> exact ⟨rfl, rfl⟩

theorem onClose_calls (u : Socks) (t : TcbId) (ud : Option User) :
    (sockApp.onClose u t ud).calls = u.calls ∧ (sockApp.onClose u t ud).ret = u.ret := by
  show (onClose u t ud).calls = u.calls ∧ (onClose u t ud).ret = u.ret
  unfold onClose
  split <;> exact ⟨rfl, rfl⟩

theorem onConnect_calls (u : Socks) (t : TcbId) (ud : Option User) :
    (sockApp.onConnect u t ud).1.calls = u.calls ∧ (sockApp.onConnect u t ud).1.ret = u.ret := by
  show (onConnect u t ud).1.calls = u.calls ∧ (onConnect u t ud).1.ret = u.ret
  unfold onConnect
  split
  · exact ⟨rfl, rfl⟩
  split
  · exact ⟨rfl, rfl⟩
  split
  · exact ⟨rfl, rfl⟩
  split <;> exact ⟨rfl, rfl⟩

theorem kept_callRecv (h : Binding s.tcbs s.app)
    (hu : (s.tcbs t).inUse = true) (data : List UInt8) : Kept s (callRecv sockApp s t data) := by
  unfold callRecv
  split
  · obtain ⟨hc, hr⟩ := onRecv_calls s.app t (s.tcbs t).userData data
    exact ⟨h.onRecv hu data, hc, hr, fun _ _ _ _ hn => hn, .inl rfl⟩
  · exact .refl h

theorem kept_callClose (h : Binding s.tcbs s.app)
    (hu : (s.tcbs t).inUse = true) : Kept s (callClose sockApp s t) := by
  unfold callClose
  split
  · obtain ⟨hc, hr⟩ := onClose_calls s.app t (s.tcbs t).userData
    exact ⟨h.onClose hu, hc, hr, fun _ _ _ _ hn => hn, .inl rfl⟩
  · exact .refl h

theorem onConnect_user (u : Socks) (t : TcbId) (ud : Option User) :
    (sockApp.onConnect u t ud).2 = ud ∨
      ∃ j g, (sockApp.onConnect u t ud).2 = some (j, g) ∧ (u.socks j).state = .free := by
  show (onConnect u t ud).2 = ud ∨ ∃ j g, (onConnect u t ud).2 = some (j, g) ∧ _
  unfold onConnect
  split
  · exact .inl rfl
  split
  · exact .inl rfl
  split
  · exact .inl rfl
  split
  · exact .inl rfl
  · rename_i j hj
    exact .inr ⟨j, _, rfl, firstFree_some hj⟩

theorem kept_callConnect (h : Binding s.tcbs s.app)
    (hu : (s.tcbs t).inUse = true) (hst : (s.tcbs t).state = .established)
    (hslot : ∀ j, takesSlot s.app (s.tcbs t).userData = some j → Unnamed s.tcbs j) :
    Kept s (callConnect sockApp s t) := by
  unfold callConnect
  split
  · obtain ⟨hc, hr⟩ := onConnect_calls s.app t (s.tcbs t).userData
    refine ⟨h.onConnect hu hst hslot, hc, hr, fun k c hk t' hn => ?_, .inl rfl⟩
    by_cases ht : t' = t
    · subst ht
      simp only [Machine.setApp_tcbs, Named, Machine.upd_self] at hn
      rcases onConnect_user s.app t' (s.tcbs t').userData with he | ⟨j, g, he, hj⟩
      · rw [he] at hn
        exact hn
      · rw [he] at hn
        exact absurd (Option.some.inj hn.2).symm (h.call_ne hk (.inl hj))
    · refine hn.congr ?_
      simp only [Machine.setApp_tcbs, Machine.upd_of_ne _ ht]
  · exact .refl h

variable (myIp : Ip)

theorem kept_sendAck {k : Cont Caller} {run : State → State}
    (h : Binding s.tcbs s.app) (hk : inner k = true) (hrun : Kept s (run s)) :
    Kept s (sendAck myIp s t k run) := by
  unfold sendAck sendThen
  split
  · exact ⟨h, rfl, rfl, fun _ _ _ _ hn => hn, .inr ⟨_, rfl, hk⟩⟩
  · exact hrun

theorem kept_advance (n : Nat) (h : Binding s.tcbs s.app) :
    Kept s (s.upd t (advance n)) :=
  kept_upd h (fun hu => ⟨hu, rfl, rfl, rfl, id, id⟩) fun _ hu hst => ⟨hu, hst, rfl⟩

theorem kept_release (h : Binding s.tcbs s.app)
    (hna : ¬ Awaited s.app t) : Kept s (s.upd t Tcb.release) :=
  kept_upd h (fun hu => by cases hu) fun ha => absurd ha hna

theorem kept_setState (st : TcpState) (h : Binding s.tcbs s.app)
    (hst : st ≠ .synSent ∧ st ≠ .listen ∧ st ≠ .synRcvd)
    (hna : ¬ Awaited s.app t ∨ st = .established) : Kept s (s.upd t (setState st)) := by
  refine kept_upd h (fun hu => ⟨hu, rfl, rfl, rfl, fun hs => absurd hs hst.1, fun hs => ?_⟩)
    fun ha hu _ => ⟨hu, hna.resolve_left (fun hn => hn ha), rfl⟩
  rcases hs with hs | hs
  · exact absurd hs hst.2.1
  · exact absurd hs hst.2.2

theorem kept_takeAck (a : UInt32) (h : Binding s.tcbs s.app) :
    Kept s (s.upd t (takeAck a)) :=
  kept_upd h (fun hu => ⟨hu, rfl, rfl, rfl, id, id⟩) fun _ hu hst => ⟨hu, hst, rfl⟩

theorem awaited_of_same (hc : u'.calls = u.calls)
    (hs : ∀ k c, u.calls k = some c → (u'.socks c.idx).state = (u.socks c.idx).state ∧
      (u'.socks c.idx).tcb = (u.socks c.idx).tcb) (h : Awaited u' t) : Awaited u t := by
  obtain ⟨k, c, hk, hst, ht⟩ := h
  rw [hc] at hk
  rw [(hs k c hk).1] at hst
  rw [(hs k c hk).2] at ht
  exact ⟨k, c, hk, hst, ht⟩

theorem awaited_callRecv {data : List UInt8}
    (h : Awaited (callRecv sockApp s t data).app t') : Awaited s.app t' := by
  unfold callRecv at h
  split at h
  swap
  · exact h
  refine awaited_of_same (onRecv_calls s.app t (s.tcbs t).userData data).1 (fun k c _ => ?_) h
  show ((onRecv s.app t (s.tcbs t).userData data).socks c.idx).state = _ ∧
    ((onRecv s.app t (s.tcbs t).userData data).socks c.idx).tcb = _
  unfold onRecv
  split
  · exact ⟨rfl, rfl⟩
  · exact ⟨Socks.upd_field Sock.state rfl _, Socks.upd_field Sock.tcb rfl _⟩

theorem awaited_callClose (h : Awaited (callClose sockApp s t).app t') : Awaited s.app t' := by
  unfold callClose at h
  split at h
  swap
  · exact h
  refine awaited_of_same (onClose_calls s.app t (s.tcbs t).userData).1 (fun k c _ => ?_) h
  show ((onClose s.app t (s.tcbs t).userData).socks c.idx).state = _ ∧
    ((onClose s.app t (s.tcbs t).userData).socks c.idx).tcb = _
  unfold onClose
  split
  · exact ⟨rfl, rfl⟩
  · exact ⟨Socks.upd_field Sock.state rfl _, Socks.upd_field Sock.tcb rfl _⟩

theorem awaited_callConnect (hb : Binding s.tcbs s.app)
    (hc : ∀ i, sockForTcb s.app (s.tcbs t).userData = some i →
      (s.app.socks i).state ≠ .connecting)
    (h : Awaited (callConnect sockApp s t).app t') : Awaited s.app t' := by
  unfold callConnect at h
  split at h
  swap
  · exact h
  refine awaited_of_same (onConnect_calls s.app t (s.tcbs t).userData).1 (fun k c hk => ?_) h
  show ((onConnect s.app t (s.tcbs t).userData).1.socks c.idx).state = _ ∧
    ((onConnect s.app t (s.tcbs t).userData).1.socks c.idx).tcb = _
  unfold onConnect
  split
  · exact ⟨rfl, rfl⟩
  rename_i i hi
  rw [if_neg (hc i hi)]
  split
  · exact ⟨rfl, rfl⟩
  split
  · exact ⟨rfl, rfl⟩
  · rename_i j hj
    have hne := hb.call_ne hk (.inl (firstFree_some hj))
    dsimp only
    refine ⟨(Socks.upd_field Sock.state rfl _).trans ?_, (Socks.upd_field Sock.tcb rfl _).trans ?_⟩
    · rw [Socks.upd_of_ne _ hne]
      rfl
    · rw [Socks.upd_of_ne _ hne]
      rfl

section
variable (h : Binding s.tcbs s.app) (hu : (s.tcbs t).inUse = true)
include h hu

theorem kept_hangUp (hna : ¬ Awaited s.app t) :
    Kept s ((callClose sockApp s t).upd t Tcb.release) := by
  have hcall := kept_callClose h hu
  exact hcall.trans (quiet_callClose sockApp s t).stack
    (kept_release hcall.ok fun ha => hna (awaited_callClose ha))

theorem kept_runFin (hna : ¬ Awaited s.app t) : Kept s (runFin sockApp t s) := by
  have hset := kept_setState (t := t) .closeWait h (by decide) (.inl hna)
  refine hset.trans rfl (kept_callClose hset.ok ?_)
  rw [Machine.upd_self]
  exact hu

theorem kept_finPart {fin : Bool} (hna : fin = true → ¬ Awaited s.app t) :
    Kept s (finPart myIp sockApp t fin s) := by
  unfold finPart
  split
  · rename_i hfin
    have hadv := kept_advance (t := t) 1 h
    refine hadv.trans rfl (kept_sendAck myIp hadv.ok rfl (kept_runFin hadv.ok ?_ (hna hfin)))
    rw [Machine.upd_self]
    exact hu
  · exact .refl h

theorem kept_runData {fin : Bool} (hna : fin = true → ¬ Awaited s.app t) :
    Kept s (runData myIp sockApp t payload fin s) := by
  have hrecv := kept_callRecv h hu payload
  refine hrecv.trans (quiet_callRecv sockApp s t payload).stack (kept_finPart myIp hrecv.ok ?_ ?_)
  · rw [callRecv_tcbs]
    exact hu
  · exact fun hfin ha => hna hfin (awaited_callRecv ha)

theorem kept_runSynAck (hst : (s.tcbs t).state = .synSent) :
    Kept s (runSynAck myIp sockApp t payload s) := by
  -- the TCB's socket is connecting, so no slot is taken
  have hno : ∀ j, takesSlot s.app (s.tcbs t).userData = some j → False := by
    intro j hj
    unfold takesSlot at hj
    split at hj
    · cases hj
    · rename_i i hi
      obtain ⟨⟨hud, -⟩, hf⟩ := h.owner hu hi
      have hc := (h.slot i).syn hf t (named_of_user hu hud) hst
      rw [hc] at hj
      simp at hj
  have hset := kept_setState (t := t) .established h (by decide) (.inr rfl)
  have hcall : Kept s (callConnect sockApp (s.upd t (setState .established)) t) := by
    refine hset.trans rfl (kept_callConnect hset.ok ?_ ?_ ?_)
    · rw [Machine.upd_self]
      exact hu
    · rw [Machine.upd_self]
      rfl
    · intro j hj
      rw [Machine.upd_self] at hj
      exact (hno j hj).elim
  have hstack : (callConnect sockApp (s.upd t (setState .established)) t).stack = s.stack :=
    (quiet_callConnect sockApp _ t).stack
  unfold runSynAck
  simp only
  split
  · exact hcall
  · have hadv := kept_advance (t := t) payload.length hcall.ok
    refine hcall.trans hstack (hadv.trans rfl (kept_sendAck myIp hadv.ok rfl ?_))
    refine kept_callRecv hadv.ok ?_ payload
    rw [Machine.upd_self]
    simpa [advance, callConnect_inUse, setState] using hu

theorem kept_rxFinWait (hna : ¬ Awaited s.app t) : Kept s (rxFinWait myIp sockApp s t g) := by
  unfold rxFinWait
  split
  · have hadv := kept_advance (t := t) 1 h
    refine hadv.trans rfl (kept_sendAck myIp hadv.ok rfl (kept_hangUp hadv.ok ?_ hna))
    rw [Machine.upd_self]
    exact hu
  · exact .refl h

theorem kept_rxEstablished (hna : g.has tcpFin = true → ¬ Awaited s.app t) :
    Kept s (rxEstablished myIp sockApp s t g payload) := by
  -- copying the acknowledgement number is no concern of the sockets
  have key : ∀ s₁ : State, Kept s s₁ → s₁.stack = s.stack → s₁.app = s.app →
      (s₁.tcbs t).inUse = true → s₁ = (if g.has tcpAck then s.upd t (takeAck g.ack) else s) →
      Kept s (rxEstablished myIp sockApp s t g payload) := by
    intro s₁ hk hstack happ hu₁ hs₁
    rw [← happ] at hna
    unfold rxEstablished
    simp only [← hs₁]
    split
    · have hadv := kept_advance (t := t) payload.length hk.ok
      refine hk.trans hstack (hadv.trans rfl (kept_sendAck myIp hadv.ok rfl ?_))
      refine kept_runData myIp hadv.ok ?_ hna
      rw [Machine.upd_self]
      exact hu₁
    · exact hk.trans hstack (kept_finPart myIp hk.ok hu₁ hna)
  by_cases hg : g.has tcpAck = true
  · refine key (s.upd t (takeAck g.ack)) (kept_takeAck g.ack h) rfl rfl ?_ (if_pos hg).symm
    rw [Machine.upd_self]
    exact hu
  · exact key s (.refl h) rfl rfl hu (if_neg hg).symm

end
/-- The condition on a segment: a completed handshake takes a slot that no TCB names,
and nothing ends a connection whose `sock_connect` has not returned. -/
structure SegOk (s : State) (t : TcbId) (g : Seg) : Prop where
  slot : (s.tcbs t).state = .synRcvd → g.has tcpRst = false → g.has tcpAck = true →
    g.ack = (s.tcbs t).sndNxt →
    ∀ j, takesSlot s.app (s.tcbs t).userData = some j → Unnamed s.tcbs j
  ends : (s.tcbs t).state = .established → g.has tcpRst = true ∨ g.has tcpFin = true →
    ¬ Awaited s.app t

theorem kept_rxConn (h : Binding s.tcbs s.app) (hu : (s.tcbs t).inUse = true) (hg : SegOk s t g) :
    Kept s (rxConn myIp sockApp s t g payload) := by
  have hest : ∀ st, (s.tcbs t).state = st → st ≠ .established → ¬ Awaited s.app t :=
    fun st hst hne ha => hne (hst.symm.trans (h.awaited ha))
  unfold rxConn
  simp only
  split
  · rename_i hr
    exact kept_hangUp h hu fun ha => hg.ends (h.awaited ha) (.inl hr) ha
  rename_i hr
  split
  · rename_i hst
    split
    · exact .refl h
    have hupd : Kept s (s.upd t fun c =>
        { takeAck g.ack c with rcvIsn := g.seq, rcvNxt := g.seq + 1 }) :=
      kept_upd h (fun hu => ⟨hu, rfl, rfl, rfl, id, id⟩) fun _ hu hst => ⟨hu, hst, rfl⟩
    refine hupd.trans rfl (kept_sendAck myIp hupd.ok rfl (kept_runSynAck myIp hupd.ok ?_ ?_))
    · rw [Machine.upd_self]
      exact hu
    · rw [Machine.upd_self]
      exact hst
  · rename_i hst
    split
    · exact .refl h
    rename_i hack
    push Not at hack
    have htame : (setState .established (takeAck g.ack (s.tcbs t))).inUse = true →
        Tame (s.tcbs t) (setState .established (takeAck g.ack (s.tcbs t))) := by
      refine fun hu => ⟨hu, rfl, rfl, rfl, fun hs => ?_, fun hs => ?_⟩
      · cases hs
      · rcases hs with hs | hs <;> cases hs
    have hupd : Kept s (s.upd t fun c => setState .established (takeAck g.ack c)) :=
      kept_upd h htame fun _ hu _ => ⟨hu, rfl, rfl⟩
    have hu₁ : ((s.upd t fun c => setState .established (takeAck g.ack c)).tcbs t).inUse = true := by
      rw [Machine.upd_self]
      exact hu
    have hslot := hg.slot hst (by simpa using hr) hack.1 hack.2
    have hcall : Kept s
        (callConnect sockApp (s.upd t fun c => setState .established (takeAck g.ack c)) t) := by
      refine hupd.trans rfl (kept_callConnect hupd.ok hu₁ ?_ fun j hj t' hn => ?_)
      · rw [Machine.upd_self]
        rfl
      · rw [Machine.upd_self] at hj
        exact hslot j hj t' (hn.of_tame (tame_upd htame))
    refine hcall.trans (quiet_callConnect sockApp _ t).stack (kept_rxEstablished myIp hcall.ok ?_ ?_)
    · rw [callConnect_inUse]
      exact hu₁
    · intro _ ha
      have hlis : ∀ i, sockForTcb s.app (s.tcbs t).userData = some i →
          (s.app.socks i).state ≠ .connecting := by
        intro i hi
        obtain ⟨⟨hud, -⟩, hf⟩ := h.owner hu hi
        rw [(h.slot i).lis hf t (named_of_user hu hud) (.inr hst)]
        decide
      have ha' := awaited_callConnect hupd.ok (by rw [Machine.upd_self]; exact hlis) ha
      exact hest _ hst (by decide) ha'
  · rename_i hst
    exact kept_rxEstablished myIp h hu fun hfin => hg.ends hst (.inr hfin)
  · rename_i hst
    have hna := hest _ hst (by decide)
    split
    · have hupd : Kept s (s.upd t fun c => setState .finWait2 (takeAck g.ack c)) := by
        refine kept_upd h (fun hu => ⟨hu, rfl, rfl, rfl, fun hs => ?_, fun hs => ?_⟩)
          fun ha => absurd ha hna
        · cases hs
        · rcases hs with hs | hs <;> cases hs
      refine hupd.trans rfl (kept_rxFinWait myIp hupd.ok ?_ hna)
      rw [Machine.upd_self]
      exact hu
    · exact kept_rxFinWait myIp h hu hna
  · rename_i hst
    exact kept_rxFinWait myIp h hu (hest _ hst (by decide))
  · rename_i hst
    split
    · exact kept_hangUp h hu (hest _ hst (by decide))
    · exact .refl h
  · exact .refl h

theorem Binding.spawned (h : Binding tcbs u)
    {c : Tcb User} (hun : (tcbs t).inUse = false)
    (hst : c.state = .listen ∨ c.state = .synRcvd)
    (hud : ∀ i g, c.userData = some (i, g) → (u.socks i).state = .free ∨
      ((u.socks i).state = .listen ∧ g = u.epoch i)) : Binding (update tcbs t c) u := by
  have hold : ∀ t' m, Named tcbs t' m → update tcbs t c t' = tcbs t' := by
    intro t' m hn
    refine update_of_ne ?_ _ _
    rintro rfl
    rw [hn.1] at hun
    cases hun
  refine ⟨fun m => ?_, h.strays⟩
  by_cases hm : c.userData.map Prod.fst = some m
  swap
  · -- a slot that the new TCB does not name
    refine (h.slot m).apart ⟨rfl, rfl, rfl, fun _ _ _ => Iff.rfl, fun t' hn => ?_,
      fun _ _ _ _ t' hn => hold t' m hn⟩
    refine update_of_ne ?_ _ _
    rintro rfl
    rw [Named, update_self] at hn
    exact hm hn.2
  obtain ⟨⟨i, g⟩, hcu, hi⟩ := map_eq_some_iff.mp hm
  cases hi
  have hnone : ∀ k x, u.calls k = some x → x.idx = i → False := by
    intro k x hx hi
    rcases hud i g hcu with hf | ⟨hl, -⟩
    · exact h.call_ne hx (.inl hf) hi
    · exact h.call_ne hx (.inr (.inl hl)) hi
  have hlis : (u.socks i).state ≠ .free → (u.socks i).state = .listen ∧ g = u.epoch i :=
    fun hf => (hud i g hcu).resolve_left hf
  refine ⟨?_, ?_, ?_, ?_, ?_, ?_, ?_, ?_, ?_⟩
  · intro hf t' g' hu hud'
    by_cases ht : t' = t
    · subst ht
      rw [update_self, hcu] at hud'
      cases hud'
      exact ⟨(hlis hf).2, .inl (hlis hf).1⟩
    · rw [update_of_ne ht] at hu hud'
      exact (h.slot i).owns hf t' g' hu hud'
  · intro hs
    have := (hlis (by rw [hs]; decide)).1
    rw [hs] at this
    cases this
  · exact fun hf hl => absurd (hlis hf).1 hl
  · intro hf t' hn hs
    by_cases ht : t' = t
    · subst ht
      rw [update_self] at hs
      rw [hs] at hst
      rcases hst with hst | hst <;> cases hst
    · have he : update tcbs t c t' = tcbs t' := update_of_ne ht _ _
      rw [he] at hs
      exact (h.slot i).syn hf t' (hn.congr he.symm) hs
  · exact fun hf _ _ _ => (hlis hf).1
  · exact fun k x hx hi => (hnone k x hx hi).elim
  · exact fun k _ x _ hx _ hi _ => (hnone k x hx hi).elim
  · exact fun k x hx hi => (hnone k x hx hi).elim
  · exact fun k x hx hi => (hnone k x hx hi).elim

theorem kept_spawn {l : TcbId} {src : Ip} (ticks : UInt32)
    (h : Binding s.tcbs s.app) (hu : (s.tcbs l).inUse = true)
    (hl : (s.tcbs l).state = .listen) : Kept s (spawnConnFromListener myIp s l src g ticks) := by
  unfold spawnConnFromListener
  split
  · exact .refl h
  rename_i t ht
  have hun := tcbAlloc_some ht
  have hud : ∀ i e, (s.tcbs l).userData = some (i, e) → (s.app.socks i).state = .free ∨
      ((s.app.socks i).state = .listen ∧ e = s.app.epoch i) := by
    intro i e hud
    by_cases hf : (s.app.socks i).state = .free
    · exact .inl hf
    · exact .inr ⟨(h.slot i).lis hf l (named_of_user hu hud) (.inl hl),
        ((h.slot i).owns hf l e hu hud).1⟩
  have hb : Binding (s.upd t fun _ =>
      spawnedConn (s.tcbs l) src g.srcPort g.seq (isnOf ticks)).tcbs s.app :=
    h.spawned hun (.inr rfl) hud
  have hnamed : ∀ k c, s.app.calls k = some c → ∀ t', Named (s.upd t fun _ =>
      spawnedConn (s.tcbs l) src g.srcPort g.seq (isnOf ticks)).tcbs t' c.idx →
      Named s.tcbs t' c.idx := by
    intro k c hk t' hn
    by_cases htt : t' = t
    · subst htt
      rw [Named, Machine.upd_self] at hn
      obtain ⟨⟨i, e⟩, hcu, hi⟩ := map_eq_some_iff.mp hn.2
      rcases hud i e hcu with hf | ⟨hls, -⟩
      · exact absurd hi.symm (h.call_ne hk (.inl hf))
      · exact absurd hi.symm (h.call_ne hk (.inr (.inl hls)))
    · exact hn.congr (Machine.upd_of_ne _ htt).symm
  unfold sendThen
  split
  · exact ⟨hb, rfl, rfl, hnamed, .inr ⟨_, rfl, rfl⟩⟩
  · exact ⟨hb, rfl, rfl, hnamed, .inl rfl⟩

theorem kept_tcpRx {src : Ip} (ticks : UInt32) (h : Binding s.tcbs s.app)
    (hg : ∀ t, findTcbForSeg s.tcbs src g = some t → SegOk s t g) :
    Kept s (tcpRx myIp sockApp s src g ticks) := by
  unfold tcpRx
  split
  · exact .refl h
  split
  · exact .refl h
  rename_i t ht
  rcases findTcbForSeg_some ht with ⟨hc, -, -⟩ | ⟨hu, hl, -, hsyn, -⟩
  · rw [if_neg hc.2]
    exact kept_rxConn myIp h hc.1 (hg t ht)
  · rw [if_pos hl, if_neg (by simp [hsyn])]
    exact kept_spawn myIp ticks h hu hl

/-! ## The calls of the sockets -/

theorem Binding.setRet (h : Binding tcbs u)
    (r : Option (Call × Bool)) : Binding tcbs (u.setRet r) :=
  ⟨fun i => (h.slot i).apart
    ⟨rfl, rfl, rfl, fun _ _ _ => Iff.rfl, fun _ _ => rfl, fun _ _ _ _ _ _ => rfl⟩, h.strays⟩

theorem bound_unnamed (hn : Unnamed tcbs i)
    (hc : ∀ k c, u.calls k = some c → c.idx ≠ i) : Bound tcbs u i where
  owns _ t _ hu hud := absurd (named_of_user hu hud) (hn t)
  new _ := hn
  one _ _ t _ h := absurd h (hn t)
  syn _ t h := absurd h (hn t)
  lis _ t h := absurd h (hn t)
  busy k c hk hi := absurd hi (hc k c hk)
  alone k _ c _ hk _ hi := absurd hi (hc k c hk)
  asked k c hk hi := absurd hi (hc k c hk)
  up k c hk hi := absurd hi (hc k c hk)

theorem bound_free (hf : (u.socks i).state = .free) (hc : ∀ k c, u.calls k = some c → c.idx ≠ i) :
    Bound tcbs u i where
  owns h := absurd hf h
  new h := by
    rw [hf] at h
    cases h
  one h := absurd hf h
  syn h := absurd hf h
  lis h := absurd hf h
  busy k c hk hi := absurd hi (hc k c hk)
  alone k _ c _ hk _ hi := absurd hi (hc k c hk)
  asked k c hk hi := absurd hi (hc k c hk)
  up k c hk hi := absurd hi (hc k c hk)

theorem Binding.sockCreate (h : Binding tcbs u)
    (hs : ∀ i, firstFree u = some i → Unnamed tcbs i) : Binding tcbs (sockCreate u) := by
  unfold Sockets.sockCreate
  split
  · exact h
  rename_i i hi
  refine ⟨fun j => ?_, h.strays⟩
  by_cases hj : j = i
  · subst hj
    exact bound_unnamed (hs j hi) fun k c hk => h.call_ne hk (.inl (firstFree_some hi))
  · exact (h.slot j).apart ⟨by rw [Socks.upd_of_ne _ hj]; rfl, by rw [Socks.upd_of_ne _ hj]; rfl,
      Socks.bump_of_ne hj, fun _ _ _ => Iff.rfl, fun _ _ => rfl, fun _ _ _ _ _ _ => rfl⟩

theorem Binding.upd (h : Binding tcbs u)
    (hn : Unnamed tcbs i) (hc : ∀ k c, u.calls k = some c → c.idx ≠ i) (f : Sock → Sock) :
    Binding tcbs (u.upd i f) := by
  refine ⟨fun j => ?_, h.strays⟩
  by_cases hj : j = i
  · subst hj
    exact bound_unnamed hn hc
  · exact (h.slot j).apart (apart_upd f hj)

theorem Binding.closeRet (h : Binding tcbs u)
    (hc : ∀ k c, u.calls k = some c → c.idx ≠ i) : Binding tcbs (closeRet u (.close i)) := by
  unfold Sockets.closeRet
  refine ⟨fun j => ?_, h.strays⟩
  by_cases hj : j = i
  · subst hj
    refine bound_free ?_ hc
    rw [Socks.upd_self]
    rfl
  · exact (h.slot j).apart (apart_upd _ hj)

theorem setCall_self (u : Socks) (k : Kernel.Slot) (c : Option Call) :
    (u.setCall k c).calls k = c := by
  simp [Socks.setCall]

theorem setCall_of_ne {k' : Kernel.Slot} (c : Option Call) (h : k' ≠ k) :
    (u.setCall k c).calls k' = u.calls k' := by
  simp [Socks.setCall, h]

theorem calls_other {o : Option Call}
    (ho : ∀ c, o = some c → c.idx = i) (hk : ∀ c, u.calls k = some c → c.idx = i) (hj : j ≠ i)
    (k' : Kernel.Slot) (c : Call) (hc : c.idx = j) :
    (u.setCall k o).calls k' = some c ↔ u.calls k' = some c := by
  by_cases hkk : k' = k
  · subst hkk
    rw [setCall_self]
    constructor
    · intro h
      exact absurd (hc.symm.trans (ho c h)) hj
    · intro h
      exact absurd (hc.symm.trans (hk c h)) hj
  · rw [setCall_of_ne o hkk]

theorem Binding.gaveUp (h : Binding tcbs u)
    (hk : u.calls k = some c) (hn : Unnamed tcbs c.idx)
    (f : Sock → Sock) : Binding tcbs (((u.upd c.idx f).bump c.idx).setCall k none) := by
  refine ⟨fun j => ?_, h.strays⟩
  by_cases hj : j = c.idx
  · subst hj
    refine bound_unnamed hn fun k' c' hk' hi => ?_
    by_cases hkk : k' = k
    · subst hkk
      rw [setCall_self] at hk'
      cases hk'
    · rw [setCall_of_ne _ hkk] at hk'
      exact hkk ((h.slot c.idx).alone k' k c' c hk' hk hi rfl)
  · refine (h.slot j).apart ⟨by rw [Socks.setCall_socks, Socks.bump_socks, Socks.upd_of_ne _ hj],
      by rw [Socks.setCall_socks, Socks.bump_socks, Socks.upd_of_ne _ hj], Socks.bump_of_ne hj,
      calls_other (fun _ h => by cases h) (fun c' h' => ?_) hj, fun _ _ => rfl,
      fun _ _ _ _ _ _ => rfl⟩
    rw [Socks.bump_calls, Socks.upd_calls, hk] at h'
    cases h'
    rfl

theorem Binding.returned (h : Binding tcbs u)
    (hk : u.calls k = some c)
    (hs : (u.socks c.idx).state = .connected) : Binding tcbs (u.setCall k none) := by
  refine ⟨fun j => ?_, h.strays⟩
  by_cases hj : j = c.idx
  swap
  · refine (h.slot j).apart ⟨rfl, rfl, rfl, calls_other (fun _ h => by cases h) (fun c' h' => ?_) hj,
      fun _ _ => rfl, fun _ _ _ _ _ _ => rfl⟩
    rw [hk] at h'
    cases h'
    rfl
  subst hj
  have hnone : ∀ k' c', (u.setCall k none).calls k' = some c' → c'.idx = c.idx → False := by
    intro k' c' hk' hi
    by_cases hkk : k' = k
    · subst hkk
      rw [setCall_self] at hk'
      cases hk'
    · rw [setCall_of_ne _ hkk] at hk'
      exact hkk ((h.slot c.idx).alone k' k c' c hk' hk hi rfl)
  obtain ⟨t, ht, hn, -⟩ := (h.slot c.idx).up k c hk rfl hs
  have hb := h.slot c.idx
  refine ⟨?_, hb.new, hb.one, hb.syn, hb.lis, ?_, ?_, ?_, ?_⟩
  · intro hf t' g hu hud
    -- the TCB that names the socket is the one in its `tcb` field
    have htt := hb.one hf (by rw [hs]; decide) t' t (named_of_user hu hud) hn
    exact ⟨(hb.owns hf t' g hu hud).1, .inr (.inl (by rw [htt]; exact ht))⟩
  · exact fun k' c' hk' hi => (hnone k' c' hk' hi).elim
  · exact fun k' _ c' _ hk' _ hi => (hnone k' c' hk' hi).elim
  · exact fun k' c' hk' hi => (hnone k' c' hk' hi).elim
  · exact fun k' c' hk' hi => (hnone k' c' hk' hi).elim

/-- What `sock_connect` promises when it returns 0. -/
def Success (s : State) (c : Call) : Prop :=
  ∃ t, (s.app.socks c.idx).tcb = some t ∧ (s.tcbs t).inUse = true ∧
    (s.tcbs t).state = .established ∧ (s.tcbs t).remoteIp = c.ip ∧ (s.tcbs t).remotePort = c.port

theorem Binding.finish (h : Binding tcbs u)
    {c' : Call} (hk : u.calls k = some c) (hi : c'.idx = c.idx)
    (hn : (u.socks c.idx).state ≠ .connected → Unnamed tcbs c.idx) :
    Binding tcbs (finish u k c') := by
  unfold Sockets.finish
  split
  · rename_i hs
    rw [hi] at hs ⊢
    exact (h.gaveUp hk (hn hs) _).setRet _
  · rename_i hs
    rw [hi] at hs
    exact (h.returned hk (by simpa using hs)).setRet _

theorem finish_success (h : Binding tcbs u)
    {c' x : Call} (hk : u.calls k = some c)
    (hc : c'.idx = c.idx ∧ c'.ip = c.ip ∧ c'.port = c.port)
    (hr : (finish u k c').ret = some (x, true)) (hs : s.tcbs = tcbs)
    (happ : s.app = finish u k c') : Success s x := by
  obtain ⟨hi, hip, hport⟩ := hc
  unfold finish at hr happ
  split at hr
  · cases hr
  · rename_i hst
    rw [if_neg hst] at happ
    cases hr
    rw [hi] at hst
    obtain ⟨t, ht, hn, hest⟩ := (h.slot c.idx).up k c hk rfl (by simpa using hst)
    obtain ⟨ha, hb⟩ := (h.slot c.idx).asked k c hk rfl t hn
    refine ⟨t, ?_, ?_, ?_, ?_, ?_⟩
    · rw [happ, hi]
      exact ht
    · rw [hs]
      exact hn.1
    · rw [hs]
      exact hest
    · rw [hs, hip]
      exact ha
    · rw [hs, hport]
      exact hb

theorem Binding.begin (h : Binding tcbs u)
    (hk : u.calls k = none) (hnew : (u.socks c.idx).state = .new)
    (hf : (f (u.socks c.idx)).state = .connecting) :
    Binding tcbs ((u.upd c.idx f).setCall k (some c)) := by
  have hun := (h.slot c.idx).new hnew
  have hone : ∀ k' c', ((u.upd c.idx f).setCall k (some c)).calls k' = some c' →
      c'.idx = c.idx → k' = k := by
    intro k' c' hk' hi
    by_contra hkk
    rw [setCall_of_ne _ hkk] at hk'
    exact h.call_ne hk' (.inr (.inr hnew)) hi
  refine ⟨fun j => ?_, h.strays⟩
  by_cases hj : j = c.idx
  · subst hj
    have hst : (((u.upd c.idx f).setCall k (some c)).socks c.idx).state = .connecting := by
      rw [Socks.setCall_socks, Socks.upd_self]
      exact hf
    refine ⟨?_, fun _ => hun, ?_, ?_, ?_, fun _ _ _ _ => .inl hst, ?_, ?_, ?_⟩
    · exact fun _ t g hu hud => absurd (named_of_user hu hud) (hun t)
    · exact fun _ _ t _ hn => absurd hn (hun t)
    · exact fun _ t hn => absurd hn (hun t)
    · exact fun _ t hn => absurd hn (hun t)
    · exact fun k₁ k₂ c₁ c₂ h₁ h₂ hi₁ hi₂ => (hone k₁ c₁ h₁ hi₁).trans (hone k₂ c₂ h₂ hi₂).symm
    · exact fun _ _ _ _ t hn => absurd hn (hun t)
    · intro _ _ _ _ hs
      rw [hst] at hs
      cases hs
  · refine (h.slot j).apart ⟨by rw [Socks.setCall_socks, Socks.upd_of_ne _ hj],
      by rw [Socks.setCall_socks, Socks.upd_of_ne _ hj], rfl,
      calls_other (fun c' h' => ?_) (fun c' h' => ?_) hj, fun _ _ => rfl, fun _ _ _ _ _ _ => rfl⟩
    · cases h'
      rfl
    · rw [Socks.upd_calls, hk] at h'
      cases h'

theorem Binding.dial (h : Binding tcbs u)
    (hk : u.calls k = some c) (hct : c.tcb = none)
    (hs : (u.socks c.idx).state = .connecting) (hun : Unnamed tcbs c.idx)
    (ht : (tcbs t).inUse = false) (p : UInt16) (isn : UInt32) :
    Binding (update tcbs t
      (newConn p c.ip c.port isn (some (c.idx, u.epoch c.idx)))) u := by
  have hold : ∀ t' m, Named tcbs t' m → t' ≠ t := by
    rintro t' m hn rfl
    rw [hn.1] at ht
    cases ht
  refine ⟨fun m => ?_, h.strays⟩
  by_cases hm : m = c.idx
  swap
  · refine (h.slot m).apart ⟨rfl, rfl, rfl, fun _ _ _ => Iff.rfl, fun t' hn => ?_,
      fun _ _ _ _ t' hn => update_of_ne (hold t' m hn) _ _⟩
    refine update_of_ne ?_ _ _
    rintro rfl
    rw [Named, update_self] at hn
    exact hm (Option.some.inj hn.2).symm
  subst hm
  have honly : ∀ t', Named (update tcbs t
      (newConn p c.ip c.port isn (some (c.idx, u.epoch c.idx)))) t' c.idx → t' = t := by
    intro t' hn
    by_contra htt
    exact hun t' (hn.congr (update_of_ne htt _ _).symm)
  have hb := h.slot c.idx
  refine ⟨?_, ?_, ?_, fun _ _ _ _ => hs, ?_, hb.busy, hb.alone, ?_, ?_⟩
  · intro _ t' g hu hud
    obtain rfl := honly t' (named_of_user hu hud)
    rw [update_self] at hud
    cases hud
    exact ⟨rfl, .inr (.inr ⟨k, c, hk, rfl, hct⟩)⟩
  · intro hn
    rw [hs] at hn
    cases hn
  · intro _ _ t₁ t₂ h₁ h₂
    rw [honly t₁ h₁, honly t₂ h₂]
  · intro _ t' hn hst
    rw [honly t' hn, update_self] at hst
    rcases hst with hst | hst <;> cases hst
  · intro k' c' hk' hi t' hn
    have hkk := hb.alone k' k c' c hk' hk hi rfl
    subst hkk
    rw [hk] at hk'
    cases hk'
    rw [honly t' hn, update_self]
    exact ⟨rfl, rfl⟩
  · intro _ _ _ _ hst
    rw [hs] at hst
    cases hst

theorem Binding.answered (h : Binding tcbs u)
    (hk : u.calls k = some c)
    (honly : ∀ t', Named tcbs t' c.idx → t' = t) :
    Binding tcbs ((u.upd c.idx fun s => { s with tcb := some t }).setCall k
      (some { c with tcb := some t })) := by
  have hst : ∀ j, (((u.upd c.idx fun s => { s with tcb := some t }).setCall k
      (some { c with tcb := some t })).socks j).state = (u.socks j).state := by
    intro j
    rw [Socks.setCall_socks]
    exact Socks.upd_field Sock.state rfl j
  have hother : ∀ k' c', ((u.upd c.idx fun s => { s with tcb := some t }).setCall k
      (some { c with tcb := some t })).calls k' = some c' → c'.idx = c.idx →
      k' = k ∧ c' = { c with tcb := some t } := by
    intro k' c' hk' hi
    by_cases hkk : k' = k
    · subst hkk
      rw [setCall_self] at hk'
      cases hk'
      exact ⟨rfl, rfl⟩
    · rw [setCall_of_ne _ hkk] at hk'
      exact absurd ((h.slot c.idx).alone k' k c' c hk' hk hi rfl) hkk
  refine ⟨fun j => ?_, h.strays⟩
  by_cases hj : j = c.idx
  swap
  · refine (h.slot j).apart ⟨hst j, by rw [Socks.setCall_socks, Socks.upd_of_ne _ hj], rfl,
      calls_other (fun c' h' => ?_) (fun c' h' => ?_) hj, fun _ _ => rfl, fun _ _ _ _ _ _ => rfl⟩
    · cases h'
      rfl
    · rw [Socks.upd_calls, hk] at h'
      cases h'
      rfl
  subst hj
  have hb := h.slot c.idx
  refine ⟨?_, ?_, ?_, ?_, ?_, ?_, ?_, ?_, ?_⟩
  · intro hf t' g hu hud
    rw [hst] at hf
    refine ⟨(hb.owns hf t' g hu hud).1, .inr (.inl ?_)⟩
    rw [Socks.setCall_socks, Socks.upd_self, honly t' (named_of_user hu hud)]
  · rw [hst]
    exact hb.new
  · rw [hst]
    exact hb.one
  · rw [hst]
    exact hb.syn
  · rw [hst]
    exact hb.lis
  · intro _ _ _ _
    rw [hst]
    exact hb.busy k c hk rfl
  · exact fun k₁ k₂ c₁ c₂ h₁ h₂ hi₁ hi₂ =>
      ((hother k₁ c₁ h₁ hi₁).1).trans ((hother k₂ c₂ h₂ hi₂).1).symm
  · intro k' c' hk' hi
    rw [(hother k' c' hk' hi).2]
    exact hb.asked k c hk rfl
  · intro k' c' hk' hi hs
    rw [hst] at hs
    obtain ⟨t', -, hn, hest⟩ := hb.up k c hk rfl hs
    refine ⟨t', ?_, hn, hest⟩
    rw [Socks.setCall_socks, Socks.upd_self, honly t' hn]

theorem Binding.connectRet (h : Binding tcbs u)
    (hk : u.calls k = some c)
    (honly : ∀ t', Named tcbs t' c.idx → t' = t) :
    Binding tcbs (connectRet u (.connect k) (some t)) ∧
      ∀ x, u.ret = none → (connectRet u (.connect k) (some t)).ret = some (x, true) →
        ∀ s : State, s.tcbs = tcbs → s.app = connectRet u (.connect k) (some t) → Success s x := by
  have ha := h.answered hk honly
  have hcall : ((u.upd c.idx fun s => { s with tcb := some t }).setCall k
      (some { c with tcb := some t })).calls k = some { c with tcb := some t } := setCall_self _ _ _
  unfold Sockets.connectRet
  simp only [hk]
  split
  · refine ⟨ha, fun x hr hx => ?_⟩
    exact absurd (hr.symm.trans hx) (by simp)
  · rename_i hs
    refine ⟨ha.finish hcall rfl fun hne => ?_, fun x _ hx s hst happ => ?_⟩
    · rcases (ha.slot c.idx).busy k _ hcall rfl with hb | hb
      · exact absurd hb hs
      · exact absurd hb hne
    · exact finish_success ha hcall ⟨rfl, rfl, rfl⟩ hx hst happ

theorem Binding.connectRet_none (h : Binding tcbs u)
    (hk : u.calls k = some c) (hun : Unnamed tcbs c.idx) :
    Binding tcbs (Sockets.connectRet u (.connect k) none) ∧
      (Sockets.connectRet u (.connect k) none).ret = some (c, false) := by
  unfold Sockets.connectRet
  simp only [hk]
  exact ⟨(h.gaveUp hk hun _).setRet _, rfl⟩

/-! ## Pending sends -/

/-- What a pending send of a call knows: the TCB of a `tcp_connect` is the only one that
names the socket, and a socket being closed has no call. -/
def FrameOk (tcbs : TcbId → Tcb User) (u : Socks) (f : Frame Caller) : Prop :=
  match f.cont with
  | .connect t (.connect k) =>
    ∃ c, u.calls k = some c ∧ ∀ t', Named tcbs t' c.idx → t' = t
  | .close (.close i) => ∀ k c, u.calls k = some c → c.idx ≠ i
  | _ => True

/-- Only the first of the pending sends, which the others are inside of, is of a call. -/
def Framed (tcbs : TcbId → Tcb User) (u : Socks) : List (Frame Caller) → Prop
  | [] => True
  | [f] => FrameOk tcbs u f
  | f :: g :: fs => inner f.cont = true ∧ Framed tcbs u (g :: fs)

theorem frameOk_inner {f : Frame Caller}
    (h : inner f.cont = true) : FrameOk tcbs u f := by
  unfold FrameOk
  split
  · rename_i hf
    rw [hf] at h
    cases h
  · rename_i hf
    rw [hf] at h
    cases h
  · trivial

theorem Framed.cons {f : Frame Caller}
    (h : Framed tcbs u fs) (hf : inner f.cont = true) :
    Framed tcbs u (f :: fs) := by
  cases fs with
  | nil => exact frameOk_inner hf
  | cons g fs => exact ⟨hf, h⟩

theorem Framed.kept (h : Kept s s')
    (hf : Framed s.tcbs s.app fs) : Framed s'.tcbs s'.app fs := by
  induction fs with
  | nil => trivial
  | cons f fs ih =>
    cases fs with
    | cons g fs => exact ⟨hf.1, ih hf.2⟩
    | nil =>
      unfold Framed FrameOk at hf ⊢
      split
      · rename_i t k hc
        simp only [hc] at hf
        obtain ⟨c, hk, honly⟩ := hf
        rw [h.calls]
        exact ⟨c, hk, fun t' hn => honly t' (h.named k c hk t' hn)⟩
      · rename_i i hc
        simp only [hc] at hf
        rw [h.calls]
        exact hf
      · trivial

theorem Kept.framed (h : Kept s s') (hf : Framed s.tcbs s.app s.stack) :
    Framed s'.tcbs s'.app s'.stack := by
  have hf' := hf.kept h
  rcases h.sends with hs | ⟨f, hs, hi⟩
  · rw [hs]
    exact hf'
  · rw [hs]
    exact hf'.cons hi

/-! ## Steps -/

/-- The tables in order and the pending sends too. -/
structure SockInv (s : State) : Prop where
  tcp : Inv s
  bind : Binding s.tcbs s.app
  frames : Framed s.tcbs s.app s.stack

/-- What a step leaves: the tables in order, and what `sock_connect` promises, if it was
`sock_connect` that returned. -/
structure Outcome (s' : State) : Prop where
  bind : Binding s'.tcbs s'.app
  frames : Framed s'.tcbs s'.app s'.stack
  success : ∀ c, s'.app.ret = some (c, true) → Success s' c

theorem Kept.outcome (h : Kept s s') (hf : Framed s.tcbs s.app s.stack)
    (hr : s.app.ret = none) : Outcome s' := by
  refine ⟨h.ok, h.framed hf, fun c hc => ?_⟩
  rw [h.ret, hr] at hc
  cases hc

theorem outcome_app (hidle : s.stack = []) (hb : Binding s.tcbs u)
    (hr : u.ret = none) : Outcome (s.setApp u) := by
  refine ⟨hb, ?_, fun c hc => ?_⟩
  · rw [Machine.setApp_stack, hidle]
    trivial
  · rw [Machine.setApp_app, hr] at hc
    cases hc

theorem outcome_connect (ticks : UInt32) (ok : Bool)
    (hidle : s.stack = []) (h : Binding s.tcbs s.app) (hr : s.app.ret = none)
    (hk : s.app.calls k = some c) (hct : c.tcb = none)
    (hs : (s.app.socks c.idx).state = .connecting) (hun : Unnamed s.tcbs c.idx) :
    Outcome (tcpConnect myIp sockApp s c.ip c.port ticks (some (c.idx, s.app.epoch c.idx))
      (.connect k) ok) := by
  have hfail : ∀ s' : State, s'.stack = [] → s'.app = s.app → Binding s'.tcbs s.app →
      Unnamed s'.tcbs c.idx →
      Outcome (s'.setApp (sockApp.connectRet s'.app (.connect k) none)) := by
    intro s' hstack happ hb hun'
    rw [happ]
    obtain ⟨hb', hret⟩ := hb.connectRet_none hk hun'
    refine ⟨hb', ?_, fun x hx => ?_⟩
    · rw [Machine.setApp_stack, hstack]
      trivial
    · have := hret.symm.trans hx
      simp at this
  unfold tcpConnect
  simp only
  split
  · exact hfail { s with nextEph := _ } hidle rfl h hun
  split
  · exact hfail { s with nextEph := _ } hidle rfl h hun
  rename_i t ht
  have ht' : (s.tcbs t).inUse = false := tcbAlloc_some ht
  have hd := h.dial hk hct hs hun ht' (allocEphemeralPort s.tcbs 16384 s.nextEph).1 (isnOf ticks)
  have honly : ∀ t', Named (update s.tcbs t (newConn
      (allocEphemeralPort s.tcbs 16384 s.nextEph).1 c.ip c.port (isnOf ticks)
      (some (c.idx, s.app.epoch c.idx)))) t' c.idx → t' = t := by
    intro t' hn
    by_contra htt
    exact hun t' (hn.congr (update_of_ne htt _ _).symm)
  have hsyn : (update s.tcbs t (newConn
      (allocEphemeralPort s.tcbs 16384 s.nextEph).1 c.ip c.port (isnOf ticks)
      (some (c.idx, s.app.epoch c.idx))) t).state = .synSent := by
    rw [update_self]
    rfl
  -- the machine with the new TCB
  obtain ⟨s₁, hs₁⟩ : ∃ s₁ : State, s₁ = Machine.upd { s with
      nextEph := (allocEphemeralPort s.tcbs 16384 s.nextEph).2 } t fun _ => newConn
      (allocEphemeralPort s.tcbs 16384 s.nextEph).1 c.ip c.port (isnOf ticks)
      (some (c.idx, s.app.epoch c.idx)) := ⟨_, rfl⟩
  have happ : s₁.app = s.app := by rw [hs₁]; rfl
  have hstack : s₁.stack = [] := by rw [hs₁]; exact hidle
  have htcbs : s₁.tcbs = update s.tcbs t (newConn
      (allocEphemeralPort s.tcbs 16384 s.nextEph).1 c.ip c.port (isnOf ticks)
      (some (c.idx, s.app.epoch c.idx))) := by rw [hs₁]; rfl
  rw [← htcbs] at hd honly hsyn
  rw [← hs₁]
  split
  · refine ⟨?_, ?_, fun x hx => ?_⟩
    · rw [Machine.push_tcbs, Machine.push_app, happ]
      exact hd
    · rw [Machine.push_stack, Machine.push_tcbs, Machine.push_app, hstack, happ]
      exact ⟨c, hk, honly⟩
    · rw [Machine.push_app, happ, hr] at hx
      cases hx
  split
  · obtain ⟨hb, hsucc⟩ := hd.connectRet hk honly
    rw [happ]
    refine ⟨hb, ?_, fun x hx => hsucc x hr hx _ rfl rfl⟩
    rw [Machine.setApp_stack, hstack]
    trivial
  · -- the TCB is released again
    rw [← happ] at hd
    have hna : ¬ Awaited s₁.app t := by
      intro ha
      rw [hd.awaited ha] at hsyn
      cases hsyn
    have hrel := (kept_release hd hna).ok
    rw [Machine.upd_app, happ] at hrel
    have hun' : Unnamed (s₁.upd t Tcb.release).tcbs c.idx := by
      intro t' hn
      by_cases htt : t' = t
      · subst htt
        rw [Named, Machine.upd_self] at hn
        cases hn.1
      · exact htt (honly t' (hn.congr (Machine.upd_of_ne _ htt).symm))
    exact hfail (s₁.upd t Tcb.release) hstack happ hrel hun'

theorem outcome_sockConnect {ip : Ip} {port : UInt16}
    (ticks : UInt32) (ok : Bool) (hidle : s.stack = []) (h : Binding s.tcbs s.app)
    (hr : s.app.ret = none) (hk : s.app.calls k = none) :
    Outcome (sockConnect myIp s k i ip port ticks ok) := by
  unfold sockConnect
  split
  · exact outcome_app hidle h hr
  rename_i hnew
  have hnew' : (s.app.socks i).state = .new := by simpa using hnew
  have hb := h.begin (c := ⟨i, ip, port, none, 0⟩)
    (f := fun k => qInit 0 { k with state := .connecting, peerClosed := false, rx := [] })
    hk hnew' rfl
  refine outcome_connect (c := ⟨i, ip, port, none, 0⟩) myIp ticks ok hidle hb hr
    (setCall_self _ _ _) rfl ?_ ((h.slot i).new hnew')
  simp [qInit]

theorem tcpListen_cases (s : State) (port : UInt16) (ud : Option User) :
    tcpListen s port ud = (none, s) ∨
      ∃ t c, (s.tcbs t).inUse = false ∧ c.state = .listen ∧ c.userData = ud ∧
        tcpListen s port ud = (some t, s.upd t fun _ => c) := by
  unfold tcpListen
  split
  · exact .inl rfl
  split
  · exact .inl rfl
  · rename_i t ht
    exact .inr ⟨t, _, tcbAlloc_some ht, rfl, rfl, rfl⟩

theorem outcome_sockListen {backlog : Nat} (hidle : s.stack = [])
    (h : Binding s.tcbs s.app) (hr : s.app.ret = none) :
    Outcome (sockListen s i backlog) := by
  unfold sockListen
  split
  · exact outcome_app hidle h hr
  rename_i hnew
  have hnew' : (s.app.socks i).state = .new := by simpa using hnew
  have hun := (h.slot i).new hnew'
  have hcall : ∀ k c, s.app.calls k = some c → c.idx ≠ i :=
    fun k c hc => h.call_ne hc (.inr (.inr hnew'))
  have hset := h.upd hun hcall fun k => qInit backlog { k with state := .listen }
  rcases tcpListen_cases (s.setApp (s.app.upd i fun k => qInit backlog { k with state := .listen }))
    ((s.app.upd i fun k => qInit backlog { k with state := .listen }).socks i).port
    (some (i, s.app.epoch i)) with he | ⟨t, c, ht, hst, hud, he⟩
  · dsimp only
    rw [Socks.upd_epoch, he]
    exact outcome_app hidle (hset.upd hun hcall _) hr
  · dsimp only
    rw [Socks.upd_epoch, he]
    refine outcome_app hidle ((hset.upd hun hcall _).spawned ht (.inl hst) fun j g hj => ?_) hr
    rw [hud] at hj
    cases hj
    refine .inr ⟨?_, rfl⟩
    rw [Socks.upd_self, Socks.upd_self]
    rfl

theorem Binding.turn (h : Binding tcbs u)
    (hk : u.calls k = some c) {n : Nat} :
    Binding tcbs (u.setCall k (some { c with spins := n })) := by
  have hback : ∀ k' x, (u.setCall k (some { c with spins := n })).calls k' = some x →
      ∃ y, u.calls k' = some y ∧ y.idx = x.idx ∧ y.ip = x.ip ∧ y.port = x.port := by
    intro k' x hx
    by_cases hkk : k' = k
    · subst hkk
      rw [setCall_self] at hx
      cases hx
      exact ⟨c, hk, rfl, rfl, rfl⟩
    · rw [setCall_of_ne _ hkk] at hx
      exact ⟨x, hx, rfl, rfl, rfl⟩
  refine ⟨fun j => ?_, h.strays⟩
  have hb := h.slot j
  refine ⟨?_, hb.new, hb.one, hb.syn, hb.lis, ?_, ?_, ?_, ?_⟩
  · intro hf t g hu hud
    obtain ⟨hg, ho⟩ := hb.owns hf t g hu hud
    refine ⟨hg, ho.imp_right (Or.imp_right ?_)⟩
    rintro ⟨k', y, hy, hi, hn⟩
    by_cases hkk : k' = k
    · subst hkk
      rw [mem_def, hk] at hy
      cases hy
      exact ⟨k', _, setCall_self _ _ _, hi, hn⟩
    · refine ⟨k', y, ?_, hi, hn⟩
      rw [setCall_of_ne _ hkk]
      exact hy
  · intro k' x hx hi
    obtain ⟨y, hy, hyi, -⟩ := hback k' x hx
    exact hb.busy k' y hy (hyi.trans hi)
  · intro k₁ k₂ x₁ x₂ h₁ h₂ hi₁ hi₂
    obtain ⟨y₁, hy₁, hyi₁, -⟩ := hback k₁ x₁ h₁
    obtain ⟨y₂, hy₂, hyi₂, -⟩ := hback k₂ x₂ h₂
    exact hb.alone k₁ k₂ y₁ y₂ hy₁ hy₂ (hyi₁.trans hi₁) (hyi₂.trans hi₂)
  · intro k' x hx hi t hn
    obtain ⟨y, hy, hyi, hip, hport⟩ := hback k' x hx
    rw [← hip, ← hport]
    exact hb.asked k' y hy (hyi.trans hi) t hn
  · intro k' x hx hi hs
    obtain ⟨y, hy, hyi, -⟩ := hback k' x hx
    exact hb.up k' y hy (hyi.trans hi) hs

theorem outcome_poll (hidle : s.stack = [])
    (h : Binding s.tcbs s.app) (hr : s.app.ret = none)
    (htidy : ∀ c ∈ s.app.calls k, ∀ t ∈ c.tcb, stops s c t = true →
      (s.app.socks c.idx).state ≠ .connected → Unnamed s.tcbs c.idx) :
    Outcome (sockPoll s k) := by
  unfold sockPoll
  split
  · exact outcome_app hidle h hr
  rename_i c hk
  split
  · exact outcome_app hidle h hr
  rename_i t ht
  split
  · rename_i hstop
    refine ⟨h.finish hk rfl (htidy c hk t ht hstop), ?_, fun x hx => ?_⟩
    · rw [Machine.setApp_stack, hidle]
      trivial
    · refine finish_success h hk ?_ hx rfl rfl
      exact ⟨rfl, rfl, rfl⟩
  · exact outcome_app hidle (h.turn hk) hr

theorem kept_use (n : Nat) (h : Binding s.tcbs s.app) :
    Kept s (s.upd t (use n)) :=
  kept_upd h (fun hu => ⟨hu, rfl, rfl, rfl, id, id⟩) fun _ hu hst => ⟨hu, hst, rfl⟩

theorem kept_tcpSend {data : List UInt8} {ok : Bool}
    (h : Binding s.tcbs s.app) : Kept s (tcpSend myIp sockApp s t data .write ok) := by
  have hused := kept_use (t := t) data.length h
  have hsame : Kept s (s.setApp (sockApp.sendRet s.app .write none)) := .refl h
  unfold tcpSend
  simp only
  split
  · exact hsame
  split
  · exact hsame
  split
  · exact ⟨hused.ok, rfl, rfl, hused.named, .inr ⟨_, rfl, rfl⟩⟩
  split
  · exact hused
  · exact hsame

theorem outcome_tcpClose (hidle : s.stack = [])
    (h : Binding s.tcbs s.app) (hr : s.app.ret = none)
    (hc : ∀ k c, s.app.calls k = some c → c.idx ≠ i) (hna : ¬ Awaited s.app t) :
    Outcome (tcpClose myIp sockApp s t (.close i)) := by
  -- whatever `tcp_close` has done to the TCB, the slot is freed behind it
  have hret : ∀ s' : State, Kept s s' → s'.stack = [] →
      Outcome (s'.setApp (sockApp.closeRet s'.app (.close i))) := by
    intro s' hk hstack
    refine outcome_app hstack (hk.ok.closeRet ?_) (hk.ret.trans hr)
    rw [hk.calls]
    exact hc
  have hfin : ∀ st, st ≠ .synSent ∧ st ≠ .listen ∧ st ≠ .synRcvd →
      Outcome (sendFin myIp sockApp s t st (.close i)) := by
    intro st hst
    have hupd : Kept s (s.upd t fun c => setState st (use 1 c)) := by
      refine kept_upd h (fun hu => ⟨hu, rfl, rfl, rfl, fun hs => absurd hs hst.1, fun hs => ?_⟩)
        fun ha => absurd ha hna
      rcases hs with hs | hs
      · exact absurd hs hst.2.1
      · exact absurd hs hst.2.2
    unfold sendFin sendThen
    split
    · refine ⟨hupd.ok, ?_, fun c hx => ?_⟩
      · rw [Machine.push_stack, Machine.upd_stack, hidle]
        exact hc
      · exact absurd (hr.symm.trans hx) (by simp)
    · exact hret _ hupd hidle
  unfold tcpClose
  simp only
  split
  · exact hret s (.refl h) hidle
  split
  · exact hret _ (kept_release h hna) hidle
  · exact hfin _ (by decide)
  · exact hfin _ (by decide)
  · exact hret _ (kept_release h hna) hidle
  · exact hret s (.refl h) hidle

/-- The connection that returning from this send takes out of ESTABLISHED. -/
def endsConn : Cont Caller → Option TcbId
  | .fin t => some t
  | .data t _ true => some t
  | _ => none

theorem kept_resume {k : Cont Caller} (h : Binding s.tcbs s.app)
    (hi : inner k = true) (hw : k.plain = true ∨ k.Waits s.tcbs)
    (hna : ∀ t, endsConn k = some t → ¬ Awaited s.app t) :
    Kept s (resume myIp sockApp k s) := by
  cases k with
  | connect t k => cases hi
  | close k => cases hi
  | send len k => exact .refl h
  | spawn => exact .refl h
  | synAck t payload =>
    obtain ⟨hu, hs⟩ := hw.resolve_left (by simp [Cont.plain])
    exact kept_runSynAck myIp h hu hs
  | synData t payload =>
    obtain ⟨hu, -⟩ := hw.resolve_left (by simp [Cont.plain])
    exact kept_callRecv h hu payload
  | data t payload fin =>
    obtain ⟨hu, -⟩ := hw.resolve_left (by simp [Cont.plain])
    refine kept_runData myIp h hu fun hfin => hna t ?_
    rw [hfin]
    rfl
  | fin t =>
    obtain ⟨hu, -⟩ := hw.resolve_left (by simp [Cont.plain])
    exact kept_runFin h hu (hna t rfl)
  | finWait t =>
    obtain ⟨hu, hs⟩ := hw.resolve_left (by simp [Cont.plain])
    refine kept_hangUp h hu fun ha => ?_
    rw [h.awaited ha] at hs
    rcases hs with hs | hs <;> cases hs

/-- The condition on a step. A slot is taken only when no TCB in use names it,
`sock_connect` gives up only when no TCB in use names its socket, the last reference
of a socket goes only when no `sock_connect` is on it, and nothing ends a connection
whose `sock_connect` has not returned. -/
def Tidy (s : State) (l : Label) : Prop :=
  match l.op with
  | .create => ∀ i, firstFree s.app = some i → Unnamed s.tcbs i
  | .poll k => ∀ c ∈ s.app.calls k, ∀ t ∈ c.tcb, stops s c t = true →
    (s.app.socks c.idx).state ≠ .connected → Unnamed s.tcbs c.idx
  | .close i => (s.app.socks i).refcount ≤ 1 →
    (∀ k, ∀ c ∈ s.app.calls k, c.idx ≠ i) ∧ ∀ t ∈ (s.app.socks i).tcb, ¬ Awaited s.app t
  | .rx src g _ => ∀ t, findTcbForSeg s.tcbs src g = some t → SegOk s t g
  | .loop _ => ∀ f ∈ s.stack.head?, ∀ t, findTcbForSeg s.tcbs f.src f.seg = some t →
    SegOk s t f.seg
  | .ret => ∀ f ∈ s.stack.head?, ∀ t, endsConn f.cont = some t → ¬ Awaited s.app t
  | _ => True

theorem Framed.tail {f : Frame Caller}
    (h : Framed tcbs u (f :: fs)) : Framed tcbs u fs := by
  cases fs with
  | nil => trivial
  | cons g fs => exact h.2

theorem outcome_ret (h : retStep myIp sockApp s = some s') (hi : SockInv s)
    (hr : s.app.ret = none)
    (htidy : ∀ f ∈ s.stack.head?, ∀ t, endsConn f.cont = some t → ¬ Awaited s.app t) :
    Outcome s' := by
  unfold retStep at h
  split at h
  · cases h
  rename_i f fs hf
  split at h
  swap
  · cases h
  cases h
  have hframes := hi.frames
  rw [hf] at hframes
  by_cases hin : inner f.cont = true
  · have hw : f.cont.plain = true ∨ f.cont.Waits s.tcbs := by
      rcases (hi.tcp.stack f fs hf).1 with hp | ⟨-, hw⟩
      · exact .inl hp
      · exact .inr hw
    have hk := kept_resume (s := { s with stack := fs }) myIp hi.bind hin hw
      (htidy f (by rw [hf]; rfl))
    exact hk.outcome hframes.tail hr
  · -- a call's own send is the last one pending
    obtain rfl : fs = [] := by
      cases fs with
      | nil => rfl
      | cons g fs => exact absurd hframes.1 hin
    obtain ⟨src, seg, dl, cont⟩ := f
    have hsame : Outcome { s with stack := [] } :=
      ⟨hi.bind, trivial, fun c hc => absurd (hr.symm.trans hc) (by simp)⟩
    cases cont with
    | connect t caller =>
      cases caller with
      | connect k =>
        obtain ⟨c, hk, honly⟩ := hframes
        obtain ⟨hb, hsucc⟩ := hi.bind.connectRet hk honly
        exact ⟨hb, trivial, fun x hx => hsucc x hr hx _ rfl rfl⟩
      | write => exact hsame
      | close i => exact hsame
    | close caller =>
      cases caller with
      | connect k => exact hsame
      | write => exact hsame
      | close i => exact outcome_app rfl (hi.bind.closeRet hframes) hr
    | send | spawn | synAck | synData | data | fin | finWait => exact absurd rfl hin

theorem outcome_loop {ticks : UInt32}
    (h : loopStep myIp sockApp s ticks = some s') (hi : SockInv s) (hr : s.app.ret = none)
    (htidy : ∀ f ∈ s.stack.head?, ∀ t, findTcbForSeg s.tcbs f.src f.seg = some t →
      SegOk s t f.seg) : Outcome s' := by
  unfold loopStep at h
  split at h
  · cases h
  rename_i f fs hf
  split at h
  · cases h
  cases h
  have hframes := hi.frames
  rw [hf] at hframes
  have hseg : ∀ t, findTcbForSeg s.tcbs f.src f.seg = some t →
      SegOk { s with stack := { f with delivered := true } :: fs } t f.seg := by
    intro t ht
    have hg := htidy f (by rw [hf]; rfl) t ht
    exact ⟨hg.slot, hg.ends⟩
  have hk := kept_tcpRx myIp ticks (s := { s with stack := { f with delivered := true } :: fs })
    hi.bind hseg
  refine hk.outcome ?_ hr
  cases fs with
  | nil => exact hframes
  | cons g fs => exact hframes

theorem whenIdle_some {s₁ : State} (h : whenIdle s s₁ = some s') :
    s.stack = [] ∧ s' = s₁ := by
  unfold whenIdle at h
  split at h
  · rename_i hidle
    cases h
    exact ⟨hidle, rfl⟩
  · cases h

theorem outcome_stepFrom (h : stepFrom s l = some s') (hi : SockInv s)
    (hr : s.app.ret = none) (ht : Tidy s l) : Outcome s' := by
  obtain ⟨ip, op⟩ := l
  have hb := hi.bind
  cases op with
  | create =>
    obtain ⟨hidle, rfl⟩ := whenIdle_some h
    refine outcome_app hidle (hb.sockCreate ht) ?_
    unfold sockCreate
    split <;> exact hr
  | incRef i =>
    obtain ⟨hidle, rfl⟩ := whenIdle_some h
    unfold sockIncRef
    split
    · exact outcome_app hidle hb hr
    · exact outcome_app hidle (hb.data rfl rfl) hr
  | bind i port =>
    obtain ⟨hidle, rfl⟩ := whenIdle_some h
    unfold sockBind
    split
    · exact outcome_app hidle hb hr
    · exact outcome_app hidle (hb.data rfl rfl) hr
  | listen i backlog =>
    obtain ⟨hidle, rfl⟩ := whenIdle_some h
    exact outcome_sockListen hidle hb hr
  | accept i =>
    obtain ⟨hidle, rfl⟩ := whenIdle_some h
    unfold sockAccept
    split
    · exact outcome_app hidle hb hr
    · exact outcome_app hidle (hb.data rfl rfl) hr
  | connect k i dst port ticks ok =>
    simp only [stepFrom] at h
    split at h
    · rename_i hk
      obtain ⟨hidle, rfl⟩ := whenIdle_some h
      exact outcome_sockConnect ip ticks ok hidle hb hr hk
    · cases h
  | poll k =>
    obtain ⟨hidle, rfl⟩ := whenIdle_some h
    exact outcome_poll hidle hb hr ht
  | read i n =>
    obtain ⟨hidle, rfl⟩ := whenIdle_some h
    unfold sockRead
    split
    · exact outcome_app hidle hb hr
    · exact outcome_app hidle (hb.data rfl rfl) hr
  | write i data ok =>
    obtain ⟨hidle, rfl⟩ := whenIdle_some h
    unfold sockWrite
    split
    · exact (Kept.refl hb).outcome hi.frames hr
    split
    · exact (Kept.refl hb).outcome hi.frames hr
    · exact (kept_tcpSend ip hb).outcome hi.frames hr
  | close i =>
    obtain ⟨hidle, rfl⟩ := whenIdle_some h
    unfold sockClose
    split
    · exact outcome_app hidle hb hr
    split
    · exact outcome_app hidle (hb.data rfl rfl) hr
    rename_i href
    obtain ⟨hc, hna⟩ := ht (Nat.le_of_not_lt href)
    split
    · exact outcome_app hidle (hb.closeRet hc) hr
    · rename_i t htcb
      exact outcome_tcpClose ip hidle hb hr hc (hna t htcb)
  | rx src g ticks =>
    obtain ⟨hidle, rfl⟩ := whenIdle_some h
    exact (kept_tcpRx ip ticks hb ht).outcome hi.frames hr
  | loop ticks => exact outcome_loop ip h hi hr ht
  | ret => exact outcome_ret ip h hi hr ht

/-! ## Runs -/

theorem inv_setApp (h : Inv s) (u : Socks) : Inv (s.setApp u) :=
  ⟨h.live, h.distinct, h.stack⟩

theorem inv_tcp {ip : Ip} {e : Event User Caller} (h : Inv s)
    (hs : Tcp.step sockApp s ⟨ip, e⟩ = some s') : Inv s' :=
  (inductive_inv sockApp).step s ⟨ip, e⟩ s' h hs

theorem inv_idle {s₁ : State} (ip : Ip) (e : Event User Caller) (h : Inv s)
    (hidle : s.stack = []) (hs : Tcp.step sockApp s ⟨ip, e⟩ = whenIdle s s₁) : Inv s₁ := by
  refine inv_tcp h (hs.trans ?_)
  unfold whenIdle
  rw [if_pos hidle]

theorem inv_stepFrom (h : stepFrom s l = some s') (hi : Inv s) :
    Inv s' := by
  obtain ⟨ip, op⟩ := l
  cases op with
  | create | incRef _ | bind _ _ | accept _ | read _ _ =>
    obtain ⟨-, rfl⟩ := whenIdle_some h
    exact inv_setApp hi _
  | listen i backlog =>
    obtain ⟨hidle, rfl⟩ := whenIdle_some h
    unfold sockListen
    split
    · exact hi
    · dsimp only
      have hl : ∀ u port ud, Inv (tcpListen (s.setApp u) port ud).2 :=
        fun u port ud => inv_idle ip (.listen port ud) (inv_setApp hi u) hidle rfl
      split
      · exact inv_setApp (hl _ _ _) _
      · exact inv_setApp (hl _ _ _) _
  | connect k i dst port ticks ok =>
    simp only [stepFrom] at h
    split at h
    · obtain ⟨hidle, rfl⟩ := whenIdle_some h
      unfold sockConnect
      split
      · exact hi
      · have hc : ∀ u ud, Inv (tcpConnect ip sockApp (s.setApp u) dst port ticks ud (.connect k) ok) :=
          fun u ud => inv_idle ip (.connect dst port ticks ud (.connect k) ok) (inv_setApp hi u)
            hidle rfl
        exact hc _ _
    · cases h
  | poll k =>
    obtain ⟨-, rfl⟩ := whenIdle_some h
    unfold sockPoll
    split
    · exact hi
    split
    · exact hi
    split <;> exact inv_setApp hi _
  | write i data ok =>
    obtain ⟨hidle, rfl⟩ := whenIdle_some h
    unfold sockWrite
    split
    · exact hi
    split
    · exact hi
    · exact inv_idle ip (.send _ data .write ok) hi hidle rfl
  | close i =>
    obtain ⟨hidle, rfl⟩ := whenIdle_some h
    unfold sockClose
    split
    · exact hi
    split
    · exact inv_setApp hi _
    split
    · exact inv_setApp hi _
    · exact inv_idle ip (.close _ (.close i)) hi hidle rfl
  | rx src g ticks =>
    obtain ⟨hidle, rfl⟩ := whenIdle_some h
    exact inv_idle ip (.rx src g ticks) hi hidle rfl
  | loop ticks => exact inv_tcp (e := .loop ticks) hi h
  | ret => exact inv_tcp (e := .ret) hi h

theorem framed_setRet {r : Option (Call × Bool)}
    (h : Framed tcbs u fs) : Framed tcbs (u.setRet r) fs := by
  induction fs with
  | nil => trivial
  | cons f fs ih =>
    cases fs with
    | nil => exact h
    | cons g fs => exact ⟨h.1, ih h.2⟩

theorem outcome_sockStep (h : sockStep s l = some s') (hi : SockInv s)
    (ht : Tidy s l) : SockInv s' ∧ ∀ c, s'.app.ret = some (c, true) → Success s' c := by
  have hi₀ : SockInv (s.setApp (s.app.setRet none)) :=
    ⟨inv_setApp hi.tcp _, hi.bind.setRet none, framed_setRet hi.frames⟩
  have ht₀ : Tidy (s.setApp (s.app.setRet none)) l := by
    obtain ⟨ip, op⟩ := l
    cases op with
    | rx src g ticks => exact fun t hf => ⟨(ht t hf).slot, (ht t hf).ends⟩
    | loop ticks => exact fun f hf t h' => ⟨(ht f hf t h').slot, (ht f hf t h').ends⟩
    | _ => exact ht
  have ho := outcome_stepFrom h hi₀ rfl ht₀
  exact ⟨⟨inv_stepFrom h hi₀.tcp, ho.bind, ho.frames⟩, ho.success⟩

theorem inductive_sockInv : (sockLTS.restrict Tidy).Inductive fun s =>
    SockInv s ∧ ∀ c, s.app.ret = some (c, true) → Success s c where
  init := by
    rintro s ⟨hboot, hsocks, hcalls, hret, hstrays⟩
    have hnone : ∀ k c, s.app.calls k = some c → False := by
      intro k c hk
      rw [hcalls k] at hk
      cases hk
    refine ⟨⟨(inductive_inv sockApp).init s hboot, ⟨fun i => ?_, hstrays⟩, ?_⟩, fun c hc => ?_⟩
    · refine bound_free ?_ fun k c hk => (hnone k c hk).elim
      rw [hsocks i]
      rfl
    · rw [hboot.2.2]
      trivial
    · rw [hret] at hc
      cases hc
  step := fun _ _ _ h hs => outcome_sockStep hs.2 h.1 hs.1

/-- In every tidy run, over every interleaving of the socket calls with
arbitrary segments: no callback of a TCB has changed a socket other than the one that
owns it, the listener it was spawned from or the one made for it; a TCB in use names
a free slot or its own socket; and when `sock_connect` has returned 0 its socket's TCB
is ESTABLISHED with the remote end that was asked for. -/
theorem callbacks_stay_home (h : (sockLTS.restrict Tidy).Reachable s) :
    s.app.strays = [] ∧
      (∀ t i g, (s.tcbs t).inUse = true → (s.tcbs t).userData = some (i, g) →
        (s.app.socks i).state ≠ .free → Owns s.app t i g) ∧
      ∀ c, s.app.ret = some (c, true) → Success s c := by
  obtain ⟨hi, hsucc⟩ := inductive_sockInv.reachable s h
  exact ⟨hi.bind.strays, fun t i g hu hud hf => (hi.bind.slot i).owns hf t g hu hud, hsucc⟩

/-! ## Two runs -/

def demoBoot : State := ⟨fun _ => Tcb.zero, 49152, [],
  ⟨fun _ => Sock.zero, fun _ => none, fun _ => 0, none, []⟩⟩

theorem demoBoot_ready : Ready demoBoot :=
  ⟨⟨fun _ => rfl, rfl, rfl⟩, fun _ => rfl, fun _ => rfl, rfl, rfl⟩

def demoLabels (ops : List Op) : List Label := ops.map fun o => ⟨⟨10, 0, 0, 1⟩, o⟩

def demoTask : Kernel.Slot := Kernel.kmain

def serverA : Ip := ⟨10, 0, 0, 2⟩
def serverB : Ip := ⟨10, 0, 0, 3⟩

/-- Server A's SYN-ACK for the first ephemeral port. -/
def synAckA : Op := .rx serverA ⟨80, 49152, 7000, 1, 0x50, tcpSyn ||| tcpAck, []⟩ 0

instance (s : State) (t : TcbId) (g : Seg) : Decidable (SegOk s t g) :=
  decidable_of_iff (((s.tcbs t).state = .synRcvd → g.has tcpRst = false → g.has tcpAck = true →
    g.ack = (s.tcbs t).sndNxt →
    ∀ j, takesSlot s.app (s.tcbs t).userData = some j → Unnamed s.tcbs j) ∧
    ((s.tcbs t).state = .established → g.has tcpRst = true ∨ g.has tcpFin = true →
      ¬ Awaited s.app t)) ⟨fun h => ⟨h.1, h.2⟩, fun h => ⟨h.slot, h.ends⟩⟩

instance (s : State) (l : Label) : Decidable (Tidy s l) := by
  unfold Tidy
  split <;> infer_instance

/-- A connect to server A, its SYN-ACK, and the return. -/
theorem connect_reaches_server :
    ∃ s c, (sockLTS.restrict Tidy).Reachable s ∧ s.app.ret = some (c, true) ∧ c.ip = serverA ∧
      s.app.strays = [] ∧ Success s c := by
  have he : (LTS.exec (LTS.guarded Tidy sockStep) demoBoot (demoLabels
      [.create, .connect demoTask 0 serverA 80 0 true, .poll demoTask, synAckA,
        .poll demoTask])).map (fun s => s.app.ret) =
      some (some (⟨0, serverA, 80, some 0, 2⟩, true)) := by
    decide +kernel
  obtain ⟨s, hs, hret⟩ := map_eq_some_iff.mp he
  have hr : (sockLTS.restrict Tidy).Reachable s :=
    ⟨demoBoot, _, demoBoot_ready, LTS.run_restrict_of_exec hs⟩
  obtain ⟨hstrays, -, hsucc⟩ := callbacks_stay_home hr
  exact ⟨s, _, hr, hret, rfl, hstrays, hsucc _ hret⟩

/-- A connect to server A times out and leaves its TCB in SYN_SENT; while the same
socket connects to server B, server A's SYN-ACK arrives and `sock_connect` returns 0. -/
theorem wrong_peer : ¬ ∀ s, sockLTS.Reachable s → ∀ c, s.app.ret = some (c, true) →
    Success s c := by
  intro hall
  have he : (LTS.exec sockStep demoBoot (demoLabels
      (.create :: .connect demoTask 0 serverA 80 0 true :: List.replicate 500 (.poll demoTask) ++
        [.connect demoTask 0 serverB 80 0 true, synAckA, .poll demoTask]))).map
      (fun s => decide (s.app.ret = some (⟨0, serverB, 80, some 1, 1⟩, true) ∧
        (s.app.socks 0).tcb = some 0 ∧ (s.tcbs 0).remoteIp = serverA)) = some true := by
    decide +kernel
  obtain ⟨s, hs, hd⟩ := map_eq_some_iff.mp he
  obtain ⟨hret, htcb, hip⟩ := of_decide_eq_true hd
  have hr : sockLTS.Reachable s := ⟨demoBoot, _, demoBoot_ready, LTS.run_of_exec hs⟩
  obtain ⟨t, ht, -, -, hip', -⟩ := hall s hr _ hret
  rw [htcb] at ht
  cases ht
  rw [hip] at hip'
  exact absurd hip' (by decide)

end AdventOS.Net.Sockets
