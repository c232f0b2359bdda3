import AdventOS.Tls.Handshake

/-!
# Runs with reliable writes

What a program of the TLS library does on a connection whose writes succeed: with the
records it waits for it goes on (`Does`), with a proper part of one it uses up what there
is and returns (`Starves`). Both follow the sequencing of the program.
-/
namespace AdventOS.Tls
open List

section
variable {α β : Type}

/-- From any state of a connection that delivers `inp`: `p` ends with `a`, has written
`out`, and leaves `rest` to be read. -/
def Does (p : Prog α) (inp : Bytes) (a : α) (out rest : Bytes) : Prop :=
  ∀ sent log, ∃ log', p ⟨inp, [], sent, log⟩ = .ok a ⟨rest, [], sent ++ out, log'⟩

/-- `p` uses up `inp` and returns from the function, having written `out`. -/
def Starves (p : Prog α) (inp out : Bytes) : Prop :=
  ∀ sent log, ∃ code log', p ⟨inp, [], sent, log⟩ = .error (.ret code) ⟨[], [], sent ++ out, log'⟩

variable {p : Prog α} {frag inp mid out out' pt rest : Bytes} {a : α} {f : α → Prog β} {b : β}
  {t : Array} {n : Nat} {ty : UInt8} {k : Keys} {s : Conn} {cs : List Ccs}

theorem Does.of_eq (h : Does p inp a out rest) (ho : out = out') : Does p inp a out' rest := ho ▸ h

theorem Starves.of_eq (h : Starves p inp out) (ho : out = out') : Starves p inp out' := ho ▸ h

theorem Does.pure (a : α) (inp : Bytes) : Does (Pure.pure a : Prog α) inp a [] inp := by
  intro sent log
  exact ⟨log, by rw [append_nil]; rfl⟩

theorem Does.bind (h : Does p inp a out mid) (h' : Does (f a) mid b out' rest) :
    Does (p >>= f) inp b (out ++ out') rest := by
  intro sent log
  obtain ⟨log1, h1⟩ := h sent log
  obtain ⟨log2, h2⟩ := h' (sent ++ out) log1
  exact ⟨log2, by rw [Prog.bind_run h1, h2, append_assoc]⟩

theorem Does.silent
    (h : Does p inp a [] mid) (h' : Does (f a) mid b out rest) : Does (p >>= f) inp b out rest :=
  h.bind h'

theorem Does.map (g : α → β) (h : Does p inp a out rest) :
    Does (p >>= fun x => Pure.pure (g x)) inp (g a) out rest := by
  have hb : Does (p >>= fun x => Pure.pure (g x)) inp (g a) (out ++ []) rest :=
    h.bind (Does.pure (g a) rest)
  exact hb.of_eq (append_nil out)

theorem Does.get {f : Conn → Prog β}
    (h : ∀ sent log, Does (f ⟨inp, [], sent, log⟩) inp b out rest) :
    Does (get >>= f) inp b out rest :=
  fun sent log => h sent log sent log

theorem Starves.bind (h : Starves p inp out) : Starves (p >>= f) inp out := by
  intro sent log
  obtain ⟨code, log', hp⟩ := h sent log
  refine ⟨code, log', ?_⟩
  change EStateM.bind p f _ = _
  unfold EStateM.bind
  rw [hp]

theorem Does.starves (h : Does p inp a out mid) (h' : Starves (f a) mid out') :
    Starves (p >>= f) inp (out ++ out') := by
  intro sent log
  obtain ⟨log1, h1⟩ := h sent log
  obtain ⟨code, log2, h2⟩ := h' (sent ++ out) log1
  exact ⟨code, log2, by rw [Prog.bind_run h1, h2, append_assoc]⟩

theorem Does.silent_starves
    (h : Does p inp a [] mid) (h' : Starves (f a) mid out) : Starves (p >>= f) inp out :=
  h.starves h'

theorem Starves.get {f : Conn → Prog β}
    (h : ∀ sent log, Starves (f ⟨inp, [], sent, log⟩) inp out) : Starves (get >>= f) inp out :=
  fun sent log => h sent log sent log

/-! ## Steps -/

theorem does_require {ok : Prop} [Decidable ok] (h : ok) (code : Int) (inp : Bytes) :
    Does (require ok code) inp () [] inp := by
  intro sent log
  exact ⟨log, by rw [require_run h, append_nil]⟩

theorem does_parsed {r : Except Int α} (h : r = .ok a) (inp : Bytes) :
    Does (parsed r) inp a [] inp := by
  rw [h]
  exact Does.pure a inp

theorem does_expect {o : Option α} (h : o = some a) (code : Int) (inp : Bytes) :
    Does (expect code o) inp a [] inp := by
  rw [h]
  exact Does.pure a inp

theorem does_note (a : Access) (inp : Bytes) : Does (note a) inp () [] inp := by
  intro sent log
  exact ⟨a :: log, by rw [append_nil]; rfl⟩

theorem does_store (h : n ≤ t.cap) (inp : Bytes) : Does (store t n) inp () [] inp := by
  intro sent log
  refine ⟨log, ?_⟩
  unfold store
  rw [if_neg (by omega), append_nil]
  rfl

theorem does_sendRecord (hlen : frag.length ≤ 6144 + 256)
    (inp : Bytes) : Does (sendRecord ty frag) inp true (plainRecord ty frag) inp :=
  fun _ log => ⟨log, sendRecord_run hlen rfl⟩

variable (cr : Primitives)

theorem does_sendEncrypted {n : Int} (hlen : pt.length ≤ 6144) (hn : n = pt.length) (inp : Bytes) :
    Does (sendEncrypted cr k ty pt n) inp (true, k.next) (sealedRecord cr k ty pt) inp := by
  intro sent log
  rw [hn]
  exact sendEncrypted_run cr ty hlen rfl

theorem does_sendFinished (k : Keys) (verify : BytesN 32) (code : Int) (inp : Bytes) :
    Does (sendFinished cr k verify code) inp () (sealedRecord cr k 22 (hsPack 20 verify.val))
      inp := by
  have hlen : (hsPack 20 verify.val).length = 36 := by
    simp [hsPack, be24, be16, verify.property]
  refine ((does_sendEncrypted cr (by omega) (by rw [hlen]; rfl) inp).bind ?_).of_eq (append_nil _)
  exact does_require rfl code inp

theorem does_recvHandshakePlain (code : Int) (rest : Bytes)
    (hlen : frag.length ≤ 6144 + 256) (hcap : frag.length ≤ t.cap) :
    Does (recvHandshakePlain t code) (plainRecord 22 frag ++ rest) frag [] rest := by
  have hrecv : Does (recvPlain t) (plainRecord 22 frag ++ rest)
      (some ⟨22, frag, frag.length⟩) [] rest := by
    intro sent log
    obtain ⟨log', h⟩ := recvPlain_run (t := t) (s := ⟨plainRecord 22 frag ++ rest, [], sent, log⟩)
      (by decide) hlen hcap (show _ = ccsBytes [] ++ (plainRecord 22 frag ++ rest) from rfl)
    exact ⟨log', by rw [h, append_nil]⟩
  refine hrecv.silent (Does.silent (does_expect rfl code rest) ?_)
  refine Does.silent (does_require rfl code rest) ?_
  have hcontent : Record.content ⟨22, frag, frag.length⟩ = frag := take_length
  rw [hcontent]
  exact Does.pure frag rest

theorem does_recvHandshake (cs : List Ccs) (code : Int)
    (rest : Bytes) (hlen : pt.length ≤ 6144) (hcap : pt.length + 1 ≤ t.cap) :
    Does (recvHandshake cr k t code) (ccsBytes cs ++ (sealedRecord cr k 22 pt ++ rest))
      (⟨22, pt ++ [22], pt.length⟩, k.next) [] rest := by
  have hrecv : Does (recvEncrypted cr k t) (ccsBytes cs ++ (sealedRecord cr k 22 pt ++ rest))
      (some ⟨22, pt ++ [22], pt.length⟩, k.next) [] rest := by
    intro sent log
    obtain ⟨log', h⟩ := recvEncrypted_run cr (t := t)
      (s := ⟨ccsBytes cs ++ (sealedRecord cr k 22 pt ++ rest), [], sent, log⟩)
      (by decide) hlen hcap rfl
    exact ⟨log', by rw [h, append_nil]⟩
  refine hrecv.silent (Does.silent (does_expect rfl code rest) ?_)
  exact Does.silent (does_require rfl code rest) (Does.pure _ rest)

theorem does_recvFinished (cs : List Ccs) (verify : BytesN 32)
    (scratch : Bytes) (a b c : Int) (rest : Bytes) (hcap : 37 ≤ t.cap) :
    Does (recvFinished cr k t scratch verify a b c)
      (ccsBytes cs ++ (sealedRecord cr k 22 (hsPack 20 verify.val) ++ rest))
      (hsPack 20 verify.val) [] rest := by
  have hver := verify.property
  have hlen : (hsPack 20 verify.val).length = 36 := by simp [hsPack, be24, be16, hver]
  obtain ⟨out, hout⟩ : ∃ out : Bytes, out = hsPack 20 verify.val ++ [22] := ⟨_, rfl⟩
  have hbytes : ((out ++ scratch.drop out.length).drop 4).take 32 = verify.val := by
    have hsplit : out ++ scratch.drop out.length =
        (20 :: be24 verify.val.length) ++ (verify.val ++ ([22] ++ scratch.drop out.length)) := by
      rw [hout]
      simp [hsPack]
    rw [hsplit, drop_left' (by simp [be24, be16]), take_left' hver]
  have hhead : 4 ≤ (hsPack 20 verify.val).length ∧ out.getD 0 0 = 20 :=
    ⟨by omega, by rw [hout]; rfl⟩
  rw [hout] at hbytes hhead
  refine Does.silent (does_recvHandshake cr cs a rest (by omega) (by omega)) ?_
  refine Does.silent (does_require hhead b rest) (Does.silent (does_require hbytes c rest) ?_)
  have hcontent : Record.content ⟨22, hsPack 20 verify.val ++ [22],
      (hsPack 20 verify.val).length⟩ = hsPack 20 verify.val := take_left
  rw [hcontent]
  exact Does.pure _ rest

/-! ## A record that is not there yet -/

theorem prefix_append_cases {l m n : Bytes} (h : l <+: m ++ n) :
    (l <+: m ∧ l ≠ m) ∨ ∃ r, l = m ++ r ∧ r <+: n := by
  obtain ⟨t, ht⟩ := h
  rcases append_eq_append_iff.1 ht with ⟨x, hm, -⟩ | ⟨x, hl, hn⟩
  · by_cases he : l = m
    · exact .inr ⟨[], by rw [he, append_nil], nil_prefix⟩
    · exact .inl ⟨⟨x, hm.symm⟩, he⟩
  · exact .inr ⟨x, hl, ⟨t, hn.symm⟩⟩

theorem length_lt_of_prefix {l m : Bytes} (h : l <+: m) (hne : l ≠ m) : l.length < m.length :=
  lt_of_le_of_ne h.length_le fun hlen => hne (h.eq_of_length hlen)

theorem readN_short (h : s.inp.length < n) : readN n s = .ok none { s with inp := [] } := by
  unfold readN
  rw [if_pos h]

theorem readInto_short (h : s.inp.length < n)
    (hcap : n ≤ t.cap) : ∃ log, readInto t n s = .ok none { s with inp := [], log := log } := by
  refine ⟨.record t n s.inp.length :: s.log, ?_⟩
  obtain ⟨u, hu⟩ : ∃ u : Conn, u = { s with log := .record t n s.inp.length :: s.log } := ⟨_, rfl⟩
  have hstore : store t (min n s.inp.length) u = .ok () u := by
    unfold store
    rw [if_neg (by omega)]
    rfl
  calc readInto t n s = (store t (min n s.inp.length) >>= fun _ => readN n) u := by rw [hu]; rfl
    _ = readN n u := Prog.bind_run hstore
    _ = _ := by rw [readN_short (by rw [hu]; exact h), hu]

theorem recvHeaderLoop_short {fuel : Nat} (h : s.inp.length < 5) :
    recvHeaderLoop (fuel + 1) s = .ok none { s with inp := [] } := by
  rw [recvHeaderLoop, Prog.bind_run (readN_short h)]
  rfl

theorem recvHeaderLoop_part {fuel : Nat} (hfuel : inp.length < fuel)
    (h : inp <+: ccsBytes cs ++ (recordHeader ty n ++ rest)) :
    (∀ s : Conn, s.inp = inp → recvHeaderLoop fuel s = .ok none { s with inp := [] }) ∨
      ∃ r, inp = ccsBytes cs ++ (recordHeader ty n ++ r) ∧ r <+: rest := by
  obtain ⟨f, rfl⟩ := Nat.exists_eq_succ_of_ne_zero (by omega : fuel ≠ 0)
  induction cs generalizing f inp with
  | nil =>
    rcases prefix_append_cases (show inp <+: recordHeader ty n ++ rest from h) with
      ⟨hp, hne⟩ | ⟨r, hr, hrest⟩
    · refine .inl fun s hs => recvHeaderLoop_short ?_
      rw [hs]
      exact length_lt_of_prefix hp hne
    · exact .inr ⟨r, hr, hrest⟩
  | cons c cs ih =>
    have hcons : ccsBytes (c :: cs) = c.bytes ++ ccsBytes cs := flatMap_cons
    rw [hcons, append_assoc] at h
    rcases prefix_append_cases h with ⟨hp, hne⟩ | ⟨r, hr, hrest⟩
    · refine .inl fun s hs => ?_
      have hc := c.fits
      rw [Ccs.bytes] at hp
      rcases prefix_append_cases hp with ⟨hq, hneq⟩ | ⟨r, hr, hrest⟩
      · refine recvHeaderLoop_short ?_
        rw [hs]
        exact length_lt_of_prefix hq hneq
      · have hlen : u16At ([20, c.major, c.minor] ++ be16 c.payload.length) 3 =
            c.payload.length := by
          have := u16At_be16 (n := c.payload.length) (by omega) [20, c.major, c.minor] []
          rwa [append_nil] at this
        have hlt : r.length < c.payload.length := by
          refine length_lt_of_prefix hrest fun he => hne ?_
          rw [hr, he, Ccs.bytes]
        rw [recvHeaderLoop, Prog.bind_run (readN_append (n := 5) rfl (hs.trans hr))]
        dsimp only
        rw [hlen, if_neg (by omega), if_pos (by rfl), Prog.bind_run (readN_short hlt)]
        rfl
    · have hbytes : 5 ≤ c.bytes.length := by simp [Ccs.bytes, be16]
      have hlen : inp.length = c.bytes.length + r.length := by rw [hr, length_append]
      obtain ⟨g, rfl⟩ := Nat.exists_eq_succ_of_ne_zero (by omega : f ≠ 0)
      rcases ih hrest g (by omega) with hnone | ⟨x, hx, hxrest⟩
      · refine .inl fun s hs => ?_
        rw [recvHeaderLoop_cons (hs.trans hr), hnone _ rfl]
      · exact .inr ⟨x, by rw [hr, hx, hcons, append_assoc], hxrest⟩

/-- A call that gives `none` for the lack of bytes, and has written nothing. -/
def Lacks (p : Prog (Option α)) (inp : Bytes) : Prop :=
  ∀ sent log, ∃ log', p ⟨inp, [], sent, log⟩ = .ok none ⟨[], [], sent, log'⟩

theorem recvHeader_part (hty : ty ≠ 20) (hn : n ≤ 6144 + 256)
    (h : inp <+: ccsBytes cs ++ (recordHeader ty n ++ rest)) :
    Lacks recvHeader inp ∨ ∃ r, r <+: rest ∧ inp = ccsBytes cs ++ (recordHeader ty n ++ r) ∧
      ∀ sent log, recvHeader ⟨inp, [], sent, log⟩ =
        .ok (some (recordHeader ty n)) ⟨r, [], sent, log⟩ := by
  rcases recvHeaderLoop_part (Nat.lt_succ_self _) h with hnone | ⟨r, hr, hrest⟩
  · exact .inl fun sent log => ⟨log, hnone ⟨inp, [], sent, log⟩ rfl⟩
  · exact .inr ⟨r, hrest, hr, fun sent log => recvHeader_ccs hty hn hr⟩

theorem starves_of_lacks {p : Prog (Option α)} {code : Int} (h : Lacks p inp)
    (f : α → Prog β) : Starves (p >>= fun o => expect code o >>= f) inp [] := by
  intro sent log
  obtain ⟨log', hp⟩ := h sent log
  exact ⟨code, log', by rw [Prog.bind_run hp, append_nil]; rfl⟩

theorem starves_recvHandshakePlain (code : Int)
    (hlen : frag.length ≤ 6144 + 256) (hcap : frag.length ≤ t.cap)
    (h : inp <+: plainRecord 22 frag) (hne : inp ≠ plainRecord 22 frag) :
    Starves (recvHandshakePlain t code) inp [] := by
  refine starves_of_lacks (fun sent log => ?_) _
  rcases recvHeader_part (by decide) hlen
    (show inp <+: ccsBytes [] ++ (recordHeader 22 frag.length ++ frag) from h) with
    hnone | ⟨r, hr, he, hhdr⟩
  · obtain ⟨log', hrun⟩ := hnone sent log
    refine ⟨log', ?_⟩
    unfold recvPlain
    rw [Prog.bind_run hrun]
    rfl
  · have hlt : r.length < frag.length := by
      refine length_lt_of_prefix hr fun heq => hne ?_
      rw [he, heq]
      rfl
    have hu16 : u16At (recordHeader 22 frag.length) 3 = frag.length :=
      u16At_recordHeader (by omega) 22
    obtain ⟨log', hread⟩ := readInto_short (t := t) (s := ⟨r, [], sent, log⟩) hlt hcap
    refine ⟨log', ?_⟩
    unfold recvPlain
    rw [Prog.bind_run (hhdr sent log)]
    dsimp only
    rw [hu16, Prog.bind_run hread]
    rfl

theorem recvEncrypted_part (hlen : pt.length ≤ 6144) (hcap : pt.length + 1 ≤ t.cap)
    (h : inp <+: ccsBytes cs ++ sealedRecord cr k ty pt)
    (hne : inp ≠ ccsBytes cs ++ sealedRecord cr k ty pt) :
    ∀ sent log, ∃ log', recvEncrypted cr k t ⟨inp, [], sent, log⟩ =
      .ok (none, k) ⟨[], [], sent, log'⟩ := by
  intro sent log
  obtain ⟨n, hn⟩ : ∃ n, n = pt.length + 1 + 16 := ⟨_, rfl⟩
  obtain ⟨ct, hct⟩ : ∃ ct, ct = gcmEncrypt cr k.key (buildNonce k) (recordHeader 23 n)
    (pt ++ [ty]) := ⟨_, rfl⟩
  have hctlen : ct.1.length = pt.length + 1 := by
    rw [hct, gcmEncrypt_length, length_append, length_singleton]
  have htaglen : ct.2.length = 16 := by rw [hct, gcmEncrypt_tag_length]
  have hu16 : u16At (recordHeader 23 n) 3 = n := u16At_recordHeader (by omega) 23
  have hseal : sealedRecord cr k ty pt = recordHeader 23 n ++ (ct.1 ++ ct.2) := by
    rw [hct, hn, ← append_assoc]
    rfl
  rw [hseal] at h hne
  unfold recvEncrypted
  rcases recvHeader_part (by decide) (by omega) h with hnone | ⟨r, hr, he, hhdr⟩
  · obtain ⟨log', hrun⟩ := hnone sent log
    exact ⟨log', by rw [Prog.bind_run hrun]; rfl⟩
  · rw [Prog.bind_run (hhdr sent log)]
    dsimp only
    rw [hu16, if_neg (by omega)]
    rcases prefix_append_cases hr with ⟨hp, hnp⟩ | ⟨x, hx, hxp⟩
    · have hlt := length_lt_of_prefix hp hnp
      obtain ⟨log', hread⟩ := readInto_short (t := t) (s := ⟨r, [], sent, log⟩)
        (show r.length < n - 16 by omega) (by omega)
      exact ⟨log', by rw [Prog.bind_run hread]; rfl⟩
    · obtain ⟨log', hread⟩ := readInto_append (t := t) (s := ⟨r, [], sent, log⟩)
        (show n - 16 = ct.1.length by omega) (by omega) hx
      have hlt : x.length < 16 := by
        refine htaglen ▸ length_lt_of_prefix hxp fun heq => hne ?_
        rw [he, hx, heq]
      refine ⟨log', ?_⟩
      rw [Prog.bind_run hread]
      dsimp only
      rw [Prog.bind_run (readN_short (n := 16) hlt)]
      rfl

theorem starves_recvHandshake (code : Int) (hlen : pt.length ≤ 6144) (hcap : pt.length + 1 ≤ t.cap)
    (h : inp <+: ccsBytes cs ++ sealedRecord cr k 22 pt)
    (hne : inp ≠ ccsBytes cs ++ sealedRecord cr k 22 pt) :
    Starves (recvHandshake cr k t code) inp [] := by
  intro sent log
  obtain ⟨log', hrun⟩ := recvEncrypted_part cr hlen hcap h hne sent log
  exact ⟨code, log', by unfold recvHandshake; rw [Prog.bind_run hrun, append_nil]; rfl⟩

theorem starves_recvFinished {verify : BytesN 32}
    {scratch : Bytes} (a b c : Int) (hcap : 37 ≤ t.cap)
    (h : inp <+: ccsBytes cs ++ sealedRecord cr k 22 (hsPack 20 verify.val))
    (hne : inp ≠ ccsBytes cs ++ sealedRecord cr k 22 (hsPack 20 verify.val)) :
    Starves (recvFinished cr k t scratch verify a b c) inp [] := by
  have hlen : (hsPack 20 verify.val).length = 36 := by
    simp [hsPack, be24, be16, verify.property]
  exact (starves_recvHandshake cr a (by omega) (by omega) h hne).bind

end

end AdventOS.Tls
