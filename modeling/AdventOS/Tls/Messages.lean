import AdventOS.Tls.Handshake

/-!
# Handshake messages, built and parsed

What one side of a handshake builds, the other side's parser takes apart: the two
ClientHellos and ServerHellos, the extensions with their nested lengths, and the messages
of the server's flight.

* `parsePskClientHello_pack`, `parsePskServerHello_pack`, `parseClientHello_pack`,
  `parseServerHello_pack`: the key share and the bytes hashed come out;
* `serverFlight_ok`, `leafCert_pack`, `checkCertVerify_signed`: the flight and the checks
  of the client on it.
-/
namespace AdventOS.Tls
open List

/-! ## The header of a message -/

theorem hsPack_length (ty : UInt8) (body : Bytes) : (hsPack ty body).length = 4 + body.length := by
  simp only [hsPack, be24, be16, length_cons, length_append, length_nil]
  omega

theorem u24At_be24 {n : Nat} (h : n < 2 ^ 24) (l r : Bytes) :
    u24At (l ++ be24 n ++ r) l.length = n := by
  have hhi : (l ++ be24 n ++ r).getD l.length 0 = UInt8.ofNat (n / 2 ^ 16) := by simp [be24]
  have hlo : u16At (l ++ be24 n ++ r) (l.length + 1) = n % 2 ^ 16 := by
    have := u16At_be16_mod n (l ++ [UInt8.ofNat (n / 2 ^ 16)]) r
    rwa [length_append, append_assoc l] at this
  unfold u24At
  rw [hhi, hlo, UInt8.toNat_ofNat']
  omega

theorem u24At_hsPack {body : Bytes} (h : body.length < 2 ^ 24) (ty : UInt8) (rest : Bytes) :
    u24At (hsPack ty body ++ rest) 1 = body.length := by
  have := u24At_be24 h [ty] (body ++ rest)
  rwa [← append_assoc] at this

theorem u24At_hsPack_self {body : Bytes} (h : body.length < 2 ^ 24) (ty : UInt8) :
    u24At (hsPack ty body) 1 = body.length := by
  have := u24At_hsPack h ty []
  rwa [append_nil] at this

theorem check_bind {α : Type} {ok : Prop} [Decidable ok] (h : ok) (code : Int)
    (f : Unit → Except Int α) : (check ok code >>= f) = f () := by
  unfold check
  rw [if_pos h]
  rfl

theorem ok_bind {α β : Type} (a : α) (f : α → Except Int β) : (Except.ok a >>= f) = f a := rfl

section
variable (rnd pub : BytesN 32)

theorem parsePskClientHello_pack {pskId : Bytes} (h : pskId.length ≤ 64) :
    parsePskClientHello pskId (pskClientHello rnd pskId pub) =
      .ok ⟨pub.val, pskClientHello rnd pskId pub⟩ := by
  have hrnd := rnd.property
  obtain ⟨body, hbody⟩ : ∃ body, body = rnd.val ++ be16 pskId.length ++ pskId ++ pub.val :=
    ⟨_, rfl⟩
  have hlen : body.length = 66 + pskId.length := by
    rw [hbody]
    simp only [length_append, be16, length_cons, length_nil]
    omega
  obtain ⟨m, hm⟩ : ∃ m, m = hsPack 1 body := ⟨_, rfl⟩
  have hmlen : m.length = 70 + pskId.length := by rw [hm, hsPack_length]; omega
  have hu24 : u24At m 1 = 66 + pskId.length := by rw [hm, u24At_hsPack_self (by omega), hlen]
  have hsplit : m = (1 :: (be24 body.length ++ rnd.val)) ++ be16 pskId.length ++
      (pskId ++ pub.val) := by
    rw [hm, hbody]
    simp [hsPack]
  have hpre : (1 :: (be24 body.length ++ rnd.val)).length = 36 := by
    simp [be24, be16, hrnd]
  have hu16 : u16At m 36 = pskId.length := by
    rw [hsplit, ← hpre]
    exact u16At_be16 (by omega) _ _
  have hdrop : m.drop 38 = pskId ++ pub.val := by
    rw [hsplit]
    exact drop_left' (by simp [be24, be16, hrnd])
  have htake : (m.drop (38 + pskId.length)).take 32 = pub.val := by
    rw [← drop_drop, hdrop, drop_left]
    exact take_of_length_le (by omega)
  have hwhole : m.take (66 + pskId.length + 4) = m := take_of_length_le (by omega)
  have hhead : m.getD 0 0 = 1 := by rw [hm]; rfl
  have hid : (m.drop 38).take pskId.length = pskId := by rw [hdrop, take_left]
  have hhello : pskClientHello rnd pskId pub = m := by rw [hm, hbody]; rfl
  rw [hhello]
  unfold parsePskClientHello
  rw [check_bind (by omega), check_bind hhead, hu24, check_bind (by omega), check_bind (by omega),
    hu16, check_bind (by omega), check_bind rfl, check_bind hid, htake, hwhole]
  rfl

theorem parsePskServerHello_pack :
    parsePskServerHello (hsPack 2 (rnd.val ++ pub.val)) =
      .ok (pub.val, hsPack 2 (rnd.val ++ pub.val)) := by
  have hrnd := rnd.property
  have hlen : (rnd.val ++ pub.val).length = 64 := by rw [length_append]; omega
  obtain ⟨m, hm⟩ : ∃ m, m = hsPack 2 (rnd.val ++ pub.val) := ⟨_, rfl⟩
  have hmlen : m.length = 68 := by rw [hm, hsPack_length]; omega
  have hu24 : u24At m 1 = 64 := by rw [hm, u24At_hsPack_self (by omega), hlen]
  have hdrop : (m.drop 36).take 32 = pub.val := by
    have hsplit : m = (2 :: (be24 64 ++ rnd.val)) ++ pub.val := by
      rw [hm, hsPack, hlen]
      simp
    rw [hsplit, drop_left' (by simp [be24, be16, hrnd])]
    exact take_of_length_le (by omega)
  have hhead : m.getD 0 0 = 2 := by rw [hm]; rfl
  have hwhole : m.take (64 + 4) = m := take_of_length_le (by omega)
  rw [← hm]
  unfold parsePskServerHello
  rw [check_bind ⟨by omega, hhead⟩, hu24, check_bind (by omega), hdrop, hwhole]
  rfl

/-! ## Extensions -/

def extBytes (ty : Nat) (data : Bytes) : Bytes := be16 ty ++ be16 data.length ++ data

theorem be16_length (n : Nat) : (be16 n).length = 2 := rfl

variable {ty : Nat} {data name : Bytes} {want : Int}

theorem extBytes_fields (hty : ty < 2 ^ 16) (hdata : data.length < 2 ^ 16)
    (rest : Bytes) :
    u16At (extBytes ty data ++ rest) 0 = ty ∧ u16At (extBytes ty data ++ rest) 2 = data.length ∧
      ((extBytes ty data ++ rest).drop 4).take data.length = data ∧
      (extBytes ty data ++ rest).drop (4 + data.length) = rest ∧
      4 + data.length ≤ (extBytes ty data ++ rest).length := by
  have hsplit : extBytes ty data ++ rest = (be16 ty ++ be16 data.length) ++ (data ++ rest) := by
    rw [extBytes, append_assoc]
  have h4 : (be16 ty ++ be16 data.length).length = 4 := rfl
  refine ⟨?_, ?_, ?_, ?_, ?_⟩
  · have := u16At_be16 hty [] (be16 data.length ++ data ++ rest)
    rwa [nil_append, ← append_assoc, ← append_assoc] at this
  · have := u16At_be16 hdata (be16 ty) (data ++ rest)
    rwa [← hsplit] at this
  · rw [hsplit, drop_left' h4, take_left]
  · rw [hsplit, ← drop_drop, drop_left' h4, drop_left]
  · rw [hsplit, length_append, h4, length_append]
    omega

theorem helloExtensions_ext {fuel : Nat} {rest : Bytes} {e : HelloExts}
    (hty : ty < 2 ^ 16) (hdata : data.length < 2 ^ 16) :
    helloExtensions want (fuel + 1) (extBytes ty data ++ rest) e =
      helloExtension want ty data e >>= helloExtensions want fuel rest := by
  obtain ⟨h0, h2, htake, hdrop, hlen⟩ := extBytes_fields hty hdata rest
  rw [helloExtensions, h0, h2, htake, hdrop, if_neg (by omega), if_neg (by omega)]

theorem serverShare_ext {fuel : Nat} {rest : Bytes} {acc : Option Bytes}
    (hty : ty < 2 ^ 16) (hdata : data.length < 2 ^ 16) :
    serverShare (fuel + 1) (extBytes ty data ++ rest) acc =
      serverShare fuel rest
        (if ty = 0x33 ∧ 36 ≤ data.length ∧ u16At data 0 = 0x1D ∧ u16At data 2 = 32
          then some ((data.drop 4).take 32) else acc) := by
  obtain ⟨h0, h2, htake, hdrop, hlen⟩ := extBytes_fields hty hdata rest
  rw [serverShare, h0, h2]
  rw [htake, hdrop, if_neg (by omega), if_neg (by omega)]

theorem helloExtensions_nil (want : Int) (fuel : Nat) (e : HelloExts) :
    helloExtensions want fuel [] e = .ok e := by
  cases fuel <;> rfl

theorem serverShare_nil (fuel : Nat) (acc : Option Bytes) : serverShare fuel [] acc = .ok acc := by
  cases fuel <;> rfl

def shareEntry (pub : BytesN 32) : Bytes := [0, 0x1D, 0, 32] ++ pub.val

theorem keyShares_entry (fuel : Nat) (pub : BytesN 32) (acc : Option Bytes) :
    keyShares (fuel + 1) (shareEntry pub) acc = .ok (some pub.val) := by
  have hpub := pub.property
  have hlen : (shareEntry pub).length = 36 := by
    rw [shareEntry, length_append]
    simp [hpub]
  have h0 : u16At (shareEntry pub) 0 = 0x1D := rfl
  have h2 : u16At (shareEntry pub) 2 = 32 := rfl
  have hkey : ((shareEntry pub).drop 4).take 32 = pub.val := take_of_length_le (by
    rw [length_drop]
    omega)
  have hrest : (shareEntry pub).drop (4 + 32) = [] := drop_eq_nil_of_le (by omega)
  rw [keyShares, h0, h2, if_neg (by omega), if_neg (by omega), if_pos ⟨rfl, rfl⟩, hkey, hrest]
  cases fuel <;> rfl

theorem helloExtension_versions (want : Int) (e : HelloExts) :
    helloExtension want 0x2B [2, 3, 4] e = .ok { e with tls13 := true } := by
  have hversions : (u16s (([2, 3, 4] : Bytes).drop 1 |>.take 2)).contains 0x0304 = true := by decide
  unfold helloExtension
  rw [if_pos rfl, check_bind (by decide), check_bind (by decide)]
  change Except.ok { e with tls13 := e.tls13 || (u16s (([2, 3, 4] : Bytes).drop 1 |>.take 2)).contains 0x0304 } = _
  rw [hversions, Bool.or_true]

/-- The schemes the client offers that the server has an implementation of. -/
def Offered (want : Int) : Prop := want = 0x0403 ∨ want = 0x0807

def offeredSchemes : Bytes := [0, 10, 4, 3, 8, 4, 8, 5, 8, 6, 8, 7]

theorem helloExtension_schemes (h : Offered want) (e : HelloExts) :
    helloExtension want 0x0D offeredSchemes e = .ok { e with sigMatch := true } := by
  have hschemes : (u16s ((offeredSchemes.drop 2).take 10)).any (fun sa => (sa : Int) == want)
      = true := by
    rcases h with h | h
    · rw [h]
      decide
    · rw [h]
      decide
  unfold helloExtension
  rw [if_neg (by decide), if_pos rfl, check_bind (by decide), check_bind (by decide)]
  change Except.ok { e with sigMatch := e.sigMatch || (u16s ((offeredSchemes.drop 2).take 10)).any fun sa => (sa : Int) == want } = _
  rw [hschemes, Bool.or_true]

theorem helloExtension_share (want : Int) (pub : BytesN 32) (e : HelloExts) :
    helloExtension want 0x33 ([0, 36] ++ shareEntry pub) e =
      .ok { e with share := some pub.val } := by
  have hpub := pub.property
  have hlen : (shareEntry pub).length = 36 := by
    rw [shareEntry, length_append]
    simp [hpub]
  have hdata : (([0, 36] ++ shareEntry pub : Bytes)).length = 37 + 1 := by
    rw [length_append, hlen]
    rfl
  have hu16 : u16At ([0, 36] ++ shareEntry pub) 0 = 36 := rfl
  have htake : (([0, 36] ++ shareEntry pub : Bytes).drop 2).take 36 = shareEntry pub :=
    take_of_length_le (by rw [length_drop]; omega)
  unfold helloExtension
  rw [if_neg (by decide), if_neg (by decide), if_pos rfl, hu16, check_bind (by omega),
    check_bind (by omega), hdata, htake, keyShares_entry]
  rfl

theorem helloExtension_other {e : HelloExts}
    (h1 : ty ≠ 0x2B) (h2 : ty ≠ 0x0D) (h3 : ty ≠ 0x33) :
    helloExtension want ty data e = .ok e := by
  unfold helloExtension
  rw [if_neg h1, if_neg h2, if_neg h3]

theorem serverNameExt_eq (h : name ≠ []) :
    serverNameExt name = extBytes 0 (be16 (name.length + 3) ++ [0] ++ be16 name.length ++ name) := by
  have hlen : (be16 (name.length + 3) ++ [0] ++ be16 name.length ++ name).length =
      name.length + 5 := by
    simp only [length_append, be16, length_cons, length_nil]
    omega
  rw [serverNameExt, if_neg h, extBytes, hlen]
  simp [be16]

theorem clientHelloExts_eq (name : Bytes) :
    clientHelloExts pub name = extBytes 0x2B [2, 3, 4] ++ (extBytes 0x0A [0, 2, 0, 0x1D] ++
      (extBytes 0x0D offeredSchemes ++ (extBytes 0x33 ([0, 36] ++ shareEntry pub) ++
        serverNameExt name))) := by
  have hpub := pub.property
  have hlen : (([0, 36] ++ shareEntry pub : Bytes)).length = 38 := by
    simp [shareEntry, hpub]
  unfold clientHelloExts
  rw [extBytes, extBytes, extBytes, extBytes, hlen]
  simp [be16, offeredSchemes, shareEntry]

theorem parseClienthelloExtensions_pack (hwant : Offered want)
    (hname : name.length ≤ 387) :
    parseClienthelloExtensions want (clientHelloExts pub name) = .ok pub.val := by
  have hpub := pub.property
  have hshare : (([0, 36] ++ shareEntry pub : Bytes)).length = 38 := by
    simp [shareEntry, hpub]
  have hfuel : ∃ f, (clientHelloExts pub name).length + 1 = f + 1 + 1 + 1 + 1 + 1 + 1 := by
    refine ⟨(clientHelloExts pub name).length - 5, ?_⟩
    have : 5 ≤ (clientHelloExts pub name).length := by
      simp [clientHelloExts]
    omega
  obtain ⟨f, hf⟩ := hfuel
  have hexts : helloExtensions want ((clientHelloExts pub name).length + 1)
      (clientHelloExts pub name) ⟨false, false, none⟩ = .ok ⟨true, true, some pub.val⟩ := by
    rw [hf, clientHelloExts_eq, helloExtensions_ext (by decide) (by decide),
      helloExtension_versions, ok_bind, helloExtensions_ext (by decide) (by decide),
      helloExtension_other (by decide) (by decide) (by decide), ok_bind,
      helloExtensions_ext (by decide) (by decide), helloExtension_schemes hwant, ok_bind,
      helloExtensions_ext (by decide) (by omega), helloExtension_share, ok_bind]
    by_cases hempty : name = []
    · rw [hempty]
      exact helloExtensions_nil ..
    · have hlen : (be16 (name.length + 3) ++ [0] ++ be16 name.length ++ name).length =
          name.length + 5 := by
        simp only [length_append, be16, length_cons, length_nil]
        omega
      rw [serverNameExt_eq hempty, ← append_nil (extBytes _ _),
        helloExtensions_ext (by decide) (by omega), helloExtension_other (by decide) (by decide)
        (by decide), ok_bind]
      exact helloExtensions_nil ..
  unfold parseClienthelloExtensions
  rw [hexts, ok_bind, check_bind rfl, check_bind rfl]

theorem clientHelloExts_length (h : name.length ≤ 387) :
    (clientHelloExts pub name).length ≤ 469 := by
  have hpub := pub.property
  unfold clientHelloExts serverNameExt
  split
  · simp [hpub]
  · simp only [length_append, length_cons, length_nil, be16, hpub]
    omega

theorem parseClientHello_pack (hwant : Offered want)
    (hname : name.length ≤ 387) :
    parseClientHello want (certClientHello rnd pub name) =
      .ok ⟨[], pub.val, certClientHello rnd pub name⟩ := by
  have hrnd := rnd.property
  obtain ⟨exts, hexts⟩ : ∃ exts, exts = clientHelloExts pub name := ⟨_, rfl⟩
  have hextlen : exts.length ≤ 469 := by rw [hexts]; exact clientHelloExts_length pub hname
  obtain ⟨tail, htail⟩ : ∃ tail : Bytes, tail =
    0 :: 0 :: 2 :: 0x13 :: 0x01 :: 1 :: 0 :: (be16 exts.length ++ exts) := ⟨_, rfl⟩
  have htaillen : tail.length = 9 + exts.length := by
    rw [htail]
    simp only [length_cons, length_append, be16_length]
    omega
  obtain ⟨body, hbody⟩ : ∃ body : Bytes, body = [3, 3] ++ rnd.val ++ tail := ⟨_, rfl⟩
  have hbodylen : body.length = 43 + exts.length := by
    rw [hbody, length_append, length_append, htaillen, hrnd]
    simp only [length_cons, length_nil]
    omega
  obtain ⟨m, hm⟩ : ∃ m, m = hsPack 1 body := ⟨_, rfl⟩
  have hmlen : m.length = 47 + exts.length := by rw [hm, hsPack_length]; omega
  have hhello : certClientHello rnd pub name = m := by
    rw [hm, hbody, htail, hexts, certClientHello, clientHelloBody]
    simp
  have hhead : m.getD 0 0 = 1 := by rw [hm]; rfl
  have hu24 : u24At m 1 = 43 + exts.length := by rw [hm, u24At_hsPack_self (by omega), hbodylen]
  have hdrop : m.drop 38 = tail := by
    have hsplit : m = (1 :: (be24 body.length ++ [3, 3] ++ rnd.val)) ++ tail := by
      rw [hm, hsPack, hbody]
      simp
    rw [hsplit]
    exact drop_left' (by simp [be24, be16, hrnd])
  have hwhole : m.take (43 + exts.length + 4) = m := take_of_length_le (by omega)
  -- the lengths inside the tail
  have hsid : (tail.getD 0 0).toNat = 0 := by rw [htail]; rfl
  have hcs : u16At (tail.drop (1 + 0)) 0 = 2 := by rw [htail]; rfl
  have hsuites : u16s (((tail.drop (1 + 0)).drop 2).take 2) = [0x1301] := by rw [htail]; rfl
  have hcm : (((tail.drop (1 + 0)).drop (2 + 2)).getD 0 0).toNat = 1 := by rw [htail]; rfl
  have hext : ((tail.drop (1 + 0)).drop (2 + 2)).drop (1 + 1) = be16 exts.length ++ exts := by
    rw [htail]
    rfl
  have hextu16 : u16At (be16 exts.length ++ exts) 0 = exts.length :=
    u16At_be16 (by omega) [] exts
  have hexttake : ((be16 exts.length ++ exts).drop 2).take exts.length = exts := by
    rw [drop_left' (be16_length _), take_length]
  rw [hhello]
  unfold parseClientHello
  rw [check_bind ⟨by omega, hhead⟩, hu24, check_bind (by omega), check_bind (by omega)]
  rw [hdrop, check_bind (by omega), hsid, check_bind (by omega),
    check_bind (by rw [length_drop]; omega), hcs,
    check_bind (by rw [length_drop]; omega), hsuites, check_bind (by decide),
    check_bind (by rw [length_drop, length_drop]; omega), hcm,
    check_bind (by rw [length_drop, length_drop]; omega), hext,
    check_bind (by rw [length_append, be16_length]; omega), hextu16,
    check_bind (by rw [length_append, be16_length]), hexttake, hexts,
    parseClienthelloExtensions_pack pub hwant hname, ← hexts, hwhole]
  rfl

theorem parseServerHello_pack :
    parseServerHello (hsPack 2 (serverHelloBody rnd [] pub)) =
      .ok (pub.val, hsPack 2 (serverHelloBody rnd [] pub)) := by
  have hrnd := rnd.property
  have hpub := pub.property
  have hentry : (shareEntry pub).length = 36 := by simp [shareEntry, hpub]
  obtain ⟨exts, hexts⟩ : ∃ exts, exts = extBytes 0x2B [3, 4] ++ (extBytes 0x33 (shareEntry pub) ++ []) :=
    ⟨_, rfl⟩
  have hextlen : exts.length = 46 := by
    rw [hexts, extBytes, extBytes, hentry]
    simp [hentry, be16]
  obtain ⟨tail, htail⟩ : ∃ tail : Bytes, tail = [0x13, 0x01, 0] ++ (be16 46 ++ exts) := ⟨_, rfl⟩
  have htaillen : tail.length = 51 := by
    rw [htail, length_append, length_append, hextlen]
    rfl
  obtain ⟨body, hbody⟩ : ∃ body : Bytes, body = [3, 3] ++ rnd.val ++ (0 :: tail) := ⟨_, rfl⟩
  have hbodylen : body.length = 86 := by
    simp only [hbody, length_append, length_cons, length_nil, htaillen, hrnd]
  obtain ⟨m, hm⟩ : ∃ m, m = hsPack 2 body := ⟨_, rfl⟩
  have hmlen : m.length = 90 := by rw [hm, hsPack_length]; omega
  have hhello : hsPack 2 (serverHelloBody rnd [] pub) = m := by
    rw [hm, hbody, htail, hexts, extBytes, extBytes, hentry, serverHelloBody]
    simp [shareEntry, be16]
  have hhead : m.getD 0 0 = 2 := by rw [hm]; rfl
  have hu24 : u24At m 1 = 86 := by rw [hm, u24At_hsPack_self (by omega), hbodylen]
  have hsplit : m = (2 :: (be24 body.length ++ [3, 3] ++ rnd.val)) ++ (0 :: tail) := by
    rw [hm, hsPack, hbody]
    simp
  have hpre : (2 :: (be24 body.length ++ [3, 3] ++ rnd.val)).length = 38 := by
    simp [be24, be16, hrnd]
  have hsid : (m.getD 38 0).toNat = 0 := by
    rw [hsplit, getD_append_right _ _ _ _ (by omega), hpre]
    rfl
  have hdrop : m.drop (39 + 0) = tail := by
    rw [hsplit, show 39 + 0 = 38 + 1 from rfl, ← drop_drop, drop_left' hpre]
    rfl
  have hext : tail.drop 3 = be16 46 ++ exts := by rw [htail]; rfl
  have hextu16 : u16At (be16 46 ++ exts) 0 = 46 := u16At_be16 (by decide) [] exts
  have hexttake : ((be16 46 ++ exts).drop 2).take 46 = exts := by
    rw [drop_left' (be16_length _)]
    exact take_of_length_le (by omega)
  have hshare : serverShare ((be16 46 ++ exts).length + 1) exts none = .ok (some pub.val) := by
    have hfuel : (be16 46 ++ exts).length + 1 = 47 + 1 + 1 := by
      rw [length_append, hextlen]
      rfl
    have hkey : ((shareEntry pub).drop 4).take 32 = pub.val := take_of_length_le (by
      rw [length_drop]
      omega)
    rw [hfuel, hexts, serverShare_ext (by decide) (by decide), if_neg (by decide),
      serverShare_ext (by decide) (by omega), if_pos ⟨rfl, by omega, rfl, rfl⟩, hkey]
    exact serverShare_nil ..
  have hwhole : m.take (86 + 4) = m := take_of_length_le (by omega)
  rw [hhello]
  unfold parseServerHello
  rw [check_bind ⟨by omega, hhead⟩, hu24, check_bind (by omega), check_bind (by omega)]
  rw [hsid, check_bind (by omega), hdrop, check_bind (by omega), hext,
    check_bind (by rw [length_append, be16_length]; omega), hextu16,
    check_bind (by rw [length_append, be16_length]; omega), hexttake, hshare, ok_bind, hwhole]

/-! ## The flight of the server -/

theorem nextMessage_hsPack {body : Bytes} (h : body.length < 2 ^ 24) (ty : UInt8) (rest : Bytes) :
    nextMessage (hsPack ty body ++ rest) = some ((ty, body), rest) := by
  have hu := u24At_hsPack h ty rest
  have hlen := hsPack_length ty body
  have hsplit : hsPack ty body ++ rest = (ty :: be24 body.length) ++ (body ++ rest) := by
    simp [hsPack]
  have h4 : (ty :: be24 body.length).length = 4 := rfl
  have hbody : ((hsPack ty body ++ rest).drop 4).take body.length = body := by
    rw [hsplit, drop_left' h4, take_left]
  have hrest : (hsPack ty body ++ rest).drop (4 + body.length) = rest := by
    rw [← drop_drop, hsplit, drop_left' h4, drop_left]
  have hlong : 4 + body.length ≤ (hsPack ty body ++ rest).length := by
    rw [length_append, hlen]
    omega
  unfold nextMessage
  rw [hu, if_neg (by omega), if_neg (by omega), hbody, hrest]
  rfl

theorem leafCert_pack {cert : Bytes} (h : cert.length ≤ 1607) :
    leafCert (certificateBody cert) = .ok cert := by
  have h24 : ∀ n : Nat, (be24 n).length = 3 := fun _ => rfl
  obtain ⟨body, hbody⟩ : ∃ body, body = certificateBody cert := ⟨_, rfl⟩
  have hlen : body.length = cert.length + 9 := by
    rw [hbody, certificateBody]
    simp only [length_cons, length_append, h24, length_nil]
    omega
  have hsplit : body = (0 :: be24 (cert.length + 5)) ++ be24 cert.length ++ (cert ++ [0, 0]) := by
    rw [hbody, certificateBody]
    simp
  have hctx : (body.getD 0 0).toNat = 0 := by rw [hsplit]; rfl
  have hlist : u24At body 1 = cert.length + 5 := by
    rw [hsplit, show (0 :: be24 (cert.length + 5)) ++ be24 cert.length ++ (cert ++ [0, 0]) =
      [0] ++ be24 (cert.length + 5) ++ (be24 cert.length ++ (cert ++ [0, 0])) by simp]
    exact u24At_be24 (by omega) [0] _
  have hcert : u24At body 4 = cert.length := by
    rw [hsplit]
    exact u24At_be24 (by omega) (0 :: be24 (cert.length + 5)) _
  have hdrop : (body.drop 7).take cert.length = cert := by
    rw [hsplit, drop_left' (by simp [h24]), take_left]
  rw [← hbody]
  unfold leafCert
  rw [check_bind (by omega), hctx]
  rw [check_bind (by omega), show u24At body (1 + 0) = cert.length + 5 from hlist,
    check_bind (by omega), show u24At body (1 + 0 + 3) = cert.length from hcert,
    check_bind (by omega), show body.drop (1 + 0 + 6) = body.drop 7 from rfl, hdrop]
  rfl

variable (cr : Primitives)

/-- The key of the certificate is the other half of the server's key: what is signed with
one verifies under the other. -/
structure KeyPair (cfg : ServerConfig) (alg : Nat) (pk : Bytes) : Prop where
  cert : extractPubkey (cfg.certDer.take cfg.certLen.val.toNat) = some (alg, pk)
  scheme : cfg.want = alg
  p256 : alg = 0x0403 → ∀ hash, ∃ rs der, cr.p256Sign hash cfg.sk = some rs ∧
    cr.p256SigToDer rs.val = some der ∧ cr.p256SigFromDer der.val = some rs ∧
    cr.p256Verify rs.val hash (pk.drop 1) = true
  ed25519 : alg = 0x0807 → ∀ msg, cr.ed25519Verify (cr.ed25519Sign msg cfg.sk).val msg pk = true
  known : alg = 0x0403 ∨ alg = 0x0807

variable {cr} {cfg : ServerConfig} {alg : Nat} {pk : Bytes}

theorem KeyPair.offered (h : KeyPair cr cfg alg pk) : Offered cfg.want := by
  rw [h.scheme]
  rcases h.known with hk | hk
  · exact .inl (by rw [hk]; rfl)
  · exact .inr (by rw [hk]; rfl)

theorem KeyPair.signs (h : KeyPair cr cfg alg pk) (transcript : Bytes) :
    ∃ cv, certificateVerifyBody cr cfg transcript = .ok cv ∧ cv.length ≤ 76 ∧
      checkCertVerify cr (some (alg, pk)) (cr.sha256 transcript) cv = .ok () := by
  obtain ⟨toSign, hts⟩ : ∃ t, t = cvSignInput (cr.sha256 transcript) := ⟨_, rfl⟩
  rcases h.known with hk | hk
  · obtain ⟨rs, der, hsign, hder, hrs, hver⟩ := h.p256 hk (cr.sha256 toSign).val
    have hwant : cfg.want = 0x0403 := by rw [h.scheme, hk]; rfl
    refine ⟨[4, 3] ++ be16 der.val.length ++ der.val, ?_, ?_, ?_⟩
    · unfold certificateVerifyBody
      rw [if_pos hwant, ← hts, hsign]
      dsimp only
      rw [hder]
    · simp only [length_append, length_cons, length_nil, be16_length]
      omega
    · have halg : u16At ([4, 3] ++ be16 der.val.length ++ der.val) 0 = 0x0403 := rfl
      have hsig : u16At ([4, 3] ++ be16 der.val.length ++ der.val) 2 = der.val.length :=
        u16At_be16 (by omega) [4, 3] der.val
      have hdrop : (([4, 3] ++ be16 der.val.length ++ der.val).drop 4).take der.val.length =
          der.val := by
        rw [drop_left' (show ([4, 3] ++ be16 der.val.length : Bytes).length = 4 from rfl),
          take_length]
      have hlen : 4 + der.val.length ≤ ([4, 3] ++ be16 der.val.length ++ der.val).length := by
        simp only [length_append, length_cons, length_nil, be16_length]
        omega
      unfold checkCertVerify
      dsimp only
      rw [halg, hsig, hdrop, hk, check_bind (by omega), check_bind hlen, check_bind rfl,
        if_neg (by decide), if_pos rfl, ← hts, hrs]
      exact if_pos hver
  · have hver := h.ed25519 hk toSign
    obtain ⟨sig, hsigeq⟩ : ∃ sig, sig = cr.ed25519Sign toSign cfg.sk := ⟨_, rfl⟩
    rw [← hsigeq] at hver
    have hlen := sig.property
    have hwant : ¬ cfg.want = 0x0403 := by rw [h.scheme, hk]; decide
    refine ⟨[8, 7, 0, 0x40] ++ sig.val, ?_, ?_, ?_⟩
    · unfold certificateVerifyBody
      rw [if_neg hwant, ← hts, hsigeq]
    · simp only [length_append, length_cons, length_nil]
      omega
    · have halg : u16At ([8, 7, 0, 0x40] ++ sig.val) 0 = 0x0807 := rfl
      have hsig : u16At ([8, 7, 0, 0x40] ++ sig.val) 2 = 64 := rfl
      have hdrop : (([8, 7, 0, 0x40] ++ sig.val).drop 4).take 64 = sig.val :=
        take_of_length_le (by
          simp only [length_drop, length_append, length_cons, length_nil]
          omega)
      have hlong : 4 + 64 ≤ ([8, 7, 0, 0x40] ++ sig.val).length := by
        simp only [length_append, length_cons, length_nil]
        omega
      unfold checkCertVerify
      dsimp only
      rw [halg, hsig, hdrop, hk, check_bind (by omega), check_bind hlong, check_bind rfl,
        if_pos rfl, check_bind rfl, ← hts]
      exact if_pos hver

theorem KeyPair.pk_length (h : KeyPair cr cfg alg pk) : pk.length ≤ 65 := by
  have hiff := extractPubkey_length h.cert
  refine Nat.le_of_not_lt fun hlt => ?_
  have hlong := hiff.1 hlt
  have hcert := h.cert
  unfold longRsaKey at hlong
  unfold extractPubkey at hcert
  cases hc : parseCert (cfg.certDer.take cfg.certLen.val.toNat) with
  | none =>
    rw [hc] at hlong
    cases hlong
  | some c =>
    rw [hc] at hlong hcert
    rw [Option.map_some] at hlong hcert
    cases hkey : c.key with
    | ed25519 raw len =>
      rw [hkey] at hlong
      cases hlong
    | p256 raw len =>
      rw [hkey] at hlong
      cases hlong
    | rsa n e =>
      rw [hkey] at hcert
      obtain ⟨halg, -⟩ := Prod.ext_iff.1 (Option.some.inj hcert)
      rcases h.known with hk | hk
      · rw [hk] at halg
        cases halg
      · rw [hk] at halg
        cases halg

end

end AdventOS.Tls
