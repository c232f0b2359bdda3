import AdventOS.Core.LTS
import AdventOS.Tls.X509Build

/-!
# The CA store and chain verification

`libcrypto/x509.c` keeps the trusted roots as slices of one array of 25600 bytes.
`ca_store_add` copies the bytes behind what is used, parses the copy, and takes the space
back if the parse fails. `x509_verify_chain` walks from the leaf over the intermediates
and looks for a root that closes the walk. It checks the dates of the leaf and of every
intermediate, but not those of the root.

* `caStoreAdd_refused`: a refused certificate leaves every trusted root as it was.
* `walkIntermediates_eq_some`: the loop accepts the linked lists within their dates.
* `verifyChain_exact`.
* `verifyChain_expiredRoot`: a chain to a root that has expired is accepted.
-/
namespace AdventOS.Tls
open List

/-! ## The store -/

/-- mirrors x509.h: `CA_STORE_MAX_CERTS`. -/
def caStoreMaxCerts : Nat := 16

/-- `sizeof roots_storage`. -/
def rootsStorage : Nat := caStoreMaxCerts * x509MaxCert

/-- mirrors libcrypto/x509.h `struct ca_store`: a root is where its DER lies, offset and
length, and its fields are read there. -/
structure CaStorage where
  storage : BytesN rootsStorage
  used : Nat
  roots : List (Nat × Nat)
  deriving DecidableEq

def slice (l : Bytes) (e : Nat × Nat) : Bytes := (l.drop e.1).take e.2

/-- The trusted roots as `x509_verify_chain` reads them. -/
def CaStorage.caStore (s : CaStorage) : CaStore :=
  ⟨s.roots.filterMap fun e => parseCert (slice s.storage e)⟩

/-- The bytes of `der` copied to `off`. -/
def overwrite (l : Bytes) (off : Nat) (der : Bytes) : Bytes :=
  l.take off ++ der ++ l.drop (off + der.length)

variable {der l : Bytes} {now off : Nat} {s s' : CaStorage} {ok : Bool}

theorem length_overwrite (h : off + der.length ≤ l.length) :
    (overwrite l off der).length = l.length := by
  unfold overwrite
  simp only [length_append, length_take, length_drop]
  omega

theorem slice_overwrite {e : Nat × Nat} (hoff : off ≤ l.length) (he : e.1 + e.2 ≤ off) :
    slice (overwrite l off der) e = slice l e := by
  unfold slice overwrite
  rw [append_assoc, drop_append_of_le_length (by rw [length_take]; omega),
    take_append_of_le_length (by rw [length_drop, length_take]; omega),
    drop_take, take_take, min_eq_left (by omega)]

theorem slice_overwrite_self (hoff : off ≤ l.length) :
    slice (overwrite l off der) (off, der.length) = der := by
  have hl : (l.take off).length = off := by
    rw [length_take]
    omega
  unfold slice overwrite
  rw [append_assoc, drop_left' hl]
  exact take_left

theorem length_overwrite_storage (s : CaStorage) (h : s.used + der.length ≤ rootsStorage) :
    (overwrite s.storage s.used der).length = rootsStorage := by
  rw [length_overwrite, s.storage.2]
  rw [s.storage.2]
  exact h

/-- x509.c:829-845: 0 or -1 and the store; `none` where the copy runs
past the array. `der_len` and the sum of the check are `int`s. -/
def caStoreAdd (s : CaStorage) (der : Bytes) : Option (Bool × CaStorage) :=
  if der.length = 0 ∨ 2 ^ 31 ≤ der.length then some (false, s)
  else if caStoreMaxCerts ≤ s.roots.length then some (false, s)
  else if (rootsStorage : Int) < Int.bmod (s.used + der.length) (2 ^ 32) then some (false, s)
  else if h : s.used + der.length ≤ rootsStorage then
    let storage : BytesN rootsStorage :=
      ⟨overwrite s.storage s.used der, length_overwrite_storage s h⟩
    let e := (s.used, der.length)
    if (parseCert (slice storage e)).isSome then
      some (true, { storage, used := s.used + der.length, roots := s.roots ++ [e] })
    else some (false, { s with storage })
  else none

/-- A store from `ca_store_init` on: whatever its array held, and any certificates
added. -/
def caStoreSys : LTS CaStorage Bytes where
  init s := s.used = 0 ∧ s.roots = []
  step s der s' := ∃ ok, caStoreAdd s der = some (ok, s')

/-- Every root lies in the part in use and parses. -/
structure CaStorage.Inv (s : CaStorage) : Prop where
  used : s.used ≤ rootsStorage
  count : s.roots.length ≤ caStoreMaxCerts
  within : ∀ e ∈ s.roots, e.1 + e.2 ≤ s.used
  parses : ∀ e ∈ s.roots, (parseCert (slice s.storage e)).isSome = true

theorem caStoreAdd_cases (h : caStoreAdd s der = some (ok, s')) : ok = false ∧ s' = s ∨
    ∃ hf : s.used + der.length ≤ rootsStorage,
      s'.storage = ⟨overwrite s.storage s.used der, length_overwrite_storage s hf⟩ ∧
      (ok = false ∧ s'.used = s.used ∧ s'.roots = s.roots ∨
        ok = true ∧ s.roots.length < caStoreMaxCerts ∧ (parseCert der).isSome = true ∧
          s'.used = s.used + der.length ∧ s'.roots = s.roots ++ [(s.used, der.length)]) := by
  unfold caStoreAdd at h
  split at h
  · cases h
    exact .inl ⟨rfl, rfl⟩
  · split at h
    · cases h
      exact .inl ⟨rfl, rfl⟩
    · split at h
      · cases h
        exact .inl ⟨rfl, rfl⟩
      · split at h
        · rename_i hcount _ hf
          have hs : slice (overwrite s.storage s.used der) (s.used, der.length) = der :=
            slice_overwrite_self (by rw [s.storage.2]; omega)
          simp only [hs] at h
          split at h
          · rename_i hp
            cases h
            exact .inr ⟨hf, rfl, .inr ⟨rfl, by omega, hp, rfl, rfl⟩⟩
          · cases h
            exact .inr ⟨hf, rfl, .inl ⟨rfl, rfl, rfl⟩⟩
        · cases h

theorem CaStorage.Inv.slice_eq (hs : s.Inv) (der : Bytes) {e : Nat × Nat}
    (he : e ∈ s.roots) : slice (overwrite s.storage s.used der) e = slice s.storage e := by
  have hu := hs.used
  exact slice_overwrite (by rw [s.storage.2]; exact hu) (hs.within e he)

theorem CaStorage.Inv.add (hs : s.Inv) (h : caStoreAdd s der = some (ok, s')) : s'.Inv := by
  obtain ⟨-, rfl⟩ | ⟨hf, hst, h | h⟩ := caStoreAdd_cases h
  · exact hs
  · obtain ⟨-, hu, hr⟩ := h
    refine ⟨hu ▸ hs.used, hr ▸ hs.count, ?_, ?_⟩
    · intro e he
      rw [hr] at he
      rw [hu]
      exact hs.within e he
    · intro e he
      rw [hr] at he
      rw [hst, hs.slice_eq der he]
      exact hs.parses e he
  · obtain ⟨-, hcount, hp, hu, hr⟩ := h
    refine ⟨hu ▸ hf, ?_, ?_, ?_⟩
    · rw [hr, length_append, length_singleton]
      omega
    · intro e he
      rw [hr, mem_append, mem_singleton] at he
      rw [hu]
      rcases he with he | rfl
      · have := hs.within e he
        omega
      · exact le_refl _
    · intro e he
      rw [hr, mem_append, mem_singleton] at he
      rw [hst]
      rcases he with he | rfl
      · rw [hs.slice_eq der he]
        exact hs.parses e he
      · have hused := hs.used
        rw [slice_overwrite_self (by rw [s.storage.2]; exact hused)]
        exact hp

theorem caStoreSys_inv : caStoreSys.Inductive CaStorage.Inv where
  init s h := by
    obtain ⟨hu, hr⟩ := h
    refine ⟨hu ▸ Nat.zero_le _, hr ▸ Nat.zero_le _, ?_, ?_⟩
    · intro e he
      rw [hr] at he
      exact absurd he not_mem_nil
    · intro e he
      rw [hr] at he
      exact absurd he not_mem_nil
  step s der s' hs h := by
    obtain ⟨ok, h⟩ := h
    exact hs.add h

theorem CaStorage.Inv.roots_add (hs : s.Inv) (h : caStoreAdd s der = some (ok, s')) :
    s'.caStore.roots = s.caStore.roots ++ if ok then (parseCert der).toList else [] := by
  have hold (hst : s'.storage.val = overwrite s.storage s.used der) :
      (s.roots.filterMap fun e => parseCert (slice s'.storage e)) = s.caStore.roots := by
    refine filterMap_congr fun e he => ?_
    rw [hst, hs.slice_eq der he]
  obtain ⟨rfl, rfl⟩ | ⟨hf, hst, h | h⟩ := caStoreAdd_cases h
  · exact (append_nil _).symm
  · obtain ⟨rfl, -, hr⟩ := h
    unfold CaStorage.caStore
    simp only [hr, Bool.false_eq_true, if_false, append_nil]
    exact hold (congrArg Subtype.val hst)
  · obtain ⟨rfl, -, -, -, hr⟩ := h
    have hused := hs.used
    have hnew : slice s'.storage (s.used, der.length) = der := by
      rw [hst]
      exact slice_overwrite_self (by rw [s.storage.2]; exact hused)
    unfold CaStorage.caStore
    simp only [hr, if_true, filterMap_append]
    rw [hold (congrArg Subtype.val hst)]
    congr 1
    simp only [filterMap_cons, filterMap_nil, hnew]
    cases parseCert der with
    | none => rfl
    | some c => rfl

theorem caStoreAdd_refused (hs : caStoreSys.Reachable s)
    (h : caStoreAdd s der = some (false, s')) : s'.caStore = s.caStore := by
  have hr := (caStoreSys_inv.reachable s hs).roots_add h
  rw [if_neg Bool.false_ne_true, append_nil] at hr
  exact congrArg CaStore.mk hr

theorem exists_store {c : X509Cert} (hp : parseCert der = some c)
    (h0 : der.length ≠ 0) (hfit : der.length ≤ rootsStorage) :
    ∃ s, caStoreSys.Reachable s ∧ s.caStore.roots = [c] := by
  let s₀ : CaStorage := ⟨⟨replicate rootsStorage 0, length_replicate⟩, 0, []⟩
  have hinit : caStoreSys.init s₀ := ⟨rfl, rfl⟩
  have hr : rootsStorage = 25600 := rfl
  have hf : s₀.used + der.length ≤ rootsStorage := by
    rw [zero_add]
    exact hfit
  have hadd : ∃ s, caStoreAdd s₀ der = some (true, s) := by
    have hself : slice (overwrite s₀.storage s₀.used der) (s₀.used, der.length) = der :=
      slice_overwrite_self (Nat.zero_le _)
    have hint : ¬(rootsStorage : Int) < Int.bmod (s₀.used + der.length) (2 ^ 32) := by
      change ¬(rootsStorage : Int) < Int.bmod ((0 : Nat) + der.length) (2 ^ 32)
      rw [Int.bmod_eq_of_le (by omega) (by omega)]
      omega
    unfold caStoreAdd
    rw [if_neg (by omega), if_neg (by decide), if_neg hint, dif_pos hf]
    simp only [hself, hp, Option.isSome_some, if_true]
    exact ⟨_, rfl⟩
  obtain ⟨s, hs⟩ := hadd
  refine ⟨s, (LTS.Reachable.init hinit).step ⟨true, hs⟩, ?_⟩
  rw [(caStoreSys_inv.init s₀ hinit).roots_add hs, hp]
  rfl

/-! ## Chains -/

variable (cr : Primitives)

/-- `c` names `issuer` as its issuer and carries its signature. -/
def IssuedBy (c issuer : X509Cert) : Prop :=
  c.issuer = issuer.subject ∧ verifyCertSignature cr c issuer = true

def InTime (now : Nat) (c : X509Cert) : Prop := c.notBefore ≤ now ∧ now ≤ c.notAfter

/-- A path from the leaf over the intermediates to a trusted root: all parse, each was
issued by the next, and each is within its dates. -/
def ValidPath (store : CaStore) (leafDer : Bytes) (intermediates : List Bytes) (now : Nat) : Prop :=
  ∃ certs root, (leafDer :: intermediates).mapM parseCert = some certs ∧ root ∈ store.roots ∧
    (certs ++ [root]).IsChain (IssuedBy cr) ∧ ∀ c ∈ certs ++ [root], InTime now c

/-- The same without the root. -/
structure PathBelow (leafDer : Bytes) (intermediates : List Bytes) (now : Nat)
    (certs : List X509Cert) : Prop where
  parses : (leafDer :: intermediates).mapM parseCert = some certs
  linked : certs.IsChain (IssuedBy cr)
  inTime : ∀ c ∈ certs, InTime now c

/-- `root` issued the last certificate of the path. -/
def Closes (certs : List X509Cert) (root : X509Cert) : Prop :=
  ∀ c ∈ certs.getLast?, IssuedBy cr c root

/-- If a trusted root closes the path, one that is within its dates does. -/
def ClosedInTime (store : CaStore) (leafDer : Bytes) (intermediates : List Bytes) (now : Nat) :
    Prop :=
  ∀ certs, PathBelow cr leafDer intermediates now certs →
    (∃ root ∈ store.roots, Closes cr certs root) →
      ∃ root ∈ store.roots, Closes cr certs root ∧ InTime now root

variable {cr}

theorem validPath_iff {store : CaStore} {leafDer : Bytes} {intermediates : List Bytes} :
    ValidPath cr store leafDer intermediates now ↔
      ∃ certs, PathBelow cr leafDer intermediates now certs ∧
        ∃ root ∈ store.roots, Closes cr certs root ∧ InTime now root := by
  constructor
  · rintro ⟨certs, root, hp, hroot, hchain, htime⟩
    obtain ⟨hc, -, hlast⟩ := isChain_append.1 hchain
    refine ⟨certs, ⟨hp, hc, fun c hc => htime c (mem_append_left _ hc)⟩, root, hroot,
      fun c hc => hlast c hc root rfl, htime root ?_⟩
    exact mem_append_right _ (mem_singleton_self root)
  · rintro ⟨certs, ⟨hp, hc, htime⟩, root, hroot, hlast, hr⟩
    refine ⟨certs, root, hp, hroot, isChain_append.2 ⟨hc, .singleton _, ?_⟩, ?_⟩
    · intro c hcl y hy
      cases hy
      exact hlast c hcl
    · intro c hcm
      rcases mem_append.1 hcm with h | h
      · exact htime c h
      · rw [mem_singleton.1 h]
        exact hr

theorem inValidity_iff (h0 : now ≠ 0) {c : X509Cert} : inValidity now c = true ↔ InTime now c := by
  unfold inValidity InTime
  simp [h0]

/-- The loop over the intermediates. The induction is on the list, with the certificate
reached so far in front. -/
theorem walkIntermediates_eq_some (h0 : now ≠ 0) {ders : List Bytes} {current last : X509Cert} :
    walkIntermediates cr now current ders = some last ↔
      ∃ certs, ders.mapM parseCert = some certs ∧ (current :: certs).IsChain (IssuedBy cr) ∧
        (∀ c ∈ certs, InTime now c) ∧ (current :: certs).getLast? = some last := by
  induction ders generalizing current with
  | nil =>
    simp only [walkIntermediates, Option.some.injEq, mapM_nil, Option.pure_def]
    constructor
    · rintro rfl
      exact ⟨[], rfl, .singleton _, fun c hc => absurd hc not_mem_nil, rfl⟩
    · rintro ⟨certs, rfl, -, -, hl⟩
      exact Option.some.inj hl
  | cons der ders ih =>
    rw [walkIntermediates]
    simp only [Option.bind_eq_bind, mapM_cons, Option.pure_def, Option.bind_eq_some_iff]
    constructor
    · rintro ⟨inter, hi, h⟩
      obtain ⟨⟨hv, hlink⟩, h⟩ := Option.ite_none_right_eq_some.1 h
      obtain ⟨certs, hp, hc, ht, hl⟩ := ih.1 h
      refine ⟨inter :: certs, ⟨inter, hi, certs, hp, rfl⟩, .cons_cons hlink hc, ?_, ?_⟩
      · intro c hcm
        rcases mem_cons.1 hcm with rfl | hcm
        · exact (inValidity_iff h0).1 hv
        · exact ht c hcm
      · rw [getLast?_cons_cons]
        exact hl
    · rintro ⟨certs, ⟨inter, hi, certs', hp, he⟩, hc, ht, hl⟩
      cases he
      rw [isChain_cons_cons] at hc
      rw [getLast?_cons_cons] at hl
      refine ⟨inter, hi, ?_⟩
      rw [if_pos ⟨(inValidity_iff h0).2 (ht inter mem_cons_self), hc.1⟩]
      exact ih.2 ⟨certs', hp, hc.2, fun c hcm => ht c (mem_cons_of_mem _ hcm), hl⟩

theorem verifyChain_eq_true {store : CaStore} {leafDer : Bytes} {intermediates : List Bytes}
    (h8 : intermediates.length ≤ 8) (h0 : now ≠ 0) :
    verifyChain cr leafDer intermediates store now = true ↔
      ∃ certs, PathBelow cr leafDer intermediates now certs ∧
        ∃ root ∈ store.roots, Closes cr certs root := by
  have hroots (current : X509Cert) : (store.roots.any fun root =>
      current.issuer == root.subject && verifyCertSignature cr current root) = true ↔
        ∃ root ∈ store.roots, IssuedBy cr current root := by
    simp [IssuedBy]
  unfold verifyChain
  constructor
  · intro h
    split at h
    · cases h
    · rename_i leaf hleaf
      simp only [Bool.and_eq_true, decide_eq_true_eq, inValidity_iff h0] at h
      obtain ⟨⟨hv, -⟩, h⟩ := h
      split at h
      · cases h
      · rename_i current hw
        obtain ⟨certs, hp, hc, ht, hl⟩ := (walkIntermediates_eq_some h0).1 hw
        obtain ⟨root, hroot, hlink⟩ := (hroots current).1 h
        refine ⟨leaf :: certs, ⟨?_, hc, ?_⟩, root, hroot, ?_⟩
        · rw [mapM_cons, hleaf, hp]
          rfl
        · intro c hcm
          rcases mem_cons.1 hcm with rfl | hcm
          · exact hv
          · exact ht c hcm
        · intro c hcl
          rw [hl] at hcl
          cases hcl
          exact hlink
  · rintro ⟨certs, ⟨hp, hc, ht⟩, root, hroot, hlast⟩
    rw [mapM_cons] at hp
    obtain ⟨leaf, hleaf, hrest⟩ := Option.bind_eq_some_iff.1 hp
    obtain ⟨rest, hders, he⟩ := Option.bind_eq_some_iff.1 hrest
    cases he
    have hl : (leaf :: rest).getLast? = some ((leaf :: rest).getLast (cons_ne_nil _ _)) :=
      getLast?_eq_some_getLast _
    have hw := (walkIntermediates_eq_some h0).2
      ⟨rest, hders, hc, fun c hcm => ht c (mem_cons_of_mem _ hcm), hl⟩
    simp only [hleaf, hw, (inValidity_iff h0).2 (ht leaf mem_cons_self), h8, decide_true,
      Bool.and_self, Bool.true_and]
    exact (hroots _).2 ⟨root, hroot, hlast _ hl⟩

/-- For every store `ca_store_add` built, leaf, at most 8 intermediates and
time: `x509_verify_chain` returns 0 exactly on the valid paths, and a refused root changes
no trusted one, if and only if a path that a trusted root closes is closed by one within
its dates. -/
theorem verifyChain_exact (hs : caStoreSys.Reachable s) (leafDer : Bytes)
    (intermediates : List Bytes) (h8 : intermediates.length ≤ 8) (h0 : now ≠ 0) :
    ((verifyChain cr leafDer intermediates s.caStore now = true ↔
        ValidPath cr s.caStore leafDer intermediates now) ∧
      ∀ der s', caStoreAdd s der = some (false, s') → s'.caStore = s.caStore) ↔
    ClosedInTime cr s.caStore leafDer intermediates now := by
  have hadd : ∀ der s', caStoreAdd s der = some (false, s') → s'.caStore = s.caStore :=
    fun _ _ h => caStoreAdd_refused hs h
  rw [verifyChain_eq_true h8 h0, validPath_iff]
  constructor
  · rintro ⟨hiff, -⟩ certs hbelow hroot
    obtain ⟨certs', hbelow', hroot'⟩ := hiff.1 ⟨certs, hbelow, hroot⟩
    have he : certs' = certs := Option.some.inj (hbelow'.parses.symm.trans hbelow.parses)
    rw [he] at hroot'
    exact hroot'
  · intro hclosed
    refine ⟨⟨?_, ?_⟩, hadd⟩
    · rintro ⟨certs, hbelow, hroot⟩
      exact ⟨certs, hbelow, hclosed certs hbelow hroot⟩
    · rintro ⟨certs, hbelow, root, hroot, hcl, -⟩
      exact ⟨certs, hbelow, root, hroot, hcl⟩

/-- `460101000000Z`. -/
def notAfter2046 : Bytes := [52, 54, 48, 49, 48, 49, 48, 48, 48, 48, 48, 48, 90]

def expiredRoot : Bytes :=
  certOf oidEd25519 (tbsCert (spkiEd25519 (zeros 32)) oidEd25519 cnAdventos) (zeros 64)

def liveLeaf : Bytes :=
  certOf oidEd25519 (derTlv asn1Sequence (intTlv 1 ++ (algId oidEd25519 ++ (nameCn cnAdventos ++
      (derTlv asn1Sequence (derTlv asn1UtcTime notBefore2026 ++ derTlv asn1UtcTime notAfter2046) ++
        (nameCn [98] ++ spkiEd25519 (zeros 32))))))) (zeros 64)

theorem exists_expiredRoot :
    ∃ s c, caStoreSys.Reachable s ∧ parseCert expiredRoot = some c ∧ s.caStore.roots = [c] := by
  have h : (parseCert expiredRoot).isSome = true := by decide +kernel
  obtain ⟨c, hc⟩ := Option.isSome_iff_exists.1 h
  obtain ⟨s, hs, hr⟩ := exists_store hc (by decide +kernel) (by decide +kernel)
  exact ⟨s, c, hs, hc, hr⟩

/-- In 2040 the leaf is accepted through a root that expired in 2036. -/
theorem verifyChain_expiredRoot : ¬ ∀ (cr : Primitives) (s : CaStorage), caStoreSys.Reachable s →
      ∀ (leafDer : Bytes) (intermediates : List Bytes), intermediates.length ≤ 8 →
        ∀ now, now ≠ 0 → (verifyChain cr leafDer intermediates s.caStore now = true ↔
          ValidPath cr s.caStore leafDer intermediates now) := by
  intro h
  obtain ⟨s, c, hs, hc, hr⟩ := exists_expiredRoot
  have hstore : s.caStore = ⟨[c]⟩ := congrArg CaStore.mk hr
  have haccept : (parseCert expiredRoot).map (fun c =>
      verifyChain signingPrimitives liveLeaf [] ⟨[c]⟩ 2208988800 &&
        decide (c.notAfter < 2208988800)) = some true := by decide +kernel
  rw [hc, Option.map_some, Option.some.injEq, Bool.and_eq_true, decide_eq_true_eq] at haccept
  have hpath := (h signingPrimitives s hs liveLeaf [] (by decide) 2208988800 (by decide)).1
    (hstore ▸ haccept.1)
  obtain ⟨certs, -, root, hroot, -, ht⟩ := validPath_iff.1 hpath
  rw [hr, mem_singleton] at hroot
  rw [hroot] at ht
  exact absurd ht.2 (by omega)

/-- The same store in 2030. -/
theorem verifyChain_exact_2030 : ∃ s c, parseCert expiredRoot = some c ∧ s.caStore.roots = [c] ∧
      (((verifyChain signingPrimitives liveLeaf [] s.caStore 1893456000 = true ↔
          ValidPath signingPrimitives s.caStore liveLeaf [] 1893456000) ∧
        ∀ der s', caStoreAdd s der = some (false, s') → s'.caStore = s.caStore) ↔
      ClosedInTime signingPrimitives s.caStore liveLeaf [] 1893456000) := by
  obtain ⟨s, c, hs, hc, hr⟩ := exists_expiredRoot
  exact ⟨s, c, hc, hr, verifyChain_exact hs liveLeaf [] (by decide) (by decide)⟩

end AdventOS.Tls
