import AdventOS.Core.Replay
import AdventOS.Fs.References
import AdventOS.Agentd.Subscriptions

/-!
# Password hashes in agentd's resources (`user/agentd.c`)

`read_resource_by_uri` reads a file and, when the path is `/etc/passwd`, replaces the second field
of each line. It compares the text of the path; the kernel resolves many paths to one file. It
reads 4095 bytes of the file at most and keeps 2047 of the redacted ones.

`redact` says which field is meant, for a file of any length. Two worlds are `Twin` when they
differ in that field of the lines of `/etc/passwd` only. The theorem is about two runs of the
resource calls and of the poll, in such worlds.

* `filterPasswdHashes_eq`: the filter keeps the first 2047 bytes of the redacted buffer;
* `hashes_are_hidden`;
* `other_spelling_leaks`: `file:///etc//passwd` gives the hashes.
-/
namespace AdventOS.Agentd.Redaction
open Json Subscriptions List Option
open Fs (CStr slash)

/-! ## The filter -/

def newline : UInt8 := 10
def colon : UInt8 := 58

/-- `sizeof(tmp) - 1` -/
def tmpMax : Nat := 2047

def put (out s : Bytes) : Bytes := out ++ s.take (tmpMax - out.length)

/-- A line; agentd.c:2857-2876 -/
def filterLine (out line : Bytes) : Bytes :=
  let name := line.takeWhile fun c => c ≠ colon
  if line.length ≤ name.length then put out line
  else
    put (put (put out (name ++ [colon])) [120])
      ((line.drop (name.length + 1)).dropWhile fun c => c ≠ colon)

/-- The loop over the lines; `rest` is what the buffer has from `in_pos` on.
agentd.c:2853-2880 -/
def filterLoop : (fuel : Nat) → (rest out : Bytes) → Bytes
  | 0, _, out => out
  | fuel + 1, rest, out =>
    if rest = [] ∨ tmpMax ≤ out.length then out
    else
      let line := rest.takeWhile fun c => c ≠ newline
      let after := rest.drop line.length
      let out := filterLine out line
      filterLoop fuel (after.drop 1) (if after = [] then out else put out [newline])

/-- agentd.c:2845-2882 -/
def filterPasswdHashes (buf : Bytes) : Bytes := filterLoop buf.length buf []

/-- The fields of a line: the first, the second, and the others. -/
inductive Field
  | name
  | hash
  | others

/-- Redaction, of the rest of a line that is in a field. -/
def redactFrom : Field → Bytes → Bytes
  | _, [] => []
  | .name, c :: rest =>
    if c = newline then c :: redactFrom .name rest
    else if c = colon then c :: 120 :: redactFrom .hash rest
    else c :: redactFrom .name rest
  | .hash, c :: rest =>
    if c = newline then c :: redactFrom .name rest
    else if c = colon then c :: redactFrom .others rest
    else redactFrom .hash rest
  | .others, c :: rest =>
    if c = newline then c :: redactFrom .name rest else c :: redactFrom .others rest

/-- The second field of each line is `x`. -/
def redact (file : Bytes) : Bytes := redactFrom .name file

theorem redactFrom_append (a b : Bytes) (f : Field) :
    ∃ g, redactFrom f (a ++ b) = redactFrom f a ++ redactFrom g b := by
  induction a generalizing f with
  | nil => exact ⟨f, by cases f <;> rfl⟩
  | cons c a ih =>
    cases f with
    | name =>
      by_cases hn : c = newline
      · obtain ⟨g, hg⟩ := ih .name
        exact ⟨g, by simp only [cons_append, redactFrom, hn, if_true, hg]⟩
      · by_cases hc : c = colon
        · obtain ⟨g, hg⟩ := ih .hash
          exact ⟨g, by simp only [cons_append, redactFrom, if_neg hn, if_pos hc, hg]⟩
        · obtain ⟨g, hg⟩ := ih .name
          exact ⟨g, by simp only [cons_append, redactFrom, if_neg hn, if_neg hc, hg]⟩
    | hash =>
      by_cases hn : c = newline
      · obtain ⟨g, hg⟩ := ih .name
        exact ⟨g, by simp only [cons_append, redactFrom, hn, if_true, hg]⟩
      · by_cases hc : c = colon
        · obtain ⟨g, hg⟩ := ih .others
          exact ⟨g, by simp only [cons_append, redactFrom, if_neg hn, if_pos hc, hg]⟩
        · obtain ⟨g, hg⟩ := ih .hash
          exact ⟨g, by simp only [cons_append, redactFrom, if_neg hn, if_neg hc, hg]⟩
    | others =>
      by_cases hn : c = newline
      · obtain ⟨g, hg⟩ := ih .name
        exact ⟨g, by simp only [cons_append, redactFrom, hn, if_true, hg]⟩
      · obtain ⟨g, hg⟩ := ih .others
        exact ⟨g, by simp only [cons_append, redactFrom, if_neg hn, hg]⟩

theorem redact_take (n : Nat) (file : Bytes) : redact (file.take n) <+: redact file := by
  obtain ⟨g, hg⟩ := redactFrom_append (file.take n) (file.drop n) .name
  rw [take_append_drop] at hg
  exact ⟨_, hg.symm⟩

theorem redactFrom_name {a : Bytes} (h : ∀ c ∈ a, c ≠ newline ∧ c ≠ colon) (rest : Bytes) :
    redactFrom .name (a ++ rest) = a ++ redactFrom .name rest := by
  induction a with
  | nil => rfl
  | cons c a ih =>
    obtain ⟨⟨hn, hc⟩, h⟩ := forall_mem_cons.mp h
    rw [cons_append, redactFrom, if_neg hn, if_neg hc, ih h, cons_append]

theorem redactFrom_hash {a : Bytes} (h : ∀ c ∈ a, c ≠ newline ∧ c ≠ colon) (rest : Bytes) :
    redactFrom .hash (a ++ rest) = redactFrom .hash rest := by
  induction a with
  | nil => rfl
  | cons c a ih =>
    obtain ⟨⟨hn, hc⟩, h⟩ := forall_mem_cons.mp h
    rw [cons_append, redactFrom, if_neg hn, if_neg hc, ih h]

theorem redactFrom_others {a : Bytes} (h : ∀ c ∈ a, c ≠ newline) (rest : Bytes) :
    redactFrom .others (a ++ rest) = a ++ redactFrom .others rest := by
  induction a with
  | nil => rfl
  | cons c a ih =>
    obtain ⟨hn, h⟩ := forall_mem_cons.mp h
    rw [cons_append, redactFrom, if_neg hn, ih h, cons_append]

theorem redactFrom_newline (f : Field) (rest : Bytes) :
    redactFrom f (newline :: rest) = newline :: redactFrom .name rest := by
  cases f <;> rfl

theorem stops_at {d c : UInt8} {l rest : Bytes} (h : l.dropWhile (fun c => c ≠ d) = c :: rest) :
    c = d := by
  have hc := List.head?_dropWhile_not (fun c => decide (c ≠ d)) l
  rw [h, List.head?_cons] at hc
  simpa using hc

theorem put_nil (out : Bytes) : put out [] = out := by
  unfold put
  rw [take_nil, append_nil]

theorem put_put (out a b : Bytes) : put (put out a) b = put out (a ++ b) := by
  unfold put
  rw [take_append, append_assoc, length_append, length_take]
  congr 3
  omega

theorem put_length {out s : Bytes} (h : out.length ≤ tmpMax) : (put out s).length ≤ tmpMax := by
  unfold put
  rw [length_append, length_take]
  omega

theorem filterLine_eq (out : Bytes) {line : Bytes} (h : ∀ c ∈ line, c ≠ newline) :
    filterLine out line = put out (redactFrom .name line) := by
  have hname : ∀ c ∈ line.takeWhile (fun c => c ≠ colon), c ≠ newline ∧ c ≠ colon := fun c hc =>
    ⟨h c ((takeWhile_subset _) hc), by simpa using mem_takeWhile_imp hc⟩
  unfold filterLine
  dsimp only
  split
  · rename_i hle
    have hall : line.takeWhile (fun c => c ≠ colon) = line :=
      ( takeWhile_prefix _).eq_of_length_le hle
    rw [hall] at hname
    have := redactFrom_name hname []
    rw [append_nil, show redactFrom .name [] = [] from rfl, append_nil] at this
    rw [this]
  · rename_i hlt
    generalize hn : line.takeWhile (fun c => c ≠ colon) = name at hname hlt ⊢
    -- the line is the name, a colon and the fields behind it
    obtain ⟨rest, rfl⟩ : ∃ rest, line = name ++ colon :: rest := by
      have hsplit := takeWhile_append_dropWhile (p := fun c => decide (c ≠ colon)) (l := line)
      rw [hn] at hsplit
      cases hd : line.dropWhile (fun c => c ≠ colon) with
      | nil =>
        rw [hd, append_nil] at hsplit
        rw [hsplit] at hlt
        exact absurd le_rfl hlt
      | cons c rest =>
        obtain rfl := stops_at hd
        exact ⟨rest, by rw [← hsplit, hd]⟩
    have hrest : ∀ c ∈ rest, c ≠ newline := fun c hc =>
      h c (mem_append_right _ (mem_cons_of_mem _ hc))
    have hdrop : (name ++ colon :: rest).drop (name.length + 1) = rest := by
      rw [← drop_drop, drop_left]
      rfl
    have hhash : ∀ c ∈ rest.takeWhile (fun c => c ≠ colon), c ≠ newline ∧ c ≠ colon := fun c hc =>
      ⟨hrest c ((takeWhile_subset _) hc), by simpa using mem_takeWhile_imp hc⟩
    have htail : redactFrom .hash rest = rest.dropWhile fun c => c ≠ colon := by
      have hs := redactFrom_hash hhash (rest.dropWhile fun c => c ≠ colon)
      rw [takeWhile_append_dropWhile] at hs
      rw [hs]
      cases hd : rest.dropWhile (fun c => c ≠ colon) with
      | nil => rfl
      | cons c tail =>
        obtain rfl := stops_at hd
        have hmem : ∀ d ∈ tail, d ≠ newline := fun d hm =>
          hrest d ((dropWhile_suffix _).subset (hd ▸ mem_cons_of_mem _ hm))
        have hothers := redactFrom_others hmem []
        rw [append_nil, show redactFrom .others [] = [] from rfl, append_nil] at hothers
        rw [redactFrom, if_neg (by decide), if_pos rfl, hothers]
    rw [hdrop, put_put, put_put, redactFrom_name hname, redactFrom, if_neg (by decide), if_pos rfl,
      htail]
    simp only [append_assoc, cons_append, nil_append]

theorem filterLoop_eq (fuel : Nat) (rest out : Bytes) (hf : rest.length ≤ fuel)
    (ho : out.length ≤ tmpMax) : filterLoop fuel rest out = put out (redact rest) := by
  induction fuel generalizing rest out with
  | zero =>
    obtain rfl := length_eq_zero_iff.mp (Nat.le_zero.mp hf)
    exact (put_nil out).symm
  | succ fuel ih =>
    unfold filterLoop
    split
    · rename_i hend
      rcases hend with rfl | hfull
      · exact (put_nil out).symm
      · unfold put
        rw [Nat.sub_eq_zero_of_le hfull, take_zero, append_nil]
    rename_i hgo
    obtain ⟨hne, -⟩ := not_or.mp hgo
    dsimp only
    generalize hl : rest.takeWhile (fun c => c ≠ newline) = line
    have hline : ∀ c ∈ line, c ≠ newline := fun c hc => by
      rw [← hl] at hc
      simpa using mem_takeWhile_imp hc
    have hsplit := takeWhile_append_dropWhile (p := fun c => decide (c ≠ newline)) (l := rest)
    rw [hl] at hsplit
    have hdrop : rest.drop line.length = rest.dropWhile fun c => c ≠ newline := by
      conv_lhs => rw [← hsplit]
      rw [drop_left]
    rw [hdrop, filterLine_eq out hline]
    cases hd : rest.dropWhile (fun c => c ≠ newline) with
    | nil =>
      rw [hd, append_nil] at hsplit
      rw [if_pos rfl, ih _ _ (Nat.zero_le _) (put_length ho), hsplit, drop_nil, put_put]
      exact congrArg (put out) (append_nil _)
    | cons c after =>
      obtain rfl := stops_at hd
      rw [hd] at hsplit
      have hlen : after.length ≤ fuel := by
        have := congrArg List.length hsplit
        rw [length_append, length_cons] at this
        omega
      rw [if_neg (cons_ne_nil _ _), drop_one, tail_cons,
        ih _ _ hlen (put_length (put_length ho)), put_put, put_put, ← hsplit]
      obtain ⟨g, hg⟩ := redactFrom_append line (newline :: after) .name
      rw [redact, redact, hg, redactFrom_newline]
      rfl

theorem filterPasswdHashes_eq (buf : Bytes) :
    filterPasswdHashes buf = (redact buf).take tmpMax :=
  filterLoop_eq buf.length buf [] le_rfl (Nat.zero_le _)

/-! ## Reading a resource -/

/-- What agentd's calls meet: the mounts and their filesystems, agentd's own task, the paths that
other filesystems serve with their bytes, and whether the disk can be read. -/
structure World where
  kernel : Fs.Kernel
  files : Fs.References.Files
  other : CStr → Option Bytes
  disk : Bool

/-- `sys_read` of what was opened; syscall.c:468-540 -/
def sysRead (w : World) (path : CStr) (n : UInt32) : Fs.References.Inode → Option Bytes
  | .fs found fsData =>
    (fsData <|> w.kernel.root).bind fun r =>
      Fs.fsIreadInst (fun _ => w.disk) (w.kernel.insts r) found.objIdx 0 n
  | .other => (w.other path).map fun bytes => bytes.take n.toNat

/-- The inode that a path is opened as. -/
def opened (w : World) (path : CStr) : Option Fs.References.Inode :=
  (Fs.References.sysOpen w.kernel w.files (w.other path).isSome path).map Prod.snd

/-- `sys_open` and one `sys_read`. -/
def openRead (w : World) (path : CStr) (n : UInt32) : Option (Option Bytes) :=
  (opened w path).map (sysRead w path n)

/-- `RES_READ_MAX` and `RES_POLL_BUF`, less one. -/
def resReadMax : UInt32 := 4095

/-- agentd.c:2888-2899; the copy is read as a C string. -/
def uriStripPrefix (uri keyPrefix : Bytes) : Option CStr :=
  if keyPrefix.isPrefixOf uri then some (cString ((uri.drop keyPrefix.length).take 127)) else none

def fileScheme : Bytes := chars ['f', 'i', 'l', 'e', ':', '/', '/']
def kvScheme : Bytes := chars ['k', 'v', ':', '/', '/']
def passwdPath : CStr := chars ['/', 'e', 't', 'c', '/', 'p', 'a', 's', 's', 'w', 'd']
def manifestPath : CStr :=
  chars ['/', 'e', 't', 'c', '/', 'a', 'g', 'e', 'n', 't', '.', 't', 'o', 'o', 'l', 's', '.', 'j',
    's', 'o', 'n']
def textPlain : Bytes := chars ['t', 'e', 'x', 't', '/', 'p', 'l', 'a', 'i', 'n']
def applicationJson : Bytes :=
  chars ['a', 'p', 'p', 'l', 'i', 'c', 'a', 't', 'i', 'o', 'n', '/', 'j', 's', 'o', 'n']

/-- The path that is opened for a URI, in one of the two schemes;
agentd.c:2921-2922, 2954-2966 -/
inductive Route
  | file (path : CStr)
  | kv (path : CStr)
deriving DecidableEq

def Route.path : Route → CStr
  | .file path => path
  | .kv path => path

/-- The namespace and the key behind `kv://`, as a path. -/
def kvRoute (rest : CStr) : Option Route :=
  let ns := rest.takeWhile fun c => c ≠ slash
  if rest.length ≤ ns.length ∨ ns = [] then none
  else (Kv.kvPath ns (rest.drop (ns.length + 1))).map .kv

def route (uri : Bytes) : Option Route :=
  if uri = [] then none
  else (uriStripPrefix uri fileScheme).elim ((uriStripPrefix uri kvScheme).bind kvRoute)
    fun path => some (.file path)

structure Content where
  text : Bytes
  mime : Bytes
  truncated : Bool
  deriving DecidableEq

/-- What is made of the bytes of a file; agentd.c:2927-2950 -/
def fileContent (path : CStr) (bytes : Bytes) : Content :=
  { text := if path = passwdPath then filterPasswdHashes bytes else bytes
    mime := if path = manifestPath then applicationJson else textPlain
    truncated := resReadMax.toNat ≤ bytes.length }

/-- agentd.c:2915-2970. A file that cannot be read is empty. -/
def readResourceByUri (w : World) (uri : Bytes) : Option Content :=
  (route uri).bind fun
    | .file path => (openRead w path resReadMax).map fun bytes => fileContent path (bytes.getD [])
    | .kv path => (openRead w path resReadMax).bind fun bytes =>
        bytes.map fun bytes => ⟨bytes, textPlain, false⟩

/-- The tree of the response; agentd.c:2986-3004 -/
def contentsTree (uri : Bytes) (c : Content) : Value :=
  .obj [(chars ['c', 'o', 'n', 't', 'e', 'n', 't', 's'], .arr [.obj
    ([(chars ['u', 'r', 'i'], .str uri),
      (chars ['m', 'i', 'm', 'e', 'T', 'y', 'p', 'e'], .str c.mime),
      (chars ['t', 'e', 'x', 't'], .str c.text)] ++
      if c.truncated then [(chars ['t', 'r', 'u', 'n', 'c', 'a', 't', 'e', 'd'], .bool true)]
      else [])])]

/-- agentd.c:2972-3008 -/
def handleResourcesRead (id : RequestId) (w : World) (uri : Bytes) : Bytes :=
  (readResourceByUri w uri).elim (respError id (-32602)) fun c => respond id (contentsTree uri c)

/-! ## Two worlds -/

/-- An instance holds a file of these bytes in a slot. -/
structure Holds (inst : Fs.FsInstance) (p : Nat) (c : Bytes) : Prop where
  initialized : inst.initialized = true
  live : p < inst.super.fileCount
  file : (inst.super.files p).type = .file
  stored : ∃ f : Fs.FileBytes, f.bytes = c ∧ (inst.super.files p).size = f.size ∧
    f.size.toNat + 511 < 2 ^ 32 ∧ Fs.StoredAt inst (inst.super.files p).startSector f

/-- The worlds differ in the file that `/etc/passwd` names, in slot `p` of the boot instance `r`:
the one has the bytes `c`, the other `c'`, and these differ in the second field of lines. -/
structure Twin (w w' : World) (r p : Nat) (c c' : Bytes) : Prop where
  root : w.kernel.root = some r
  root' : w'.kernel.root = some r
  mounts : w'.kernel.mounts = w.kernel.mounts
  insts : ∀ i, i ≠ r → w'.kernel.insts i = w.kernel.insts i
  files : w'.files = w.files
  other : w'.other = w.other
  disk : w'.disk = w.disk
  initialized : (w'.kernel.insts r).initialized = (w.kernel.insts r).initialized
  shape : Fs.SameShape (w.kernel.insts r).super (w'.kernel.insts r).super
  owner : ∀ i, ((w'.kernel.insts r).super.files i).uid = ((w.kernel.insts r).super.files i).uid ∧
    ((w'.kernel.insts r).super.files i).gid = ((w.kernel.insts r).super.files i).gid ∧
    ((w'.kernel.insts r).super.files i).mode = ((w.kernel.insts r).super.files i).mode
  reads : ∀ i n, i ≠ p → ∀ io, Fs.fsIreadInst io (w'.kernel.insts r) i 0 n =
    Fs.fsIreadInst io (w.kernel.insts r) i 0 n
  passwd : Fs.walk (w.kernel.insts r).super Fs.fsDirRoot none [] passwdPath = some p
  holds : Holds (w.kernel.insts r) p c
  holds' : Holds (w'.kernel.insts r) p c'
  redacted : redact c' = redact c

/-- The path opens slot `p` of the instance `r`. -/
def Opens (w : World) (r p : Nat) (path : CStr) : Prop :=
  ∃ found fsData, opened w path = some (.fs found fsData) ∧
    (fsData <|> w.kernel.root) = some r ∧ found.objIdx = p

/-- Whether the read is cut off is the same for both files. -/
def SameCut (c c' : Bytes) : Prop := resReadMax.toNat ≤ c.length ↔ resReadMax.toNat ≤ c'.length

/-- How many bytes of the redacted file are shown. -/
def shown (c : Bytes) : Nat := min tmpMax (redact (c.take resReadMax.toNat)).length

/-- What a reader by this route can see of the files is the same. -/
def Agree (c c' : Bytes) : Route → Prop
  | .file path =>
    SameCut c c' ∧
      if path = passwdPath then shown c = shown c'
      else c.take resReadMax.toNat = c'.take resReadMax.toNat
  | .kv _ => c.take resReadMax.toNat = c'.take resReadMax.toNat

/-- The URI does not open the file, the disk cannot be read, or the same is seen of both files. -/
def Hidden (w : World) (r p : Nat) (c c' : Bytes) (uri : Bytes) : Prop :=
  ∀ x, route uri = some x → Opens w r p x.path → w.disk = true → Agree c c' x

/-! ## The same path opens the same slot -/

variable {w w' : World} {r p : Nat} {c c' : Bytes}

theorem Twin.fsIopenInst_eq (h : Twin w w' r p c c') (i : Nat) (t : Fs.Task) (path : CStr)
    (fromRoot : Bool) : Fs.fsIopenInst (w'.kernel.insts i) t path fromRoot =
      Fs.fsIopenInst (w.kernel.insts i) t path fromRoot := by
  by_cases hi : i = r
  · subst hi
    unfold Fs.fsIopenInst
    rw [h.initialized]
    split
    · rfl
    cases path with
    | nil => rfl
    | cons b rest =>
      simp only [h.shape.walk]
  · rw [h.insts i hi]

theorem Twin.vfsOpen_eq (h : Twin w w' r p c c') (t : Fs.Task) (elsewhere : Bool) (path : CStr) :
    Fs.References.vfsOpen w'.kernel t elsewhere path =
      Fs.References.vfsOpen w.kernel t elsewhere path := by
  have hroot : ∀ fsData rel, Fs.References.rootfsOpen w'.kernel t fsData rel =
      Fs.References.rootfsOpen w.kernel t fsData rel := by
    intro fsData rel
    unfold Fs.References.rootfsOpen
    rw [h.root, h.root']
    split
    · rfl
    · cases fsData <;> simp only [h.fsIopenInst_eq]
  have hops : ∀ ops rel, Fs.References.opsOpen w'.kernel t elsewhere ops rel =
      Fs.References.opsOpen w.kernel t elsewhere ops rel := by
    intro ops rel
    cases ops with
    | advent fsData => exact hroot fsData rel
    | procfs => rfl
    | v9p => rfl
  unfold Fs.References.vfsOpen Fs.References.dispatch
  simp only [h.mounts, hops]

theorem Twin.readDenied_eq (h : Twin w w' r p c c') (t : Fs.Task) (ino : Fs.References.Inode) :
    Fs.References.readDenied w'.kernel t ino = Fs.References.readDenied w.kernel t ino := by
  cases ino with
  | other => rfl
  | fs found fsData =>
    unfold Fs.References.readDenied Fs.Kernel.fsCheckPerm
    rw [h.root, h.root']
    unfold Fs.fsCheckPerm
    obtain ⟨hu, hg, hm⟩ := h.owner found.objIdx
    dsimp only
    rw [h.initialized, h.shape.count, hu, hg, hm]

theorem Twin.opened_eq (h : Twin w w' r p c c') (path : CStr) : opened w' path = opened w path := by
  unfold opened Fs.References.sysOpen
  rw [h.files, h.other, h.vfsOpen_eq]
  simp only [h.readDenied_eq]

/-! ## What is read -/

theorem holds_read {inst : Fs.FsInstance} (h : Holds inst p c) :
    Fs.fsIreadInst (fun _ => true) inst p 0 resReadMax = some (c.take resReadMax.toNat) := by
  obtain ⟨f, rfl, hsize, hlt, hst⟩ := h.stored
  obtain ⟨h1, h2⟩ := @Fs.fsIreadInst_eq _ _ (fun _ => true) 0 resReadMax _
    h.initialized h.live h.file hsize hlt hst (by decide)
  obtain ⟨out, hout⟩ := isSome_iff_exists.mp (h2 fun _ => rfl)
  rw [hout, h1 out hout]
  rfl

theorem holds_unread {inst : Fs.FsInstance} (h : Holds inst p c) :
    Fs.fsIreadInst (fun _ => false) inst p 0 resReadMax = if c = [] then some [] else none := by
  obtain ⟨f, rfl, hsize, -, -⟩ := h.stored
  have hempty : f.bytes = [] ↔ f.size = 0 := by
    unfold Fs.FileBytes.bytes
    rw [map_eq_nil_iff, range_eq_nil]
    exact ⟨fun he => UInt32.toNat_inj.mp he, fun he => by rw [he]; rfl⟩
  have hge : ¬ p ≥ inst.super.fileCount := not_le.mpr h.live
  unfold Fs.fsIreadInst
  dsimp only
  rw [h.initialized, h.file, hsize, if_neg (by decide), if_neg hge, if_neg (by decide)]
  by_cases hz : f.size = 0
  · rw [if_pos (hempty.mpr hz), if_pos (by rw [hz]; exact UInt32.le_refl 0)]
  · have hpos : ¬ (0 : UInt32) ≥ f.size := by
      intro hle
      exact hz (UInt32.le_zero_iff.mp hle)
    rw [if_neg (fun he => hz (hempty.mp he)), if_neg hpos]
    have hn : (if 0 + resReadMax > f.size then f.size - 0 else resReadMax) ≠ 0 := by
      split
      · rw [UInt32.sub_zero]
        exact hz
      · decide
    generalize (if 0 + resReadMax > f.size then f.size - 0 else resReadMax) = n at hn ⊢
    obtain ⟨fuel, hfuel⟩ : ∃ fuel, n.toNat = fuel + 1 :=
      Nat.exists_eq_succ_of_ne_zero fun he => hn (UInt32.toNat_inj.mp he)
    rw [hfuel, Fs.readLoop, if_neg hn]
    rfl

theorem openRead_passwd {path : CStr} {n : UInt32} (h : Opens w r p path) :
    openRead w path n = some (Fs.fsIreadInst (fun _ => w.disk) (w.kernel.insts r) p 0 n) := by
  obtain ⟨found, fsData, ho, hr, rfl⟩ := h
  unfold openRead
  rw [ho]
  show some ((fsData <|> w.kernel.root).bind _) = _
  rw [hr]
  rfl

theorem Twin.openRead_eq (h : Twin w w' r p c c') {path : CStr} {n : UInt32}
    (hno : ¬Opens w r p path) : openRead w' path n = openRead w path n := by
  unfold openRead
  rw [h.opened_eq]
  cases ho : opened w path with
  | none => rfl
  | some ino =>
    refine congrArg some ?_
    cases ino with
    | other =>
      show (w'.other path).map _ = (w.other path).map _
      rw [h.other]
    | fs found fsData =>
      show (fsData <|> w'.kernel.root).bind _ = (fsData <|> w.kernel.root).bind _
      rw [h.root', ← h.root]
      cases hi : fsData <|> w.kernel.root with
      | none => rfl
      | some i =>
        show Fs.fsIreadInst (fun _ => w'.disk) (w'.kernel.insts i) found.objIdx 0 n =
          Fs.fsIreadInst (fun _ => w.disk) (w.kernel.insts i) found.objIdx 0 n
        rw [h.disk]
        by_cases hir : i = r
        · subst hir
          exact h.reads found.objIdx n (fun he => hno ⟨found, fsData, ho, hi, he⟩) _
        · rw [h.insts i hir]

theorem redact_eq_nil {file : Bytes} : redact file = [] ↔ file = [] := by
  cases file with
  | nil => exact ⟨fun _ => rfl, fun _ => rfl⟩
  | cons b rest =>
    refine ⟨fun h => ?_, nofun⟩
    unfold redact redactFrom at h
    split at h
    · cases h
    · split at h <;> cases h

theorem take_eq_take_iff {a b whole : Bytes} {m : Nat} (ha : a <+: whole) (hb : b <+: whole) :
    a.take m = b.take m ↔ min m a.length = min m b.length := by
  constructor
  · intro h
    have := congrArg List.length h
    rwa [length_take, length_take] at this
  · intro h
    rw [prefix_iff_eq_take.mp ha, prefix_iff_eq_take.mp hb, take_take,
      take_take, h]

theorem Twin.symm_redacted (h : Twin w w' r p c c') :
    (redact (c.take resReadMax.toNat)).take tmpMax =
        (redact (c'.take resReadMax.toNat)).take tmpMax ↔
      shown c = shown c' :=
  take_eq_take_iff (redact_take _ c) (h.redacted ▸ redact_take _ c')

theorem Twin.fileContent_eq (h : Twin w w' r p c c') (path : CStr) :
    fileContent path (c'.take resReadMax.toNat) = fileContent path (c.take resReadMax.toNat) ↔
      Agree c c' (.file path) := by
  have hcut : decide (resReadMax.toNat ≤ (c'.take resReadMax.toNat).length) =
      decide (resReadMax.toNat ≤ (c.take resReadMax.toNat).length) ↔ SameCut c c' := by
    rw [decide_eq_decide, length_take, length_take]
    unfold SameCut
    omega
  have hagree : Agree c c' (.file path) ↔ SameCut c c' ∧
      if path = passwdPath then shown c = shown c'
      else c.take resReadMax.toNat = c'.take resReadMax.toNat := Iff.rfl
  unfold fileContent
  rw [hagree, Content.mk.injEq, hcut]
  by_cases hp : path = passwdPath
  · rw [if_pos hp, if_pos hp, if_pos hp, filterPasswdHashes_eq, filterPasswdHashes_eq,
      ← h.symm_redacted]
    exact ⟨fun hx => ⟨hx.2.2, hx.1.symm⟩, fun hx => ⟨hx.2.symm, rfl, hx.1⟩⟩
  · rw [if_neg hp, if_neg hp, if_neg hp]
    exact ⟨fun hx => ⟨hx.2.2, hx.1.symm⟩, fun hx => ⟨hx.2.symm, rfl, hx.1⟩⟩

theorem Twin.read_eq_iff (h : Twin w w' r p c c') (uri : Bytes) :
    readResourceByUri w' uri = readResourceByUri w uri ↔ Hidden w r p c c' uri := by
  unfold readResourceByUri Hidden
  cases hx : route uri with
  | none => exact ⟨fun _ x hx => (nomatch hx), fun _ => rfl⟩
  | some x =>
    have hall : (∀ y, some x = some y → Opens w r p y.path → w.disk = true → Agree c c' y) ↔
        (Opens w r p x.path → w.disk = true → Agree c c' x) :=
      ⟨fun ha => ha x rfl, fun ha y hy => Option.some.inj hy ▸ ha⟩
    rw [hall]
    by_cases ho : Opens w r p x.path
    · have ho' : Opens w' r p x.path := by
        obtain ⟨found, fsData, h1, h2, h3⟩ := ho
        refine ⟨found, fsData, (h.opened_eq x.path).trans h1, ?_, h3⟩
        rw [h.root']
        rwa [h.root] at h2
      have hread := openRead_passwd (n := resReadMax) ho
      have hread' := openRead_passwd (n := resReadMax) ho'
      rw [h.disk] at hread'
      cases hd : w.disk with
      | true =>
        rw [hd, holds_read h.holds] at hread
        rw [hd, holds_read h.holds'] at hread'
        cases x with
        | file path =>
          replace hread : openRead w path resReadMax = _ := hread
          replace hread' : openRead w' path resReadMax = _ := hread'
          simp only [bind_some, hread, hread', map_some, getD_some,
            Option.some.injEq, h.fileContent_eq, ho, true_implies]
        | kv path =>
          replace hread : openRead w path resReadMax = _ := hread
          replace hread' : openRead w' path resReadMax = _ := hread'
          simp only [bind_some, hread, hread', map_some, Option.some.injEq,
            Content.mk.injEq, and_true, ho, true_implies, Agree]
          exact eq_comm
      | false =>
        have hsame : (if c' = [] then some ([] : Bytes) else none) =
            if c = [] then some [] else none := by
          have hiff : c' = [] ↔ c = [] := by
            rw [← redact_eq_nil, h.redacted, redact_eq_nil]
          by_cases hc : c = []
          · rw [if_pos hc, if_pos (hiff.mpr hc)]
          · rw [if_neg hc, if_neg fun he => hc (hiff.mp he)]
        rw [hd, holds_unread h.holds] at hread
        rw [hd, holds_unread h.holds', hsame] at hread'
        cases x with
        | file path =>
          replace hread : openRead w path resReadMax = _ := hread
          replace hread' : openRead w' path resReadMax = _ := hread'
          simp only [bind_some, hread, hread', Bool.false_eq_true, false_implies,
            implies_true]
        | kv path =>
          replace hread : openRead w path resReadMax = _ := hread
          replace hread' : openRead w' path resReadMax = _ := hread'
          simp only [bind_some, hread, hread', Bool.false_eq_true, false_implies,
            implies_true]
    · have he := h.openRead_eq (n := resReadMax) ho
      cases x with
      | file path =>
        replace he : openRead w' path resReadMax = openRead w path resReadMax := he
        simp only [bind_some, he, ho, false_implies]
      | kv path =>
        replace he : openRead w' path resReadMax = openRead w path resReadMax := he
        simp only [bind_some, he, ho, false_implies]

/-! ## Runs -/

/-- A call of a client, a slot's turn of the poll, or the end of a connection. -/
inductive Request
  | read (id : RequestId) (uri : Bytes)
  | subscribe (fd : Nat) (uri : Bytes)
  | unsubscribe (fd : Nat) (uri : Bytes)
  | poll (i : Nat)
  | close (fd : Nat)

/-- A response line, and a notification with the descriptors it goes to. -/
inductive Output
  | response (line : Bytes)
  | subscribed (fd : Nat) (ok : Bool)
  | updated (fds : List Nat) (uri : Bytes)

def readText (w : World) (uri : Bytes) : Option Bytes := (readResourceByUri w uri).map Content.text

def serve (w : World) (r : Resources) : Request → Resources × List Output
  | .read id uri => (r, [.response (handleResourcesRead id w uri)])
  | .subscribe fd uri =>
    ((handleResourcesSubscribe r fd uri (readText w uri)).2,
      [.subscribed fd (handleResourcesSubscribe r fd uri (readText w uri)).1])
  | .unsubscribe fd uri =>
    ((handleResourcesUnsubscribe r fd uri).2,
      [.subscribed fd (handleResourcesUnsubscribe r fd uri).1])
  | .poll i =>
    ((pollResource r i (readText w (r.uris i).uri)).2,
      if (pollResource r i (readText w (r.uris i).uri)).1 then
        [.updated (resAudience r i) (r.uris i).uri]
      else [])
  | .close fd => (dropFromResources r fd, [])

def Request.uri (r : Resources) : Request → Option Bytes
  | .read _ uri => some uri
  | .subscribe _ uri => some uri
  | .poll i => if (r.uris i).inUse then some (r.uris i).uri else none
  | .unsubscribe _ _ => none
  | .close _ => none

/-- Two runs at once, each with its tables and what it has sent. -/
structure Pair where
  left : Resources
  right : Resources
  leftOut : List Output
  rightOut : List Output

/-- One request, in the worlds as they are then. -/
structure Turn where
  w : World
  w' : World
  request : Request

/-- The filesystems are the same, or differ in password hashes. -/
def Apart (w w' : World) : Prop := w' = w ∨ ∃ r p c c', Twin w w' r p c c'

def pairLTS : LTS Pair Turn where
  init s := s.left = s.right ∧ s.leftOut = s.rightOut
  step s t s' := Apart t.w t.w' ∧ s' =
    { left := (serve t.w s.left t.request).1
      right := (serve t.w' s.right t.request).1
      leftOut := s.leftOut ++ (serve t.w s.left t.request).2
      rightOut := s.rightOut ++ (serve t.w' s.right t.request).2 }

def ReadsHidden (s : Pair) (t : Turn) : Prop :=
  ∀ r p c c', Twin t.w t.w' r p c c' → ∀ uri ∈ t.request.uri s.left, Hidden t.w r p c c' uri

theorem serve_congr {w w' : World} {r : Resources} {q : Request}
    (h : ∀ uri ∈ q.uri r, readResourceByUri w' uri = readResourceByUri w uri) :
    serve w' r q = serve w r q := by
  cases q with
  | read id uri => simp only [serve, handleResourcesRead, h uri rfl]
  | subscribe fd uri => simp only [serve, readText, h uri rfl]
  | unsubscribe fd uri => rfl
  | poll i =>
    by_cases hu : (r.uris i).inUse = true
    · have ht : readText w' (r.uris i).uri = readText w (r.uris i).uri := by
        unfold readText
        rw [h (r.uris i).uri (if_pos hu)]
      unfold serve
      dsimp only
      rw [ht]
    · have hfree : (r.uris i).inUse = false := Bool.eq_false_iff.mpr hu
      simp only [serve, pollResource, hfree, if_true]
  | close fd => rfl

theorem pair_step (s : Pair) (t : Turn) (s' : Pair) (hi : s.right = s.left ∧ s.rightOut = s.leftOut)
    (h : (pairLTS.restrict ReadsHidden).step s t s') :
    s'.right = s'.left ∧ s'.rightOut = s'.leftOut := by
  obtain ⟨hidden, hapart, rfl⟩ := h
  have hserve : serve t.w' s.left t.request = serve t.w s.left t.request := by
    rcases hapart with he | ⟨r, p, c, c', htwin⟩
    · rw [he]
    · exact serve_congr fun uri hu => (htwin.read_eq_iff uri).mpr (hidden r p c c' htwin uri hu)
  rw [hi.1, hi.2, hserve]
  exact ⟨rfl, rfl⟩

theorem pair_inductive :
    (pairLTS.restrict ReadsHidden).Inductive fun s =>
      s.right = s.left ∧ s.rightOut = s.leftOut where
  init := fun _ h => ⟨h.1.symm, h.2.symm⟩
  step := pair_step

/-! ## Main result -/

/-- In worlds that differ in the hashes of `/etc/passwd` only, a URI is read alike
exactly when the difference is hidden from it; and in all pairs of runs whose reads are hidden so,
the responses and the notifications are the same. -/
theorem hashes_are_hidden {w w' : World} {r p : Nat} {c c' : Bytes} (h : Twin w w' r p c c')
    (uri : Bytes) :
    (readResourceByUri w' uri = readResourceByUri w uri ↔ Hidden w r p c c' uri) ∧
      ∀ s, (pairLTS.restrict ReadsHidden).Reachable s → s.rightOut = s.leftOut :=
  ⟨h.read_eq_iff uri, fun s hs => (pair_inductive.reachable s hs).2⟩

/-- A directory `etc` and in it a file `passwd`. -/
def passwdEntries (size : UInt32) (i : Nat) : Fs.FsEntry :=
  if i = 0 then
    { Fs.blankEntry with
      name := [101, 116, 99] ++ List.replicate 13 0, type := .dir, parentDir := Fs.fsDirRoot }
  else
    { Fs.blankEntry with
      name := [112, 97, 115, 115, 119, 100] ++ List.replicate 10 0, type := .file, parentDir := 0
      startSector := 17, size := size }

def passwdFile (c : Bytes) : Fs.FileBytes := ⟨fun k => c.getD k 0, UInt32.ofNat c.length⟩

def passwdSector (c : Bytes) : Fs.Sector := Fs.dataSector (passwdFile c).data (passwdFile c).size 0

theorem two_le_fsMaxFiles : 2 ≤ Fs.fsMaxFiles := by decide

def diskWith (c : Bytes) : Fs.FsInstance where
  initialized := true
  baseLba := 0
  nSectors := 32
  super := ⟨2, passwdEntries (UInt32.ofNat c.length), two_le_fsMaxFiles⟩
  bitmap := fun _ => false
  disk := fun _ => passwdSector c

/-- The boot disk alone is mounted. -/
def worldWith (c : Bytes) : World where
  kernel := { Fs.demoKernel with insts := fun i => if i = 0 then diskWith c else Fs.demoInst }
  files := Fs.References.demoFiles
  other := fun _ => none
  disk := true

def fileA : Bytes := [114, 58, 97, 97, 58, 48, 10]
def fileB : Bytes := [114, 58, 98, 58, 48, 10]

theorem diskWith_disk (c : Bytes) (lba : UInt32) : (diskWith c).disk lba = passwdSector c := by
  rw [diskWith]

theorem diskWith_holds {c : Bytes} (h : c.length = 7 ∨ c.length = 6) : Holds (diskWith c) 1 c where
  initialized := rfl
  live := by
    show 1 < 2
    decide
  file := rfl
  stored := by
    have hsize : (UInt32.ofNat c.length).toNat = c.length := by
      rcases h with h | h <;> rw [h] <;> rfl
    refine ⟨passwdFile c, ?_, rfl, ?_, fun k hk => ?_⟩
    · unfold Fs.FileBytes.bytes
      rw [show (passwdFile c).size.toNat = c.length from hsize]
      refine ext_getElem (by simp) fun i h1 h2 => ?_
      rw [getElem_map, getElem_range]
      unfold passwdFile
      dsimp only
      rw [getD_eq_getElem?_getD, List.getElem?_eq_getElem h2, getD_some]
    · rw [show (passwdFile c).size.toNat = c.length from hsize]
      omega
    · have hone : Fs.sectorsOf (UInt32.ofNat c.length) = 1 := by
        rcases h with h | h <;> rw [h] <;> rfl
      have hk0 : k = 0 := by
        have hk : k < Fs.sectorsOf (UInt32.ofNat c.length) := hk
        omega
      rw [hk0, diskWith_disk, passwdSector]

theorem diskWith_other {c : Bytes} {i : Nat} {n : UInt32} {io : Nat → Bool} (h : i ≠ 1) :
    Fs.fsIreadInst io (diskWith c) i 0 n = none := by
  by_cases h2 : 2 ≤ i
  · unfold Fs.fsIreadInst
    split
    · rfl
    · exact if_pos h2
  · obtain rfl : i = 0 := by omega
    rfl

theorem passwdEntries_same (a b : UInt32) (i : Nat) :
    (passwdEntries a i).name = (passwdEntries b i).name ∧
      (passwdEntries a i).type = (passwdEntries b i).type ∧
      (passwdEntries a i).parentDir = (passwdEntries b i).parentDir ∧
      (passwdEntries a i).uid = (passwdEntries b i).uid ∧
      (passwdEntries a i).gid = (passwdEntries b i).gid ∧
      (passwdEntries a i).mode = (passwdEntries b i).mode := by
  unfold passwdEntries
  split <;> exact ⟨rfl, rfl, rfl, rfl, rfl, rfl⟩

theorem worlds_twin : Twin (worldWith fileA) (worldWith fileB) 0 1 fileA fileB :=
  have hsame := passwdEntries_same 6 7
  { root := rfl
    root' := rfl
    mounts := rfl
    insts := fun i hi => (if_neg hi).trans (if_neg hi).symm
    files := rfl
    other := rfl
    disk := rfl
    initialized := rfl
    shape := ⟨rfl, fun i => (hsame i).2.1, fun i => (hsame i).2.2.1, fun i => (hsame i).1⟩
    owner := fun i => (hsame i).2.2.2
    reads := fun i n hi io => (diskWith_other hi).trans (diskWith_other hi).symm
    passwd := by decide +kernel
    holds := diskWith_holds (.inl rfl)
    holds' := diskWith_holds (.inr rfl)
    redacted := by decide }

def plainUri : Bytes := fileScheme ++ passwdPath

def doubledUri : Bytes :=
  fileScheme ++ chars ['/', 'e', 't', 'c', '/', '/', 'p', 'a', 's', 's', 'w', 'd']

def noRows : Resources := ⟨fun _ => ⟨false, [], 0⟩, fun _ => ⟨false, 0, 0⟩⟩

theorem Holds.length {inst : Fs.FsInstance} (h : Holds inst p c) :
    c.length = (inst.super.files p).size.toNat := by
  obtain ⟨f, rfl, hsize, -⟩ := h.stored
  unfold Fs.FileBytes.bytes
  rw [length_map, length_range, hsize]

theorem short_hidden (h : Twin w w' r p c c')
    (hc : ((w.kernel.insts r).super.files p).size.toNat < resReadMax.toNat)
    (hc' : ((w'.kernel.insts r).super.files p).size.toNat < resReadMax.toNat) :
    Hidden w r p c c' plainUri := by
  intro x hx _ _
  rw [← h.holds.length] at hc
  rw [← h.holds'.length] at hc'
  have hroute : route plainUri = some (.file passwdPath) := by decide +kernel
  rw [hroute] at hx
  cases hx
  refine ⟨by unfold SameCut; omega, ?_⟩
  rw [if_pos rfl]
  unfold shown
  rw [take_of_length_le hc.le, take_of_length_le hc'.le, h.redacted]

theorem plain_hidden {r p : Nat} {c c' : Bytes}
    (h : Twin (worldWith fileA) (worldWith fileB) r p c c') :
    Hidden (worldWith fileA) r p c c' plainUri := by
  have hr : some 0 = some r := h.root
  cases hr
  have hp : some 1 = some p := worlds_twin.passwd.symm.trans h.passwd
  cases hp
  exact short_hidden h (by decide) (by decide)

def plainTurn : Turn := ⟨worldWith fileA, worldWith fileB, .subscribe 7 plainUri⟩

def plainPair : Pair where
  left := (serve (worldWith fileA) noRows (.subscribe 7 plainUri)).1
  right := (serve (worldWith fileB) noRows (.subscribe 7 plainUri)).1
  leftOut := (serve (worldWith fileA) noRows (.subscribe 7 plainUri)).2
  rightOut := (serve (worldWith fileB) noRows (.subscribe 7 plainUri)).2

theorem plain_reachable : (pairLTS.restrict ReadsHidden).Reachable plainPair := by
  have hinit : (pairLTS.restrict ReadsHidden).Reachable ⟨noRows, noRows, [], []⟩ :=
    ⟨_, [], ⟨rfl, rfl⟩, .nil _⟩
  refine hinit.step (l := plainTurn) ⟨?_, .inr ⟨0, 1, fileA, fileB, worlds_twin⟩, rfl⟩
  intro r p c c' h uri hu
  have hu : some plainUri = some uri := hu
  cases hu
  exact plain_hidden h

/-- The path spelled as the filter has it, read once and subscribed to. -/
theorem plain_spelling_hidden :
    readResourceByUri (worldWith fileB) plainUri = readResourceByUri (worldWith fileA) plainUri ∧
      plainPair.rightOut = plainPair.leftOut :=
  ⟨(hashes_are_hidden worlds_twin plainUri).1.mpr (plain_hidden worlds_twin),
    (hashes_are_hidden worlds_twin plainUri).2 plainPair plain_reachable⟩

/-- One more slash, and the hash is in the response. -/
theorem other_spelling_leaks :
    ¬ ∀ (w w' : World) (r p : Nat) (c c' : Bytes), Twin w w' r p c c' → ∀ uri,
      readResourceByUri w' uri = readResourceByUri w uri := by
  intro h
  have hread := h _ _ _ _ _ _ worlds_twin doubledUri
  have hA : readResourceByUri (worldWith fileA) doubledUri = some ⟨fileA, textPlain, false⟩ := by
    decide +kernel
  have hB : readResourceByUri (worldWith fileB) doubledUri = some ⟨fileB, textPlain, false⟩ := by
    decide +kernel
  rw [hA, hB] at hread
  cases hread

end AdventOS.Agentd.Redaction
