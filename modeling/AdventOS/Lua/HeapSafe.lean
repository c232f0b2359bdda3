import AdventOS.Lua.Heap

/-!
# What the interpreter holds

Every operation leads from what is held to what is held or new (`Evolves`), and touches
only what is held. So an object that nothing holds stays so, and the collector may free it.

* `effect_evolves`: what is held behind an operation was held before it or is new;
* `touched_held`: an operation touches what is held.
-/
namespace AdventOS.Lua.Heap
open List

variable {B W : Type}

namespace Core

variable (c : Core B W)

/-- What the tree, the C locals, and the roots of the collector name. -/
def held : List Nat := c.ast ++ c.temps.flatMap Val.refs ++ c.roots

/-- Held, directly or through other objects. -/
def Ref (i : Nat) : Prop := ∃ r ∈ c.held, Reaches c.refsAt r i

/-- A value that names what is held. -/
def RefV (v : Val B) : Prop := ∀ i ∈ v.refs, c.Ref i

end Core

variable {c c' c'' : Core B W}

theorem Core.Ref.of_held {i : Nat} (h : i ∈ c.held) : c.Ref i := ⟨i, h, .refl⟩

theorem Core.Ref.tail {i j : Nat} (h : c.Ref i) (hj : j ∈ c.refsAt i) : c.Ref j := by
  obtain ⟨r, hr, hp⟩ := h
  exact ⟨r, hr, hp.tail hj⟩

theorem Core.Ref.induct {P : Nat → Prop} (hbase : ∀ i ∈ c.held, P i)
    (hstep : ∀ i, P i → ∀ j ∈ c.refsAt i, P j) {i : Nat} (h : c.Ref i) : P i := by
  obtain ⟨r, hr, hp⟩ := h
  induction hp with
  | refl => exact hbase r hr
  | tail _ hz ih => exact hstep _ ih _ hz

theorem mem_held {i : Nat} : i ∈ c.held ↔ i ∈ c.ast ∨ (∃ v ∈ c.temps, i ∈ v.refs) ∨
    i ∈ c.roots := by
  unfold Core.held
  rw [mem_append, mem_append, mem_flatMap, or_assoc]

theorem mem_roots {i : Nat} : i ∈ c.roots ↔ i = 0 ∨ (∃ p ∈ c.envs, i ∈ p.2.refs) ∨
    c.lastError = some i := by
  unfold Core.roots
  rw [cons_append, mem_cons, mem_append, mem_flatMap, Option.mem_toList]

/-! ## Values that are held -/

theorem refV_nil : c.RefV .nil := fun _ h => absurd h not_mem_nil

theorem refV_imm (i : Imm B) : c.RefV i.val := by
  cases i <;> exact fun _ h => absurd h not_mem_nil

theorem refV_of_mem {v : Val B} (h : v ∈ c.temps) : c.RefV v := fun _ hi =>
  .of_held (mem_held.2 (.inr (.inl ⟨v, h, hi⟩)))

theorem refV_getD {vs : List (Val B)} (h : ∀ v ∈ vs, c.RefV v) (i : Nat) :
    c.RefV (vs.getD i .nil) := by
  rw [getD_eq_getElem?_getD]
  cases hi : vs[i]? with
  | none => exact refV_nil
  | some v => exact h v (mem_of_getElem? hi)

theorem refV_temp (i : Nat) : c.RefV (c.temp i) := refV_getD (fun _ h => refV_of_mem h) i

theorem ref_globals : c.Ref 0 := .of_held (mem_held.2 (.inr (.inr (mem_roots.2 (.inl rfl)))))

theorem ref_lastError {i : Nat} (h : c.lastError = some i) : c.Ref i :=
  .of_held (mem_held.2 (.inr (.inr (mem_roots.2 (.inr (.inr h))))))

theorem ref_ast {i x : Nat} (h : c.ast[x]? = some i) : c.Ref i :=
  .of_held (mem_held.2 (.inl (mem_of_getElem? h)))

theorem ref_env {p : Nat × Env B} (hp : p ∈ c.envs) {i : Nat} (h : i ∈ p.2.refs) : c.Ref i :=
  .of_held (mem_held.2 (.inr (.inr (mem_roots.2 (.inr (.inl ⟨p, hp, h⟩))))))

theorem ref_envOf {e i : Nat} (h : i ∈ (c.envOf e).refs) : c.Ref i := by
  unfold Core.envOf at h
  cases hf : c.envs.find? fun p => p.1 = e with
  | none =>
    rw [hf] at h
    exact absurd h not_mem_nil
  | some p =>
    rw [hf] at h
    exact ref_env (mem_of_find?_eq_some hf) h

theorem mem_env_refs {e : Env B} {i : Nat} :
    i ∈ e.refs ↔ e.host = some i ∨ ∃ p ∈ e.locals, i = p.1 ∨ i ∈ p.2.refs := by
  unfold Env.refs slotRefs
  rw [mem_append, Option.mem_toList, mem_flatMap]
  simp only [mem_cons]

theorem ref_local {e i : Nat} {p : Nat × Val B} (hp : p ∈ (c.envOf e).locals)
    (h : i = p.1 ∨ i ∈ p.2.refs) : c.Ref i :=
  ref_envOf (mem_env_refs.2 (.inr ⟨p, hp, h⟩))

theorem refV_local (e j : Nat) :
    c.RefV (((c.envOf e).locals[j]?).elim .nil Prod.snd) := by
  cases h : (c.envOf e).locals[j]? with
  | none => exact refV_nil
  | some p => exact fun i hi => ref_local (mem_of_getElem? h) (.inr hi)

theorem ref_host {e f : Nat} (h : (c.envOf e).host = some f) : c.Ref f :=
  ref_envOf (mem_env_refs.2 (.inl h))

/-! ## Objects that are held -/

theorem refsAt_of_obj {i : Nat} {o : Obj B} (h : (c.objs[i]?).map Cell.obj = some o) :
    c.refsAt i = o.refs := by
  unfold Core.refsAt
  obtain ⟨x, hx, rfl⟩ := Option.map_eq_some_iff.1 h
  rw [hx]
  rfl

theorem mem_kvOf {t i : Nat} {p : Val B × Val B} (hp : p ∈ c.kvOf t)
    (h : i ∈ p.1.refs ∨ i ∈ p.2.refs) : i ∈ c.refsAt t := by
  unfold Core.kvOf at hp
  split at hp
  · rename_i kv hkv
    rw [refsAt_of_obj hkv]
    exact mem_flatMap.2 ⟨p, hp, mem_append.2 h⟩
  · exact absurd hp not_mem_nil

theorem mem_upvalsOf {f i : Nat} {p : Nat × Val B} (hp : p ∈ c.upvalsOf f)
    (h : i = p.1 ∨ i ∈ p.2.refs) : i ∈ c.refsAt f := by
  unfold Core.upvalsOf at hp
  split at hp
  · rename_i ps body up hup
    rw [refsAt_of_obj hup]
    exact mem_flatMap.2 ⟨p, hp, mem_cons.2 h⟩
  · exact absurd hp not_mem_nil

theorem refV_upval {e : Nat} {x : Bytes} {v : Val B}
    (h : upvalFind c (c.envOf e) x = some v) : c.RefV v := by
  obtain ⟨f, hf, h⟩ := Option.bind_eq_some_iff.1 h
  obtain ⟨p, hp, rfl⟩ := Option.map_eq_some_iff.1 h
  exact fun i hi => (ref_host hf).tail (mem_upvalsOf (mem_of_find?_eq_some hp) (.inr hi))

theorem refV_tableGet [DecidableEq B] {t : Nat} (ht : c.Ref t) (k : Val B) :
    c.RefV (tableGet c t k) := by
  unfold tableGet
  cases h : (findKey c (c.kvOf t) k).bind fun i => (c.kvOf t)[i]? with
  | none => exact refV_nil
  | some p =>
    obtain ⟨i, _, hi⟩ := Option.bind_eq_some_iff.1 h
    exact fun j hj => ht.tail (mem_kvOf (mem_of_getElem? hi) (.inr hj))

theorem refV_entry {v : Val B} (hv : c.RefV v) {p : Val B × Val B} (hp : p ∈ entriesOf c v) :
    c.RefV p.1 ∧ c.RefV p.2 := by
  cases v with
  | table t =>
    have ht : c.Ref t := hv t (mem_singleton.2 rfl)
    exact ⟨fun i hi => ht.tail (mem_kvOf hp (.inl hi)),
      fun i hi => ht.tail (mem_kvOf hp (.inr hi))⟩
  | nil => exact absurd hp not_mem_nil
  | bool b => exact absurd hp not_mem_nil
  | num n => exact absurd hp not_mem_nil
  | str i => exact absurd hp not_mem_nil
  | fn i => exact absurd hp not_mem_nil
  | builtin b => exact absurd hp not_mem_nil

/-! ## Moves -/

/-- An object that is on no list is a string. -/
def WellTracked (c : Core B W) : Prop :=
  ∀ x ∈ c.objs, x.tracked = false → ∃ s, x.obj = .str s

/-- What is held in `c'` was held in `c` or is new. -/
structure Evolves (c c' : Core B W) : Prop where
  len : c.objs.length ≤ c'.objs.length
  ref : ∀ i, c'.Ref i → c.Ref i ∨ (c.objs.length ≤ i ∧ i < c'.objs.length)
  tracked : WellTracked c → WellTracked c'

theorem Evolves.refl (c : Core B W) : Evolves c c := ⟨Nat.le_refl _, fun _ h => .inl h, id⟩

theorem Evolves.trans (h : Evolves c c') (h' : Evolves c' c'') : Evolves c c'' := by
  refine ⟨Nat.le_trans h.len h'.len, fun i hi => ?_, fun ht => h'.tracked (h.tracked ht)⟩
  have := h'.len
  have := h.len
  obtain hi | ⟨h1, h2⟩ := h'.ref i hi
  · obtain hi | ⟨h1, h2⟩ := h.ref i hi
    · exact .inl hi
    · exact .inr ⟨h1, by omega⟩
  · exact .inr ⟨by omega, h2⟩

theorem Evolves.of_held (ho : c'.objs = c.objs) (h : ∀ i ∈ c'.held, c.Ref i) : Evolves c c' := by
  have hrefs : c'.refsAt = c.refsAt := by
    funext i
    unfold Core.refsAt
    rw [ho]
  refine ⟨by rw [ho], fun i hi => .inl (hi.induct h fun j hj k hk => ?_), fun ht => ?_⟩
  · rw [hrefs] at hk
    exact hj.tail hk
  · unfold WellTracked
    rw [ho]
    exact ht

theorem Evolves.temps (ts : List (Val B)) (h : ∀ v ∈ ts, c.RefV v) :
    Evolves c { c with temps := ts } := by
  refine .of_held rfl fun i hi => ?_
  obtain hi | ⟨v, hv, hi⟩ | hi := mem_held.1 hi
  · exact .of_held (mem_held.2 (.inl hi))
  · exact h v hv i hi
  · exact .of_held (mem_held.2 (.inr (.inr hi)))

theorem Evolves.push {v : Val B} (h : c.RefV v) : Evolves c (c.push v) := by
  refine .temps _ fun u hu => ?_
  obtain rfl | hu := mem_cons.1 hu
  · exact h
  · exact refV_of_mem hu

theorem Evolves.slide (k n : Nat) : Evolves c (c.slide k n) := by
  refine .temps _ fun u hu => ?_
  obtain hu | hu := mem_append.1 hu
  · exact refV_of_mem (mem_of_mem_take hu)
  · exact refV_of_mem (mem_of_mem_drop hu)

theorem Evolves.envs (es : List (Nat × Env B)) (n : Nat)
    (h : ∀ p ∈ es, ∀ i ∈ p.2.refs, c.Ref i) :
    Evolves c { c with envs := es, nextEnv := n } := by
  refine .of_held rfl fun i hi => ?_
  obtain hi | ⟨v, hv, hi⟩ | hi := mem_held.1 hi
  · exact .of_held (mem_held.2 (.inl hi))
  · exact .of_held (c := c) (mem_held.2 (.inr (.inl ⟨v, hv, hi⟩)))
  · obtain rfl | ⟨p, hp, hi⟩ | hi := mem_roots.1 hi
    · exact ref_globals
    · exact h p hp i hi
    · exact ref_lastError hi

theorem Evolves.setEnv {e : Nat} {f : Env B → Env B}
    (h : ∀ env : Env B, (∀ i ∈ env.refs, c.Ref i) → ∀ i ∈ (f env).refs, c.Ref i) :
    Evolves c (c.setEnv e f) := by
  refine .envs _ _ fun p hp i hi => ?_
  obtain ⟨q, hq, rfl⟩ := mem_map.1 hp
  split at hi
  · exact h q.2 (fun j hj => ref_env hq hj) i hi
  · exact ref_env hq hi

theorem Evolves.grow {x : Cell B} (ho : c'.objs = c.objs ++ [x])
    (hh : ∀ i ∈ c'.held, c.Ref i ∨ i = c.objs.length) (hx : ∀ i ∈ x.obj.refs, c.Ref i)
    (ht : x.tracked = false → ∃ s, x.obj = .str s) : Evolves c c' := by
  have hlen : c'.objs.length = c.objs.length + 1 := by
    rw [ho, length_append, length_singleton]
  refine ⟨by omega, fun i hi => ?_, fun hw y hy hf => ?_⟩
  · have hgood : c.Ref i ∨ i = c.objs.length := by
      refine hi.induct (P := fun i => c.Ref i ∨ i = c.objs.length) hh fun j hj k hk => .inl ?_
      unfold Core.refsAt at hk
      rw [ho] at hk
      by_cases hlt : j < c.objs.length
      · rw [List.getElem?_append_left hlt] at hk
        exact (hj.resolve_right (by omega)).tail hk
      · rw [List.getElem?_append_right (by omega)] at hk
        cases hm : j - c.objs.length with
        | zero =>
          rw [hm] at hk
          exact hx k hk
        | succ m =>
          rw [hm] at hk
          exact absurd hk not_mem_nil
    refine hgood.imp_right fun h => ?_
    omega
  · rw [ho] at hy
    obtain hy | hy := mem_append.1 hy
    · exact hw y hy hf
    · obtain rfl := mem_singleton.1 hy
      exact ht hf

theorem Evolves.alloc {x : Cell B} {v : Val B} (hv : ∀ i ∈ v.refs, i = c.objs.length)
    (hx : ∀ i ∈ x.obj.refs, c.Ref i) (ht : x.tracked = false → ∃ s, x.obj = .str s) :
    Evolves c { c with objs := c.objs ++ [x], temps := v :: c.temps } := by
  refine .grow rfl (fun i hi => ?_) hx ht
  obtain ha | ⟨u, hu, hiu⟩ | hr := mem_held.1 hi
  · exact .inl (.of_held (mem_held.2 (.inl ha)))
  · obtain rfl | hu := mem_cons.1 hu
    · exact .inr (hv i hiu)
    · exact .inl (.of_held (mem_held.2 (.inr (.inl ⟨u, hu, hiu⟩))))
  · exact .inl (.of_held (mem_held.2 (.inr (.inr hr))))

theorem Evolves.allocStr (s : Bytes) (tr : Bool) : Evolves c (c.allocStr s tr) :=
  .alloc (fun _ hi => mem_singleton.1 hi) (fun _ hi => absurd hi not_mem_nil)
    fun _ => ⟨s, rfl⟩

theorem Evolves.allocToken (s : Bytes) : Evolves c (c.allocToken s) := by
  refine .grow rfl (fun i hi => ?_) (fun _ hi => absurd hi not_mem_nil) fun _ => ⟨s, rfl⟩
  obtain ha | hv | hr := mem_held.1 hi
  · obtain ha | ha := mem_append.1 ha
    · exact .inl (.of_held (mem_held.2 (.inl ha)))
    · exact .inr (mem_singleton.1 ha)
  · exact .inl (.of_held (mem_held.2 (.inr (.inl hv))))
  · exact .inl (.of_held (mem_held.2 (.inr (.inr hr))))

theorem Evolves.allocTable : Evolves c c.allocTable :=
  .alloc (fun _ hi => mem_singleton.1 hi) (fun _ hi => absurd hi not_mem_nil)
    fun h => absurd h.symm Bool.false_ne_true

theorem Evolves.allocFn {params : List Nat} {body : Node Nat} {up : List (Nat × Val B)}
    (h : ∀ p ∈ up, ∀ i, i = p.1 ∨ i ∈ p.2.refs → c.Ref i) :
    Evolves c (c.allocFn params body up) := by
  refine .alloc (fun _ hi => mem_singleton.1 hi) (fun i hi => ?_)
    fun h => absurd h.symm Bool.false_ne_true
  obtain ⟨p, hp, hi⟩ := mem_flatMap.1 hi
  exact h p hp i (mem_cons.1 hi)

theorem Evolves.setObj {t : Nat} {f : Obj B → Obj B}
    (hf : ∀ o, ∀ j ∈ (f o).refs, j ∈ o.refs ∨ c.Ref j) (hs : ∀ s, f (.str s) = .str s) :
    Evolves c (c.setObj t f) := by
  have hrefs : ∀ i, ∀ j ∈ (c.setObj t f).refsAt i, j ∈ c.refsAt i ∨ c.Ref j := by
    intro i j hj
    unfold Core.refsAt Core.setObj at hj
    unfold Core.refsAt
    rw [List.getElem?_modify] at hj
    cases hx : c.objs[i]? with
    | none =>
      rw [hx] at hj
      exact absurd hj not_mem_nil
    | some x =>
      rw [hx] at hj
      by_cases hti : t = i
      · simp only [if_pos hti] at hj
        exact hf x.obj j hj
      · simp only [if_neg hti] at hj
        exact .inl hj
  refine ⟨?_, fun i hi => .inl ?_, fun hw x hx hfalse => ?_⟩
  · unfold Core.setObj
    rw [length_modify]
  · refine hi.induct (fun j hj => .of_held hj) fun j hj k hk => ?_
    obtain hk | hk := hrefs j k hk
    · exact hj.tail hk
    · exact hk
  · obtain ⟨i, hi⟩ := mem_iff_getElem?.1 hx
    unfold Core.setObj at hi
    rw [List.getElem?_modify] at hi
    obtain ⟨y, hy, rfl⟩ := Option.map_eq_some_iff.1 hi
    have hmem := mem_of_getElem? hy
    split at hfalse
    · obtain ⟨s, hs'⟩ := hw y hmem hfalse
      rename_i hti
      refine ⟨s, ?_⟩
      rw [if_pos hti]
      rw [hs', hs]
    · rename_i hti
      rw [if_neg hti]
      exact hw y hmem hfalse

theorem mem_storeKv [DecidableEq B] {k v : Val B} {kv : List (Val B × Val B)}
    {p : Val B × Val B} (h : p ∈ storeKv c k v kv) :
    p ∈ kv ∨ (∃ q ∈ kv, p = (q.1, v)) ∨ p = (k, v) := by
  unfold storeKv at h
  split at h
  · exact .inl h
  · split at h
    · split at h
      · exact .inl (mem_of_mem_eraseIdx h)
      · obtain ⟨i, hi⟩ := mem_iff_getElem?.1 h
        rw [List.getElem?_modify] at hi
        obtain ⟨q, hq, rfl⟩ := Option.map_eq_some_iff.1 hi
        split
        · exact .inr (.inl ⟨q, mem_of_getElem? hq, rfl⟩)
        · exact .inl (mem_of_getElem? hq)
    · split at h
      · exact .inl h
      · obtain h | h := mem_append.1 h
        · exact .inl h
        · exact .inr (.inr (mem_singleton.1 h))

theorem Evolves.tableSet [DecidableEq B] {k v : Val B} (t : Nat) (hk : c.RefV k)
    (hv : c.RefV v) : Evolves c (tableSet t k v c) := by
  refine .setObj (fun o j hj => ?_) fun s => rfl
  cases o with
  | str s => exact .inl hj
  | fn params body up => exact .inl hj
  | table kv =>
    obtain ⟨p, hp, hj⟩ := mem_flatMap.1 hj
    obtain hp | ⟨q, hq, rfl⟩ | rfl := mem_storeKv hp
    · exact .inl (mem_flatMap.2 ⟨p, hp, hj⟩)
    · obtain hj | hj := mem_append.1 hj
      · exact .inl (mem_flatMap.2 ⟨q, hq, mem_append_left _ hj⟩)
      · exact .inr (hv j hj)
    · obtain hj | hj := mem_append.1 hj
      · exact .inr (hk j hj)
      · exact .inr (hv j hj)

/-! ## Operations -/

theorem mem_setSlot {j : Nat} {v : Val B} {env : Env B} {i : Nat}
    (h : i ∈ (setSlot j v env).refs) : i ∈ env.refs ∨ i ∈ v.refs := by
  obtain hh | ⟨p, hp, hi⟩ := mem_env_refs.1 h
  · exact .inl (mem_env_refs.2 (.inl hh))
  · obtain ⟨n, hn⟩ := mem_iff_getElem?.1 hp
    unfold setSlot at hn
    rw [List.getElem?_modify] at hn
    obtain ⟨q, hq, rfl⟩ := Option.map_eq_some_iff.1 hn
    have hmem := mem_of_getElem? hq
    split at hi
    · obtain hi | hi := hi
      · exact .inl (mem_env_refs.2 (.inr ⟨q, hmem, .inl hi⟩))
      · exact .inr hi
    · exact .inl (mem_env_refs.2 (.inr ⟨q, hmem, hi⟩))

theorem Evolves.setSlot {v : Val B} (e j : Nat) (hv : c.RefV v) :
    Evolves c (c.setEnv e (setSlot j v)) :=
  .setEnv fun _ henv i hi => (mem_setSlot hi).elim (henv i) (hv i)

theorem Evolves.truncate (e n : Nat) :
    Evolves c (c.setEnv e fun env => { env with locals := env.locals.take n }) := by
  refine .setEnv fun env henv i hi => ?_
  obtain hh | ⟨p, hp, hi⟩ := mem_env_refs.1 hi
  · exact henv i (mem_env_refs.2 (.inl hh))
  · exact henv i (mem_env_refs.2 (.inr ⟨p, mem_of_mem_take hp, hi⟩))

theorem Evolves.withName {f : Nat → Eff B W} {x : Nat}
    (h : ∀ i, c.ast[x]? = some i → Evolves c (f i).2.1) : Evolves c (withName c x f).2.1 := by
  unfold Heap.withName
  cases hx : c.ast[x]? with
  | none => exact .refl c
  | some i => exact h i hx

theorem Evolves.answer (n : Nat) (r : Except Stop (Imm B)) : Evolves c (answer n c r).2.1 := by
  cases r with
  | ok i => exact (Evolves.slide 0 n).trans (.push (refV_imm i))
  | error s => exact .refl c

theorem declare_evolves (e x : Nat) : Evolves c (declare e x c).2.1 := by
  refine .withName fun i hi => ?_
  split
  · exact .refl c
  · refine (Evolves.setEnv fun env henv j hj => ?_).trans (.slide 0 1)
    obtain hh | ⟨p, hp, hj⟩ := mem_env_refs.1 hj
    · exact henv j (mem_env_refs.2 (.inl hh))
    · obtain hp | hp := mem_append.1 hp
      · exact henv j (mem_env_refs.2 (.inr ⟨p, hp, hj⟩))
      · obtain rfl := mem_singleton.1 hp
        obtain rfl | hj := hj
        · exact ref_ast hi
        · exact refV_temp 0 j hj

theorem concat_evolves (l r : Val B) : Evolves c (concat l r c).2.1 := by
  have hone : ∀ (c : Core B W) (b : Bool) (s : Bytes),
      Evolves c (if b = true then c else c.allocStr s true) := by
    intro c b s
    split
    · exact .refl c
    · exact .allocStr _ _
  exact (hone c _ _).trans ((hone _ _ _).trans ((Evolves.allocStr _ _).trans (.slide _ _)))

theorem makeAll_evolves (ns : List (Bytes × Bool)) : Evolves c (makeAll ns c) := by
  induction ns generalizing c with
  | nil => exact .refl c
  | cons n ns ih => exact (Evolves.allocStr _ _).trans ih

theorem mem_makeAll {ns : List (Bytes × Bool)} {v : Val B} (h : v ∈ c.temps) :
    v ∈ (makeAll ns c).temps := by
  induction ns generalizing c with
  | nil => exact h
  | cons n ns ih => exact ih (mem_cons_of_mem _ h)

theorem refV_pick {args : List (Val B)} (h : ∀ v ∈ args, v ∈ c.temps) (made : Nat)
    (s : Src B) : c.RefV (s.pick args c made) := by
  have harg : ∀ i, c.RefV (args.getD i .nil) := refV_getD fun v hv => refV_of_mem (h v hv)
  cases s with
  | imm i => exact refV_imm i
  | arg i => exact harg i
  | key i j =>
    unfold Src.pick
    dsimp only
    cases hp : (entriesOf c (args.getD i .nil))[j]? with
    | none => exact refV_nil
    | some p => exact (refV_entry (harg i) (mem_of_getElem? hp)).1
  | val i j =>
    unfold Src.pick
    dsimp only
    cases hp : (entriesOf c (args.getD i .nil))[j]? with
    | none => exact refV_nil
    | some p => exact (refV_entry (harg i) (mem_of_getElem? hp)).2
  | lastError =>
    unfold Src.pick
    cases he : c.lastError with
    | none => exact refV_nil
    | some i =>
      intro j hj
      obtain rfl := mem_singleton.1 hj
      exact ref_lastError he
  | new k =>
    unfold Src.pick
    dsimp only
    split
    · exact refV_temp _
    · exact refV_nil

theorem insert_evolves (k : Nat) (i : Imm B) :
    Evolves c { c with temps := c.temps.take k ++ i.val :: c.temps.drop k } := by
  refine .temps _ fun v hv => ?_
  obtain hv | hv := mem_append.1 hv
  · exact refV_of_mem (mem_of_mem_take hv)
  · obtain rfl | hv := mem_cons.1 hv
    · exact refV_imm i
    · exact refV_of_mem (mem_of_mem_drop hv)

theorem enter_evolves (f : Option Nat) (h : ∀ i, f = some i → c.Ref i) (n m : Nat) :
    Evolves c { c with envs := (n, ⟨[], f⟩) :: c.envs, nextEnv := m } := by
  refine .envs _ _ fun p hp i hi => ?_
  obtain rfl | hp := mem_cons.1 hp
  · obtain hh | ⟨q, hq, _⟩ := mem_env_refs.1 hi
    · exact h i hh
    · exact absurd hq not_mem_nil
  · exact ref_env hp hi

theorem fail_evolves (msg : Bytes) :
    Evolves c (((({ c.allocStr msg true with
      lastError := some c.objs.length } : Core B W).slide 0 1).push (.bool false)).allocStr
        msg true) := by
  have herr : Evolves (c.allocStr msg true)
      { c.allocStr msg true with lastError := some c.objs.length } := by
    refine .of_held rfl fun i hi => ?_
    obtain ha | hv | hr := mem_held.1 hi
    · exact .of_held (mem_held.2 (.inl ha))
    · exact .of_held (mem_held.2 (.inr (.inl hv)))
    · obtain rfl | he | he := mem_roots.1 hr
      · exact ref_globals
      · exact .of_held (mem_held.2 (.inr (.inr (mem_roots.2 (.inr (.inl he))))))
      · obtain rfl := Option.some.inj he
        exact refV_of_mem (c := c.allocStr msg true) mem_cons_self _
          (mem_singleton.2 rfl)
  exact (Evolves.allocStr msg true).trans (herr.trans ((Evolves.slide 0 1).trans
    ((Evolves.push (refV_imm (.bool false))).trans (.allocStr msg true))))

section

variable [DecidableEq B]

theorem varGet_evolves (e x : Nat) : Evolves c (varGet e x c).2.1 := by
  refine .withName fun i _ => ?_
  dsimp only
  split
  · exact .push (refV_local e _)
  · split
    · rename_i hv
      exact .push (refV_upval hv)
    · refine (Evolves.allocStr _ _).trans (.trans (.push ?_) (.slide 1 1))
      exact refV_tableGet ref_globals _

theorem varSet_evolves (e x : Nat) : Evolves c (varSet e x c).2.1 := by
  refine .withName fun i _ => ?_
  split
  · exact (Evolves.setSlot e _ (refV_temp 0)).trans (.slide 0 1)
  · exact (Evolves.allocStr _ _).trans (.trans (.tableSet 0 (refV_temp 0) (refV_temp 1))
      (.slide 0 2))

theorem bin_evolves (op : Sym) (swapped : Bool) : Evolves c (bin op swapped c).2.1 := by
  unfold bin
  dsimp only
  split
  · exact concat_evolves _ _
  · exact .answer 2 _

theorem storeAll_evolves {args : List (Val B)} (made : Nat)
    (ss : List (Nat × Src B × Src B)) (h : ∀ v ∈ args, v ∈ c.temps) :
    Evolves c (storeAll args made ss c) ∧ ∀ v ∈ args, v ∈ (storeAll args made ss c).temps := by
  induction ss generalizing c with
  | nil => exact ⟨.refl c, h⟩
  | cons s ss ih =>
    obtain ⟨i, k, v⟩ := s
    unfold storeAll
    split
    · obtain ⟨he, hm⟩ := ih (c := tableSet _ (k.pick args c made) (v.pick args c made) c) h
      exact ⟨(Evolves.tableSet _ (refV_pick h made k) (refV_pick h made v)).trans he, hm⟩
    · exact ih h

theorem callLib_evolves (lib : Lib B W) (b : B) (argc : Nat) :
    Evolves c (callLib lib b argc c).2.1 := by
  unfold callLib
  dsimp only
  generalize lib.call b _ _ _ = r
  have hargs : ∀ v ∈ (c.temps.take argc).reverse, v ∈ c.temps := fun v hv =>
    mem_of_mem_take (mem_reverse.1 hv)
  have hworld : Evolves c { c with world := r.world } := .of_held rfl fun i hi => .of_held hi
  have hmake := hworld.trans (makeAll_evolves r.news)
  obtain ⟨hstore, hmem⟩ := storeAll_evolves (c := makeAll r.news { c with world := r.world })
    r.news.length r.stores fun v hv =>
      mem_makeAll (c := { c with world := r.world }) (hargs v hv)
  cases r.results with
  | error s => exact hmake.trans hstore
  | ok srcs =>
    refine (hmake.trans hstore).trans (.trans (.temps _ fun v hv => ?_) (.slide _ _))
    obtain hv | hv := mem_append.1 hv
    · obtain ⟨s, _, rfl⟩ := mem_map.1 (mem_reverse.1 hv)
      exact refV_pick hmem _ s
    · exact refV_of_mem hv

theorem effect_evolves (lib : Lib B W) (o : Op B) : Evolves c (effect lib c o).2.1 := by
  cases o with
  | imm i => exact .push (refV_imm i)
  | globals =>
    refine .push fun i hi => ?_
    obtain rfl := mem_singleton.1 hi
    exact ref_globals
  | const s => exact .allocStr s true
  | token s => exact .allocToken s
  | strLit x => exact .withName fun i _ => .allocStr _ _
  | varGet e x => exact varGet_evolves e x
  | varSet e x => exact varSet_evolves e x
  | declare e x => exact declare_evolves e x
  | truncate e n => exact .truncate e n
  | setLocal e i => exact (Evolves.setSlot e i (refV_temp 0)).trans (.slide 0 1)
  | setLocalNum e i n => exact .setSlot e i (refV_imm (.num n))
  | toNum =>
    unfold effect
    cases toNum c (c.temp 0) with
    | none => exact .refl c
    | some n => exact .slide 0 1
  | copy i => exact .push (refV_temp i)
  | move i j =>
    refine .temps _ fun v hv => ?_
    obtain hv | rfl := mem_or_eq_of_mem_set hv
    · exact refV_of_mem hv
    · exact refV_temp i
  | slide k n => exact .slide k n
  | insert k i => exact insert_evolves k i
  | dropTo n => exact .slide 0 _
  | bin op swapped => exact bin_evolves op swapped
  | un op => exact .answer 1 _
  | tableNew => exact .allocTable
  | tableSet t k v err =>
    unfold effect
    dsimp only
    split
    · exact .tableSet _ (refV_temp k) (refV_temp v)
    · exact .refl c
  | tableGet =>
    unfold effect
    dsimp only
    split
    · rename_i t ht
      refine (Evolves.push (refV_tableGet ?_ _)).trans (.slide 1 2)
      exact refV_temp 1 t (by rw [ht]; exact mem_singleton.2 rfl)
    · exact .refl c
  | func e params body => exact .allocFn fun p hp i hi => ref_local hp hi
  | fnInfo i =>
    unfold effect
    dsimp only
    split
    · split
      · exact .refl c
      · exact .refl c
    · exact .refl c
  | enter host =>
    refine enter_evolves _ (fun i hi => ?_) _ _
    obtain ⟨j, _, hj⟩ := Option.bind_eq_some_iff.1 hi
    split at hj
    · rename_i f hf
      obtain rfl := Option.some.inj hj
      exact refV_temp j f (by rw [hf]; exact mem_singleton.2 rfl)
    · cases hj
  | leave e => exact .envs _ _ fun p hp i hi => ref_env (mem_of_mem_filter hp) hi
  | lib b argc => exact callLib_evolves lib b argc
  | clearError =>
    refine .of_held rfl fun i hi => ?_
    obtain ha | hv | hr := mem_held.1 hi
    · exact .of_held (mem_held.2 (.inl ha))
    · exact .of_held (mem_held.2 (.inr (.inl hv)))
    · obtain rfl | he | he := mem_roots.1 hr
      · exact ref_globals
      · exact .of_held (mem_held.2 (.inr (.inr (mem_roots.2 (.inr (.inl he))))))
      · cases he
  | fail err => exact fail_evolves _
  | locals e => exact .refl c
  | localNum e i => exact .refl c
  | truthy => exact .refl c
  | depth => exact .refl c
  | kind i => exact .refl c
  | stmt => exact .refl c
  | collect => exact .refl c

end

/-! ## What an operation touches -/

theorem strKeys_held {t i : Nat} (ht : c.Ref t) (h : i ∈ strKeys (c.kvOf t)) : c.Ref i := by
  obtain ⟨p, hp, hi⟩ := mem_flatMap.1 h
  refine ht.tail (mem_kvOf hp (.inl ?_))
  split at hi
  · rename_i j hj
    rw [hj]
    exact hi
  · exact absurd hi not_mem_nil

theorem touchTable_held {t i : Nat} (ht : c.Ref t) (h : i ∈ touchTable c t) : c.Ref i := by
  obtain rfl | h := mem_cons.1 h
  · exact ht
  · exact strKeys_held ht h

theorem touchVal_held {v : Val B} (hv : c.RefV v) {i : Nat} (h : i ∈ touchVal c v) : c.Ref i := by
  cases v with
  | str j => exact hv i h
  | table t => exact touchTable_held (hv t (mem_singleton.2 rfl)) h
  | fn f => exact hv i h
  | nil => exact absurd h not_mem_nil
  | bool b => exact absurd h not_mem_nil
  | num n => exact absurd h not_mem_nil
  | builtin b => exact absurd h not_mem_nil

theorem ast_held {x i : Nat} (h : i ∈ (c.ast[x]?).toList) : c.Ref i :=
  ref_ast (Option.mem_toList.1 h)

theorem touchName_held {e x i : Nat} (h : i ∈ touchName c e x) : c.Ref i := by
  obtain h | h := mem_append.1 h
  · exact ast_held h
  · obtain ⟨p, hp, rfl⟩ := mem_map.1 h
    exact ref_local hp (.inl rfl)

theorem varGet_held {e x i : Nat} (h : i ∈ touched c (.varGet e x)) : c.Ref i := by
  obtain h | h := mem_append.1 h
  · obtain h | h := mem_append.1 h
    · obtain h | h := mem_append.1 h
      · exact touchName_held h
      · exact ref_host (Option.mem_toList.1 h)
    · obtain ⟨f, hf, h⟩ := mem_flatMap.1 h
      obtain ⟨p, hp, rfl⟩ := mem_map.1 h
      exact (ref_host (Option.mem_toList.1 hf)).tail (mem_upvalsOf hp (.inl rfl))
  · exact touchTable_held ref_globals h

theorem lib_held {b : B} {argc i : Nat} (h : i ∈ touched c (.lib b argc)) : c.Ref i := by
  obtain h | h := mem_append.1 h
  · obtain ⟨v, hv, h⟩ := mem_flatMap.1 h
    have hr : c.RefV v := refV_of_mem (mem_of_mem_take hv)
    obtain h | h := mem_append.1 h
    · exact touchVal_held hr h
    · obtain ⟨p, hp, h⟩ := mem_flatMap.1 h
      obtain h | h := mem_append.1 h
      · exact (refV_entry hr hp).1 i h
      · exact (refV_entry hr hp).2 i h
  · exact ref_lastError (Option.mem_toList.1 h)

theorem touch_two_held {a b i : Nat}
    (h : i ∈ touchVal c (c.temp a) ++ touchVal c (c.temp b)) : c.Ref i :=
  (mem_append.1 h).elim (touchVal_held (refV_temp a)) (touchVal_held (refV_temp b))

theorem touched_held {o : Op B} {i : Nat} (h : i ∈ touched c o) : c.Ref i := by
  cases o with
  | strLit x => exact ast_held h
  | varGet e x => exact varGet_held h
  | varSet e x =>
    obtain h | h := mem_append.1 h
    · exact touchName_held h
    · exact touchTable_held ref_globals h
  | toNum => exact touchVal_held (refV_temp 0) h
  | un op => exact touchVal_held (refV_temp 0) h
  | fnInfo j => exact touchVal_held (refV_temp j) h
  | bin op swapped => exact touch_two_held h
  | tableSet t k v err => exact touch_two_held h
  | tableGet => exact touch_two_held h
  | lib b argc => exact lib_held h
  | _ => exact absurd h not_mem_nil

end AdventOS.Lua.Heap
