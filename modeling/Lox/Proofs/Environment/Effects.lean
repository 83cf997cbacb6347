import Lox.Proofs.Environment.Operations

/-!
What operations on environments lead to. Each makes a new environment, or defines a name again, or does
nothing. So the environments behind them are nested, named and filled as the operations say.
-/

namespace Lox

namespace Environments

variable {α : Type} {past : List (Operation α)} {op : Operation α} {s : Environments α} {e i : EnvId}

/-- Defines a name of an environment. -/
def enter (s : Environments α) : EnvId × String × Option α → Environments α
  | (e, name, a) => s.define e name a

/-- The environments are nested, named and filled as the operations say. -/
structure Follows (past : List (Operation α)) (s : Environments α) : Prop where
  links : s.all.toList.map (·.enclosing) = links past
  names : ∀ {e env}, s.all[e]? = some env → env.names = defined e past
  values : ∀ e name, s.get e name = .ofStored (stored? e name past)

namespace Follows

theorem size (hs : Follows past s) : s.all.size = count past := by
  rw [count, ← hs.links, List.length_map, Array.length_toList]

theorem link (hs : Follows past s) (e : EnvId) :
    s.all[e]?.bind (·.enclosing) = (Environments.links past)[e]?.join := by
  rw [← hs.links, List.getElem?_map, Array.getElem?_toList]
  cases s.all[e]? <;> rfl

theorem ancestor?_eq (hs : Follows past s) (e : EnvId) (distance : Nat) :
    s.ancestor? e distance = above? past e distance := by
  induction distance generalizing e with
  | zero => rfl
  | succ distance ih => rw [ancestor?, above?, hs.link, funext ih]

theorem defined_of_none (hs : Follows past s) (h : Possible past) (he : s.all[e]? = none) :
    defined e past = [] :=
  defined_eq_nil h (hs.size ▸ Array.getElem?_eq_none_iff.mp he)

theorem slot?_eq_some_iff (hs : Follows past s) (h : Possible past) {name : String} {slot : Nat} :
    s.slot? e name = some slot ↔ (defined e past)[slot]? = some name := by
  cases he : s.all[e]? with
  | none => simp [slot?, he, hs.defined_of_none h he]
  | some env =>
    have named := hs.names he
    rw [slot?, he, Option.bind_some, ← named]
    exact Environment.slot?_eq_some_iff (named ▸ nodup_defined e past)

theorem slot?_eq_none_iff (hs : Follows past s) (h : Possible past) {name : String} :
    s.slot? e name = none ↔ name ∉ defined e past := by
  cases he : s.all[e]? with
  | none => simp [slot?, he, hs.defined_of_none h he]
  | some env =>
    rw [slot?, he, Option.bind_some, ← hs.names he]
    exact Environment.slot?_eq_none_iff

theorem hasSlot_iff (hs : Follows past s) (h : Possible past) {slot : Nat} :
    s.hasSlot e slot = true ↔ slot < (defined e past).length := by
  cases he : s.all[e]? with
  | none => simp [hasSlot, he, hs.defined_of_none h he]
  | some env =>
    rw [hasSlot, he, ← hs.names he, Environment.names, List.length_map]
    exact decide_eq_true_iff

/-! Assignments define a name again, or nothing. -/

theorem assign?_eq (hs : Follows past s) (h : Possible past) (e : EnvId) (name : String) (a : α) :
    s.assign? e name a = ((Operation.assign e name a).store? past).map s.enter := by
  rw [assign?, Operation.store?]
  cases hn : s.slot? e name with
  | none =>
    rw [if_neg ((hs.slot?_eq_none_iff h).mp hn)]
    rfl
  | some slot =>
    rw [if_pos (List.mem_of_getElem? ((hs.slot?_eq_some_iff h).mp hn)), Option.map_some,
      put_eq_define hn]
    rfl

theorem setSlot?_eq (hs : Follows past s) (h : Possible past) (e : EnvId) (slot : Nat) (a : α) :
    s.setSlot? e slot a = ((Operation.setSlot e slot a).store? past).map s.enter := by
  rw [setSlot?, Operation.store?]
  cases hn : (defined e past)[slot]? with
  | none =>
    have out := List.getElem?_eq_none_iff.mp hn
    rw [if_neg (mt (hs.hasSlot_iff h).mp (Nat.not_lt.mpr out))]
    rfl
  | some name =>
    rw [if_pos ((hs.hasSlot_iff h).mpr (List.getElem?_eq_some_iff.mp hn).1),
      put_eq_define ((hs.slot?_eq_some_iff h).mpr hn)]
    rfl

theorem assignAt?_eq (hs : Follows past s) (h : Possible past) (e : EnvId) (distance slot : Nat)
    (a : α) : s.assignAt? e distance slot a =
      ((Operation.assignAt e distance slot a).store? past).map s.enter := by
  rw [assignAt?, hs.ancestor?_eq, Operation.store?]
  cases above? past e distance with
  | none => rfl
  | some e => exact hs.setSlot?_eq h e slot a

/-- What a slot holds is what its name stands for. -/
theorem getSlot_eq (hs : Follows past s) (h : Possible past) (e : EnvId) (slot : Nat) :
    s.getSlot e slot = .ofStored ((defined e past)[slot]?.bind (stored? e · past)) := by
  cases he : s.all[e]? with
  | none =>
    rw [getSlot, he, hs.defined_of_none h he]
    rfl
  | some env =>
    have named := hs.names he
    have get (name : String) : env.get name = .ofStored (stored? e name past) := by
      rw [← hs.values, Environments.get, he]
      rfl
    rw [getSlot, he, Option.map_some, Option.getD_some,
      Environment.getSlot_eq_get (named ▸ nodup_defined e past), named]
    cases (defined e past)[slot]? with
    | none => rfl
    | some name => exact get name

theorem getAt_eq (hs : Follows past s) (h : Possible past) (e : EnvId) (distance slot : Nat) :
    s.getAt e distance slot = .ofStored ((above? past e distance).bind fun e =>
      (defined e past)[slot]?.bind (stored? e · past)) := by
  rw [getAt, hs.ancestor?_eq]
  cases above? past e distance with
  | none => rfl
  | some e => exact hs.getSlot_eq h e slot

theorem nil : Follows [] ({} : Environments α) where
  links := rfl
  names {e env} he := by
    obtain ⟨hl, rfl⟩ := Array.getElem?_eq_some_iff.mp he
    obtain rfl : e = 0 := Nat.lt_one_iff.mp hl
    rfl
  values e name := by
    rw [get]
    cases e <;> rfl

/-- The new environment is empty. -/
theorem nest (hs : Follows past s) (h : Possible past) (e : EnvId) :
    Follows (.nest e :: past) (s.nest e) where
  links := by
    rw [links_cons, ← hs.links, Environments.nest, Array.toList_push, List.map_append]
    rfl
  names {i env} hi := by
    rw [all_nest] at hi
    rw [defined_of_rest rfl]
    split at hi
    · next new =>
      cases hi
      rw [defined_eq_nil h (new ▸ Nat.le_of_eq hs.size.symm)]
      rfl
    · exact hs.names hi
  values i name := by
    rw [get_nest, hs.values]
    rfl

/-- What is defined is named, and is there afterwards. -/
theorem enter (hs : Follows past s) {name : String} {a : Option α}
    (h : op.store? past = some (e, name, a)) (there : e < count past) (apart : op.up? = none) :
    Follows (op :: past) (s.define e name a) where
  links := by
    rw [links_cons, apart, ← hs.links]
    simp only [Option.map_none, Option.toList_none, List.append_nil]
    apply List.ext_getElem?
    intro i
    simp only [List.getElem?_map, Array.getElem?_toList]
    exact map_all_define fun env _ _ => env.enclosing_define name a
  names {i env} hi := by
    rw [all_define] at hi
    rw [defined_of_store h]
    split at hi
    · next same =>
      obtain ⟨before, hb, rfl⟩ := Option.map_eq_some_iff.mp hi
      subst same
      rw [Environment.names_define, hs.names hb]
      by_cases hn : name ∈ defined e past <;> simp [hn]
    · next other => rw [if_neg fun fresh => other fresh.1.symm, hs.names hi]
  values i other := by
    rw [stored?, h]
    dsimp only
    split
    · next same =>
      obtain ⟨rfl, rfl⟩ := same
      exact get_define (hs.size ▸ there) name a
    · next apart =>
      rw [get_define_of_ne, hs.values]
      by_cases hi : i = e
      · exact .inr fun hn => apart ⟨hi.symm, hn.symm⟩
      · exact .inl hi

theorem rest (hs : Follows past s) (h : op.store? past = none) (apart : op.up? = none) :
    Follows (op :: past) s where
  links := by
    rw [links_cons, apart, ← hs.links]
    exact (List.append_nil _).symm
  names he := (hs.names he).trans (defined_of_rest h).symm
  values e name := by
    rw [stored?, h]
    exact hs.values e name

end Follows

/-- What an operation leads to. -/
inductive Effect (past : List (Operation α)) (s : Environments α) :
    Operation α → Environments α → Prop
  | nests (e : EnvId) : Effect past s (.nest e) (s.nest e)
  | rests {op : Operation α} (h : op.store? past = none) (apart : op.up? = none) : Effect past s op s
  | stores {op : Operation α} {x : EnvId × String × Option α} (h : op.store? past = some x)
      (apart : op.up? = none) : Effect past s op (s.enter x)

theorem settle_effect (s : Environments α) (apart : op.up? = none) :
    Effect past s op (s.settle ((op.store? past).map s.enter)).2 := by
  cases h : op.store? past with
  | none => exact .rests h apart
  | some x => exact .stores h apart

theorem Follows.effect (hs : Follows past s) (h : Possible past) (op : Operation α) :
    Effect past s op (s.perform op).2 := by
  cases op with
  | nest e => exact .nests e
  | define e name a => exact .stores (x := (e, name, a)) rfl rfl
  | get | getSlot | getAt => exact .rests rfl rfl
  | assign e name a =>
    rw [perform, hs.assign?_eq h]
    exact s.settle_effect rfl
  | setSlot e slot a =>
    rw [perform, hs.setSlot?_eq h]
    exact s.settle_effect rfl
  | assignAt e distance slot a =>
    rw [perform, hs.assignAt?_eq h]
    exact s.settle_effect rfl

theorem follows_behind (h : Possible past) : Follows past (behind past) := by
  induction past with
  | nil => exact .nil
  | cons op past ih =>
    have hs := ih h.2
    -- What the operation reaches is told from the earlier ones, which the environments follow so far.
    have effect := hs.effect h.2 op
    change Follows (op :: past) ((behind past).perform op).2
    generalize ((behind past).perform op).2 = after at effect
    cases effect with
    | nests e => exact hs.nest h.2 e
    | rests ho apart => exact hs.rest ho apart
    | stores ho apart => exact hs.enter ho (store?_lt h ho) apart

end Environments

end Lox
