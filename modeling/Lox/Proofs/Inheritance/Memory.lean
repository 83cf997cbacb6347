import Lox.Proofs.Inheritance.Ledger

/-!
Memory and the ledger. Values are kept in variables and fields, and all classes that they are, or are
instances of, are in the ledger. A change of memory that stores nothing else keeps that so.
-/

namespace Lox

variable {ρ : Type}

namespace Machine

variable {m m' : Machine ρ} {v : Value ρ EnvId}

/-- The value is that of a variable or of a field. -/
inductive Stores (m : Machine ρ) (v : Value ρ EnvId) : Prop
  | variable {e : EnvId} {env : Environment (Value ρ EnvId)} {name : String}
      (he : m.environments.all[e]? = some env) (hx : (name, some v) ∈ env.entries)
  | field {id : ObjectId} {fields : Fields ρ EnvId} {name : String}
      (hi : m.objects[id]? = some fields) (hx : (name, v) ∈ fields)

/-- The ledger is about the objects of the machine, and has the classes of all stored values. -/
structure Fits (m : Machine ρ) (made : Ledger ρ) : Prop where
  kept : made.Kept
  size : made.length = m.objects.size
  values : ∀ {v}, m.Stores v → made.Knows v

theorem Stores.of_getSlot {e : EnvId} {slot : Nat} (h : m.environments.getSlot e slot = .found v) :
    m.Stores v := by
  rw [Environments.getSlot] at h
  cases he : m.environments.all[e]? with
  | none =>
    rw [he] at h
    cases h
  | some env =>
    rw [he, Option.map_some, Option.getD_some, Environment.getSlot] at h
    split at h
    · cases h
    · cases h
    · next hx =>
      cases h
      exact .variable he (List.mem_of_getElem? hx)

theorem Stores.of_field? {id : ObjectId} {name : String} (h : m.field? id name = some v) :
    m.Stores v := by
  obtain ⟨fields, hf, hl⟩ := Option.bind_eq_some_iff.mp h
  obtain ⟨before, after, rfl, _⟩ := List.lookup_eq_some_iff.mp hl
  exact .field hf List.mem_append_cons_self

namespace Fits

variable {made : Ledger ρ} (h : m.Fits made)

include h

theorem getSlot {e : EnvId} {slot : Nat} (hv : m.environments.getSlot e slot = .found v) :
    made.Knows v := h.values (.of_getSlot hv)

theorem field? {id : ObjectId} {name : String} (hv : m.field? id name = some v) : made.Knows v :=
  h.values (.of_field? hv)

/-- What is stored is older, or is known as well. -/
theorem storing (size : m'.objects.size = m.objects.size)
    (stores : ∀ {v}, m'.Stores v → m.Stores v ∨ made.Knows v) : m'.Fits made :=
  ⟨h.kept, h.size.trans size.symm, fun hv => (stores hv).elim h.values id⟩

/-- Other things change. -/
theorem of_eq (he : m'.environments = m.environments) (ho : m'.objects = m.objects) :
    m'.Fits made := by
  refine h.storing (by rw [ho]) fun hv => .inl ?_
  cases hv with
  | «variable» hi hx => exact .variable (he ▸ hi) hx
  | field hi hx => exact .field (ho ▸ hi) hx

theorem enter (e : EnvId) : Fits { m with scope := e } made := h.of_eq rfl rfl

theorem setHost (host : Host) : Fits { m with host } made := h.of_eq rfl rfl

theorem modify (e : EnvId) {f : Environment (Value ρ EnvId) → Environment (Value ρ EnvId)}
    (hf : ∀ {env x v}, (x, some v) ∈ (f env).entries → (x, some v) ∈ env.entries ∨ made.Knows v) :
    Fits { m with environments := m.environments.modify e f } made := by
  refine h.storing rfl fun hv => ?_
  cases hv with
  | @«variable» i env _ he hx =>
    rw [Environments.all_modify] at he
    split at he
    · obtain ⟨old, ho, rfl⟩ := Option.map_eq_some_iff.mp he
      exact (hf hx).imp (.variable ho) id
    · exact .inl (.variable he hx)
  | field hi hx => exact .inl (.field hi hx)

theorem define (e : EnvId) (name : String) {a : Option (Value ρ EnvId)}
    (ha : ∀ v, a = some v → made.Knows v) :
    Fits { m with environments := m.environments.define e name a } made :=
  h.modify e fun hx => (Environment.mem_entries_define hx).imp id fun same => ha _ same.symm

theorem put (e : EnvId) (slot : Nat) (hv : made.Knows v) :
    Fits { m with environments := m.environments.put e slot v } made := by
  refine h.modify e fun hx => (Environment.mem_entries_putSlot hx).imp id fun same => ?_
  cases same
  exact hv

theorem nest (up : EnvId) : Fits { m with environments := m.environments.nest up } made := by
  refine h.storing rfl fun hv => .inl ?_
  cases hv with
  | «variable» he hx =>
    rw [Environments.all_nest] at he
    split at he
    · cases he
      cases hx
    · exact .variable he hx
  | field hi hx => exact .field hi hx

theorem setField (id : ObjectId) (name : String) (hv : made.Knows v) :
    Fits { m with objects := m.objects.modify id (Fields.insert name v) } made := by
  refine h.storing (by simp) fun stored => ?_
  cases stored with
  | «variable» he hx => exact .inl (.variable he hx)
  | field hi hx =>
    rw [Array.getElem?_modify] at hi
    split at hi
    · obtain ⟨old, ho, rfl⟩ := Option.map_eq_some_iff.mp hi
      obtain hx | hx := Fields.mem_insert hx
      · exact .inl (.field ho hx)
      · cases hx
        exact .inr hv
    · exact .inl (.field hi hx)

/-- A new object has no fields yet, whatever it is. -/
theorem newObject {entry : Option (Class ρ EnvId)} (kept : Ledger.Kept (made ++ [entry])) :
    Fits { m with objects := m.objects.push [] } (made ++ [entry]) := by
  refine ⟨kept, by simp [h.size], fun hv => ?_⟩
  have older {v : Value ρ EnvId} (hv : m.Stores v) : Ledger.Knows (made ++ [entry]) v :=
    (h.values hv).grow (List.prefix_append _ _)
  cases hv with
  | «variable» he hx => exact older (.variable he hx)
  | field hi hx =>
    rw [Array.getElem?_push] at hi
    split at hi
    · cases hi
      cases hx
    · exact older (.field hi hx)

end Fits

end Machine

end Lox
