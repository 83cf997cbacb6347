import Lox.Proofs.Receivers.Steps

/-!
The search for methods. It goes through a class and those above it in turn, and takes the first method
of the name. What is found is bound to the receiver.
-/

namespace Lox

open Run

section Lineages

variable {ρ κ : Type}

/-- The class and those above it, from the class upwards. -/
def Class.lineage : Class ρ κ → List (Class ρ κ)
  | ⟨id, name, none, ms, cs⟩ => [⟨id, name, none, ms, cs⟩]
  | ⟨id, name, some parent, ms, cs⟩ => ⟨id, name, some parent, ms, cs⟩ :: parent.lineage

/-- The members of a class that a receiver can have: an instance has methods, and a class has class
methods. -/
def Class.membersFor (r : Value ρ κ) (c : Class ρ κ) : List (Function ρ κ) :=
  match r with
  | .class _ => c.classMethods
  | _ => c.methods

theorem Class.findMethod?_eq (name : String) :
    ∀ c : Class ρ κ, c.findMethod? name = c.lineage.findSome? (ownMethod? name ·.methods)
  | ⟨_, _, none, ms, _⟩ => by
    rw [findMethod?, lineage, List.findSome?_singleton]
  | ⟨_, _, some parent, ms, _⟩ => by
    rw [findMethod?, findMethod?_eq name parent, lineage, List.findSome?_cons]
    cases ownMethod? name ms <;> rfl

theorem Class.findClassMethod?_eq (name : String) :
    ∀ c : Class ρ κ, c.findClassMethod? name = c.lineage.findSome? (ownMethod? name ·.classMethods)
  | ⟨_, _, none, _, cs⟩ => by
    rw [findClassMethod?, lineage, List.findSome?_singleton]
  | ⟨_, _, some parent, _, cs⟩ => by
    rw [findClassMethod?, findClassMethod?_eq name parent, lineage, List.findSome?_cons]
    cases ownMethod? name cs <;> rfl

/-- The method is the one of the nearest class that has it. -/
theorem Class.methodFor?_eq (c : Class ρ κ) (r : Value ρ κ) (name : String) :
    c.methodFor? r name = c.lineage.findSome? (ownMethod? name <| ·.membersFor r) := by
  cases r with
  | «class» k => exact findClassMethod?_eq name c
  | _ => exact findMethod?_eq name c

theorem Class.methodFor?_eq_none {c : Class ρ κ} {r : Value ρ κ} {name : String}
    (h : c.methodFor? r name = none) : ∀ k ∈ c.lineage, ∀ f ∈ k.membersFor r, f.name ≠ name := by
  intro k hk f hf same
  rw [methodFor?_eq, List.findSome?_eq_none_iff] at h
  have missing := List.find?_eq_none.mp (h k hk) f hf
  exact missing (beq_iff_eq.mpr same)

end Lineages

/-- How the search for a method above ends. The method of the nearest class that has it is bound to the
receiver, in a new environment; or no class from there upwards has it, and nothing has changed. -/
inductive Class.Dispatches (k : Class RefId EnvId) (r : Value RefId EnvId) (name : Lexeme)
    (m : Machine RefId) : EStateM.Result Stop (Machine RefId) (Value RefId EnvId) → Prop
  | found {f : Function RefId EnvId} {m' : Machine RefId}
      (nearest : k.lineage.findSome? (ownMethod? name.text <| ·.membersFor r) = some f)
      (receiver : m'.Receiver m.environments.fresh r f.closure.scope) (grown : m.Grows m') :
      Dispatches k r name m (.ok (.function m.objects.size (f.within m.environments.fresh)) m')
  | missing (none : ∀ c ∈ k.lineage, ∀ f ∈ c.membersFor r, f.name ≠ name.text) :
      Dispatches k r name m (.error (.error ⟨.undefinedProperty name.text, some name.line⟩) m)

theorem bindMethod_dispatches (k : Class RefId EnvId) (r : Value RefId EnvId) (name : Lexeme)
    (m : Machine RefId) : k.Dispatches r name m (bindMethod (k.methodFor? r name.text) r name m) := by
  cases hf : k.methodFor? r name.text with
  | none => exact .missing (Class.methodFor?_eq_none hf)
  | some f =>
    have environments := Environments.define_nest m.environments f.closure.scope "this" (some r)
    refine .found (Class.methodFor?_eq k r _ ▸ hf) ?_ (.trans (.push m _) (.of_eq environments ?_))
    · exact (congrArg (·.all[m.environments.fresh]?) environments).trans Array.getElem?_push_size
    · simp

/-- What an object has under a name: a field of its own, or a method of its class that is bound to it. -/
theorem getProperty_ok {v w : Value RefId EnvId} {name : Lexeme} {m m' : Machine RefId}
    (h : v.getProperty name m = .ok w m') :
    (∃ id, v.fieldsOf? = some id ∧ m.field? id name.text = some w ∧ m' = m) ∨
      ∃ c, ((∃ id, v = .instance id c) ∨ v = .class c) ∧ c.Dispatches v name m (.ok w m') := by
  cases v with
  | «instance» id c =>
    rw [Value.getProperty, get_bind] at h
    cases hf : m.field? id name.text with
    | some u =>
      simp only [hf] at h
      cases h
      exact .inl ⟨id, rfl, hf, rfl⟩
    | none =>
      simp only [hf] at h
      exact .inr ⟨c, .inl ⟨id, rfl⟩, h ▸ bindMethod_dispatches c (.instance id c) name m⟩
  | «class» c =>
    rw [Value.getProperty] at h
    split at h
    · cases h
    · rw [get_bind] at h
      cases hf : m.field? c.id name.text with
      | some u =>
        simp only [hf] at h
        cases h
        exact .inl ⟨c.id, rfl, hf, rfl⟩
      | none =>
        simp only [hf] at h
        exact .inr ⟨c, .inr rfl, h ▸ bindMethod_dispatches c (.class c) name m⟩
  | _ => cases h

end Lox
