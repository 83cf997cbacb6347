import Lox.Proofs.Inheritance.Runs
import Lox.Proofs.Operator

/-!
The smallest steps enter what they make. None of them makes a class: objects that are made on the way are
instances, functions and methods.
-/

namespace Lox

open Inheritance (Enters)

variable {ρ : Type} {made : Ledger ρ} {m : Machine ρ} {v w u : Value ρ EnvId}

namespace Ledger

/-! Values that are no classes and no instances. -/

theorem knows_ofBare (v : Value Unit Unit) : made.Knows v.ofBare := by
  cases v <;> exact .of_none rfl

theorem knows_ofLiteral (l : Literal) : made.Knows (.ofLiteral l) := by
  obtain ⟨b, h⟩ := Value.ofLiteral_ofBare (ρ := ρ) (κ := EnvId) l
  exact h ▸ knows_ofBare b

theorem knows_unary {op : UnaryOp} {line : Nat} (h : op.apply line v = .ok w) : made.Knows w := by
  obtain ⟨b, rfl⟩ := UnaryOp.apply_ofBare h
  exact knows_ofBare b

theorem knows_binary {op : BinaryOp} {line : Nat} (hw : made.Knows w)
    (h : op.apply line v w = .ok u) : made.Knows u := by
  obtain rfl | ⟨b, rfl⟩ := BinaryOp.apply_ofBare h
  · exact hw
  · exact knows_ofBare b

end Ledger

namespace Inheritance

section Steps

variable (fits : m.Fits made)

include fits

/-- What is read is stored, and nothing happens. -/
theorem read_enters (b : Option Binding) (name : Lexeme) :
    Enters made m (fun made' v => made' = made ∧ made'.Knows v) (fun _ _ => Run.read b name)
      (Run.read b name) := by
  refine .get ?_
  cases m.place? b name.text with
  | none => exact .raise fits _ _
  | some place =>
    cases hv : m.environments.getSlot place.1 place.2 with
    | found v =>
      simp only [hv]
      exact .pure fits ⟨rfl, fits.getSlot hv⟩
    | unassigned | missing =>
      simp only [hv]
      exact .raise fits _ _

theorem assign_enters (b : Option Binding) (name : Lexeme) (hv : made.Knows v) :
    Enters made m (fun _ _ => True) (fun _ _ => Run.assign b name v) (Run.assign b name v) := by
  refine .get ?_
  cases m.place? b name.text with
  | none => exact .raise fits _ _
  | some place => exact .step rfl (fits.put place.1 place.2 hv) trivial

theorem define_enters (e : EnvId) (name : String) {a : Option (Value ρ EnvId)}
    (ha : ∀ v, a = some v → made.Knows v) :
    Enters made m (fun _ _ => True) (fun _ _ => Run.define e name a) (Run.define e name a) :=
  .step rfl (fits.define e name ha) trivial

theorem put_enters (e : EnvId) (slot : Nat) (hv : made.Knows v) :
    Enters made m (fun made' _ => made' = made) (fun _ _ => Run.put e slot v) (Run.put e slot v) :=
  .step rfl (fits.put e slot hv) rfl

theorem declare_enters (name : String) :
    Enters made m (fun made' _ => made' = made) (fun _ _ => Run.declare name) (Run.declare name) :=
  .step rfl (fits.define m.scope name nofun) rfl

theorem nestIn_enters (up : EnvId) :
    Enters made m (fun _ _ => True) (fun _ _ => Run.nestIn up) (Run.nestIn up) :=
  .step rfl (fits.nest up) trivial

theorem nest_enters : Enters made m (fun _ _ => True) (fun _ _ => Run.nest) Run.nest :=
  .step rfl (fits.nest m.scope) trivial

theorem setField_enters (id : ObjectId) (name : String) (hv : made.Knows v) :
    Enters made m (fun _ _ => True) (fun _ _ => Run.setField id name v) (Run.setField id name v) :=
  .step rfl (fits.setField id name hv) trivial

/-- A new object is entered for what it is. -/
theorem newObject_adds {entry : Option (Class ρ EnvId)} (kept : Ledger.Kept (made ++ [entry])) :
    Enters made m (fun made' id => made' = made ++ [entry] ∧ id = made.length)
      (fun _ _ => Run.newObject) Run.newObject :=
  ⟨made ++ [entry], List.prefix_append _ _, .ok (fits.newObject kept) ⟨rfl, fits.size.symm⟩,
    fun _ _ _ => rfl⟩

theorem newObject_enters :
    Enters made m (fun _ _ => True) (fun _ _ => Run.newObject) Run.newObject :=
  (newObject_adds fits fits.kept.object).imp fun _ _ => trivial

theorem write_enters (text : String) :
    Enters made m (fun _ _ => True) (fun _ _ => Run.write text) (Run.write text) := by
  refine ⟨made, List.prefix_refl _, ?_, fun _ _ _ => rfl⟩
  simp only [Run.write]
  split
  · exact .ok (fits.setHost _) trivial
  · exact .error _ (fits.setHost _)

theorem flush_enters : Enters made m (fun _ _ => True) (fun _ _ => Run.flush) Run.flush := by
  refine .get ?_
  split
  · exact .throw fits _
  · exact .pure fits trivial

theorem native_enters (n : Native) (vs : List (Value ρ EnvId)) (h : vs.length = n.arity) :
    Enters made m Ledger.Knows (fun _ _ => Run.native n vs h) (Run.native n vs h) := by
  refine ⟨made, List.prefix_refl _, ?_, fun _ _ _ => rfl⟩
  simp only [Run.native]
  rw [n.run_bare vs h (by rw [List.length_map, h])]
  simp only [Functor.map, EStateM.map]
  cases n.run (vs.map Value.bare) (by rw [List.length_map, h]) m.host with
  | ok v host => exact .ok (fits.setHost host) (Ledger.knows_ofBare v)
  | error fault host => exact .error _ (fits.setHost host)

theorem ofExcept_enters {x : Except RuntimeError (Value ρ EnvId)}
    (h : ∀ v, x = .ok v → made.Knows v) :
    Enters made m Ledger.Knows (fun _ _ => Run.ofExcept x) (Run.ofExcept x) := by
  cases x with
  | ok v => exact .pure fits (h v rfl)
  | error e => exact .throw fits _

/-! Methods. -/

/-- The environment that binds a method stores the receiver. -/
theorem bind_enters (f : Function ρ EnvId) {receiver : Value ρ EnvId} (hr : made.Knows receiver) :
    Enters made m (fun _ _ => True) (fun _ _ => f.bind receiver) (f.bind receiver) := by
  refine (nestIn_enters fits f.closure.scope).bind fun le fits _ => ?_
  refine (define_enters fits _ "this" fun v hv => ?_).bind fun _ fits _ => .pure fits trivial
  cases hv
  exact hr.grow le

theorem bindMethod_enters (method : Option (Function ρ EnvId)) {receiver : Value ρ EnvId}
    (hr : made.Knows receiver) (name : Lexeme) :
    Enters made m Ledger.Knows (fun _ _ => bindMethod method receiver name)
      (bindMethod method receiver name) := by
  cases method with
  | none => exact .raise fits _ _
  | some f =>
    exact (bind_enters fits f hr).bind fun _ fits _ =>
      (newObject_enters fits).bind fun _ fits _ => .pure fits (.of_none rfl)

theorem getProperty_enters (hv : made.Knows v) (name : Lexeme) :
    Enters made m Ledger.Knows (fun _ _ => v.getProperty name) (v.getProperty name) := by
  cases v with
  | «instance» id c =>
    refine .get ?_
    cases hf : m.field? id name.text with
    | some w => exact .pure fits (fits.field? hf)
    | none => exact bindMethod_enters fits _ hv name
  | «class» c =>
    simp only [Value.getProperty]
    split
    · exact .raise fits _ _
    · refine .get ?_
      cases hf : m.field? c.id name.text with
      | some w => exact .pure fits (fits.field? hf)
      | none => exact bindMethod_enters fits _ hv name
  | _ => exact .raise fits _ _

theorem getSuper_enters (b : Option Binding) (keyword method : Lexeme) :
    Enters made m Ledger.Knows (fun _ _ => getSuper b keyword method) (getSuper b keyword method) := by
  refine .get ?_
  split
  · next distance slot =>
    have receiver {v : Value ρ EnvId} (hv : m.environments.getAt m.scope distance 0 = .found v) :
        made.Knows v := by
      rw [Environments.getAt] at hv
      split at hv
      · cases hv
      · exact fits.getSlot hv
    dsimp only
    split
    · next hv => exact bindMethod_enters fits _ (receiver hv) method
    · next hv => exact bindMethod_enters fits _ (receiver hv) method
    · exact .raise fits _ _
  · exact .raise fits _ _

end Steps

end Inheritance

end Lox
