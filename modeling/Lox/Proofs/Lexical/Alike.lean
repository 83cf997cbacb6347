import Lox.Proofs.Lexical.World
import Lox.Proofs.Native
import Mathlib.Data.List.Forall2

/-!
Values that are alike. The evaluator's functions keep an environment, those of lexical scoping a list of
names and cells; two functions are alike if these correspond and both come from the same place of a
program. Values that are alike differ in nothing else, and programs cannot tell them apart.
-/

namespace Lox

open Lexical (Locals)

namespace World

variable {W V : World}

/-- The closures have the same routine of a program, and what they keep corresponds. Around the
routine there may be another scope, which a method gets with its receiver. An initializer stands
inside of the scope of `this`. -/
def Closures (W : World) (around : Names → Names) (initializer : Bool) (c : Closure RefId EnvId)
    (c' : Closure RefId Locals) : Prop :=
  c'.routine = c.routine ∧ ∃ p ∈ W.programs, ∃ context Γ kind,
    W.Chain Γ c.scope c'.scope ∧ Stands p context (around Γ) (.routine kind c.routine) ∧
    (initializer → kind = .initializer ∧ ∃ outer, around Γ = ["this"] :: outer)

structure Functions (W : World) (around : Names → Names) (f : Function RefId EnvId)
    (f' : Function RefId Locals) : Prop where
  name : f'.name = f.name
  initializer : f'.initializer = f.initializer
  closure : W.Closures around f.initializer f.closure f'.closure

/-- Methods as a class has them, without a receiver. -/
abbrev Methods (W : World) := W.Functions (["this"] :: ·)

inductive Classes (W : World) : Class RefId EnvId → Class RefId Locals → Prop
  | base (id : ObjectId) (name : String) {ms ms' cs cs'} (hm : List.Forall₂ W.Methods ms ms')
      (hc : List.Forall₂ W.Methods cs cs') : Classes W ⟨id, name, none, ms, cs⟩ ⟨id, name, none, ms', cs'⟩
  | derived (id : ObjectId) (name : String) {parent parent' ms ms' cs cs'}
      (hp : Classes W parent parent') (hm : List.Forall₂ W.Methods ms ms')
      (hc : List.Forall₂ W.Methods cs cs') :
      Classes W ⟨id, name, some parent, ms, cs⟩ ⟨id, name, some parent', ms', cs'⟩

inductive Values (W : World) : Value RefId EnvId → Value RefId Locals → Prop
  | nil : Values W .nil .nil
  | bool (b : Bool) : Values W (.bool b) (.bool b)
  | number (x : Float) : Values W (.number x) (.number x)
  | string (s : String) : Values W (.string s) (.string s)
  | function (object : ObjectId) {f f'} (h : W.Functions id f f') :
      Values W (.function object f) (.function object f')
  | lambda (object : ObjectId) (line : Nat) {c c'} (h : W.Closures id false c c') :
      Values W (.lambda object line c) (.lambda object line c')
  | class {c c'} (h : W.Classes c c') : Values W (.class c) (.class c')
  | native (n : Native) : Values W (.native n) (.native n)
  | instance (object : ObjectId) {c c'} (h : W.Classes c c') :
      Values W (.instance object c) (.instance object c')
  | file (handle : FileSystem.HandleId) : Values W (.file handle) (.file handle)

/-! What is alike stays alike when the world gets larger. -/

theorem Closures.extend {around : Names → Names} {initializer : Bool} {c : Closure RefId EnvId}
    {c' : Closure RefId Locals} (h : W.Closures around initializer c c') (hw : W.Extends V) :
    V.Closures around initializer c c' := by
  obtain ⟨hr, p, hp, context, Γ, kind, chain, rest⟩ := h
  exact ⟨hr, p, hw.programs hp, context, Γ, kind, chain.extend hw, rest⟩

theorem Functions.extend {around : Names → Names} {f : Function RefId EnvId}
    {f' : Function RefId Locals} (h : W.Functions around f f') (hw : W.Extends V) :
    V.Functions around f f' := ⟨h.name, h.initializer, h.closure.extend hw⟩

theorem Classes.extend {c : Class RefId EnvId} {c' : Class RefId Locals} (h : W.Classes c c')
    (hw : W.Extends V) : V.Classes c c' := by
  have methods {ms : List (Function RefId EnvId)} {ms' : List (Function RefId Locals)}
      (h : List.Forall₂ W.Methods ms ms') : List.Forall₂ V.Methods ms ms' :=
    h.imp fun _ _ hf => hf.extend hw
  induction h with
  | base id name hm hc => exact .base id name (methods hm) (methods hc)
  | derived id name _ hm hc ih => exact .derived id name ih (methods hm) (methods hc)

theorem Values.extend {v : Value RefId EnvId} {v' : Value RefId Locals} (h : W.Values v v')
    (hw : W.Extends V) : V.Values v v' := by
  cases h with
  | nil => exact .nil
  | bool b => exact .bool b
  | number x => exact .number x
  | string s => exact .string s
  | function id h => exact .function id (h.extend hw)
  | lambda id line h => exact .lambda id line (h.extend hw)
  | «class» h => exact .class (h.extend hw)
  | native n => exact .native n
  | «instance» id h => exact .instance id (h.extend hw)
  | file handle => exact .file handle

/-! What programs can see of values. -/

namespace Classes

variable {c : Class RefId EnvId} {c' : Class RefId Locals}

theorem of (id : ObjectId) (name : String) {parent : Option (Class RefId EnvId)}
    {parent' : Option (Class RefId Locals)} {ms cs : List (Function RefId EnvId)}
    {ms' cs' : List (Function RefId Locals)} (hp : Option.Rel W.Classes parent parent')
    (hm : List.Forall₂ W.Methods ms ms') (hc : List.Forall₂ W.Methods cs cs') :
    W.Classes ⟨id, name, parent, ms, cs⟩ ⟨id, name, parent', ms', cs'⟩ := by
  cases hp with
  | none => exact .base id name hm hc
  | some hp => exact .derived id name hp hm hc

theorem id (h : W.Classes c c') : c'.id = c.id := by cases h <;> rfl

theorem name (h : W.Classes c c') : c'.name = c.name := by cases h <;> rfl

theorem ownMethod? {ms : List (Function RefId EnvId)} {ms' : List (Function RefId Locals)}
    (h : List.Forall₂ W.Methods ms ms') (name : String) :
    Option.Rel W.Methods (Class.ownMethod? name ms) (Class.ownMethod? name ms') := by
  induction h with
  | nil => exact .none
  | @cons f f' ms ms' hf _ ih =>
    simp only [Class.ownMethod?, List.find?_cons, hf.name]
    cases f.name == name with
    | true => exact .some hf
    | false => exact ih

theorem orElse {α β : Type} {R : α → β → Prop} {a b : Option α} {a' b' : Option β}
    (ha : Option.Rel R a a') (hb : Option.Rel R b b') : Option.Rel R (a <|> b) (a' <|> b') := by
  cases ha with
  | some h => exact .some h
  | none => exact hb

theorem findMethod? (h : W.Classes c c') (name : String) :
    Option.Rel W.Methods (c.findMethod? name) (c'.findMethod? name) := by
  induction h with
  | base id n hm hc => exact ownMethod? hm name
  | derived id n hp hm hc ih => exact orElse (ownMethod? hm name) ih

theorem findClassMethod? (h : W.Classes c c') (name : String) :
    Option.Rel W.Methods (c.findClassMethod? name) (c'.findClassMethod? name) := by
  induction h with
  | base id n hm hc => exact ownMethod? hc name
  | derived id n hp hm hc ih => exact orElse (ownMethod? hc name) ih

theorem arity (h : W.Classes c c') : c'.arity = c.arity := by
  have hi : Option.Rel W.Methods c.initializer? c'.initializer? := h.findMethod? _
  unfold Class.arity
  generalize c.initializer? = f, c'.initializer? = f' at hi
  cases hi with
  | none => rfl
  | some hf => exact congrArg (fun r => r.params.length) hf.closure.1

end Classes

theorem Functions.arity {around : Names → Names} {f : Function RefId EnvId}
    {f' : Function RefId Locals} (h : W.Functions around f f') : f'.arity = f.arity :=
  congrArg (fun r => r.params.length) h.closure.1

namespace Values

variable {v w : Value RefId EnvId} {v' w' : Value RefId Locals}

theorem bare (h : W.Values v v') : v'.bare = v.bare := by
  cases h with
  | function id h => simp only [Value.bare, h.name, h.initializer]
  | «class» h | «instance» id h => simp only [Value.bare, h.id, h.name]
  | _ => rfl

theorem map_bare {vs : List (Value RefId EnvId)} {vs' : List (Value RefId Locals)}
    (h : List.Forall₂ W.Values vs vs') : vs'.map Value.bare = vs.map Value.bare := by
  induction h with
  | nil => rfl
  | cons hv _ ih => rw [List.map_cons, List.map_cons, hv.bare, ih]

theorem ofBare (v : Value Unit Unit) : W.Values v.ofBare v.ofBare := by
  cases v with
  | bool b => exact .bool b
  | number x => exact .number x
  | string s => exact .string s
  | file handle => exact .file handle
  | _ => exact .nil

theorem ofLiteral (l : Literal) : W.Values (.ofLiteral l) (.ofLiteral l) := by
  cases l with
  | nil => exact .nil
  | bool b => exact .bool b
  | number x => exact .number x
  | string s => exact .string s

theorem display (h : W.Values v v') : v'.display = v.display := by
  rw [← v.display_bare, ← v'.display_bare, h.bare]

theorem truthy (h : W.Values v v') : v'.truthy = v.truthy := by
  cases h <;> rfl

theorem equals (h : W.Values v v') (k : W.Values w w') : v'.equals w' = v.equals w := by
  cases h with
  | «class» h =>
    cases k with
    | «class» k => simp only [Value.equals, h.id, k.id]
    | _ => rfl
  | _ => cases k <;> rfl

theorem fieldsOf? (h : W.Values v v') : v'.fieldsOf? = v.fieldsOf? := by
  cases h with
  | «class» h => exact congrArg some h.id
  | _ => rfl

theorem decides (h : W.Values v v') (op : LogicalOp) : op.decides v' = op.decides v := by
  cases op <;> simp only [LogicalOp.decides, h.truthy]

end Values

/-- Both operations fail in the same way, or their values are alike. -/
inductive Results (W : World) :
    Except RuntimeError (Value RefId EnvId) → Except RuntimeError (Value RefId Locals) → Prop
  | ok {v v'} (h : W.Values v v') : Results W (.ok v) (.ok v')
  | error (e : RuntimeError) : Results W (.error e) (.error e)

namespace Results

variable {v w : Value RefId EnvId} {v' w' : Value RefId Locals}

theorem unary (h : W.Values v v') (op : UnaryOp) (line : Nat) :
    W.Results (op.apply line v) (op.apply line v') := by
  cases op with
  | not => exact .ok (h.truthy ▸ .bool _)
  | negate =>
    cases h with
    | number x => exact .ok (.number _)
    | _ => exact .error _

theorem numeric (op : NumericOp) (line : Nat) (x y : Float) :
    W.Results (op.apply line x y) (op.apply line x y) := by
  cases op with
  | divide =>
    simp only [NumericOp.apply]
    split
    · exact .error _
    · exact .ok (.number _)
  | subtract | multiply => exact .ok (.number _)
  | less | lessEqual | greater | greaterEqual => exact .ok (.bool _)

theorem binary (h : W.Values v v') (k : W.Values w w') (op : BinaryOp) (line : Nat) :
    W.Results (op.apply line v w) (op.apply line v' w') := by
  cases op with
  | comma => exact .ok k
  | equal | notEqual => exact .ok (h.equals k ▸ .bool _)
  | add => cases h <;> cases k <;> first | exact .error _ | exact .ok (.number _) | exact .ok (.string _)
  | numeric op => cases h <;> cases k <;> first | exact .error _ | exact numeric op line _ _

end Results

end World

end Lox
