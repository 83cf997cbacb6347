import Lox.Machine
import Lox.Operator
import Lox.Proofs.Relabel.Syntax

/-!
Relabelings of values and machines. What operators, natives and look-ups answer is the same under
every relabeling.
-/

namespace Lox

variable {ρ σ τ κ α β : Type}

def Closure.relabel (φ : Relabeling ρ σ) (c : Closure ρ κ) : Closure σ κ :=
  ⟨c.routine.relabel φ, c.scope⟩

def Function.relabel (φ : Relabeling ρ σ) (f : Function ρ κ) : Function σ κ :=
  ⟨f.name, f.closure.relabel φ, f.initializer⟩

def Class.relabel (φ : Relabeling ρ σ) : Class ρ κ → Class σ κ
  | ⟨id, name, none, ms, cs⟩ =>
    ⟨id, name, none, ms.map (Function.relabel φ), cs.map (Function.relabel φ)⟩
  | ⟨id, name, some parent, ms, cs⟩ =>
    ⟨id, name, some (parent.relabel φ), ms.map (Function.relabel φ), cs.map (Function.relabel φ)⟩

def Value.relabel (φ : Relabeling ρ σ) : Value ρ κ → Value σ κ
  | .nil => .nil
  | .bool b => .bool b
  | .number x => .number x
  | .string s => .string s
  | .function id f => .function id (f.relabel φ)
  | .lambda id line c => .lambda id (φ.line line) (c.relabel φ)
  | .class c => .class (c.relabel φ)
  | .native n => .native n
  | .instance id c => .instance id (c.relabel φ)
  | .file h => .file h

theorem Routine.params_relabel (φ : Relabeling ρ σ) (r : Routine ρ) :
    (r.relabel φ).params = r.params.map (Lexeme.relabel φ) := by
  cases r
  rfl

theorem Routine.body_relabel (φ : Relabeling ρ σ) (r : Routine ρ) :
    (r.relabel φ).body = r.body.map (Stmt.relabel φ) := by
  cases r
  exact Stmt.relabelAll_eq_map φ _

@[simp] theorem Function.arity_relabel (φ : Relabeling ρ σ) (f : Function ρ κ) :
    (f.relabel φ).arity = f.arity := by
  simp only [Function.arity, Function.relabel, Closure.relabel, Routine.params_relabel,
    List.length_map]

namespace Class

variable (φ : Relabeling ρ σ)

@[simp] theorem id_relabel (c : Class ρ κ) : (c.relabel φ).id = c.id := by
  obtain ⟨id, name, _ | parent, ms, cs⟩ := c <;> rfl

@[simp] theorem name_relabel (c : Class ρ κ) : (c.relabel φ).name = c.name := by
  obtain ⟨id, name, _ | parent, ms, cs⟩ := c <;> rfl

@[simp] theorem ownMethod?_map (name : String) (ms : List (Function ρ κ)) :
    ownMethod? name (ms.map (Function.relabel φ)) =
      (ownMethod? name ms).map (Function.relabel φ) := by
  simp only [ownMethod?, List.find?_map]
  rfl

@[simp] theorem findMethod?_relabel (name : String) :
    ∀ c : Class ρ κ, (c.relabel φ).findMethod? name = (c.findMethod? name).map (Function.relabel φ)
  | ⟨_, _, none, ms, _⟩ => ownMethod?_map φ name ms
  | ⟨_, _, some parent, ms, _⟩ => by
    simp only [relabel, findMethod?, ownMethod?_map, findMethod?_relabel name parent]
    cases ownMethod? name ms <;> rfl

@[simp] theorem findClassMethod?_relabel (name : String) :
    ∀ c : Class ρ κ,
      (c.relabel φ).findClassMethod? name = (c.findClassMethod? name).map (Function.relabel φ)
  | ⟨_, _, none, _, cs⟩ => ownMethod?_map φ name cs
  | ⟨_, _, some parent, _, cs⟩ => by
    simp only [relabel, findClassMethod?, ownMethod?_map, findClassMethod?_relabel name parent]
    cases ownMethod? name cs <;> rfl

@[simp] theorem initializer?_relabel (c : Class ρ κ) :
    (c.relabel φ).initializer? = c.initializer?.map (Function.relabel φ) :=
  findMethod?_relabel φ _ c

@[simp] theorem arity_relabel (c : Class ρ κ) : (c.relabel φ).arity = c.arity := by
  simp only [arity, initializer?_relabel, Option.map_map]
  congr 2
  funext f
  exact Function.arity_relabel φ f

end Class

namespace Value

variable (φ : Relabeling ρ σ)

@[simp] theorem truthy_relabel (v : Value ρ κ) : (v.relabel φ).truthy = v.truthy := by
  cases v <;> rfl

@[simp] theorem equals_relabel (v w : Value ρ κ) :
    (v.relabel φ).equals (w.relabel φ) = v.equals w := by
  cases v <;> cases w <;> simp only [relabel, equals, Class.id_relabel]

@[simp] theorem display_relabel (v : Value ρ κ) : (v.relabel φ).display = v.display := by
  cases v <;> simp only [relabel, display, Class.name_relabel, Function.relabel]

theorem relabel_relabel (ψ : Relabeling σ τ) (v : Value ρ κ) :
    (v.relabel φ).relabel ψ = v.relabel (ψ.comp φ) := by
  have hf : ∀ f : Function ρ κ, (f.relabel φ).relabel ψ = f.relabel (ψ.comp φ) := fun f => by
    simp only [Function.relabel, Closure.relabel, Routine.relabel_relabel]
  have hc : ∀ c : Class ρ κ, (c.relabel φ).relabel ψ = c.relabel (ψ.comp φ) := by
    intro c
    induction c using Class.relabel.induct with
    | case1 id name ms cs => simp only [Class.relabel, List.map_map, Function.comp_def, hf]
    | case2 id name parent ms cs ih =>
      simp only [Class.relabel, List.map_map, Function.comp_def, hf, ih]
  cases v with
  | function id f => simp only [relabel, hf]
  | lambda id line c =>
    simp only [relabel, Closure.relabel, Routine.relabel_relabel]
    rfl
  | «class» c | «instance» _ c => simp only [relabel, hc]
  | _ => rfl

end Value

/-! Operators. -/

def RuntimeError.relabel (φ : Relabeling ρ σ) (e : RuntimeError) : RuntimeError :=
  ⟨e.fault, e.line.map φ.line⟩

@[simp] theorem RuntimeError.relabel_withLine (φ : Relabeling ρ σ) (e : RuntimeError) (line : Nat) :
    (e.withLine line).relabel φ = (e.relabel φ).withLine (φ.line line) := by
  obtain ⟨fault, _ | _⟩ := e <;> rfl

/-- What an operator answers, relabelled. -/
def relabelExcept (φ : Relabeling ρ σ) :
    Except RuntimeError (Value ρ κ) → Except RuntimeError (Value σ κ)
  | .ok v => .ok (v.relabel φ)
  | .error e => .error (e.relabel φ)

theorem UnaryOp.apply_relabel (φ : Relabeling ρ σ) (op : UnaryOp) (line : Nat) (v : Value ρ κ) :
    op.apply (φ.line line) (v.relabel φ) = relabelExcept φ (op.apply line v) := by
  cases op with
  | not =>
    simp only [UnaryOp.apply, Value.truthy_relabel]
    rfl
  | negate => cases v <;> rfl

theorem NumericOp.apply_relabel (φ : Relabeling ρ σ) (op : NumericOp) (line : Nat) (x y : Float) :
    op.apply (φ.line line) x y =
      relabelExcept φ (op.apply line x y : Except RuntimeError (Value ρ κ)) := by
  cases op with
  | divide =>
    simp only [NumericOp.apply]
    split <;> rfl
  | _ => rfl

theorem Value.add_relabel (φ : Relabeling ρ σ) (line : Nat) (v w : Value ρ κ) :
    (v.relabel φ).add (φ.line line) (w.relabel φ) = relabelExcept φ (v.add line w) := by
  cases v <;> cases w <;> rfl

theorem BinaryOp.apply_relabel (φ : Relabeling ρ σ) (op : BinaryOp) (line : Nat)
    (v w : Value ρ κ) :
    op.apply (φ.line line) (v.relabel φ) (w.relabel φ) = relabelExcept φ (op.apply line v w) := by
  cases op with
  | comma => rfl
  | equal | notEqual =>
    simp only [BinaryOp.apply, Value.equals_relabel]
    rfl
  | add => exact Value.add_relabel φ line v w
  | numeric op =>
    cases v <;> cases w <;> first | rfl | exact NumericOp.apply_relabel φ op line _ _

theorem LogicalOp.decides_relabel (φ : Relabeling ρ σ) (op : LogicalOp) (v : Value ρ κ) :
    op.decides (v.relabel φ) = op.decides v := by
  cases op <;> simp only [LogicalOp.decides, Value.truthy_relabel]

/-! Environments. -/

def Lookup.map (f : α → β) : Lookup α → Lookup β
  | .missing => .missing
  | .unassigned => .unassigned
  | .found a => .found (f a)

namespace Environment

variable (f : α → β) (e : Environment α)

def map : Environment β := ⟨e.entries.map fun (n, a) => (n, a.map f), e.enclosing⟩

@[simp] theorem slot?_map (name : String) : (e.map f).slot? name = e.slot? name := by
  simp only [slot?, map, List.findIdx?_map]
  rfl

@[simp] theorem slotFor_map (name : String) : (e.map f).slotFor name = e.slotFor name := by
  have h : (e.map f).entries.length = e.entries.length := List.length_map _
  simp only [slotFor, slot?_map, h]

@[simp] theorem hasSlot_map (slot : Nat) : (e.map f).hasSlot slot = e.hasSlot slot := by
  simp only [hasSlot, map, List.length_map]

@[simp] theorem getSlot_map (slot : Nat) : (e.map f).getSlot slot = (e.getSlot slot).map f := by
  simp only [getSlot, map, List.getElem?_map]
  obtain _ | ⟨name, _ | a⟩ := e.entries[slot]? <;> rfl

theorem map_putSlot (slot : Nat) (a : Option α) :
    (e.putSlot slot a).map f = (e.map f).putSlot slot (a.map f) := by
  simp only [map, putSlot]
  congr 1
  apply List.ext_getElem?
  intro i
  simp only [List.getElem?_map, List.getElem?_modify]
  cases e.entries[i]? with
  | none => rfl
  | some entry => by_cases h : slot = i <;> simp [h]

theorem map_define (name : String) (a : Option α) :
    (e.define name a).map f = (e.map f).define name (a.map f) := by
  simp only [define, slot?_map]
  cases e.slot? name with
  | none => simp [map]
  | some slot => exact map_putSlot f e slot a

end Environment

namespace Environments

variable (f : α → β) (s : Environments α)

def map : Environments β := ⟨s.all.map (Environment.map f)⟩

@[simp] theorem fresh_map : (s.map f).fresh = s.fresh := by
  simp only [fresh, map, Array.size_map]

theorem map_nest (e : EnvId) : (s.nest e).map f = (s.map f).nest e := by
  simp only [map, nest, Array.map_push]
  rfl

theorem map_modify (e : EnvId) (g : Environment α → Environment α)
    (g' : Environment β → Environment β) (h : ∀ x, (g x).map f = g' (x.map f)) :
    (s.modify e g).map f = (s.map f).modify e g' := by
  simp only [map, modify]
  congr 1
  apply Array.ext_getElem?
  intro i
  simp only [Array.getElem?_map, Array.getElem?_modify]
  by_cases hi : e = i
  · rw [if_pos hi, if_pos hi]
    cases s.all[i]? with
    | none => rfl
    | some x => exact congrArg some (h x)
  · rw [if_neg hi, if_neg hi]

theorem map_define (e : EnvId) (name : String) (a : Option α) :
    (s.define e name a).map f = (s.map f).define e name (a.map f) :=
  s.map_modify f e _ _ fun x => x.map_define f name a

theorem map_put (e : EnvId) (slot : Nat) (a : α) :
    (s.put e slot a).map f = (s.map f).put e slot (f a) :=
  s.map_modify f e _ _ fun x => x.map_putSlot f slot (some a)

@[simp] theorem slot?_map (e : EnvId) (name : String) : (s.map f).slot? e name = s.slot? e name := by
  simp only [slot?, map, Array.getElem?_map]
  cases s.all[e]? with
  | none => rfl
  | some x => exact x.slot?_map f name

@[simp] theorem slotFor_map (e : EnvId) (name : String) :
    (s.map f).slotFor e name = s.slotFor e name := by
  simp only [slotFor, map, Array.getElem?_map]
  cases s.all[e]? with
  | none => rfl
  | some x => exact x.slotFor_map f name

@[simp] theorem hasSlot_map (e : EnvId) (slot : Nat) : (s.map f).hasSlot e slot = s.hasSlot e slot := by
  simp only [hasSlot, map, Array.getElem?_map]
  cases s.all[e]? with
  | none => rfl
  | some x => exact x.hasSlot_map f slot

@[simp] theorem getSlot_map (e : EnvId) (slot : Nat) :
    (s.map f).getSlot e slot = (s.getSlot e slot).map f := by
  simp only [getSlot, map, Array.getElem?_map]
  cases s.all[e]? with
  | none => rfl
  | some x => exact x.getSlot_map f slot

@[simp] theorem ancestor?_map (e : EnvId) (distance : Nat) :
    (s.map f).ancestor? e distance = s.ancestor? e distance := by
  induction distance generalizing e with
  | zero => rfl
  | succ distance ih =>
    have h : (s.map f).all[e]?.bind (·.enclosing) = s.all[e]?.bind (·.enclosing) := by
      simp only [map, Array.getElem?_map]
      cases s.all[e]? <;> rfl
    simp only [ancestor?, h]
    congr 1
    funext up
    exact ih up

@[simp] theorem getAt_map (e : EnvId) (distance slot : Nat) :
    (s.map f).getAt e distance slot = (s.getAt e distance slot).map f := by
  simp only [getAt, ancestor?_map]
  cases s.ancestor? e distance with
  | none => rfl
  | some up => exact s.getSlot_map f up slot

end Environments

end Lox
