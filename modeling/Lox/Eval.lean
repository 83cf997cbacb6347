import Lox.Machine
import Lox.Operator

/-!
The evaluator. `evalStep` and `execStep` say what an expression and a statement do, given how the
phrases inside them run; `eval` and `exec` tie the knot. Their fuel bounds how many phrases run inside
each other, and how often a loop goes round. Where the variable of a reference lives, unless it is
global, is looked up by what the reference carries.
-/

namespace Lox

open Run

variable {ρ κ : Type}

/-- How a statement ends, if it does not fail. -/
inductive Outcome (ρ κ : Type) where
  | normal
  | broke
  | returned (v : Value ρ κ)

/-- The method with its receiver: an environment of its own, inside the one it was written in, holds
`this`. -/
def Function.bind (f : Function ρ EnvId) (receiver : Value ρ EnvId) : Run ρ (Function ρ EnvId) := do
  let e ← nestIn f.closure.scope
  define e "this" (some receiver)
  return f.within e

/-- The value of a property that is a method. -/
def bindMethod (method : Option (Function ρ EnvId)) (receiver : Value ρ EnvId) (name : Lexeme) :
    Run ρ (Value ρ EnvId) := do
  match method with
  | none => raise (.undefinedProperty name.text) name.line
  | some f =>
    let f ← f.bind receiver
    return .function (← newObject) f

/-- A property of an object: a field of its own, or else a method of its class. -/
def Value.getProperty (object : Value ρ EnvId) (name : Lexeme) : Run ρ (Value ρ EnvId) := do
  match object with
  | .instance id c =>
    match (← get).field? id name.text with
    | some v => return v
    | none => bindMethod (c.findMethod? name.text) object name
  | .class c =>
    if name.text = Scoping.initializerName then raise .initOnClass name.line
    else match (← get).field? c.id name.text with
    | some v => return v
    | none => bindMethod (c.findClassMethod? name.text) object name
  | _ => raise .propertyOnNonInstance name.line

/-- The object whose fields can be set, if the value has any. -/
def Value.fieldsOf? : Value ρ κ → Option ObjectId
  | .instance id _ => some id
  | .class c => some c.id
  | _ => none

/-- A method of the class above. The environment with `super` lies around the one with `this`. -/
def getSuper (site : Option Binding) (keyword method : Lexeme) : Run ρ (Value ρ EnvId) := do
  let m ← get
  let missing : Run ρ (Value ρ EnvId) := raise (.undefinedVariable keyword.text) keyword.line
  match site with
  | some ⟨distance + 1, slot⟩ =>
    let superclass := m.environments.getAt m.scope (distance + 1) slot
    let receiver := m.environments.getAt m.scope distance 0
    match superclass, receiver with
    | .found (.class c), .found (.instance id k) =>
      bindMethod (c.findMethod? method.text) (.instance id k) method
    | .found (.class c), .found (.class k) =>
      bindMethod (c.findClassMethod? method.text) (.class k) method
    | _, _ => missing
  | _ => missing

section Steps

variable (site : ρ → Option Binding) (exec : Stmt ρ → Run ρ (Outcome ρ EnvId))
  (eval : Expr ρ → Run ρ (Value ρ EnvId))

/-- Runs statements up to the first that does not end normally. -/
@[specialize] def execAll : List (Stmt ρ) → Run ρ (Outcome ρ EnvId)
  | [] => return .normal
  | s :: ss => do
    match ← exec s with
    | .normal => execAll ss
    | outcome => return outcome

@[specialize] def evalAll : List (Expr ρ) → Run ρ (List (Value ρ EnvId))
  | [] => return []
  | e :: es => do
    let v ← eval e
    return v :: (← evalAll es)

def defineAll (e : EnvId) : List Lexeme → List (Value ρ EnvId) → Run ρ Unit
  | name :: names, v :: vs => do
    define e name.text (some v)
    defineAll e names vs
  | _, _ => return

/-- Runs a routine: its parameters and its own variables share a new environment. -/
@[specialize] def Closure.call (closure : Closure ρ EnvId) (arguments : List (Value ρ EnvId)) :
    Run ρ (Value ρ EnvId) := do
  let e ← nestIn closure.scope
  defineAll e closure.routine.params arguments
  match ← inScope e (execAll exec closure.routine.body) with
  | .returned v => return v
  | .normal | .broke => return .nil

/-- An initializer answers its receiver, which has the only slot of the environment around it. -/
@[specialize] def Function.call (f : Function ρ EnvId) (arguments : List (Value ρ EnvId)) :
    Run ρ (Value ρ EnvId) := do
  let v ← f.closure.call exec arguments
  if f.initializer then
    match (← get).environments.getSlot f.closure.scope 0 with
    | .found receiver => return receiver
    | _ => return .nil
  else return v

/-- A new instance, prepared by its initializer if its class has one. -/
@[specialize] def Class.instantiate (c : Class ρ EnvId) (arguments : List (Value ρ EnvId)) :
    Run ρ (Value ρ EnvId) := do
  let object := .instance (← newObject) c
  match c.initializer? with
  | some f =>
    let f ← f.bind object
    let _ ← f.call exec arguments
  | none => pure ()
  return object

def checkArity (expected : Nat) (arguments : List (Value ρ EnvId)) (line : Nat) : Run ρ Unit :=
  if arguments.length = expected then pure ()
  else raise (.arityMismatch expected arguments.length) line

@[specialize] def Value.call (callee : Value ρ EnvId) (arguments : List (Value ρ EnvId))
    (line : Nat) : Run ρ (Value ρ EnvId) := do
  match callee with
  | .function _ f =>
    checkArity f.arity arguments line
    onLine line (f.call exec arguments)
  | .lambda _ _ closure =>
    checkArity closure.routine.params.length arguments line
    onLine line (closure.call exec arguments)
  | .class c =>
    checkArity c.arity arguments line
    onLine line (c.instantiate exec arguments)
  | .native n =>
    if h : arguments.length = n.arity then onLine line (Run.native n arguments h)
    else raise (.arityMismatch n.arity arguments.length) line
  | _ => raise .notCallable line

@[inline] def evalStep (e : Expr ρ) : Run ρ (Value ρ EnvId) := do
  match e with
  | .literal v => return .ofLiteral v
  | .variable ref name => read (site ref) name
  | .assign ref name e =>
    let v ← eval e
    assign (site ref) name v
    return v
  | .this ref keyword => read (site ref) keyword
  | .super ref keyword method => getSuper (site ref) keyword method
  | .unary op sign e => ofExcept (op.apply sign.line (← eval e))
  | .binary op sign l r =>
    let left ← eval l
    let right ← eval r
    ofExcept (op.apply sign.line left right)
  | .logical op _ l r =>
    let left ← eval l
    if op.decides left then return left else eval r
  | .ternary c y n => if (← eval c).truthy then eval y else eval n
  | .group e => eval e
  | .call c as line =>
    let callee ← eval c
    let arguments ← evalAll eval as
    callee.call exec arguments line
  | .get o name => (← eval o).getProperty name
  | .set o name e =>
    match (← eval o).fieldsOf? with
    | some id =>
      let v ← eval e
      setField id name.text v
      return v
    | none => raise .fieldOnNonInstance name.line
  | .lambda line r =>
    let scope := (← get).scope
    return .lambda (← newObject) line ⟨r, scope⟩

/-- The class that a superclass clause stands for. -/
def readSuperclass : Option (ρ × Lexeme) → Run ρ (Option (Class ρ EnvId))
  | none => return none
  | some (ref, name) => do
    match ← read (site ref) name with
    | .class c => return some c
    | _ => raise .superclassNotClass name.line

/-- The methods see `super` in an environment around them if there is a class above. -/
def methodScope : Option (Class ρ EnvId) → Run ρ EnvId
  | none => return (← get).scope
  | some parent => do
    let e ← nest
    define e "super" (some (.class parent))
    return e

/-- The method values of a class, the latest declared first. -/
def methodTable (scope : κ) (initializer : Lexeme → Bool) (ds : List (Definition ρ)) :
    List (Function ρ κ) :=
  (ds.map fun d => ⟨d.name.text, ⟨d.routine, scope⟩, initializer d.name⟩).reverse

/-- The name of a class is declared once the class above is known, and gets its value last. -/
def defineClass (name : Lexeme) (superclass : Option (ρ × Lexeme))
    (methods classMethods : List (Definition ρ)) : Run ρ Unit := do
  let parent ← readSuperclass site superclass
  let slot ← declare name.text
  let scope ← methodScope parent
  let isInitializer (l : Lexeme) : Bool := l.text == Scoping.initializerName
  let c : Class ρ EnvId := ⟨← newObject, name.text, parent, methodTable scope isInitializer methods,
    methodTable scope (fun _ => false) classMethods⟩
  put (← get).scope slot (.class c)

/-- A global is declared once its initial value is known, which may be read from an older global of
that name; a local has its slot before that. -/
@[specialize] def defineVariable (name : Lexeme) (initial : Option (Expr ρ)) : Run ρ Unit := do
  let e := (← get).scope
  if e = EnvId.global then
    let v ← match initial with
      | some i => some <$> eval i
      | none => pure none
    define e name.text v
  else
    let slot ← declare name.text
    match initial with
    | some i => put e slot (← eval i)
    | none => pure ()

@[inline] def execStep (s : Stmt ρ) : Run ρ (Outcome ρ EnvId) := do
  match s with
  | .expr e =>
    let _ ← eval e
    return .normal
  | .print e =>
    let v ← eval e
    write (v.display ++ "\n")
    return .normal
  | .var name initial =>
    defineVariable eval name initial
    return .normal
  | .block b =>
    let e ← nest
    inScope e (execAll exec b)
  | .if c y n =>
    if (← eval c).truthy then exec y
    else match n with
    | some n => exec n
    | none => return .normal
  | .while c b =>
    if (← eval c).truthy then
      match ← exec b with
      | .normal => exec s
      | .broke => return .normal
      | .returned v => return .returned v
    else return .normal
  | .break _ => return .broke
  | .return _ none => return .returned .nil
  | .return _ (some e) => return .returned (← eval e)
  | .function f =>
    let scope := (← get).scope
    define scope f.name.text
      (some (.function (← newObject) ⟨f.name.text, ⟨f.routine, scope⟩, false⟩))
    return .normal
  | .class name superclass methods classMethods =>
    defineClass site name superclass methods classMethods
    return .normal

end Steps

mutual

def exec (site : ρ → Option Binding) : Nat → Stmt ρ → Run ρ (Outcome ρ EnvId)
  | 0, _ => throw .outOfFuel
  | fuel + 1, s => execStep site (exec site fuel) (eval site fuel) s

def eval (site : ρ → Option Binding) : Nat → Expr ρ → Run ρ (Value ρ EnvId)
  | 0, _ => throw .outOfFuel
  | fuel + 1, e => evalStep site (exec site fuel) (eval site fuel) e

end

/-- Runs statements, and answers the value of the last one that is an expression. -/
def interpretFrom (site : ρ → Option Binding) (fuel : Nat) (last : Value ρ EnvId) :
    List (Stmt ρ) → Run ρ (Value ρ EnvId)
  | [] => return last
  | .expr e :: ss => do interpretFrom site fuel (← eval site fuel e) ss
  | s :: ss => do
    let _ ← exec site fuel s
    interpretFrom site fuel last ss

/-- Runs a program in the machine as it is. -/
def interpret (site : ρ → Option Binding) (fuel : Nat) (p : List (Stmt ρ)) :
    Run ρ (Value ρ EnvId) := do
  let v ← interpretFrom site fuel .nil p
  flush
  return v

end Lox
