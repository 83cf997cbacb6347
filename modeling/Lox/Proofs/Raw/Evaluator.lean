import Lox.Eval
import Lox.Proofs.Operator
import Lox.Proofs.Raw.Tables

/-!
The evaluator as it can panic. Operators are kinds of tokens, environments are tables, and native
functions are handed a list and reach into it. Wherever something is missed the run panics, which is no
way for a program to stop.
-/

namespace Lox

namespace Raw

variable {ρ α β : Type}

/-- Why a run does not go on. -/
inductive Halt where
  | stop (s : Stop)
  | panic

structure Machine (ρ : Type) where
  environments : Array (Tables (Value ρ EnvId)) := #[{}]
  scope : EnvId := EnvId.global
  objects : Array (Fields ρ EnvId) := #[]
  host : Host := {}

abbrev Run (ρ : Type) := EStateM Halt (Machine ρ)

namespace Machine

def ancestor? (m : Machine ρ) (e : EnvId) : Nat → Option EnvId
  | 0 => some e
  | distance + 1 => (m.environments[e]?.bind (·.enclosing)).bind (m.ancestor? · distance)

def getSlot (m : Machine ρ) (e : EnvId) (slot : Nat) : Lookup (Value ρ EnvId) :=
  (m.environments[e]?.map (·.getSlot slot)).getD .missing

def getAt (m : Machine ρ) (e : EnvId) (distance slot : Nat) : Lookup (Value ρ EnvId) :=
  match m.ancestor? e distance with
  | none => .missing
  | some e => m.getSlot e slot

/-- What is known of a variable, which is looked up by its binding or among the globals. -/
def find (m : Machine ρ) (site : Option Binding) (name : String) : Lookup (Value ρ EnvId) :=
  match site with
  | some b => m.getAt m.scope b.distance b.slot
  | none => (m.environments[EnvId.global]?.map (·.get name)).getD .missing

def field? (m : Machine ρ) (id : ObjectId) (name : String) : Option (Value ρ EnvId) :=
  m.objects[id]?.bind (·.lookup name)

end Machine

/-! The smallest steps. -/

def panic : Run ρ α := throw .panic

/-- A step that does not touch environments. -/
def apart (step : Lox.Run ρ α) : Run ρ α
  | ⟨environments, scope, objects, host⟩ => match step ⟨{}, scope, objects, host⟩ with
    | .ok a m => .ok a ⟨environments, scope, m.objects, m.host⟩
    | .error s m => .error (.stop s) ⟨environments, scope, m.objects, m.host⟩

def raise (fault : RuntimeFault) (line : Nat) : Run ρ α := apart (Lox.Run.raise fault line)

def newObject : Run ρ ObjectId := apart Lox.Run.newObject

def setField (id : ObjectId) (name : String) (v : Value ρ EnvId) : Run ρ Unit :=
  apart (Lox.Run.setField id name v)

def write (text : String) : Run ρ Unit := apart (Lox.Run.write text)

def flush : Run ρ Unit := apart Lox.Run.flush

/-- An operation that does not touch the machine, and may not be there. -/
def ofExcept? : Option (Except RuntimeError α) → Run ρ α
  | some x => apart (Lox.Run.ofExcept x)
  | none => panic

def inScope (e : EnvId) (phrase : Run ρ α) : Run ρ α := fun m =>
  match phrase { m with scope := e } with
  | .ok a m' => .ok a { m' with scope := m.scope }
  | .error halt m' => .error halt { m' with scope := m.scope }

def onLine (line : Nat) (phrase : Run ρ α) : Run ρ α := fun m =>
  match phrase m with
  | .error (.stop (.error e)) m => .error (.stop (.error (e.withLine line))) m
  | r => r

def nestIn (e : EnvId) : Run ρ EnvId := modifyGet fun m =>
  (m.environments.size, { m with environments := m.environments.push { enclosing := some e } })

def nest : Run ρ EnvId := do nestIn (← get).scope

/-- Does something to the tables of an environment, or panics if that misses. -/
def onTables (e : EnvId) (default : α)
    (f : Tables (Value ρ EnvId) → Option (α × Tables (Value ρ EnvId))) : Run ρ α := fun m =>
  match m.environments[e]? with
  | none => .ok default m
  | some t => match f t with
    | some (a, t) => .ok a { m with environments := m.environments.setIfInBounds e t }
    | none => .error .panic m

/-- Declares a name, and answers its slot. -/
def declareIn (e : EnvId) (name : String) (v : Option (Value ρ EnvId)) : Run ρ Nat :=
  onTables e 0 (·.define? name v)

def declare (name : String) : Run ρ Nat := do declareIn (← get).scope name none

def define (e : EnvId) (name : String) (v : Option (Value ρ EnvId)) : Run ρ Unit := do
  let _ ← declareIn e name v

/-- Stores a value in a slot, if it is there, and answers whether it is. -/
def put (e : EnvId) (slot : Nat) (v : Value ρ EnvId) : Run ρ Bool :=
  onTables e false fun t => some (t.setSlot slot v)

def read (site : Option Binding) (name : Lexeme) : Run ρ (Value ρ EnvId) := do
  match (← get).find site name.text with
  | .found v => return v
  | .unassigned => raise (.uninitializedVariable name.text) name.line
  | .missing => raise (.undefinedVariable name.text) name.line

/-- Assigns by the binding or among the globals, and answers whether the variable was there. -/
def assigned (site : Option Binding) (name : String) (v : Value ρ EnvId) : Run ρ Bool := do
  match site with
  | some b => match (← get).ancestor? (← get).scope b.distance with
    | some e => put e b.slot v
    | none => return false
  | none => onTables EnvId.global false (·.assign? name v)

def assign (site : Option Binding) (name : Lexeme) (v : Value ρ EnvId) : Run ρ Unit := do
  if ← assigned site name.text v then return
  else raise (.undefinedVariable name.text) name.line

/-- What a native function does, if the arguments that it reaches for are there. -/
def action? (n : Native) (arguments : List (Value ρ EnvId)) :
    Option (Native.Action (Value ρ EnvId)) :=
  match n with
  | .clock => some (return .number (← get).clock)
  | .input => some Native.Action.input
  | .fileExists => return Native.Action.fileExists (← arguments[0]?)
  | .fileReadText => return Native.Action.fileReadText (← arguments[0]?)
  | .fileWriteText => return Native.Action.fileWriteText (← arguments[0]?) (← arguments[1]?)
  | .fileOpen => return Native.Action.fileOpen (← arguments[0]?) (← arguments[1]?)
  | .fileClose => return Native.Action.fileClose (← arguments[0]?)
  | .fileWrite => return Native.Action.fileWrite (← arguments[0]?) (← arguments[1]?).display
  | .fileWriteLine =>
    return Native.Action.fileWrite (← arguments[0]?) ((← arguments[1]?).display ++ "\r\n")
  | .fileRead => return Native.Action.fileRead (← arguments[0]?)
  | .fileReadLine => return Native.Action.fileReadLine (← arguments[0]?)
  | .seekStart => return Native.Action.seekStart (← arguments[0]?)
  | .seekEnd => return Native.Action.seekEnd (← arguments[0]?)

def native (n : Native) (arguments : List (Value ρ EnvId)) : Run ρ (Value ρ EnvId) :=
  match action? n arguments with
  | none => panic
  | some action => fun ⟨environments, scope, objects, host⟩ => match action host with
    | .ok v host => .ok v ⟨environments, scope, objects, host⟩
    | .error fault host =>
      .error (.stop (.error ⟨.native n fault, none⟩)) ⟨environments, scope, objects, host⟩

/-! Objects. -/

def bind (f : Function ρ EnvId) (receiver : Value ρ EnvId) : Run ρ (Function ρ EnvId) := do
  let e ← nestIn f.closure.scope
  define e "this" (some receiver)
  return f.within e

def bindMethod (method : Option (Function ρ EnvId)) (receiver : Value ρ EnvId) (name : Lexeme) :
    Run ρ (Value ρ EnvId) := do
  match method with
  | none => raise (.undefinedProperty name.text) name.line
  | some f =>
    let f ← bind f receiver
    return .function (← newObject) f

def getProperty (object : Value ρ EnvId) (name : Lexeme) : Run ρ (Value ρ EnvId) := do
  match object with
  | .instance id c =>
    match (← get).field? id name.text with
    | some v => return v
    | none => bindMethod (c.findMethod? name.text) object name
  | .class c =>
    if name.text = Scoping.initializerName then raise .initOnClass name.line
    else match (← get).field? c.id name.text with
    | some v => return v
    | none => bindMethod (c.findClassMethod? name.text) object name
  | _ => raise .propertyOnNonInstance name.line

def getSuper (site : Option Binding) (keyword method : Lexeme) : Run ρ (Value ρ EnvId) := do
  let m ← get
  let missing : Run ρ (Value ρ EnvId) := raise (.undefinedVariable keyword.text) keyword.line
  match site with
  | some ⟨distance + 1, slot⟩ =>
    match m.getAt m.scope (distance + 1) slot, m.getAt m.scope distance 0 with
    | .found (.class c), .found (.instance id k) =>
      bindMethod (c.findMethod? method.text) (.instance id k) method
    | .found (.class c), .found (.class k) =>
      bindMethod (c.findClassMethod? method.text) (.class k) method
    | _, _ => missing
  | _ => missing

section Steps

variable (site : ρ → Option Binding) (exec : Stmt ρ → Run ρ (Outcome ρ EnvId))
  (eval : Expr ρ → Run ρ (Value ρ EnvId))

def execAll : List (Stmt ρ) → Run ρ (Outcome ρ EnvId)
  | [] => return .normal
  | s :: ss => do
    match ← exec s with
    | .normal => execAll ss
    | outcome => return outcome

def evalAll : List (Expr ρ) → Run ρ (List (Value ρ EnvId))
  | [] => return []
  | e :: es => do
    let v ← eval e
    return v :: (← evalAll es)

def defineAll (e : EnvId) : List Lexeme → List (Value ρ EnvId) → Run ρ Unit
  | name :: names, v :: vs => do
    define e name.text (some v)
    defineAll e names vs
  | _, _ => return

def callClosure (closure : Closure ρ EnvId) (arguments : List (Value ρ EnvId)) :
    Run ρ (Value ρ EnvId) := do
  let e ← nestIn closure.scope
  defineAll e closure.routine.params arguments
  match ← inScope e (execAll exec closure.routine.body) with
  | .returned v => return v
  | .normal | .broke => return .nil

def callFunction (f : Function ρ EnvId) (arguments : List (Value ρ EnvId)) :
    Run ρ (Value ρ EnvId) := do
  let v ← callClosure exec f.closure arguments
  if f.initializer then
    match (← get).getSlot f.closure.scope 0 with
    | .found receiver => return receiver
    | _ => return .nil
  else return v

def instantiate (c : Class ρ EnvId) (arguments : List (Value ρ EnvId)) :
    Run ρ (Value ρ EnvId) := do
  let object := .instance (← newObject) c
  match c.initializer? with
  | some f =>
    let f ← bind f object
    let _ ← callFunction exec f arguments
  | none => pure ()
  return object

def checkArity (expected : Nat) (arguments : List (Value ρ EnvId)) (line : Nat) : Run ρ Unit :=
  apart (Lox.checkArity expected arguments line)

/-- All that can be called is called with as many arguments as it takes, or not at all. -/
def call (callee : Value ρ EnvId) (arguments : List (Value ρ EnvId)) (line : Nat) :
    Run ρ (Value ρ EnvId) := do
  match callee with
  | .function _ f =>
    checkArity f.arity arguments line
    onLine line (callFunction exec f arguments)
  | .lambda _ _ closure =>
    checkArity closure.routine.params.length arguments line
    onLine line (callClosure exec closure arguments)
  | .class c =>
    checkArity c.arity arguments line
    onLine line (instantiate exec c arguments)
  | .native n =>
    checkArity n.arity arguments line
    onLine line (native n arguments)
  | _ => raise .notCallable line

def evalStep (e : Expr ρ) : Run ρ (Value ρ EnvId) := do
  match e with
  | .literal v => return .ofLiteral v
  | .variable ref name => read (site ref) name
  | .assign ref name e =>
    let v ← eval e
    assign (site ref) name v
    return v
  | .this ref keyword => read (site ref) keyword
  | .super ref keyword method => getSuper (site ref) keyword method
  | .unary op sign e => ofExcept? (some (op.kind.applyUnary sign.line (← eval e)))
  | .binary op sign l r =>
    let left ← eval l
    let right ← eval r
    ofExcept? (op.kind.applyBinary? sign.line left right)
  | .logical op _ l r =>
    let left ← eval l
    if op.kind.decides left then return left else eval r
  | .ternary c y n => if (← eval c).truthy then eval y else eval n
  | .group e => eval e
  | .call c as line =>
    let callee ← eval c
    let arguments ← evalAll eval as
    call exec callee arguments line
  | .get o name => getProperty (← eval o) name
  | .set o name e =>
    match (← eval o).fieldsOf? with
    | some id =>
      let v ← eval e
      setField id name.text v
      return v
    | none => raise .fieldOnNonInstance name.line
  | .lambda line r =>
    let scope := (← get).scope
    return .lambda (← newObject) line ⟨r, scope⟩

def readSuperclass : Option (ρ × Lexeme) → Run ρ (Option (Class ρ EnvId))
  | none => return none
  | some (ref, name) => do
    match ← read (site ref) name with
    | .class c => return some c
    | _ => raise .superclassNotClass name.line

def methodScope : Option (Class ρ EnvId) → Run ρ EnvId
  | none => return (← get).scope
  | some parent => do
    let e ← nest
    define e "super" (some (.class parent))
    return e

def defineClass (name : Lexeme) (superclass : Option (ρ × Lexeme))
    (methods classMethods : List (Definition ρ)) : Run ρ Unit := do
  let parent ← readSuperclass site superclass
  let slot ← declare name.text
  let scope ← methodScope parent
  let isInitializer (l : Lexeme) : Bool := l.text == Scoping.initializerName
  let c : Class ρ EnvId := ⟨← newObject, name.text, parent,
    methodTable scope isInitializer methods, methodTable scope (fun _ => false) classMethods⟩
  let _ ← put (← get).scope slot (.class c)

def defineVariable (name : Lexeme) (initial : Option (Expr ρ)) : Run ρ Unit := do
  let e := (← get).scope
  if e = EnvId.global then
    let v ← match initial with
      | some i => some <$> eval i
      | none => pure none
    define e name.text v
  else
    let slot ← declare name.text
    match initial with
    | some i => let _ ← put e slot (← eval i)
    | none => pure ()

def execStep (s : Stmt ρ) : Run ρ (Outcome ρ EnvId) := do
  match s with
  | .expr e =>
    let _ ← eval e
    return .normal
  | .print e =>
    let v ← eval e
    write (v.display ++ "\n")
    return .normal
  | .var name initial =>
    defineVariable eval name initial
    return .normal
  | .block b =>
    let e ← nest
    inScope e (execAll exec b)
  | .if c y n =>
    if (← eval c).truthy then exec y
    else match n with
    | some n => exec n
    | none => return .normal
  | .while c b =>
    if (← eval c).truthy then
      match ← exec b with
      | .normal => exec s
      | .broke => return .normal
      | .returned v => return .returned v
    else return .normal
  | .break _ => return .broke
  | .return _ none => return .returned .nil
  | .return _ (some e) => return .returned (← eval e)
  | .function f =>
    let scope := (← get).scope
    define scope f.name.text
      (some (.function (← newObject) ⟨f.name.text, ⟨f.routine, scope⟩, false⟩))
    return .normal
  | .class name superclass methods classMethods =>
    defineClass site name superclass methods classMethods
    return .normal

end Steps

mutual

def exec (site : ρ → Option Binding) : Nat → Stmt ρ → Run ρ (Outcome ρ EnvId)
  | 0, _ => throw (.stop .outOfFuel)
  | fuel + 1, s => execStep site (exec site fuel) (eval site fuel) s

def eval (site : ρ → Option Binding) : Nat → Expr ρ → Run ρ (Value ρ EnvId)
  | 0, _ => throw (.stop .outOfFuel)
  | fuel + 1, e => evalStep site (exec site fuel) (eval site fuel) e

end

def interpretFrom (site : ρ → Option Binding) (fuel : Nat) (last : Value ρ EnvId) :
    List (Stmt ρ) → Run ρ (Value ρ EnvId)
  | [] => return last
  | .expr e :: ss => do interpretFrom site fuel (← eval site fuel e) ss
  | s :: ss => do
    let _ ← exec site fuel s
    interpretFrom site fuel last ss

def interpret (site : ρ → Option Binding) (fuel : Nat) (p : List (Stmt ρ)) :
    Run ρ (Value ρ EnvId) := do
  let v ← interpretFrom site fuel .nil p
  flush
  return v

end Raw

end Lox
