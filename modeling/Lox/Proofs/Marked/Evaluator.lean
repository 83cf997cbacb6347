import Lox.Eval
import Lox.Proofs.Scoping.Unread

/-!
The evaluator with marks. An environment that is made for a block or a routine is marked with the names
that scoping finds unused in its scope. Under a marked name something else is stored than what the
program stores there, and where a variable with a marked name would be read the run stops. So if it does
the same as the evaluator, whatever is stored and whatever it would stop with, such a variable is never
read, and nothing depends on its value.
-/

namespace Lox

namespace Marked

variable {α β : Type}

/-- A machine with the marks of its environments. An environment without any is not listed. -/
structure Machine where
  machine : Lox.Machine RefId
  marks : List (EnvId × List String) := []

abbrev Run := EStateM Stop Machine

/-- What becomes of marked variables. -/
structure Interference where
  /-- What is stored under a marked name of an environment in place of a value. -/
  instead : EnvId → String → Value RefId EnvId → Value RefId EnvId
  /-- How a run ends that would read a marked variable. -/
  stop : Stop

namespace Machine

def marksOf (t : Machine) (e : EnvId) : List String := (t.marks.lookup e).getD []

def nameAt? (t : Machine) (e : EnvId) (slot : Nat) : Option String :=
  t.machine.environments.all[e]?.bind (·.names[slot]?)

/-- The variable in the slot has a marked name. -/
def isMarked (t : Machine) (e : EnvId) (slot : Nat) : Bool :=
  (t.nameAt? e slot).any (· ∈ t.marksOf e)

/-- What is stored under the name for a value. -/
def storedFor (t : Machine) (i : Interference) (e : EnvId) (name : String) (v : Value RefId EnvId) :
    Value RefId EnvId :=
  if name ∈ t.marksOf e then i.instead e name v else v

end Machine

/-! The smallest steps. -/

/-- A step that is not concerned with marks. -/
def lift (step : Lox.Run RefId α) : Run α
  | ⟨machine, marks⟩ => match step machine with
    | .ok a machine => .ok a ⟨machine, marks⟩
    | .error s machine => .error s ⟨machine, marks⟩

def raise (fault : RuntimeFault) (line : Nat) : Run α := lift (Run.raise fault line)

def newObject : Run ObjectId := lift Run.newObject

def currentScope : Run EnvId := return (← get).machine.scope

def inScope (e : EnvId) (phrase : Run α) : Run α := fun t =>
  match phrase { t with machine := { t.machine with scope := e } } with
  | .ok a t' => .ok a { t' with machine := { t'.machine with scope := t.machine.scope } }
  | .error stop t' => .error stop { t' with machine := { t'.machine with scope := t.machine.scope } }

def onLine (line : Nat) (phrase : Run α) : Run α := fun t =>
  match phrase t with
  | .error (.error e) t => .error (.error (e.withLine line)) t
  | r => r

/-- A new environment for a routine. -/
def nestIn (e : EnvId) (r : Routine RefId) : Run EnvId := do
  let inner ← lift (Run.nestIn e)
  modify fun t => { t with marks := (inner, r.ownScope.unread) :: t.marks }
  return inner

section Steps

variable (i : Interference)

def define (e : EnvId) (name : String) (v : Option (Value RefId EnvId)) : Run Unit := do
  let t ← get
  lift (Run.define e name (v.map (t.storedFor i e name)))

def put (e : EnvId) (slot : Nat) (v : Value RefId EnvId) : Run Unit := do
  let t ← get
  lift (Run.put e slot (((t.nameAt? e slot).map fun name => t.storedFor i e name v).getD v))

/-- Stops if the variable in the slot has a marked name. -/
def spare (e : EnvId) (slot : Nat) : Run Unit := do
  if (← get).isMarked e slot then throw i.stop

def read (site : Option Binding) (name : Lexeme) : Run (Value RefId EnvId) := do
  match (← get).machine.place? site name.text with
  | some (e, slot) => spare i e slot
  | none => pure ()
  lift (Run.read site name)

def assign (site : Option Binding) (name : Lexeme) (v : Value RefId EnvId) : Run Unit := do
  match (← get).machine.place? site name.text with
  | some (e, slot) => put i e slot v
  | none => raise (.undefinedVariable name.text) name.line

def spareAt (distance slot : Nat) : Run Unit := do
  let m := (← get).machine
  match m.environments.ancestor? m.scope distance with
  | some e => spare i e slot
  | none => pure ()

/-- Both the class above and the receiver are read. -/
def getSuper (site : Option Binding) (keyword method : Lexeme) : Run (Value RefId EnvId) := do
  match site with
  | some ⟨distance + 1, slot⟩ =>
    spareAt i (distance + 1) slot
    spareAt i distance 0
  | _ => pure ()
  lift (Lox.getSuper site keyword method)

variable (site : RefId → Option Binding) (exec : Stmt RefId → Run (Outcome RefId EnvId))
  (eval : Expr RefId → Run (Value RefId EnvId))

def execAll : List (Stmt RefId) → Run (Outcome RefId EnvId)
  | [] => return .normal
  | s :: ss => do
    match ← exec s with
    | .normal => execAll ss
    | outcome => return outcome

def evalAll : List (Expr RefId) → Run (List (Value RefId EnvId))
  | [] => return []
  | e :: es => do
    let v ← eval e
    return v :: (← evalAll es)

def defineAll (e : EnvId) : List Lexeme → List (Value RefId EnvId) → Run Unit
  | name :: names, v :: vs => do
    define i e name.text (some v)
    defineAll e names vs
  | _, _ => return

def callClosure (closure : Closure RefId EnvId) (arguments : List (Value RefId EnvId)) :
    Run (Value RefId EnvId) := do
  let e ← nestIn closure.scope closure.routine
  defineAll i e closure.routine.params arguments
  match ← inScope e (execAll exec closure.routine.body) with
  | .returned v => return v
  | .normal | .broke => return .nil

/-- An initializer reads its receiver. -/
def callFunction (f : Function RefId EnvId) (arguments : List (Value RefId EnvId)) :
    Run (Value RefId EnvId) := do
  let v ← callClosure i exec f.closure arguments
  if f.initializer then
    spare i f.closure.scope 0
    match (← get).machine.environments.getSlot f.closure.scope 0 with
    | .found receiver => return receiver
    | _ => return .nil
  else return v

def instantiate (c : Class RefId EnvId) (arguments : List (Value RefId EnvId)) :
    Run (Value RefId EnvId) := do
  let object := .instance (← newObject) c
  match c.initializer? with
  | some f =>
    let f ← lift (f.bind object)
    let _ ← callFunction i exec f arguments
  | none => pure ()
  return object

def checkArity (expected : Nat) (arguments : List (Value RefId EnvId)) (line : Nat) : Run Unit :=
  lift (Lox.checkArity expected arguments line)

def call (callee : Value RefId EnvId) (arguments : List (Value RefId EnvId)) (line : Nat) :
    Run (Value RefId EnvId) := do
  match callee with
  | .function _ f =>
    checkArity f.arity arguments line
    onLine line (callFunction i exec f arguments)
  | .lambda _ _ closure =>
    checkArity closure.routine.params.length arguments line
    onLine line (callClosure i exec closure arguments)
  | .class c =>
    checkArity c.arity arguments line
    onLine line (instantiate i exec c arguments)
  | .native n =>
    if h : arguments.length = n.arity then onLine line (lift (Run.native n arguments h))
    else raise (.arityMismatch n.arity arguments.length) line
  | _ => raise .notCallable line

def evalStep (e : Expr RefId) : Run (Value RefId EnvId) := do
  match e with
  | .literal v => return .ofLiteral v
  | .variable ref name => read i (site ref) name
  | .assign ref name e =>
    let v ← eval e
    assign i (site ref) name v
    return v
  | .this ref keyword => read i (site ref) keyword
  | .super ref keyword method => getSuper i (site ref) keyword method
  | .unary op sign e => lift (Run.ofExcept (op.apply sign.line (← eval e)))
  | .binary op sign l r =>
    let left ← eval l
    let right ← eval r
    lift (Run.ofExcept (op.apply sign.line left right))
  | .logical op _ l r =>
    let left ← eval l
    if op.decides left then return left else eval r
  | .ternary c y n => if (← eval c).truthy then eval y else eval n
  | .group e => eval e
  | .call c as line =>
    let callee ← eval c
    let arguments ← evalAll eval as
    call i exec callee arguments line
  | .get o name => lift ((← eval o).getProperty name)
  | .set o name e =>
    match (← eval o).fieldsOf? with
    | some id =>
      let v ← eval e
      lift (Run.setField id name.text v)
      return v
    | none => raise .fieldOnNonInstance name.line
  | .lambda line r =>
    let scope ← currentScope
    return .lambda (← newObject) line ⟨r, scope⟩

def readSuperclass : Option (RefId × Lexeme) → Run (Option (Class RefId EnvId))
  | none => return none
  | some (ref, name) => do
    match ← read i (site ref) name with
    | .class c => return some c
    | _ => raise .superclassNotClass name.line

def defineClass (name : Lexeme) (superclass : Option (RefId × Lexeme))
    (methods classMethods : List (Definition RefId)) : Run Unit := do
  let parent ← readSuperclass i site superclass
  let slot ← lift (Run.declare name.text)
  let scope ← lift (methodScope parent)
  let isInitializer (l : Lexeme) : Bool := l.text == Scoping.initializerName
  let c : Class RefId EnvId := ⟨← newObject, name.text, parent,
    methodTable scope isInitializer methods, methodTable scope (fun _ => false) classMethods⟩
  put i (← currentScope) slot (.class c)

def defineVariable (name : Lexeme) (initial : Option (Expr RefId)) : Run Unit := do
  let e ← currentScope
  if e = EnvId.global then
    let v ← match initial with
      | some x => some <$> eval x
      | none => pure none
    define i e name.text v
  else
    let slot ← lift (Run.declare name.text)
    match initial with
    | some x => put i e slot (← eval x)
    | none => pure ()

/-- A block is in this like a routine without parameters. -/
def execStep (s : Stmt RefId) : Run (Outcome RefId EnvId) := do
  match s with
  | .expr e =>
    let _ ← eval e
    return .normal
  | .print e =>
    let v ← eval e
    lift (Run.write (v.display ++ "\n"))
    return .normal
  | .var name initial =>
    defineVariable i eval name initial
    return .normal
  | .block b =>
    let e ← nestIn (← currentScope) ⟨[], b⟩
    inScope e (execAll exec b)
  | .if c y n =>
    if (← eval c).truthy then exec y
    else match n with
    | some n => exec n
    | none => return .normal
  | .while c b =>
    if (← eval c).truthy then
      match ← exec b with
      | .normal => exec s
      | .broke => return .normal
      | .returned v => return .returned v
    else return .normal
  | .break _ => return .broke
  | .return _ none => return .returned .nil
  | .return _ (some e) => return .returned (← eval e)
  | .function f =>
    let scope ← currentScope
    define i scope f.name.text
      (some (.function (← newObject) ⟨f.name.text, ⟨f.routine, scope⟩, false⟩))
    return .normal
  | .class name superclass methods classMethods =>
    defineClass i site name superclass methods classMethods
    return .normal

end Steps

mutual

def exec (i : Interference) (site : RefId → Option Binding) :
    Nat → Stmt RefId → Run (Outcome RefId EnvId)
  | 0, _ => throw .outOfFuel
  | fuel + 1, s => execStep i site (exec i site fuel) (eval i site fuel) s

def eval (i : Interference) (site : RefId → Option Binding) :
    Nat → Expr RefId → Run (Value RefId EnvId)
  | 0, _ => throw .outOfFuel
  | fuel + 1, e => evalStep i site (exec i site fuel) (eval i site fuel) e

end

def interpretFrom (i : Interference) (site : RefId → Option Binding) (fuel : Nat)
    (last : Value RefId EnvId) : List (Stmt RefId) → Run (Value RefId EnvId)
  | [] => return last
  | .expr e :: ss => do interpretFrom i site fuel (← eval i site fuel e) ss
  | s :: ss => do
    let _ ← exec i site fuel s
    interpretFrom i site fuel last ss

def interpret (i : Interference) (site : RefId → Option Binding) (fuel : Nat) (p : Program) :
    Run (Value RefId EnvId) := do
  let v ← interpretFrom i site fuel .nil p
  lift Run.flush
  return v

end Marked

end Lox
