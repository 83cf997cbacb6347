import Lox.Eval

/-!
Lexical scoping without scopes that are resolved beforehand: the evaluator as one would first write
it. What a place sees is a list of names, each with the cell of its variable. The list never changes;
a declaration answers a longer one, with a new cell, for the rest of its block, and a function keeps
the list of the place where it is written. Names that are not in the list are global and are looked up
in one table. What references carry is not looked at.
-/

namespace Lox

namespace Lexical

variable {ρ α : Type}

abbrev Cell := Nat

/-- The local variables that a place sees, the latest declared first. -/
abbrev Locals := List (String × Cell)

/-- What a place sees, or nothing outside of all blocks: declarations there are global. -/
abbrev Scope := Option Locals

/-- All that changes while a program runs. -/
structure Store (ρ : Type) where
  globals : Environment (Value ρ Locals) := {}
  cells : Array (Option (Value ρ Locals)) := #[]
  objects : Array (Fields ρ Locals) := #[]
  host : Host := {}

abbrev Run (ρ : Type) := EStateM Stop (Store ρ)

def Scope.locals (scope : Scope) : Locals := scope.getD []

namespace Store

/-- The store at the start of a session. -/
def start (host : Host) : Store ρ :=
  { host, globals := Native.all.foldl (fun s n => s.define n.name (some (.native n))) {} }

/-- The value of a local variable, if it has one. -/
def value? (s : Store ρ) (locals : Locals) (name : String) : Option (Value ρ Locals) :=
  (locals.lookup name).bind fun cell => s.cells[cell]?.join

def field? (s : Store ρ) (id : ObjectId) (name : String) : Option (Value ρ Locals) :=
  s.objects[id]?.bind (·.lookup name)

end Store

/-! The smallest steps. -/

def raise (fault : RuntimeFault) (line : Nat) : Run ρ α := throw (.error ⟨fault, some line⟩)

def ofExcept : Except RuntimeError α → Run ρ α
  | .ok a => return a
  | .error e => throw (.error e)

/-- Errors without a line get the line of the call. -/
def onLine (line : Nat) (phrase : Run ρ α) : Run ρ α := fun s =>
  match phrase s with
  | .error (.error e) s => .error (.error (e.withLine line)) s
  | r => r

def newCell (v : Option (Value ρ Locals)) : Run ρ Cell := modifyGet fun s =>
  (s.cells.size, { s with cells := s.cells.push v })

def setCell (cell : Cell) (v : Value ρ Locals) : Run ρ Unit :=
  modify fun s => { s with cells := s.cells.setIfInBounds cell (some v) }

def defineGlobal (name : String) (v : Option (Value ρ Locals)) : Run ρ Unit :=
  modify fun s => { s with globals := s.globals.define name v }

def read (locals : Locals) (name : Lexeme) : Run ρ (Value ρ Locals) := do
  let s ← get
  match locals.lookup name.text with
  | some _ => match s.value? locals name.text with
    | some v => return v
    | none => raise (.uninitializedVariable name.text) name.line
  | none => match s.globals.get name.text with
    | .found v => return v
    | .unassigned => raise (.uninitializedVariable name.text) name.line
    | .missing => raise (.undefinedVariable name.text) name.line

def assign (locals : Locals) (name : Lexeme) (v : Value ρ Locals) : Run ρ Unit := do
  match locals.lookup name.text with
  | some cell => setCell cell v
  | none => match (← get).globals.slot? name.text with
    | some slot => modify fun s => { s with globals := s.globals.putSlot slot (some v) }
    | none => raise (.undefinedVariable name.text) name.line

/-- Declares a name without a value, and answers what the rest of the block sees. -/
def declare (scope : Scope) (name : String) : Run ρ Scope := do
  match scope with
  | none =>
    defineGlobal name none
    return none
  | some locals => return some ((name, ← newCell none) :: locals)

/-- Gives its value to a name that was just declared. -/
def settle (scope : Scope) (name : String) (v : Value ρ Locals) : Run ρ Unit :=
  match scope.locals.lookup name with
  | some cell => setCell cell v
  | none => defineGlobal name (some v)

def newObject : Run ρ ObjectId := modifyGet fun s =>
  (s.objects.size, { s with objects := s.objects.push [] })

def setField (id : ObjectId) (name : String) (v : Value ρ Locals) : Run ρ Unit :=
  modify fun s => { s with objects := s.objects.modify id (Fields.insert name v) }

def write (text : String) : Run ρ Unit
  | ⟨globals, cells, objects, ⟨console, files, clock, explored⟩⟩ =>
    match console.write (Text.Utf8.encode text) with
    | (true, console) => .ok () ⟨globals, cells, objects, ⟨console, files, clock, explored⟩⟩
    | (false, console) => .error (.error ⟨.output .outputFull, none⟩)
      ⟨globals, cells, objects, ⟨console, files, clock, explored⟩⟩

def flush : Run ρ Unit := do
  if (← get).host.console.flushFails then throw (.error ⟨.output .flushFailed, none⟩)

def native (n : Native) (arguments : List (Value ρ Locals)) (h : arguments.length = n.arity) :
    Run ρ (Value ρ Locals)
  | ⟨globals, cells, objects, host⟩ =>
    match n.run arguments h host with
    | .ok v host => .ok v ⟨globals, cells, objects, host⟩
    | .error fault host => .error (.error ⟨.native n fault, none⟩) ⟨globals, cells, objects, host⟩

/-! Objects. -/

/-- The method with its receiver, which is a local variable around it. -/
def bind (f : Function ρ Locals) (receiver : Value ρ Locals) : Run ρ (Function ρ Locals) := do
  return f.within (("this", ← newCell (some receiver)) :: f.closure.scope)

def bindMethod (method : Option (Function ρ Locals)) (receiver : Value ρ Locals) (name : Lexeme) :
    Run ρ (Value ρ Locals) := do
  match method with
  | none => raise (.undefinedProperty name.text) name.line
  | some f =>
    let f ← bind f receiver
    return .function (← newObject) f

def getProperty (object : Value ρ Locals) (name : Lexeme) : Run ρ (Value ρ Locals) := do
  match object with
  | .instance id c =>
    match (← get).field? id name.text with
    | some v => return v
    | none => bindMethod (c.findMethod? name.text) object name
  | .class c =>
    if name.text = Scoping.initializerName then raise .initOnClass name.line
    else match (← get).field? c.id name.text with
    | some v => return v
    | none => bindMethod (c.findClassMethod? name.text) object name
  | _ => raise .propertyOnNonInstance name.line

def getSuper (locals : Locals) (keyword method : Lexeme) : Run ρ (Value ρ Locals) := do
  let s ← get
  match s.value? locals "super", s.value? locals "this" with
  | some (.class c), some (.instance id k) =>
    bindMethod (c.findMethod? method.text) (.instance id k) method
  | some (.class c), some (.class k) =>
    bindMethod (c.findClassMethod? method.text) (.class k) method
  | _, _ => raise (.undefinedVariable keyword.text) keyword.line

/-! Phrases. -/

/-- How a statement ends, if it does not fail; normally, with what is seen behind it. -/
inductive Ending (ρ : Type) where
  | behind (scope : Scope)
  | broke
  | returned (v : Value ρ Locals)

/-- What the phrase declares is not seen behind it. -/
def within (scope : Scope) (phrase : Run ρ (Ending ρ)) : Run ρ (Ending ρ) := do
  match ← phrase with
  | .behind _ => return .behind scope
  | ending => return ending

section Steps

variable (exec : Scope → Stmt ρ → Run ρ (Ending ρ)) (eval : Locals → Expr ρ → Run ρ (Value ρ Locals))

def execAll : Scope → List (Stmt ρ) → Run ρ (Ending ρ)
  | scope, [] => return .behind scope
  | scope, s :: ss => do
    match ← exec scope s with
    | .behind scope => execAll scope ss
    | ending => return ending

def evalAll (locals : Locals) : List (Expr ρ) → Run ρ (List (Value ρ Locals))
  | [] => return []
  | e :: es => do
    let v ← eval locals e
    return v :: (← evalAll locals es)

def push : Locals → List Lexeme → List (Value ρ Locals) → Run ρ Locals
  | locals, name :: names, v :: vs => do
    let cell ← newCell (some v)
    push ((name.text, cell) :: locals) names vs
  | locals, _, _ => return locals

def callClosure (closure : Closure ρ Locals) (arguments : List (Value ρ Locals)) :
    Run ρ (Value ρ Locals) := do
  let locals ← push closure.scope closure.routine.params arguments
  match ← execAll exec (some locals) closure.routine.body with
  | .returned v => return v
  | .behind _ | .broke => return .nil

def callFunction (f : Function ρ Locals) (arguments : List (Value ρ Locals)) :
    Run ρ (Value ρ Locals) := do
  let v ← callClosure exec f.closure arguments
  if f.initializer then return ((← get).value? f.closure.scope "this").getD .nil
  else return v

def instantiate (c : Class ρ Locals) (arguments : List (Value ρ Locals)) :
    Run ρ (Value ρ Locals) := do
  let object := .instance (← newObject) c
  match c.initializer? with
  | some f =>
    let f ← bind f object
    let _ ← callFunction exec f arguments
  | none => pure ()
  return object

def checkArity (expected : Nat) (arguments : List (Value ρ Locals)) (line : Nat) : Run ρ Unit :=
  if arguments.length = expected then pure ()
  else raise (.arityMismatch expected arguments.length) line

def call (callee : Value ρ Locals) (arguments : List (Value ρ Locals)) (line : Nat) :
    Run ρ (Value ρ Locals) := do
  match callee with
  | .function _ f =>
    checkArity f.arity arguments line
    onLine line (callFunction exec f arguments)
  | .lambda _ _ closure =>
    checkArity closure.routine.params.length arguments line
    onLine line (callClosure exec closure arguments)
  | .class c =>
    checkArity c.arity arguments line
    onLine line (instantiate exec c arguments)
  | .native n =>
    if h : arguments.length = n.arity then onLine line (native n arguments h)
    else raise (.arityMismatch n.arity arguments.length) line
  | _ => raise .notCallable line

def evalStep (locals : Locals) (e : Expr ρ) : Run ρ (Value ρ Locals) := do
  match e with
  | .literal v => return .ofLiteral v
  | .variable _ name => read locals name
  | .assign _ name e =>
    let v ← eval locals e
    assign locals name v
    return v
  | .this _ keyword => read locals keyword
  | .super _ keyword method => getSuper locals keyword method
  | .unary op sign e => ofExcept (op.apply sign.line (← eval locals e))
  | .binary op sign l r =>
    let left ← eval locals l
    let right ← eval locals r
    ofExcept (op.apply sign.line left right)
  | .logical op _ l r =>
    let left ← eval locals l
    if op.decides left then return left else eval locals r
  | .ternary c y n => if (← eval locals c).truthy then eval locals y else eval locals n
  | .group e => eval locals e
  | .call c as line =>
    let callee ← eval locals c
    let arguments ← evalAll eval locals as
    call exec callee arguments line
  | .get o name => getProperty (← eval locals o) name
  | .set o name e =>
    match (← eval locals o).fieldsOf? with
    | some id =>
      let v ← eval locals e
      setField id name.text v
      return v
    | none => raise .fieldOnNonInstance name.line
  | .lambda line r => return .lambda (← newObject) line ⟨r, locals⟩

def readSuperclass (locals : Locals) : Option (ρ × Lexeme) → Run ρ (Option (Class ρ Locals))
  | none => return none
  | some (_, name) => do
    match ← read locals name with
    | .class c => return some c
    | _ => raise .superclassNotClass name.line

/-- What the methods of a class see around their receiver. -/
def methodLocals (locals : Locals) : Option (Class ρ Locals) → Run ρ Locals
  | none => return locals
  | some parent => return ("super", ← newCell (some (.class parent))) :: locals

def defineClass (scope : Scope) (name : Lexeme) (superclass : Option (ρ × Lexeme))
    (methods classMethods : List (Definition ρ)) : Run ρ Scope := do
  let parent ← readSuperclass scope.locals superclass
  let scope ← declare scope name.text
  let locals ← methodLocals scope.locals parent
  let isInitializer (l : Lexeme) : Bool := l.text == Scoping.initializerName
  settle scope name.text (.class ⟨← newObject, name.text, parent,
    methodTable locals isInitializer methods, methodTable locals (fun _ => false) classMethods⟩)
  return scope

/-- The initial value of a local variable sees the variable, that of a global one does not. -/
def defineVariable (scope : Scope) (name : Lexeme) (initial : Option (Expr ρ)) : Run ρ Scope := do
  if scope.isNone then
    let v ← match initial with
      | some e => some <$> eval [] e
      | none => pure none
    defineGlobal name.text v
    return none
  else
    let scope ← declare scope name.text
    match initial with
    | some e => settle scope name.text (← eval scope.locals e)
    | none => pure ()
    return scope

def execStep (scope : Scope) (s : Stmt ρ) : Run ρ (Ending ρ) := do
  match s with
  | .expr e =>
    let _ ← eval scope.locals e
    return .behind scope
  | .print e =>
    let v ← eval scope.locals e
    write (v.display ++ "\n")
    return .behind scope
  | .var name initial => return .behind (← defineVariable eval scope name initial)
  | .block b => within scope (execAll exec (some scope.locals) b)
  | .if c y n =>
    if (← eval scope.locals c).truthy then within scope (exec scope y)
    else match n with
    | some n => within scope (exec scope n)
    | none => return .behind scope
  | .while c b =>
    if (← eval scope.locals c).truthy then
      match ← exec scope b with
      | .behind _ => exec scope s
      | .broke => return .behind scope
      | .returned v => return .returned v
    else return .behind scope
  | .break _ => return .broke
  | .return _ none => return .returned .nil
  | .return _ (some e) => return .returned (← eval scope.locals e)
  | .function f =>
    let id ← newObject
    let scope ← declare scope f.name.text
    settle scope f.name.text (.function id ⟨f.name.text, ⟨f.routine, scope.locals⟩, false⟩)
    return .behind scope
  | .class name superclass methods classMethods =>
    return .behind (← defineClass scope name superclass methods classMethods)

end Steps

mutual

def exec : Nat → Scope → Stmt ρ → Run ρ (Ending ρ)
  | 0, _, _ => throw .outOfFuel
  | fuel + 1, scope, s => execStep (exec fuel) (eval fuel) scope s

def eval : Nat → Locals → Expr ρ → Run ρ (Value ρ Locals)
  | 0, _, _ => throw .outOfFuel
  | fuel + 1, locals, e => evalStep (exec fuel) (eval fuel) locals e

end

/-- Runs statements outside of all blocks, and answers the value of the last that is an expression. -/
def interpretFrom (fuel : Nat) (last : Value ρ Locals) : List (Stmt ρ) → Run ρ (Value ρ Locals)
  | [] => return last
  | .expr e :: ss => do interpretFrom fuel (← eval fuel [] e) ss
  | s :: ss => do
    let _ ← exec fuel none s
    interpretFrom fuel last ss

def interpret (fuel : Nat) (p : List (Stmt ρ)) : Run ρ (Value ρ Locals) := do
  let v ← interpretFrom fuel .nil p
  flush
  return v

end Lexical

end Lox
