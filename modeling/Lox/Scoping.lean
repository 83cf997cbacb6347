import Lox.Report
import Lox.Syntax.Parser

/-!
Scoping: where each reference finds its variable, and what is wrong with the places of declarations,
references and jumps.

The scopes that are open at a place form a stack, innermost first. Outside all of them names are
global, are looked up when the program runs, and may be declared again. A reference to a name that an
open scope declares is bound to the innermost such scope, by its distance and by the slot of the name
in it. Everything found on the way is one ordered list; how an unused variable is reported is decided
from that list alone.
-/

namespace Lox

/-- So many scopes up from the reference, at this place among the names of that scope. -/
structure Binding where
  distance : Nat
  slot : Nat
  deriving Repr, DecidableEq

/-- The bindings of references by their identities. A global reference has none. -/
structure Bindings where
  all : Array (Option Binding) := #[]

namespace Bindings

def find? (t : Bindings) (id : RefId) : Option Binding := t.all[id]?.join

def insert (t : Bindings) (id : RefId) (b : Binding) : Bindings :=
  ⟨(t.all ++ Array.replicate (id + 1 - t.all.size) none).setIfInBounds id (some b)⟩

def insertAll (t : Bindings) (new : List (RefId × Binding)) : Bindings :=
  new.foldl (fun t (id, b) => t.insert id b) t

@[simp] theorem find?_insert (t : Bindings) (id i : RefId) (b : Binding) :
    (t.insert id b).find? i = if i = id then some b else t.find? i := by
  by_cases h : i = id
  · subst h
    simp only [find?, insert, Array.getElem?_setIfInBounds, Array.size_append,
      Array.size_replicate, if_true]
    rw [if_pos (by omega)]
    rfl
  · simp only [find?, insert, Array.getElem?_setIfInBounds, if_neg (Ne.symm h), if_neg h,
      Array.getElem?_append]
    by_cases hi : i < t.all.size
    · rw [if_pos hi]
    · rw [if_neg hi, Array.getElem?_replicate, Array.getElem?_eq_none (Nat.le_of_not_lt hi)]
      split <;> rfl

end Bindings

/-- A reference with its identity and, unless it is global, its binding. -/
structure Reference where
  id : RefId
  binding : Option Binding
  deriving Repr, DecidableEq

namespace Scoping

inductive Fault where
  | readInOwnInitializer
  | alreadyDeclared
  | unusedVariable
  | topLevelReturn
  | valueReturnFromInitializer
  | breakOutsideLoop
  | thisOutsideClass
  | thisInClassMethod
  | superOutsideClass
  | superWithoutSuperclass
  | inheritsFromItself
  deriving Repr, DecidableEq

def Fault.message : Fault → String
  | .readInOwnInitializer => "Can't read local variable in its own initializer."
  | .alreadyDeclared => "Already a variable with this name in this scope."
  | .unusedVariable => "Variable is never used."
  | .topLevelReturn => "Can't return from top-level code."
  | .valueReturnFromInitializer => "Can't return a value from an initializer."
  | .breakOutsideLoop => "Can't break outside a loop."
  | .thisOutsideClass => "Can't use 'this' outside of a class."
  | .thisInClassMethod => "Can't use 'this' in class methods."
  | .superOutsideClass => "Can't use 'super' outside of a class."
  | .superWithoutSuperclass => "Can't use 'super' in a class with no superclass."
  | .inheritsFromItself => "A class can't inherit from itself."

/-- A fault and the name or word it is found at. -/
structure Finding where
  fault : Fault
  place : Lexeme
  deriving Repr, DecidableEq

def Finding.error (f : Finding) : String := reportError f.place.line (.lexeme f.place.text) f.fault.message

def Finding.warning (f : Finding) : String :=
  reportWarning f.place.line (.lexeme f.place.text) f.fault.message

/-- How far a local variable has come: its initial value is still being computed, it can be read, or
it has been read somewhere. -/
inductive Usage where
  | declared
  | defined
  | used
  deriving Repr, DecidableEq

structure Variable where
  name : Lexeme
  usage : Usage
  deriving Repr, DecidableEq

/-- The variables of a scope in the order of their declaration, which gives them their slots. -/
abbrev Scope := List Variable

namespace Scope

def slot? (scope : Scope) (name : String) : Option Nat := scope.findIdx? (·.name.text == name)

def lookup? (scope : Scope) (name : String) : Option Variable :=
  scope.find? (·.name.text == name)

def setUsage (scope : Scope) (name : String) (usage : Usage) : Scope :=
  scope.map fun v => if v.name.text == name then { v with usage } else v

/-- The end of an initial value; a variable that its own initial value has read stays read. -/
def define (scope : Scope) (name : String) : Scope :=
  match scope.lookup? name with
  | some ⟨_, .declared⟩ => scope.setUsage name .defined
  | _ => scope

def unused (scope : Scope) : List Finding :=
  (scope.filter (·.usage != .used)).map fun v => ⟨.unusedVariable, v.name⟩

end Scope

/-- The binding of a name from inside these scopes. -/
def binding? (name : String) : List Scope → Option Binding
  | [] => none
  | scope :: outer =>
    match scope.slot? name with
    | some slot => some ⟨0, slot⟩
    | none => (binding? name outer).map fun b => { b with distance := b.distance + 1 }

/-- The scopes after the name has been read. -/
def markUsed (name : String) : List Scope → List Scope
  | [] => []
  | scope :: outer =>
    if (scope.slot? name).isSome then scope.setUsage name .used :: outer
    else scope :: markUsed name outer

inductive RoutineKind where
  | function
  | lambda
  | initializer
  | method
  | classMethod
  deriving Repr, DecidableEq

inductive ClassKind where
  | base
  | derived
  deriving Repr, DecidableEq

/-- What a place is inside of: the innermost routine, the innermost class, and whether a loop of that
routine. -/
structure Context where
  routineKind : Option RoutineKind := none
  classKind : Option ClassKind := none
  inLoop : Bool := false
  deriving Repr, DecidableEq

structure State where
  scopes : List Scope := []
  findings : List Finding := []

end Scoping

abbrev Scoping := StateM Scoping.State

namespace Scoping

def note (fault : Fault) (place : Lexeme) : Scoping Unit :=
  modify fun s => { s with findings := s.findings ++ [⟨fault, place⟩] }

/-- Changes the innermost scope; outside all scopes nothing is kept. -/
def modifyScope (f : Scope → Scope) : Scoping Unit :=
  modify fun s => match s.scopes with
    | [] => s
    | scope :: outer => { s with scopes := f scope :: outer }

/-- A second declaration of a name in one scope is faulty and leaves the first one in place. -/
def declare (name : Lexeme) : Scoping Unit := do
  match (← get).scopes with
  | [] => return
  | scope :: _ =>
    if (scope.slot? name.text).isSome then note .alreadyDeclared name
    else modifyScope (· ++ [⟨name, .declared⟩])

def define (name : Lexeme) : Scoping Unit := modifyScope (·.define name.text)

def declareAll : List Lexeme → Scoping Unit
  | [] => return
  | name :: names => do
    declare name
    define name
    declareAll names

/-- A scope with these variables around a phrase. Those that are unused at its end are noted in the
order of their declaration. -/
def inScope {α : Type} (scope : Scope) (phrase : Scoping α) : Scoping α := do
  modify fun s => { s with scopes := scope :: s.scopes }
  let a ← phrase
  modify fun s => match s.scopes with
    | [] => s
    | scope :: outer => ⟨outer, s.findings ++ scope.unused⟩
  return a

theorem inScope_run {α : Type} (scope : Scope) (phrase : Scoping α) (s : State) :
    inScope scope phrase s = ((phrase { s with scopes := scope :: s.scopes }).1,
      match (phrase { s with scopes := scope :: s.scopes }).2.scopes with
      | [] => (phrase { s with scopes := scope :: s.scopes }).2
      | last :: outer =>
        ⟨outer, (phrase { s with scopes := scope :: s.scopes }).2.findings ++ last.unused⟩) := rfl

/-- A scope with the one name that the language itself declares there. -/
def inScopeOf {α : Type} (name : String) (phrase : Scoping α) : Scoping α :=
  inScope [⟨⟨name, 0⟩, .used⟩] phrase

/-- A reference that does not read: its binding only. -/
def bind (id : RefId) (name : Lexeme) : Scoping Reference :=
  return ⟨id, binding? name.text (← get).scopes⟩

/-- A reference that reads. -/
def read (id : RefId) (name : Lexeme) : Scoping Reference := do
  match (← get).scopes with
  | scope :: _ =>
    match scope.lookup? name.text with
    | some ⟨_, .declared⟩ => note .readInOwnInitializer name
    | _ => pure ()
  | [] => pure ()
  modify fun s => { s with scopes := markUsed name.text s.scopes }
  bind id name

def checkThis (context : Context) (keyword : Lexeme) : Scoping Unit :=
  if context.classKind.isNone then note .thisOutsideClass keyword
  else if context.routineKind = some .classMethod then note .thisInClassMethod keyword
  else pure ()

def checkSuper (context : Context) (keyword : Lexeme) : Scoping Unit :=
  match context.classKind with
  | none => note .superOutsideClass keyword
  | some .base => note .superWithoutSuperclass keyword
  | some .derived => pure ()

def checkReturn (context : Context) (keyword : Lexeme) (hasValue : Bool) : Scoping Unit := do
  if context.routineKind.isNone then note .topLevelReturn keyword
  if hasValue && context.routineKind = some .initializer then note .valueReturnFromInitializer keyword

def checkBreak (context : Context) (keyword : Lexeme) : Scoping Unit :=
  if context.inLoop then pure () else note .breakOutsideLoop keyword

/-- The name of the method that prepares a new instance. -/
def initializerName : String := "init"

def methodKind (name : Lexeme) : RoutineKind :=
  if name.text = initializerName then .initializer else .method

end Scoping

open Scoping

mutual

def Expr.resolve (context : Context) : Expr RefId → Scoping (Expr Reference)
  | .literal v => return .literal v
  | .variable id name => return .variable (← read id name) name
  | .assign id name e => do
    let e ← e.resolve context
    return .assign (← bind id name) name e
  | .this id keyword => do
    checkThis context keyword
    return .this (← bind id keyword) keyword
  | .super id keyword method => do
    checkSuper context keyword
    return .super (← bind id keyword) keyword method
  | .unary op sign e => return .unary op sign (← e.resolve context)
  | .binary op sign l r => return .binary op sign (← l.resolve context) (← r.resolve context)
  | .logical op sign l r => return .logical op sign (← l.resolve context) (← r.resolve context)
  | .ternary c y n =>
    return .ternary (← c.resolve context) (← y.resolve context) (← n.resolve context)
  | .group e => return .group (← e.resolve context)
  | .call c as line => return .call (← c.resolve context) (← Expr.resolveAll context as) line
  | .get o name => return .get (← o.resolve context) name
  | .set o name e => do
    let e ← e.resolve context
    return .set (← o.resolve context) name e
  | .lambda line r => return .lambda line (← r.resolve context .lambda)

def Expr.resolveAll (context : Context) : List (Expr RefId) → Scoping (List (Expr Reference))
  | [] => return []
  | e :: es => return (← e.resolve context) :: (← Expr.resolveAll context es)

def Stmt.resolve (context : Context) : Stmt RefId → Scoping (Stmt Reference)
  | .expr e => return .expr (← e.resolve context)
  | .print e => return .print (← e.resolve context)
  | .var name none => do
    declare name
    define name
    return .var name none
  | .var name (some e) => do
    declare name
    let e ← e.resolve context
    define name
    return .var name (some e)
  | .block b => return .block (← inScope [] (Stmt.resolveAll context b))
  | .if c y none => return .if (← c.resolve context) (← y.resolve context) none
  | .if c y (some n) =>
    return .if (← c.resolve context) (← y.resolve context) (some (← n.resolve context))
  | .while c b => return .while (← c.resolve context) (← b.resolve { context with inLoop := true })
  | .break keyword => do
    checkBreak context keyword
    return .break keyword
  | .return keyword none => do
    checkReturn context keyword false
    return .return keyword none
  | .return keyword (some e) => do
    checkReturn context keyword true
    return .return keyword (some (← e.resolve context))
  | .function f => do
    declare f.name
    define f.name
    return .function (← f.resolve context .function)
  | .class name none ms cs => do
    declare name
    define name
    let context := { context with classKind := some .base }
    inScopeOf "this" do
      return .class name none (← Definition.resolveMethods context ms)
        (← Definition.resolveClassMethods context cs)
  | .class name (some (id, superclass)) ms cs => do
    declare name
    define name
    if superclass.text = name.text then note .inheritsFromItself superclass
    let superclassRef ← read id superclass
    let context := { context with classKind := some .derived }
    inScopeOf "super" <| inScopeOf "this" do
      return .class name (some (superclassRef, superclass)) (← Definition.resolveMethods context ms)
        (← Definition.resolveClassMethods context cs)

def Stmt.resolveAll (context : Context) : List (Stmt RefId) → Scoping (List (Stmt Reference))
  | [] => return []
  | s :: ss => return (← s.resolve context) :: (← Stmt.resolveAll context ss)

/-- Parameters and body share a scope. No loop outside a routine is a loop of it. -/
def Routine.resolve (context : Context) (kind : RoutineKind) :
    Routine RefId → Scoping (Routine Reference)
  | ⟨params, body⟩ => inScope [] do
    declareAll params
    return ⟨params, ← Stmt.resolveAll { context with routineKind := some kind, inLoop := false } body⟩

def Definition.resolve (context : Context) (kind : RoutineKind) :
    Definition RefId → Scoping (Definition Reference)
  | ⟨name, r⟩ => return ⟨name, ← r.resolve context kind⟩

def Definition.resolveMethods (context : Context) :
    List (Definition RefId) → Scoping (List (Definition Reference))
  | [] => return []
  | m :: ms => return (← m.resolve context (methodKind m.name)) ::
      (← Definition.resolveMethods context ms)

def Definition.resolveClassMethods (context : Context) :
    List (Definition RefId) → Scoping (List (Definition Reference))
  | [] => return []
  | m :: ms => return (← m.resolve context .classMethod) ::
      (← Definition.resolveClassMethods context ms)

end

/-- How an unused variable is reported. -/
inductive Severity where
  | warning
  | error
  deriving Repr, DecidableEq

structure Resolution where
  program : List (Stmt Reference)
  findings : List Finding

namespace Resolution

/-- All faults are errors but an unused variable, which is one only by its severity. -/
def isError (unused : Severity) (f : Finding) : Bool :=
  f.fault != .unusedVariable || unused == .error

def errors (r : Resolution) (unused : Severity) : List Finding := r.findings.filter (isError unused)

def warnings (r : Resolution) (unused : Severity) : List Finding :=
  r.findings.filter fun f => !isError unused f

def references (r : Resolution) : List Reference := Stmt.referencesAll r.program

/-- The bindings of the references that have one. -/
def bindings (r : Resolution) : List (RefId × Binding) :=
  r.references.filterMap fun ref => ref.binding.map (ref.id, ·)

end Resolution

def resolve (program : List (Stmt RefId)) : Resolution :=
  let (program, s) := (Stmt.resolveAll {} program).run {}
  ⟨program, s.findings⟩

theorem resolve_eq (program : List (Stmt RefId)) : resolve program =
    ⟨(Stmt.resolveAll {} program {}).1, (Stmt.resolveAll {} program {}).2.findings⟩ := rfl

end Lox
