import Lox.Environment
import Lox.Host.FileSystem
import Lox.Native
import Lox.Numeral.Notation
import Lox.Scoping
import Lox.Syntax.Printer
import Lox.Text.Quoted

/-!
Values. What can change about an object, its fields, is kept apart from it, under its identity;
functions, classes and instances themselves never change. Values are parametrised by what the
references in their routines carry, and by what a routine keeps of the scope it was written in.
-/

namespace Lox

variable {ρ κ : Type}

abbrev ObjectId := Nat

/-- A routine with the scope that it was written in. -/
structure Closure (ρ κ : Type) where
  routine : Routine ρ
  scope : κ

structure Function (ρ κ : Type) where
  name : String
  closure : Closure ρ κ
  /-- A call of an initializer answers the instance that it prepares. -/
  initializer : Bool

namespace Function

def arity (f : Function ρ κ) : Nat := f.closure.routine.params.length

/-- The function in another scope. -/
def within (f : Function ρ κ) (scope : κ) : Function ρ κ :=
  { f with closure := { f.closure with scope } }

end Function

/-- A class with the class it extends. Of two methods of one name in a class the later declared one
comes first. -/
structure Class (ρ κ : Type) where
  id : ObjectId
  name : String
  superclass : Option (Class ρ κ)
  methods : List (Function ρ κ)
  classMethods : List (Function ρ κ)

namespace Class

def ownMethod? (name : String) (methods : List (Function ρ κ)) : Option (Function ρ κ) :=
  methods.find? (·.name == name)

/-- The method of the nearest class that declares the name. -/
def findMethod? (name : String) : Class ρ κ → Option (Function ρ κ)
  | ⟨_, _, none, methods, _⟩ => ownMethod? name methods
  | ⟨_, _, some parent, methods, _⟩ => ownMethod? name methods <|> parent.findMethod? name

def findClassMethod? (name : String) : Class ρ κ → Option (Function ρ κ)
  | ⟨_, _, none, _, methods⟩ => ownMethod? name methods
  | ⟨_, _, some parent, _, methods⟩ => ownMethod? name methods <|> parent.findClassMethod? name

def initializer? (c : Class ρ κ) : Option (Function ρ κ) := c.findMethod? Scoping.initializerName

/-- A class takes the arguments of its initializer. -/
def arity (c : Class ρ κ) : Nat := (c.initializer?.map Function.arity).getD 0

end Class

inductive Value (ρ κ : Type) where
  | nil
  | bool (b : Bool)
  | number (x : Float)
  | string (s : String)
  | function (id : ObjectId) (f : Function ρ κ)
  | lambda (id : ObjectId) (line : Nat) (closure : Closure ρ κ)
  | class (c : Class ρ κ)
  | native (n : Native)
  | instance (id : ObjectId) (c : Class ρ κ)
  | file (handle : FileSystem.HandleId)

namespace Value

def ofLiteral : Literal → Value ρ κ
  | .nil => .nil
  | .bool b => .bool b
  | .number x => .number x
  | .string s => .string s

/-- All values count as true but `nil` and `false`. -/
def truthy : Value ρ κ → Bool
  | .nil => false
  | .bool b => b
  | _ => true

/-- Constants are equal by what they are, and objects by which they are. -/
def equals : Value ρ κ → Value ρ κ → Bool
  | .nil, .nil => true
  | .bool a, .bool b => a == b
  | .number a, .number b => a == b
  | .string a, .string b => a == b
  | .function a _, .function b _ => a == b
  | .lambda a _ _, .lambda b _ _ => a == b
  | .class a, .class b => a.id == b.id
  | .native a, .native b => a == b
  | .instance a _, .instance b _ => a == b
  | .file a, .file b => a == b
  | _, _ => false

/-- The text of a value as programs print it. -/
def display : Value ρ κ → String
  | .nil => "nil"
  | .bool b => toString b
  | .number x => Numeral.display x
  | .string s => s
  | .function _ f => "<fn " ++ f.name ++ ">"
  | .lambda _ _ _ => "<fn>"
  | .class c => c.name
  | .native n => "<native fn '" ++ n.name ++ "'>"
  | .instance _ c => c.name ++ " instance"
  | .file _ => "<file handle>"

theorem display_ofLiteral (l : Literal) : (ofLiteral l : Value ρ κ).display = l.display := by
  cases l <;> rfl

/-- A record as text: its name, then its fields between braces. -/
def describe (name : String) (fields : List (String × String)) : String :=
  name ++ " \x7b " ++ ", ".intercalate (fields.map fun (f, v) => f ++ ": " ++ v) ++ " \x7d"

/-- The text of a value that shows what it is made of. -/
def debug : Value ρ κ → String
  | .nil => "Nil"
  | .bool b => "Bool(" ++ toString b ++ ")"
  | .number x => "Number(" ++ Numeral.debug x ++ ")"
  | .string s => "String(" ++ Text.quote s ++ ")"
  | .function _ f => "Function(" ++ describe "Function" [("name", Text.quote f.name),
      ("is_initializer", toString f.initializer)] ++ ")"
  | .lambda _ line _ => "Lambda(" ++ describe "Lambda" [("line", toString line)] ++ ")"
  | .class c => "Class(" ++ describe "Class" [("name", Text.quote c.name),
      ("superclass", match c.superclass with
        | some parent => "Some(" ++ Text.quote parent.name ++ ")"
        | none => "None")] ++ ")"
  | .native n => "Native(" ++ describe "NativeFunction" [("name", Text.quote n.name),
      ("arity", toString n.arity)] ++ ")"
  | .instance _ c => "Instance(" ++ describe "Instance" [("class", Text.quote c.name)] ++ ")"
  | .file handle => "Handle(" ++ toString handle ++ ")"

end Value

/-- The variables of an environment as text: its names by slot, and whether it is nested. -/
def Environment.debug {α : Type} (e : Environment α) : String :=
  Value.describe "Environment"
    [("names", "[" ++ ", ".intercalate (e.names.map Text.quote) ++ "]"),
      ("has_enclosing", toString e.enclosing.isSome)]

end Lox
