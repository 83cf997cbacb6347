import Lox.Native.Action

/-!
The errors of a running program.
-/

namespace Lox

/-- What a program did wrong. -/
inductive RuntimeFault where
  | numberOperand
  | numberOperands
  | addOperands
  | divisionByZero
  | notCallable
  | arityMismatch (expected found : Nat)
  | propertyOnNonInstance
  | fieldOnNonInstance
  | undefinedProperty (name : String)
  | undefinedVariable (name : String)
  | uninitializedVariable (name : String)
  | superclassNotClass
  | initOnClass
  | output (fault : Console.Fault)
  | native (n : Native) (fault : Native.Fault)

def RuntimeFault.message : RuntimeFault → String
  | .numberOperand => "Operand must be a number."
  | .numberOperands => "Operands must be numbers."
  | .addOperands => "Operands must be numbers or strings."
  | .divisionByZero => "Division by zero."
  | .notCallable => "Can only call functions and classes."
  | .arityMismatch expected found =>
    "Expected " ++ toString expected ++ " arguments but got " ++ toString found ++ "."
  | .propertyOnNonInstance => "Only instances have properties."
  | .fieldOnNonInstance => "Only instances have fields."
  | .undefinedProperty name => "Undefined property '" ++ name ++ "'."
  | .undefinedVariable name => "Undefined variable '" ++ name ++ "'."
  | .uninitializedVariable name => "Variable '" ++ name ++ "' not initialized."
  | .superclassNotClass => "Superclass must be a class."
  | .initOnClass => "'init' not allowed on classes."
  | .output fault => "Output error: " ++ fault.message
  | .native n fault => n.name ++ ": " ++ fault.message

/-- A fault and its line. What goes wrong outside the program has none until a call gives it its
own. -/
structure RuntimeError where
  fault : RuntimeFault
  line : Option Nat

namespace RuntimeError

def lineNumber (e : RuntimeError) : Nat := e.line.getD 0

def message (e : RuntimeError) : String :=
  e.fault.message ++ "\n[line " ++ toString e.lineNumber ++ "]"

/-- The error with this line, unless it has one. -/
def withLine (e : RuntimeError) (line : Nat) : RuntimeError :=
  { e with line := some (e.line.getD line) }

@[simp] theorem withLine_withLine (e : RuntimeError) (inner outer : Nat) :
    (e.withLine inner).withLine outer = e.withLine inner := rfl

end RuntimeError

end Lox
