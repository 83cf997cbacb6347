/-!
The form of the messages that are given before a program runs.
-/

namespace Lox

/-- What a message points at, apart from its line. -/
inductive Place where
  | line
  | end
  | lexeme (s : String)
  deriving Repr, DecidableEq

namespace Place

def describe : Place → String
  | .line => ""
  | .end => " at end"
  | .lexeme s => " at '" ++ s ++ "'"

end Place

def report (severity : String) (line : Nat) (place : Place) (text : String) : String :=
  "[line " ++ toString line ++ "] " ++ severity ++ place.describe ++ ": " ++ text

def reportError : Nat → Place → String → String := report "Error"

def reportWarning : Nat → Place → String → String := report "Warning"

end Lox
