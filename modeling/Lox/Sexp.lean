/-!
Symbolic expressions: atoms and parenthesised lists, with one blank between items.
-/

namespace Lox

inductive Sexp where
  | atom (s : String)
  | list (items : List Sexp)

namespace Sexp

mutual

def render : Sexp → String
  | .atom s => s
  | .list items => "(" ++ renderItems items ++ ")"

def renderItems : List Sexp → String
  | [] => ""
  | [e] => e.render
  | e :: es => e.render ++ " " ++ renderItems es

end

/-- A list whose first item is a word. -/
def form (head : String) (items : List Sexp) : Sexp := .list (.atom head :: items)

end Sexp

end Lox
