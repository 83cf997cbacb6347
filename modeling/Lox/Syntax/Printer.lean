import Lox.Numeral.Notation
import Lox.Sexp
import Lox.Syntax

/-!
Syntax trees as symbolic expressions, operators first.
-/

namespace Lox

variable {ρ : Type}

def Literal.display : Literal → String
  | .nil => "nil"
  | .bool b => toString b
  | .number x => Numeral.display x
  | .string s => s

/-- A constant as it is written in a program: a string between its quotes. -/
def Literal.toSexp : Literal → Sexp
  | .string s => .atom ("\"" ++ s ++ "\"")
  | l => .atom l.display

def Lexeme.toSexp (l : Lexeme) : Sexp := .atom l.text

mutual

def Expr.toSexp : Expr ρ → Sexp
  | .literal v => v.toSexp
  | .variable _ n => n.toSexp
  | .assign _ n e => .form "=" [n.toSexp, e.toSexp]
  | .this _ _ => .atom "this"
  | .super _ _ m => .form "super" [m.toSexp]
  | .unary _ s e => .form s.text [e.toSexp]
  | .binary _ s l r => .form s.text [l.toSexp, r.toSexp]
  | .logical _ s l r => .form s.text [l.toSexp, r.toSexp]
  | .ternary c y n => .form "ternary" [c.toSexp, y.toSexp, n.toSexp]
  | .group e => .form "group" [e.toSexp]
  | .call c as _ => .form "call" (c.toSexp :: Expr.toSexps as)
  | .get o n => .form "." [o.toSexp, n.toSexp]
  | .set o n e => .form "set" [o.toSexp, n.toSexp, e.toSexp]
  | .lambda _ r => .form "lambda" r.toSexps

def Expr.toSexps : List (Expr ρ) → List Sexp
  | [] => []
  | e :: es => e.toSexp :: Expr.toSexps es

def Stmt.toSexp : Stmt ρ → Sexp
  | .expr e => .form ";" [e.toSexp]
  | .print e => .form "print" [e.toSexp]
  | .var n none => .form "var" [n.toSexp]
  | .var n (some e) => .form "var" [n.toSexp, .atom "=", e.toSexp]
  | .block b => .form "block" (Stmt.toSexps b)
  | .if c y none => .form "if" [c.toSexp, y.toSexp]
  | .if c y (some n) => .form "if" [c.toSexp, y.toSexp, n.toSexp]
  | .while c b => .form "while" [c.toSexp, b.toSexp]
  | .break _ => .form "break" []
  | .return _ none => .form "return" []
  | .return _ (some e) => .form "return" [e.toSexp]
  | .function d => d.toSexp "fun"
  | .class n s ms cs =>
    let parent := match s with
      | none => []
      | some (_, s) => [.atom "<", s.toSexp]
    .form "class" (n.toSexp :: parent ++ Definition.toSexps "fun" ms ++ Definition.toSexps "class" cs)

def Stmt.toSexps : List (Stmt ρ) → List Sexp
  | [] => []
  | s :: ss => s.toSexp :: Stmt.toSexps ss

/-- The list of parameters, then the statements. -/
def Routine.toSexps : Routine ρ → List Sexp
  | ⟨ps, b⟩ => .list (ps.map Lexeme.toSexp) :: Stmt.toSexps b

def Definition.toSexp (keyword : String) : Definition ρ → Sexp
  | ⟨n, r⟩ => .form keyword (n.toSexp :: r.toSexps)

def Definition.toSexps (keyword : String) : List (Definition ρ) → List Sexp
  | [] => []
  | d :: ds => d.toSexp keyword :: Definition.toSexps keyword ds

end

def Stmt.text (s : Stmt ρ) : String := s.toSexp.render

/-- A program as text, a line for each of its statements. -/
def programText (p : List (Stmt ρ)) : String := "\n".intercalate (p.map Stmt.text)

end Lox
