import Lox.Token

/-!
Syntax trees. They are parametrised by what a reference to a variable carries: its identity as the
reader of the program gives it, or the place where the variable lives once that is known.
-/

namespace Lox

/-- A name or an operator as it is written, and its line. -/
structure Lexeme where
  text : String
  line : Nat
  deriving Repr, DecidableEq

def Token.mark (t : Token) : Lexeme := ⟨t.lexeme, t.line⟩

inductive UnaryOp where
  | not
  | negate
  deriving Repr, DecidableEq

/-- The operators that take numbers only. -/
inductive NumericOp where
  | subtract | multiply | divide
  | less | lessEqual | greater | greaterEqual
  deriving Repr, DecidableEq

inductive BinaryOp where
  | comma
  | equal | notEqual
  | add
  | numeric (op : NumericOp)
  deriving Repr, DecidableEq

inductive LogicalOp where
  | and
  | or
  deriving Repr, DecidableEq

mutual

inductive Expr (ρ : Type) where
  | literal (value : Literal)
  | variable (ref : ρ) (name : Lexeme)
  | assign (ref : ρ) (name : Lexeme) (value : Expr ρ)
  | this (ref : ρ) (keyword : Lexeme)
  | super (ref : ρ) (keyword method : Lexeme)
  | unary (op : UnaryOp) (sign : Lexeme) (operand : Expr ρ)
  | binary (op : BinaryOp) (sign : Lexeme) (left right : Expr ρ)
  | logical (op : LogicalOp) (sign : Lexeme) (left right : Expr ρ)
  | ternary (condition yes no : Expr ρ)
  | group (inner : Expr ρ)
  /-- A call, with the line its argument list ends on. -/
  | call (callee : Expr ρ) (arguments : List (Expr ρ)) (line : Nat)
  | get (object : Expr ρ) (name : Lexeme)
  | set (object : Expr ρ) (name : Lexeme) (value : Expr ρ)
  | lambda (line : Nat) (routine : Routine ρ)

inductive Stmt (ρ : Type) where
  | expr (e : Expr ρ)
  | print (e : Expr ρ)
  | var (name : Lexeme) (initial : Option (Expr ρ))
  | block (body : List (Stmt ρ))
  | if (condition : Expr ρ) (yes : Stmt ρ) (no : Option (Stmt ρ))
  | while (condition : Expr ρ) (body : Stmt ρ)
  | break (keyword : Lexeme)
  | return (keyword : Lexeme) (value : Option (Expr ρ))
  | function (f : Definition ρ)
  | class (name : Lexeme) (superclass : Option (ρ × Lexeme))
      (methods classMethods : List (Definition ρ))

/-- What a call runs: the names that its arguments get and the statements after them. -/
structure Routine (ρ : Type) where
  params : List Lexeme
  body : List (Stmt ρ)

/-- A named routine: a function or a method. -/
structure Definition (ρ : Type) where
  name : Lexeme
  routine : Routine ρ

end

variable {ρ : Type}

mutual

/-- The references of a tree, in the order they are written. -/
def Expr.references : Expr ρ → List ρ
  | .literal _ => []
  | .variable r _ | .this r _ | .super r _ _ => [r]
  | .assign r _ e => r :: e.references
  | .unary _ _ e | .group e | .get e _ => e.references
  | .binary _ _ l r | .logical _ _ l r => l.references ++ r.references
  | .ternary c y n => c.references ++ y.references ++ n.references
  | .call c as _ => c.references ++ Expr.referencesAll as
  | .set o _ e => o.references ++ e.references
  | .lambda _ r => r.references

def Expr.referencesAll : List (Expr ρ) → List ρ
  | [] => []
  | e :: es => e.references ++ Expr.referencesAll es

def Stmt.references : Stmt ρ → List ρ
  | .expr e | .print e => e.references
  | .var _ none | .break _ | .return _ none => []
  | .var _ (some e) | .return _ (some e) => e.references
  | .block b => Stmt.referencesAll b
  | .if c y none => c.references ++ y.references
  | .if c y (some n) => c.references ++ y.references ++ n.references
  | .while c b => c.references ++ b.references
  | .function d => d.references
  | .class _ s ms cs =>
    s.toList.map (·.1) ++ Definition.referencesAll ms ++ Definition.referencesAll cs

def Stmt.referencesAll : List (Stmt ρ) → List ρ
  | [] => []
  | s :: ss => s.references ++ Stmt.referencesAll ss

def Routine.references : Routine ρ → List ρ
  | ⟨_, b⟩ => Stmt.referencesAll b

def Definition.references : Definition ρ → List ρ
  | ⟨_, r⟩ => r.references

def Definition.referencesAll : List (Definition ρ) → List ρ
  | [] => []
  | d :: ds => d.references ++ Definition.referencesAll ds

end

end Lox
