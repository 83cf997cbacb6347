import Lox.Syntax.Parser

/-!
Reading with a cursor. The tokens stand in one list that ends with an end mark, and a position in it says
which of them is next. A look at a token is checked against the length of the list, and reading stops
where there is none. The cursor goes back, too: in front of a `fun` that begins an expression, and of a
token that no expression begins with.

The loops over declarations keep a record of their rounds.
-/

namespace Lox

/-- The tokens with an end mark behind them, unless the last one is such a mark. It stands on the line of
the last token. -/
def Token.closed (tokens : List Token) : List Token :=
  if tokens.getLast?.any (·.kind == .eof) then tokens
  else tokens ++ [.eof (tokens.getLast?.elim 1 (·.line))]

namespace Cursor

structure State where
  tokens : List Token
  position : Nat
  nextId : RefId
  errors : List Syntax.Error
  /-- Where each round of a loop over declarations found the cursor, and where it left it. -/
  rounds : List (Nat × Nat)

/-- Why a phrase was given up. -/
inductive Stop where
  | error (e : Syntax.Error)
  | outOfRange
  | tooDeep

end Cursor

abbrev Cursor := EStateM Cursor.Stop Cursor.State

namespace Cursor

open Syntax
open Lox.Parser (Nonterminal Level maxListed unaryOperator? forLoop)

/-- The token at this place. -/
def look (place : Nat) : Cursor Token := do
  match (← get).tokens[place]? with
  | some t => return t
  | none => throw .outOfRange

def peek : Cursor Token := do
  let s ← get
  look (min s.position (s.tokens.length - 1))

def previous : Cursor Token := do look ((← get).position - 1)

def check (kind : Token.Kind) : Cursor Bool := return (← peek).kind == kind

def isAtEnd : Cursor Bool := check .eof

def move (step : Nat → Nat) : Cursor Unit := modify fun s => { s with position := step s.position }

/-- Goes on by one token, but never beyond the end mark. -/
def advance : Cursor Token := do
  if !(← isAtEnd) then move (· + 1)
  previous

def recede : Cursor Unit := move (· - 1)

def advanceIf (kind : Token.Kind) : Cursor Bool := do
  if ← check kind then
    let _ ← advance
    return true
  else return false

/-- The next token, if it is of the kind. -/
def accept? (kind : Token.Kind) : Cursor (Option Token) := do
  if ← advanceIf kind then some <$> previous else return none

def errorAt (t : Token) (complaint : Complaint) : Syntax.Error :=
  ⟨t.line, if t.kind == .eof then .end else .lexeme t.lexeme, complaint⟩

def fail {α : Type} (t : Token) (complaint : Complaint) : Cursor α := throw (.error (errorAt t complaint))

def note (e : Syntax.Error) : Cursor Unit := modify fun s => { s with errors := s.errors ++ [e] }

/-- Notes a complaint and goes on. -/
def report (t : Token) (complaint : Complaint) : Cursor Unit := note (errorAt t complaint)

def consume (kind : Token.Kind) (what : String) : Cursor Token := do
  if ← check kind then advance else fail (← peek) (.expected what)

def consumeName (what : String) : Cursor Lexeme := return (← consume .identifier what).mark

def freshId : Cursor RefId := modifyGet fun s => (s.nextId, { s with nextId := s.nextId + 1 })

/-- Goes on to where a statement probably begins, in at most so many steps. -/
def synchronizeWithin : Nat → Cursor Unit
  | 0 => throw .tooDeep
  | steps + 1 => do
    if ← isAtEnd then return
    if (← previous).kind == .semicolon || (← peek).kind.startsStatement then return
    let _ ← advance
    synchronizeWithin steps

def synchronize : Cursor Unit := do
  let _ ← advance
  synchronizeWithin (← get).tokens.length

/-- Reads a phrase; one that is given up is reported, and reading goes on behind it. -/
def recover {α : Type} (c : Cursor α) : Cursor (Option α) :=
  tryCatch (some <$> c) fun
    | .error e => do
      note e
      synchronize
      return none
    | stop => throw stop

/-- Puts a round on record that found the cursor here. -/
def finishRound (start : Nat) : Cursor Unit :=
  modify fun s => { s with rounds := s.rounds ++ [(start, s.position)] }

section Productions

variable (phrase : (n : Nonterminal) → Cursor n.Tree)

def expression : Cursor (Expr RefId) := phrase (.chain .comma)

def operand (level : Level) : Cursor (Expr RefId) :=
  match level with
  | .comma => phrase .assignment
  | .or => phrase (.chain .and)
  | .and => phrase .ternary
  | .equality => phrase (.chain .comparison)
  | .comparison => phrase (.chain .term)
  | .term => phrase (.chain .factor)
  | .factor => phrase .unary

/-- The loops over the declarations of a program and of a block. -/
def sequence (inBlock : Bool) : Cursor (List (Stmt RefId)) := do
  if (← isAtEnd) || (inBlock && (← check .rightBrace)) then return []
  let start := (← get).position
  let first ← phrase .declaration
  finishRound start
  let others ← phrase (.sequence inBlock)
  return first.toList ++ others

def block : Cursor (List (Stmt RefId)) := do
  let body ← phrase (.sequence true)
  let _ ← consume .rightBrace "'\x7d' after block"
  return body

def parameters (before : Nat) : Cursor (List Lexeme) := do
  if maxListed ≤ before then report (← peek) (.tooMany "parameters")
  let name ← consumeName "parameter name"
  if ← advanceIf .comma then return name :: (← phrase (.parameters (before + 1))) else return [name]

def routine (head owner : String) : Cursor (Routine RefId) := do
  let _ ← consume .leftParen ("'(' after " ++ head)
  let params ← if ← check .rightParen then pure [] else phrase (.parameters 0)
  let _ ← consume .rightParen "')' after parameters"
  let _ ← consume .leftBrace ("'\x7b' before " ++ owner ++ " body")
  return ⟨params, ← block phrase⟩

def definition (owner : String) : Cursor (Definition RefId) := do
  let name ← consumeName (owner ++ " name")
  return ⟨name, ← routine phrase (owner ++ " name") owner⟩

def members : Cursor (List (Bool × Definition RefId)) := do
  if (← isAtEnd) || (← check .rightBrace) then return []
  let ofClass ← advanceIf .class
  let method ← definition phrase "method"
  return (ofClass, method) :: (← phrase .members)

def classDeclaration : Cursor (Stmt RefId) := do
  let name ← consumeName "class name"
  let superclass ← if ← advanceIf .less then
      let superclass ← consumeName "superclass name"
      pure (some (← freshId, superclass))
    else pure none
  let _ ← consume .leftBrace "'\x7b' before class body"
  let ms ← phrase .members
  let _ ← consume .rightBrace "'\x7d' after class body"
  let named (ofClass : Bool) := (ms.filter (·.1 == ofClass)).map (·.2)
  return .class name superclass (named false) (named true)

def varDeclaration : Cursor (Stmt RefId) := do
  let name ← consumeName "variable name"
  let initial ← if ← advanceIf .equal then some <$> expression phrase else pure none
  let _ ← consume .semicolon "';' after variable declaration"
  return .var name initial

def expressionStatement : Cursor (Stmt RefId) := do
  let e ← expression phrase
  let _ ← consume .semicolon "';' after expression"
  return .expr e

def optionalBefore (closing : Token.Kind) : Cursor (Option (Expr RefId)) := do
  if ← check closing then return none else some <$> expression phrase

def forStatement : Cursor (Stmt RefId) := do
  let _ ← consume .leftParen "'(' after 'for'"
  let initial ← do
    if ← advanceIf .semicolon then pure none
    else if ← advanceIf .var then some <$> varDeclaration phrase
    else some <$> expressionStatement phrase
  let condition ← optionalBefore phrase .semicolon
  let _ ← consume .semicolon "';' after loop condition"
  let increment ← optionalBefore phrase .rightParen
  let _ ← consume .rightParen "')' after for clauses"
  return forLoop initial condition increment (← phrase .statement)

def ifStatement : Cursor (Stmt RefId) := do
  let _ ← consume .leftParen "'(' after 'if'"
  let condition ← expression phrase
  let _ ← consume .rightParen "')' after if condition"
  let yes ← phrase .statement
  if ← advanceIf .else then return .if condition yes (some (← phrase .statement))
  else return .if condition yes none

def whileStatement : Cursor (Stmt RefId) := do
  let _ ← consume .leftParen "'(' after 'while'"
  let condition ← expression phrase
  let _ ← consume .rightParen "')' after condition"
  return .while condition (← phrase .statement)

def printStatement : Cursor (Stmt RefId) := do
  let e ← expression phrase
  let _ ← consume .semicolon "';' after value"
  return .print e

def returnStatement (keyword : Token) : Cursor (Stmt RefId) := do
  let value ← optionalBefore phrase .semicolon
  let _ ← consume .semicolon "';' after return value"
  return .return keyword.mark value

def breakStatement (keyword : Token) : Cursor (Stmt RefId) := do
  let _ ← consume .semicolon "';' after 'break'"
  return .break keyword.mark

def statement : Cursor (Stmt RefId) := do
  if ← advanceIf .for then forStatement phrase
  else if ← advanceIf .if then ifStatement phrase
  else if ← advanceIf .print then printStatement phrase
  else if ← advanceIf .return then returnStatement phrase (← previous)
  else if ← advanceIf .break then breakStatement (← previous)
  else if ← advanceIf .while then whileStatement phrase
  else if ← advanceIf .leftBrace then return .block (← block phrase)
  else expressionStatement phrase

/-- A declaration proper; from `fun` before a parenthesis the cursor goes back. -/
def declaration : Cursor (Stmt RefId) := do
  if ← advanceIf .class then classDeclaration phrase
  else if ← advanceIf .fun then
    if ← check .leftParen then
      recede
      phrase .statement
    else return .function (← definition phrase "function")
  else if ← advanceIf .var then varDeclaration phrase
  else phrase .statement

def assignment : Cursor (Expr RefId) := do
  let left ← phrase (.chain .or)
  match ← accept? .equal with
  | none => return left
  | some sign =>
    let value ← phrase .assignment
    match left with
    | .variable ref name => return .assign ref name value
    | .get object name => return .set object name value
    | _ => report sign .invalidTarget; return left

def chain (level : Level) : Cursor (Expr RefId) := do
  phrase (.chainTail level (← operand phrase level))

def chainTail (level : Level) (left : Expr RefId) : Cursor (Expr RefId) := do
  match level.operator? (← peek).kind with
  | none => return left
  | some op =>
    let sign ← advance
    let right ← operand phrase level
    phrase (.chainTail level (op.apply sign.mark left right))

def ternary : Cursor (Expr RefId) := do
  let condition ← phrase (.chain .equality)
  if ← advanceIf .question then
    let yes ← expression phrase
    let _ ← consume .colon "':' after expression"
    return .ternary condition yes (← phrase .assignment)
  else return condition

def unary : Cursor (Expr RefId) := do
  match unaryOperator? (← peek).kind with
  | none => phrase .call
  | some op =>
    let sign ← advance
    return .unary op sign.mark (← phrase .unary)

def lambda (keyword : Token) : Cursor (Expr RefId) :=
  .lambda keyword.line <$> routine phrase "'fun'" "lambda"

def call : Cursor (Expr RefId) := do
  match ← accept? .fun with
  | some keyword => phrase (.callTail (← lambda phrase keyword))
  | none => phrase (.callTail (← phrase .primary))

def callTail (callee : Expr RefId) : Cursor (Expr RefId) := do
  if ← advanceIf .leftParen then
    let arguments ← if ← check .rightParen then pure [] else phrase (.arguments 0)
    let paren ← consume .rightParen "')' after arguments"
    phrase (.callTail (.call callee arguments paren.line))
  else if ← advanceIf .dot then
    phrase (.callTail (.get callee (← consumeName "property name after '.'")))
  else return callee

def arguments (before : Nat) : Cursor (List (Expr RefId)) := do
  if maxListed ≤ before then report (← peek) (.tooMany "arguments")
  let e ← phrase .assignment
  if ← advanceIf .comma then return e :: (← phrase (.arguments (before + 1))) else return [e]

def missingLeftOperand (operator : Token) (level : Level) : Cursor (Expr RefId) := do
  let _ ← operand phrase level
  fail operator (.noLeftOperand operator.lexeme)

def superReference (keyword : Token) : Cursor (Expr RefId) := do
  let _ ← consume .dot "'.' after 'super'"
  let method ← consumeName "superclass method name"
  return .super (← freshId) keyword.mark method

/-- From a token that no expression begins with the cursor goes back. -/
def primary : Cursor (Expr RefId) := do
  if ← isAtEnd then fail (← peek) (.expected "expression")
  let t ← advance
  match t.kind with
  | .false => return .literal (.bool false)
  | .true => return .literal (.bool true)
  | .nil => return .literal .nil
  | .number | .string => return .literal (t.literal.getD .nil)
  | .super => superReference t
  | .this => return .this (← freshId) t.mark
  | .identifier => return .variable (← freshId) t.mark
  | .leftParen =>
    let e ← expression phrase
    let _ ← consume .rightParen "')' after expression"
    return .group e
  | .comma => missingLeftOperand phrase t .comma
  | .equalEqual | .bangEqual => missingLeftOperand phrase t .equality
  | .less | .lessEqual | .greater | .greaterEqual => missingLeftOperand phrase t .comparison
  | .plus => missingLeftOperand phrase t .term
  | .star | .slash => missingLeftOperand phrase t .factor
  | _ =>
    recede
    fail t (.expected "expression")

def production : (n : Nonterminal) → Cursor n.Tree
  | .sequence inBlock => sequence phrase inBlock
  | .declaration => recover (declaration phrase)
  | .members => members phrase
  | .statement => statement phrase
  | .parameters before => parameters phrase before
  | .assignment => assignment phrase
  | .chain level => chain phrase level
  | .chainTail level left => chainTail phrase level left
  | .ternary => ternary phrase
  | .unary => unary phrase
  | .call => call phrase
  | .callTail callee => callTail phrase callee
  | .arguments before => arguments phrase before
  | .primary => primary phrase

end Productions

/-- Reads a phrase with at most so many phrases inside each other. -/
def readWithin : Nat → (n : Nonterminal) → Cursor n.Tree
  | 0, _ => throw .tooDeep
  | depth + 1, n => production (readWithin depth) n

/-- The cursor in front of a program whose references are numbered from here. -/
def State.start (tokens : List Token) (first : RefId) : State := ⟨Token.closed tokens, 0, first, [], []⟩

end Cursor

end Lox
