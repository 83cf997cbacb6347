import Lox.Report
import Lox.Syntax

/-!
Reading syntax trees from tokens. The grammar is given production by production: a production reads
one `Nonterminal` and calls back for the phrases inside it. `parseWithin` ties the knot and allows a
number of nested calls; `parse` allows more than any token list needs.

A faulty declaration is reported and dropped, and reading goes on behind the next semicolon or at
the next word that starts a statement.
-/

namespace Lox

/-- The identity of a reference: references are numbered as they are read. -/
abbrev RefId := Nat

namespace Syntax

/-- What is wrong with the order of the tokens. -/
inductive Complaint where
  | expected (what : String)
  | tooMany (what : String)
  | invalidTarget
  | noLeftOperand (operator : String)
  deriving Repr, DecidableEq

def Complaint.message : Complaint → String
  | .expected what => "Expect " ++ what ++ "."
  | .tooMany what => "Can't have more than 255 " ++ what ++ "."
  | .invalidTarget => "Invalid assignment target."
  | .noLeftOperand operator =>
    "Binary operator '" ++ operator ++ "' not allowed at beginning of expression."

structure Error where
  line : Nat
  place : Place
  complaint : Complaint
  deriving Repr, DecidableEq

def Error.message (e : Error) : String := reportError e.line e.place e.complaint.message

end Syntax

namespace Parser

open Syntax

/-- The most parameters or arguments that a list may have. -/
def maxListed : Nat := 255

/-- A complaint and the token it is about, or none for the end of the input. -/
structure Fault where
  token : Option Token
  complaint : Complaint

def Fault.toError (endLine : Nat) (f : Fault) : Error :=
  match f.token with
  | some t => ⟨t.line, .lexeme t.lexeme, f.complaint⟩
  | none => ⟨endLine, .end, f.complaint⟩

structure State where
  rest : List Token
  nextId : RefId
  faults : List Fault := []

/-- Why a phrase was given up. -/
inductive Stop where
  | fault (f : Fault)
  | tooDeep

end Parser

/-- A reader of a phrase. What it read stays read, and what it reported stays reported, when it gives
up. -/
abbrev Parser := EStateM Parser.Stop Parser.State

namespace Parser

open Syntax

def peek : Parser (Option Token) := return (← get).rest.head?

def skip : Parser Unit := modify fun s => { s with rest := s.rest.tail }

def nextIs (kind : Token.Kind) : Parser Bool := return (← peek).any (·.kind == kind)

def atEnd : Parser Bool := return (← peek).isNone

/-- The next token, if it is of the kind. -/
def accept? (kind : Token.Kind) : Parser (Option Token) := do
  match ← peek with
  | some t => if t.kind == kind then skip; return some t else return none
  | none => return none

def fail {α : Type} (token : Option Token) (complaint : Complaint) : Parser α :=
  throw (.fault ⟨token, complaint⟩)

/-- Notes a complaint and goes on. -/
def report (token : Option Token) (complaint : Complaint) : Parser Unit :=
  modify fun s => { s with faults := s.faults ++ [⟨token, complaint⟩] }

def expect (kind : Token.Kind) (what : String) : Parser Token := do
  match ← accept? kind with
  | some t => return t
  | none => fail (← peek) (.expected what)

def expectName (what : String) : Parser Lexeme := return (← expect .identifier what).mark

def freshId : Parser RefId := modifyGet fun s => (s.nextId, { s with nextId := s.nextId + 1 })

/-- The operators that stand between operands, weakest first. All group to the left. -/
inductive Level where
  | comma | or | and | equality | comparison | term | factor
  deriving Repr, DecidableEq

/-- An operator that stands between two operands. -/
inductive Infix where
  | binary (op : BinaryOp)
  | logical (op : LogicalOp)
  deriving Repr, DecidableEq

def Infix.apply {ρ : Type} (op : Infix) (sign : Lexeme) (left right : Expr ρ) : Expr ρ :=
  match op with
  | .binary op => .binary op sign left right
  | .logical op => .logical op sign left right

def Level.operator? : Level → Token.Kind → Option Infix
  | .comma, .comma => some (.binary .comma)
  | .or, .or => some (.logical .or)
  | .and, .and => some (.logical .and)
  | .equality, .equalEqual => some (.binary .equal)
  | .equality, .bangEqual => some (.binary .notEqual)
  | .comparison, .less => some (.binary (.numeric .less))
  | .comparison, .lessEqual => some (.binary (.numeric .lessEqual))
  | .comparison, .greater => some (.binary (.numeric .greater))
  | .comparison, .greaterEqual => some (.binary (.numeric .greaterEqual))
  | .term, .plus => some (.binary .add)
  | .term, .minus => some (.binary (.numeric .subtract))
  | .factor, .star => some (.binary (.numeric .multiply))
  | .factor, .slash => some (.binary (.numeric .divide))
  | _, _ => none

def unaryOperator? : Token.Kind → Option UnaryOp
  | .bang => some .not
  | .minus => some .negate
  | _ => none

/-- The phrases of the grammar. Those that go on with a list or an operand already read carry what
they need of it. -/
inductive Nonterminal where
  /-- Declarations up to the end, or up to a closing brace as well. -/
  | sequence (inBlock : Bool)
  | declaration
  | members
  | statement
  | parameters (before : Nat)
  | assignment
  | chain (level : Level)
  | chainTail (level : Level) (left : Expr RefId)
  | ternary
  | unary
  | call
  | callTail (callee : Expr RefId)
  | arguments (before : Nat)
  | primary

namespace Nonterminal

/-- What a phrase is read as. A faulty declaration is read as none, and a member carries whether it
belongs to the class itself. -/
abbrev Tree : Nonterminal → Type
  | .sequence _ => List (Stmt RefId)
  | .declaration => Option (Stmt RefId)
  | .members => List (Bool × Definition RefId)
  | .statement => Stmt RefId
  | .parameters _ => List Lexeme
  | .assignment | .chain _ | .chainTail _ _ | .ternary | .unary | .call | .callTail _ | .primary =>
    Expr RefId
  | .arguments _ => List (Expr RefId)

/-- Any expression. -/
abbrev expression : Nonterminal := .chain .comma

end Nonterminal

/-- The tokens from which reading goes on after a fault at the first of them. -/
def resume : List Token → List Token
  | [] => []
  | t :: ts =>
    if t.kind == .semicolon || ts.head?.any (·.kind.startsStatement) then ts else resume ts

/-- Reads a phrase; one that is given up is reported, and skipped to where reading goes on. -/
def recover {α : Type} (p : Parser α) : Parser (Option α) :=
  tryCatch (some <$> p) fun
    | .fault f => do
      report f.token f.complaint
      modify fun s => { s with rest := resume s.rest }
      return none
    | .tooDeep => throw .tooDeep

section Productions

variable (phrase : (n : Nonterminal) → Parser n.Tree)

def expression : Parser (Expr RefId) := phrase (.chain .comma)

/-- The operands of a level are the phrases of the next tighter one. -/
def operand (level : Level) : Parser (Expr RefId) :=
  match level with
  | .comma => phrase .assignment
  | .or => phrase (.chain .and)
  | .and => phrase .ternary
  | .equality => phrase (.chain .comparison)
  | .comparison => phrase (.chain .term)
  | .term => phrase (.chain .factor)
  | .factor => phrase .unary

def sequence (inBlock : Bool) : Parser (List (Stmt RefId)) := do
  if (← atEnd) || (inBlock && (← nextIs .rightBrace)) then return []
  let first ← phrase .declaration
  let others ← phrase (.sequence inBlock)
  return first.toList ++ others

/-- A block behind its opening brace. -/
def block : Parser (List (Stmt RefId)) := do
  let body ← phrase (.sequence true)
  let _ ← expect .rightBrace "'\x7d' after block"
  return body

def parameters (before : Nat) : Parser (List Lexeme) := do
  if maxListed ≤ before then report (← peek) (.tooMany "parameters")
  let name ← expectName "parameter name"
  match ← accept? .comma with
  | some _ => return name :: (← phrase (.parameters (before + 1)))
  | none => return [name]

/-- Parameters and body. The texts say what the parameters and the body belong to. -/
def routine (head owner : String) : Parser (Routine RefId) := do
  let _ ← expect .leftParen ("'(' after " ++ head)
  let params ← if ← nextIs .rightParen then pure [] else phrase (.parameters 0)
  let _ ← expect .rightParen "')' after parameters"
  let _ ← expect .leftBrace ("'\x7b' before " ++ owner ++ " body")
  return ⟨params, ← block phrase⟩

def definition (owner : String) : Parser (Definition RefId) := do
  let name ← expectName (owner ++ " name")
  return ⟨name, ← routine phrase (owner ++ " name") owner⟩

def lambda (keyword : Token) : Parser (Expr RefId) :=
  .lambda keyword.line <$> routine phrase "'fun'" "lambda"

def members : Parser (List (Bool × Definition RefId)) := do
  if (← atEnd) || (← nextIs .rightBrace) then return []
  let ofClass ← accept? .class
  let method ← definition phrase "method"
  return (ofClass.isSome, method) :: (← phrase .members)

def classDeclaration : Parser (Stmt RefId) := do
  let name ← expectName "class name"
  let superclass ← match ← accept? .less with
    | some _ =>
      let superclass ← expectName "superclass name"
      pure (some (← freshId, superclass))
    | none => pure none
  let _ ← expect .leftBrace "'\x7b' before class body"
  let ms ← phrase .members
  let _ ← expect .rightBrace "'\x7d' after class body"
  let named (ofClass : Bool) := (ms.filter (·.1 == ofClass)).map (·.2)
  return .class name superclass (named false) (named true)

def varDeclaration : Parser (Stmt RefId) := do
  let name ← expectName "variable name"
  let initial ← match ← accept? .equal with
    | some _ => some <$> expression phrase
    | none => pure none
  let _ ← expect .semicolon "';' after variable declaration"
  return .var name initial

def expressionStatement : Parser (Stmt RefId) := do
  let e ← expression phrase
  let _ ← expect .semicolon "';' after expression"
  return .expr e

/-- An expression, unless the phrase is left out and the closing token follows at once. -/
def optionalBefore (closing : Token.Kind) : Parser (Option (Expr RefId)) := do
  if ← nextIs closing then return none else some <$> expression phrase

/-- The loop that a `for` stands for. -/
def forLoop {ρ : Type} (initial : Option (Stmt ρ)) (condition increment : Option (Expr ρ))
    (body : Stmt ρ) : Stmt ρ :=
  let body := match increment with
    | some e => .block [body, .expr e]
    | none => body
  let loop := .while (condition.getD (.literal (.bool true))) body
  match initial with
  | some s => .block [s, loop]
  | none => loop

def forStatement : Parser (Stmt RefId) := do
  let _ ← expect .leftParen "'(' after 'for'"
  let initial ← match ← accept? .semicolon with
    | some _ => pure none
    | none => match ← accept? .var with
      | some _ => some <$> varDeclaration phrase
      | none => some <$> expressionStatement phrase
  let condition ← optionalBefore phrase .semicolon
  let _ ← expect .semicolon "';' after loop condition"
  let increment ← optionalBefore phrase .rightParen
  let _ ← expect .rightParen "')' after for clauses"
  return forLoop initial condition increment (← phrase .statement)

def ifStatement : Parser (Stmt RefId) := do
  let _ ← expect .leftParen "'(' after 'if'"
  let condition ← expression phrase
  let _ ← expect .rightParen "')' after if condition"
  let yes ← phrase .statement
  match ← accept? .else with
  | some _ => return .if condition yes (some (← phrase .statement))
  | none => return .if condition yes none

def whileStatement : Parser (Stmt RefId) := do
  let _ ← expect .leftParen "'(' after 'while'"
  let condition ← expression phrase
  let _ ← expect .rightParen "')' after condition"
  return .while condition (← phrase .statement)

def printStatement : Parser (Stmt RefId) := do
  let e ← expression phrase
  let _ ← expect .semicolon "';' after value"
  return .print e

def returnStatement (keyword : Token) : Parser (Stmt RefId) := do
  let value ← optionalBefore phrase .semicolon
  let _ ← expect .semicolon "';' after return value"
  return .return keyword.mark value

def breakStatement (keyword : Token) : Parser (Stmt RefId) := do
  let _ ← expect .semicolon "';' after 'break'"
  return .break keyword.mark

def statement : Parser (Stmt RefId) := do
  match ← peek with
  | none => expressionStatement phrase
  | some t => match t.kind with
    | .for => skip; forStatement phrase
    | .if => skip; ifStatement phrase
    | .print => skip; printStatement phrase
    | .return => skip; returnStatement phrase t
    | .break => skip; breakStatement t
    | .while => skip; whileStatement phrase
    | .leftBrace => skip; return .block (← block phrase)
    | _ => expressionStatement phrase

/-- A declaration proper; `fun` before a parenthesis starts an expression instead. -/
def declaration : Parser (Stmt RefId) := do
  match (← get).rest with
  | ⟨.class, _, _, _⟩ :: _ => skip; classDeclaration phrase
  | ⟨.fun, _, _, _⟩ :: ⟨.leftParen, _, _, _⟩ :: _ => phrase .statement
  | ⟨.fun, _, _, _⟩ :: _ => skip; return .function (← definition phrase "function")
  | ⟨.var, _, _, _⟩ :: _ => skip; varDeclaration phrase
  | _ => phrase .statement

/-- Only a variable or a property can be assigned to, which shows once the sign is there. -/
def assignment : Parser (Expr RefId) := do
  let left ← phrase (.chain .or)
  match ← accept? .equal with
  | none => return left
  | some sign =>
    let value ← phrase .assignment
    match left with
    | .variable ref name => return .assign ref name value
    | .get object name => return .set object name value
    | _ => report (some sign) .invalidTarget; return left

def chain (level : Level) : Parser (Expr RefId) := do
  phrase (.chainTail level (← operand phrase level))

def chainTail (level : Level) (left : Expr RefId) : Parser (Expr RefId) := do
  match ← peek with
  | none => return left
  | some t => match level.operator? t.kind with
    | none => return left
    | some op =>
      skip
      let right ← operand phrase level
      phrase (.chainTail level (op.apply t.mark left right))

def ternary : Parser (Expr RefId) := do
  let condition ← phrase (.chain .equality)
  match ← accept? .question with
  | none => return condition
  | some _ =>
    let yes ← expression phrase
    let _ ← expect .colon "':' after expression"
    return .ternary condition yes (← phrase .assignment)

def unary : Parser (Expr RefId) := do
  match ← peek with
  | none => phrase .call
  | some t => match unaryOperator? t.kind with
    | none => phrase .call
    | some op => skip; return .unary op t.mark (← phrase .unary)

def call : Parser (Expr RefId) := do
  match ← accept? .fun with
  | some keyword => phrase (.callTail (← lambda phrase keyword))
  | none => phrase (.callTail (← phrase .primary))

def callTail (callee : Expr RefId) : Parser (Expr RefId) := do
  match ← accept? .leftParen with
  | some _ =>
    let arguments ← if ← nextIs .rightParen then pure [] else phrase (.arguments 0)
    let paren ← expect .rightParen "')' after arguments"
    phrase (.callTail (.call callee arguments paren.line))
  | none => match ← accept? .dot with
    | some _ => phrase (.callTail (.get callee (← expectName "property name after '.'")))
    | none => return callee

def arguments (before : Nat) : Parser (List (Expr RefId)) := do
  if maxListed ≤ before then report (← peek) (.tooMany "arguments")
  let e ← phrase .assignment
  match ← accept? .comma with
  | some _ => return e :: (← phrase (.arguments (before + 1)))
  | none => return [e]

/-- An operator with nothing on its left is faulty, and so is its right operand if it has none. -/
def missingLeftOperand (operator : Token) (level : Level) : Parser (Expr RefId) := do
  let _ ← operand phrase level
  fail (some operator) (.noLeftOperand operator.lexeme)

def superReference (keyword : Token) : Parser (Expr RefId) := do
  let _ ← expect .dot "'.' after 'super'"
  let method ← expectName "superclass method name"
  return .super (← freshId) keyword.mark method

def primary : Parser (Expr RefId) := do
  match ← peek with
  | none => fail none (.expected "expression")
  | some t => match t.kind with
    | .false => skip; return .literal (.bool false)
    | .true => skip; return .literal (.bool true)
    | .nil => skip; return .literal .nil
    | .number | .string => skip; return .literal (t.literal.getD .nil)
    | .super => skip; superReference t
    | .this => skip; return .this (← freshId) t.mark
    | .identifier => skip; return .variable (← freshId) t.mark
    | .leftParen =>
      skip
      let e ← expression phrase
      let _ ← expect .rightParen "')' after expression"
      return .group e
    | .comma => skip; missingLeftOperand phrase t .comma
    | .equalEqual | .bangEqual => skip; missingLeftOperand phrase t .equality
    | .less | .lessEqual | .greater | .greaterEqual => skip; missingLeftOperand phrase t .comparison
    | .plus => skip; missingLeftOperand phrase t .term
    | .star | .slash => skip; missingLeftOperand phrase t .factor
    | _ => fail (some t) (.expected "expression")

/-- How each phrase is read, given how the phrases inside it are. -/
def production : (n : Nonterminal) → Parser n.Tree
  | .sequence inBlock => sequence phrase inBlock
  | .declaration => recover (declaration phrase)
  | .members => members phrase
  | .statement => statement phrase
  | .parameters before => parameters phrase before
  | .assignment => assignment phrase
  | .chain level => chain phrase level
  | .chainTail level left => chainTail phrase level left
  | .ternary => ternary phrase
  | .unary => unary phrase
  | .call => call phrase
  | .callTail callee => callTail phrase callee
  | .arguments before => arguments phrase before
  | .primary => primary phrase

end Productions

/-- Reads a phrase with at most so many phrases inside each other. -/
def parseWithin : Nat → (n : Nonterminal) → Parser n.Tree
  | 0, _ => throw .tooDeep
  | depth + 1, n => production (parseWithin depth) n

/-- No phrase of so many tokens needs a greater depth: between two tokens lie at most a score of
phrases. -/
def depthFor (tokens : Nat) : Nat := 32 * (tokens + 1)

end Parser

/-- What was read of a program: the statements without faults, the faults, and the first number that
no reference has. -/
structure Parsed where
  statements : List (Stmt RefId)
  errors : List Syntax.Error
  nextId : RefId

/-- The tokens before the first end mark, and the line that the input ends on: that of the mark, or of
the last token if there is none. -/
def Token.untilEof : List Token → List Token × Nat
  | [] => ([], 1)
  | [t] => if t.kind == .eof then ([], t.line) else ([t], t.line)
  | t :: ts =>
    if t.kind == .eof then ([], t.line) else
      let (before, line) := untilEof ts
      (t :: before, line)

def parse (tokens : List Token) (firstId : RefId) : Parsed :=
  let (body, endLine) := Token.untilEof tokens
  match Parser.parseWithin (Parser.depthFor body.length) (.sequence false) ⟨body, firstId, []⟩ with
  | .ok statements s => ⟨statements, s.faults.map (·.toError endLine), s.nextId⟩
  | .error _ s => ⟨[], s.faults.map (·.toError endLine), s.nextId⟩

end Lox
