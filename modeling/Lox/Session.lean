import Lox.Eval
import Lox.Source

/-!
Sessions. A session takes program texts one after another. Each is read and scoped as a whole before
any of it runs; a text with a fault in it is rejected, and then nothing of it does. What texts leave
behind, such as globals, objects and open files, is there for the next ones.
-/

namespace Lox

/-- A fault of a program text, by the reading of it that finds the fault. -/
inductive Diagnostic where
  | source (e : Source.Error)
  | syntactic (e : Syntax.Error)
  | scoping (f : Scoping.Finding)

def Diagnostic.message : Diagnostic → String
  | .source e => e.message
  | .syntactic e => e.message
  | .scoping f => f.error

/-- Why a session does not answer. -/
inductive Failure where
  | rejected (ds : List Diagnostic)
  | stopped (s : Stop)

namespace Failure

def message : Failure → String
  | .rejected ds => "\n".intercalate (ds.map Diagnostic.message)
  | .stopped (.error e) => e.message
  | .stopped .outOfFuel => "Out of fuel."

/-- The status that a process ends with after the failure. -/
def exitCode : Failure → Nat
  | .rejected _ => 65
  | .stopped _ => 70

end Failure

/-- The statements of an accepted program text. -/
abbrev Program := List (Stmt RefId)

structure Session where
  machine : Machine RefId
  /-- The bindings of the references in all texts that were accepted. -/
  bindings : Bindings := {}
  unused : Severity := .warning
  nextId : RefId := 0
  /-- The warnings that nobody has taken yet. -/
  warnings : List Scoping.Finding := []

namespace Session

def start (host : Host) (unused : Severity) : Session := { machine := .start host, unused }

/-- Faults in the characters and in the order of the tokens are reported together; scoping is looked
at only where there are none of them. -/
def compile (source : String) : EStateM Failure Session Program := do
  let s ← get
  let scanned := scan source
  let parsed := parse scanned.tokens s.nextId
  set { s with nextId := parsed.nextId }
  let faults := scanned.errors.map Diagnostic.source ++ parsed.errors.map .syntactic
  if !faults.isEmpty then throw (.rejected faults)
  let resolution := resolve parsed.statements
  modify fun s => { s with warnings := s.warnings ++ resolution.warnings s.unused }
  let errors := resolution.errors s.unused
  if !errors.isEmpty then throw (.rejected (errors.map .scoping))
  modify fun s => { s with bindings := s.bindings.insertAll resolution.bindings }
  return parsed.statements

/-- Runs a program, and answers its value. -/
def execute (fuel : Nat) (p : Program) : EStateM Failure Session (Value RefId EnvId)
  | ⟨machine, bindings, unused, nextId, warnings⟩ =>
    match interpret bindings.find? fuel p machine with
    | .ok v machine => .ok v ⟨machine, bindings, unused, nextId, warnings⟩
    | .error stop machine => .error (.stopped stop) ⟨machine, bindings, unused, nextId, warnings⟩

def run (fuel : Nat) (source : String) : EStateM Failure Session (Value RefId EnvId) := do
  execute fuel (← compile source)

/-- A line is closed by a semicolon or a brace. -/
def isClosed (line : String) : Bool :=
  match line.toList.getLast? with
  | some ';' | some '}' => true
  | _ => false

/-- The text that a line from the prompt stands for, blanks at its end apart: what leaves it open is
closed by a semicolon. -/
def completed (line : String) : String := if isClosed line then line else line ++ ";"

def isExpression {ρ : Type} : List (Stmt ρ) → Bool
  | [.expr _] => true
  | _ => false

/-- Runs a line from the prompt. It answers a value if the line is an expression and left open. -/
def runLine (fuel : Nat) (line : String) :
    EStateM Failure Session (Option (Value RefId EnvId)) := do
  let line := Text.trimEnd line
  let program ← compile (completed line)
  let v ← execute fuel program
  return if !isClosed line && isExpression program then some v else none

/-- The warnings since they were last taken. -/
def takeWarnings : StateM Session (List Scoping.Finding) :=
  modifyGet fun s => (s.warnings, { s with warnings := [] })

end Session

end Lox
