import Lox.Eval

/-!
Runs that know where they are. The traced evaluator is the evaluator with a list of the call
expressions in progress, by their lines, the innermost first. An error is stopped with what raised it,
the phrase that did so and the calls in progress then; nothing happens to it on its way out.
-/

namespace Lox

variable {ρ : Type}

/-- What raises an error: an expression or a statement, or the end of a run, which empties the output. -/
inductive Raiser (ρ : Type) where
  | expr (e : Expr ρ)
  | stmt (s : Stmt ρ)
  | ending

/-- An error as it is raised. -/
structure Origin (ρ : Type) where
  error : RuntimeError
  raiser : Raiser ρ
  calls : List Nat

/-- The error as it leaves these calls: without a line of its own it has that of the innermost one. -/
def RuntimeError.leaving (e : RuntimeError) (calls : List Nat) : RuntimeError :=
  { e with line := e.line <|> calls.head? }

@[simp] theorem RuntimeError.leaving_nil (e : RuntimeError) : e.leaving [] = e := by
  obtain ⟨fault, line⟩ := e
  cases line <;> rfl

/-- The error as it ends a run. -/
def Origin.final (o : Origin ρ) : RuntimeError := o.error.leaving o.calls

namespace Traced

inductive Stop (ρ : Type) where
  | error (o : Origin ρ)
  | outOfFuel

abbrev Run (ρ : Type) := EStateM (Stop ρ) (Machine ρ)

/-- Where the error comes from that a phrase ends with, if it fails. -/
def failure? {α : Type} (p : Run ρ α) (m : Machine ρ) : Option (Origin ρ) :=
  match p m with
  | .ok _ _ => none
  | .error stop _ => match stop with
    | .error o => some o
    | .outOfFuel => none

/-- A step of a phrase. -/
def step {α : Type} (raiser : Raiser ρ) (calls : List Nat) (p : Lox.Run ρ α) : Run ρ α := fun m =>
  match p m with
  | .ok a m => .ok a m
  | .error (.error e) m => .error (.error ⟨e, raiser, calls⟩) m
  | .error .outOfFuel m => .error .outOfFuel m

def inScope {α : Type} (e : EnvId) (phrase : Run ρ α) : Run ρ α := fun m =>
  match phrase { m with scope := e } with
  | .ok a m' => .ok a { m' with scope := m.scope }
  | .error stop m' => .error stop { m' with scope := m.scope }

def execAll (exec : Stmt ρ → Run ρ (Outcome ρ EnvId)) : List (Stmt ρ) → Run ρ (Outcome ρ EnvId)
  | [] => return .normal
  | s :: ss => do
    match ← exec s with
    | .normal => execAll exec ss
    | outcome => return outcome

def evalAll (eval : Expr ρ → Run ρ (Value ρ EnvId)) : List (Expr ρ) → Run ρ (List (Value ρ EnvId))
  | [] => return []
  | e :: es => do
    let v ← eval e
    return v :: (← evalAll eval es)

section Calls

variable (raiser : Raiser ρ) (calls : List Nat) (exec : Stmt ρ → Run ρ (Outcome ρ EnvId))

def callClosure (closure : Closure ρ EnvId) (arguments : List (Value ρ EnvId)) :
    Run ρ (Value ρ EnvId) := do
  let e ← step raiser calls (Run.nestIn closure.scope)
  step raiser calls (defineAll e closure.routine.params arguments)
  match ← inScope e (execAll exec closure.routine.body) with
  | .returned v => return v
  | .normal | .broke => return .nil

def callFunction (f : Function ρ EnvId) (arguments : List (Value ρ EnvId)) :
    Run ρ (Value ρ EnvId) := do
  let v ← callClosure raiser calls exec f.closure arguments
  if f.initializer then
    match (← get).environments.getSlot f.closure.scope 0 with
    | .found receiver => return receiver
    | _ => return .nil
  else return v

def instantiate (c : Class ρ EnvId) (arguments : List (Value ρ EnvId)) : Run ρ (Value ρ EnvId) := do
  let object := .instance (← step raiser calls Run.newObject) c
  match c.initializer? with
  | some f =>
    let f ← step raiser calls (f.bind object)
    let _ ← callFunction raiser calls exec f arguments
  | none => pure ()
  return object

end Calls

section Steps

variable (site : ρ → Option Binding) (calls : List Nat)
  (exec : List Nat → Stmt ρ → Run ρ (Outcome ρ EnvId)) (eval : Expr ρ → Run ρ (Value ρ EnvId))

/-- While a call runs it is in progress. What is wrong with it before is its own fault. -/
def call (raiser : Raiser ρ) (callee : Value ρ EnvId) (arguments : List (Value ρ EnvId)) (line : Nat) :
    Run ρ (Value ρ EnvId) := do
  let inside := line :: calls
  match callee with
  | .function _ f =>
    step raiser calls (checkArity f.arity arguments line)
    callFunction raiser inside (exec inside) f arguments
  | .lambda _ _ closure =>
    step raiser calls (checkArity closure.routine.params.length arguments line)
    callClosure raiser inside (exec inside) closure arguments
  | .class c =>
    step raiser calls (checkArity c.arity arguments line)
    instantiate raiser inside (exec inside) c arguments
  | .native n =>
    if h : arguments.length = n.arity then step raiser inside (Run.native n arguments h)
    else step raiser calls (Run.raise (.arityMismatch n.arity arguments.length) line)
  | _ => step raiser calls (Run.raise .notCallable line)

def evalStep (e : Expr ρ) : Run ρ (Value ρ EnvId) := do
  match e with
  | .literal v => return .ofLiteral v
  | .variable ref name => step (.expr e) calls (Run.read (site ref) name)
  | .assign ref name value =>
    let v ← eval value
    step (.expr e) calls (Run.assign (site ref) name v)
    return v
  | .this ref keyword => step (.expr e) calls (Run.read (site ref) keyword)
  | .super ref keyword method => step (.expr e) calls (getSuper (site ref) keyword method)
  | .unary op sign operand =>
    let v ← eval operand
    step (.expr e) calls (Run.ofExcept (op.apply sign.line v))
  | .binary op sign l r =>
    let left ← eval l
    let right ← eval r
    step (.expr e) calls (Run.ofExcept (op.apply sign.line left right))
  | .logical op _ l r =>
    let left ← eval l
    if op.decides left then return left else eval r
  | .ternary c y n => if (← eval c).truthy then eval y else eval n
  | .group inner => eval inner
  | .call c as line =>
    let callee ← eval c
    let arguments ← evalAll eval as
    call calls exec (.expr e) callee arguments line
  | .get o name =>
    let object ← eval o
    step (.expr e) calls (object.getProperty name)
  | .set o name value =>
    match (← eval o).fieldsOf? with
    | some id =>
      let v ← eval value
      step (.expr e) calls (Run.setField id name.text v)
      return v
    | none => step (.expr e) calls (Run.raise .fieldOnNonInstance name.line)
  | .lambda line r =>
    let scope := (← get).scope
    return .lambda (← step (.expr e) calls Run.newObject) line ⟨r, scope⟩

def defineVariable (raiser : Raiser ρ) (name : Lexeme) (initial : Option (Expr ρ)) : Run ρ Unit := do
  let e := (← get).scope
  if e = EnvId.global then
    let v ← match initial with
      | some i => some <$> eval i
      | none => pure none
    step raiser calls (Run.define e name.text v)
  else
    let slot ← step raiser calls (Run.declare name.text)
    match initial with
    | some i =>
      let v ← eval i
      step raiser calls (Run.put e slot v)
    | none => pure ()

def execStep (s : Stmt ρ) : Run ρ (Outcome ρ EnvId) := do
  match s with
  | .expr e =>
    let _ ← eval e
    return .normal
  | .print e =>
    let v ← eval e
    step (.stmt s) calls (Run.write (v.display ++ "\n"))
    return .normal
  | .var name initial =>
    defineVariable calls eval (.stmt s) name initial
    return .normal
  | .block b =>
    let e ← step (.stmt s) calls Run.nest
    inScope e (execAll (exec calls) b)
  | .if c y n =>
    if (← eval c).truthy then exec calls y
    else match n with
    | some n => exec calls n
    | none => return .normal
  | .while c b =>
    if (← eval c).truthy then
      match ← exec calls b with
      | .normal => exec calls s
      | .broke => return .normal
      | .returned v => return .returned v
    else return .normal
  | .break _ => return .broke
  | .return _ none => return .returned .nil
  | .return _ (some e) => return .returned (← eval e)
  | .function f =>
    let scope := (← get).scope
    let id ← step (.stmt s) calls Run.newObject
    step (.stmt s) calls (Run.define scope f.name.text
      (some (.function id ⟨f.name.text, ⟨f.routine, scope⟩, false⟩)))
    return .normal
  | .class name superclass methods classMethods =>
    step (.stmt s) calls (defineClass site name superclass methods classMethods)
    return .normal

end Steps

mutual

def exec (site : ρ → Option Binding) : Nat → List Nat → Stmt ρ → Run ρ (Outcome ρ EnvId)
  | 0, _, _ => throw .outOfFuel
  | fuel + 1, calls, s => execStep site calls (exec site fuel) (eval site fuel calls) s

def eval (site : ρ → Option Binding) : Nat → List Nat → Expr ρ → Run ρ (Value ρ EnvId)
  | 0, _, _ => throw .outOfFuel
  | fuel + 1, calls, e => evalStep site calls (exec site fuel) (eval site fuel calls) e

end

def interpretFrom (site : ρ → Option Binding) (fuel : Nat) (last : Value ρ EnvId) :
    List (Stmt ρ) → Run ρ (Value ρ EnvId)
  | [] => return last
  | .expr e :: ss => do interpretFrom site fuel (← eval site fuel [] e) ss
  | s :: ss => do
    let _ ← exec site fuel [] s
    interpretFrom site fuel last ss

def interpret (site : ρ → Option Binding) (fuel : Nat) (p : List (Stmt ρ)) :
    Run ρ (Value ρ EnvId) := do
  let v ← interpretFrom site fuel .nil p
  step .ending [] Run.flush
  return v

end Traced

end Lox
