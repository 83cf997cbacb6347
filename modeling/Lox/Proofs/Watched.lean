import Lox.Eval

/-!
Runs that are watched. The watched evaluator is the evaluator with expectations: before a phrase runs,
when a variable is looked up, and when a body that was called or a statement outside of all routines
has ended. Where an expectation is not met it stops. So if it does the same as the evaluator whatever it
would stop with, all that was expected holds throughout the run.
-/

namespace Lox

open Run

variable {ρ : Type}

/-- What is expected of a run. -/
structure Watch (ρ : Type) where
  /-- Of the machine in which a statement is about to run. -/
  stmt : Stmt ρ → Machine ρ → Prop := fun _ _ => True
  /-- Of the machine in which an expression is about to run. -/
  expr : Expr ρ → Machine ρ → Prop := fun _ _ => True
  /-- Of the machine in which an expression looks up its own variable, which an assignment does after
  its value. -/
  access : Expr ρ → Machine ρ → Prop := fun _ _ => True
  /-- Of the way in which the body of a routine ends, which is that of an initializer or not. -/
  body : Bool → Outcome ρ EnvId → Prop := fun _ _ => True
  /-- Of the way in which a statement outside of all routines ends. -/
  top : Outcome ρ EnvId → Prop := fun _ => True

open Classical in
/-- Stops if the machine is not as expected. -/
noncomputable def Run.expect (stop : Stop) (P : Machine ρ → Prop) : Run ρ Unit := fun m =>
  if P m then .ok () m else .error stop m

theorem Run.expect_of {stop : Stop} {P : Machine ρ → Prop} {m : Machine ρ} (h : P m) :
    expect stop P m = .ok () m := if_pos h

namespace Watch

variable (w : Watch ρ) (stop : Stop)

section Steps

variable (site : ρ → Option Binding) (exec : Stmt ρ → Run ρ (Outcome ρ EnvId))
  (eval : Expr ρ → Run ρ (Value ρ EnvId))

noncomputable def callClosure (initializer : Bool) (closure : Closure ρ EnvId)
    (arguments : List (Value ρ EnvId)) : Run ρ (Value ρ EnvId) := do
  let e ← nestIn closure.scope
  defineAll e closure.routine.params arguments
  let outcome ← inScope e (execAll exec closure.routine.body)
  expect stop fun _ => w.body initializer outcome
  match outcome with
  | .returned v => return v
  | .normal | .broke => return .nil

noncomputable def callFunction (f : Function ρ EnvId) (arguments : List (Value ρ EnvId)) :
    Run ρ (Value ρ EnvId) := do
  let v ← w.callClosure stop exec f.initializer f.closure arguments
  if f.initializer then
    match (← get).environments.getSlot f.closure.scope 0 with
    | .found receiver => return receiver
    | _ => return .nil
  else return v

noncomputable def instantiate (c : Class ρ EnvId) (arguments : List (Value ρ EnvId)) :
    Run ρ (Value ρ EnvId) := do
  let object := .instance (← newObject) c
  match c.initializer? with
  | some f =>
    let f ← f.bind object
    let _ ← w.callFunction stop exec f arguments
  | none => pure ()
  return object

noncomputable def call (callee : Value ρ EnvId) (arguments : List (Value ρ EnvId)) (line : Nat) :
    Run ρ (Value ρ EnvId) := do
  match callee with
  | .function _ f =>
    checkArity f.arity arguments line
    onLine line (w.callFunction stop exec f arguments)
  | .lambda _ _ closure =>
    checkArity closure.routine.params.length arguments line
    onLine line (w.callClosure stop exec false closure arguments)
  | .class c =>
    checkArity c.arity arguments line
    onLine line (w.instantiate stop exec c arguments)
  | .native n =>
    if h : arguments.length = n.arity then onLine line (Run.native n arguments h)
    else raise (.arityMismatch n.arity arguments.length) line
  | _ => raise .notCallable line

noncomputable def evalStep (e : Expr ρ) : Run ρ (Value ρ EnvId) := do
  match e with
  | .variable ref name =>
    expect stop (w.access e)
    read (site ref) name
  | .assign ref name value =>
    let v ← eval value
    expect stop (w.access e)
    assign (site ref) name v
    return v
  | .this ref keyword =>
    expect stop (w.access e)
    read (site ref) keyword
  | .super ref keyword method =>
    expect stop (w.access e)
    getSuper (site ref) keyword method
  | .call c as line =>
    let callee ← eval c
    let arguments ← evalAll eval as
    w.call stop exec callee arguments line
  | _ => Lox.evalStep site exec eval e

end Steps

mutual

noncomputable def exec (site : ρ → Option Binding) : Nat → Stmt ρ → Run ρ (Outcome ρ EnvId)
  | 0, _ => throw .outOfFuel
  | fuel + 1, s => do
    expect stop (w.stmt s)
    execStep site (exec site fuel) (eval site fuel) s

noncomputable def eval (site : ρ → Option Binding) : Nat → Expr ρ → Run ρ (Value ρ EnvId)
  | 0, _ => throw .outOfFuel
  | fuel + 1, e => do
    expect stop (w.expr e)
    w.evalStep stop site (exec site fuel) (eval site fuel) e

end

noncomputable def interpretFrom (site : ρ → Option Binding) (fuel : Nat) (last : Value ρ EnvId) :
    List (Stmt ρ) → Run ρ (Value ρ EnvId)
  | [] => return last
  | .expr e :: ss => do interpretFrom site fuel (← w.eval stop site fuel e) ss
  | s :: ss => do
    let outcome ← w.exec stop site fuel s
    expect stop fun _ => w.top outcome
    interpretFrom site fuel last ss

/-- Runs a program, and stops where it is not as expected. -/
noncomputable def interpret (site : ρ → Option Binding) (fuel : Nat) (p : List (Stmt ρ)) :
    Run ρ (Value ρ EnvId) := do
  let v ← w.interpretFrom stop site fuel .nil p
  flush
  return v

end Watch

end Lox
