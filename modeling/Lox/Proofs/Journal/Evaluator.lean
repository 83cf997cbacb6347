import Lox.Proofs.Journal.Quiet

/-!
Runs with a journal. The journaling evaluator is the evaluator with a list of all that happens: which
phrases begin, which calls are made, and what is done to the machine and outside of it. An entry is
made before the thing happens, whether it fails or not.
-/

namespace Lox

variable {ρ α : Type}

/-- What happens in a run. -/
inductive Event (ρ : Type) where
  | statement (s : Stmt ρ)
  | expression (e : Expr ρ)
  | call (callee : Value ρ EnvId) (arguments : List (Value ρ EnvId)) (line : Nat)
  /-- A native function runs, and with it what it does to files and to the input. -/
  | native (n : Native) (arguments : List (Value ρ EnvId))
  /-- Variables, objects or environments are read or changed. -/
  | memory
  | print (text : String)
  | flush

namespace Event

/-- The bytes that the events are to write. -/
def printed : List (Event ρ) → Text.Bytes
  | [] => []
  | .print text :: events => Text.Utf8.encode text ++ printed events
  | _ :: events => printed events

@[simp] theorem printed_append (es es' : List (Event ρ)) :
    printed (es ++ es') = printed es ++ printed es' := by
  induction es with
  | nil => rfl
  | cons e es ih =>
    cases e with
    | print text => simp only [List.cons_append, printed, ih, List.append_assoc]
    | _ => exact ih

end Event

namespace Journal

structure State (ρ : Type) where
  machine : Machine ρ
  events : List (Event ρ)

abbrev Run (ρ : Type) := EStateM Stop (State ρ)

def note (e : Event ρ) : Run ρ Unit := modify fun s => { s with events := s.events ++ [e] }

/-- The machine as it is. -/
def machine : Run ρ (Machine ρ) := return (← get).machine

/-- What a phrase does to the machine, with nothing in the journal. -/
def lift (p : Lox.Run ρ α) : Run ρ α := fun s => onState (⟨·, s.events⟩) (p s.machine)

/-- A step on the machine. -/
def step (p : Lox.Run ρ α) : Run ρ α := do
  note .memory
  lift p

def inScope (e : EnvId) (phrase : Run ρ α) : Run ρ α := fun s =>
  onState (fun s' => ⟨{ s'.machine with scope := s.machine.scope }, s'.events⟩)
    (phrase ⟨{ s.machine with scope := e }, s.events⟩)

def onLine (line : Nat) (phrase : Run ρ α) : Run ρ α := fun s =>
  match phrase s with
  | .error (.error e) s => .error (.error (e.withLine line)) s
  | r => r

def execAll (exec : Stmt ρ → Run ρ (Outcome ρ EnvId)) : List (Stmt ρ) → Run ρ (Outcome ρ EnvId)
  | [] => return .normal
  | s :: ss => do
    match ← exec s with
    | .normal => execAll exec ss
    | outcome => return outcome

def evalAll (eval : Expr ρ → Run ρ (Value ρ EnvId)) : List (Expr ρ) → Run ρ (List (Value ρ EnvId))
  | [] => return []
  | e :: es => do
    let v ← eval e
    return v :: (← evalAll eval es)

section Steps

variable (site : ρ → Option Binding) (exec : Stmt ρ → Run ρ (Outcome ρ EnvId))
  (eval : Expr ρ → Run ρ (Value ρ EnvId))

def callClosure (closure : Closure ρ EnvId) (arguments : List (Value ρ EnvId)) :
    Run ρ (Value ρ EnvId) := do
  let e ← step (Run.nestIn closure.scope)
  step (defineAll e closure.routine.params arguments)
  match ← inScope e (execAll exec closure.routine.body) with
  | .returned v => return v
  | .normal | .broke => return .nil

def callFunction (f : Function ρ EnvId) (arguments : List (Value ρ EnvId)) :
    Run ρ (Value ρ EnvId) := do
  let v ← callClosure exec f.closure arguments
  if f.initializer then
    match (← machine).environments.getSlot f.closure.scope 0 with
    | .found receiver => return receiver
    | _ => return .nil
  else return v

def instantiate (c : Class ρ EnvId) (arguments : List (Value ρ EnvId)) : Run ρ (Value ρ EnvId) := do
  let object := .instance (← step Run.newObject) c
  match c.initializer? with
  | some f =>
    let f ← step (f.bind object)
    let _ ← callFunction exec f arguments
  | none => pure ()
  return object

def call (callee : Value ρ EnvId) (arguments : List (Value ρ EnvId)) (line : Nat) :
    Run ρ (Value ρ EnvId) := do
  note (.call callee arguments line)
  match callee with
  | .function _ f =>
    lift (checkArity f.arity arguments line)
    onLine line (callFunction exec f arguments)
  | .lambda _ _ closure =>
    lift (checkArity closure.routine.params.length arguments line)
    onLine line (callClosure exec closure arguments)
  | .class c =>
    lift (checkArity c.arity arguments line)
    onLine line (instantiate exec c arguments)
  | .native n =>
    if h : arguments.length = n.arity then onLine line do
      note (.native n arguments)
      lift (Run.native n arguments h)
    else lift (Run.raise (.arityMismatch n.arity arguments.length) line)
  | _ => lift (Run.raise .notCallable line)

def evalStep (e : Expr ρ) : Run ρ (Value ρ EnvId) := do
  match e with
  | .literal v => return .ofLiteral v
  | .variable ref name => step (Run.read (site ref) name)
  | .assign ref name e =>
    let v ← eval e
    step (Run.assign (site ref) name v)
    return v
  | .this ref keyword => step (Run.read (site ref) keyword)
  | .super ref keyword method => step (getSuper (site ref) keyword method)
  | .unary op sign e =>
    let v ← eval e
    lift (Run.ofExcept (op.apply sign.line v))
  | .binary op sign l r =>
    let left ← eval l
    let right ← eval r
    lift (Run.ofExcept (op.apply sign.line left right))
  | .logical op _ l r =>
    let left ← eval l
    if op.decides left then return left else eval r
  | .ternary c y n => if (← eval c).truthy then eval y else eval n
  | .group e => eval e
  | .call c as line =>
    let callee ← eval c
    let arguments ← evalAll eval as
    call exec callee arguments line
  | .get o name =>
    let object ← eval o
    step (object.getProperty name)
  | .set o name e =>
    match (← eval o).fieldsOf? with
    | some id =>
      let v ← eval e
      step (Run.setField id name.text v)
      return v
    | none => lift (Run.raise .fieldOnNonInstance name.line)
  | .lambda line r =>
    let scope := (← machine).scope
    return .lambda (← step Run.newObject) line ⟨r, scope⟩

def defineVariable (name : Lexeme) (initial : Option (Expr ρ)) : Run ρ Unit := do
  let e := (← machine).scope
  if e = EnvId.global then
    let v ← match initial with
      | some i => some <$> eval i
      | none => pure none
    step (Run.define e name.text v)
  else
    let slot ← step (Run.declare name.text)
    match initial with
    | some i =>
      let v ← eval i
      step (Run.put e slot v)
    | none => pure ()

def execStep (s : Stmt ρ) : Run ρ (Outcome ρ EnvId) := do
  match s with
  | .expr e =>
    let _ ← eval e
    return .normal
  | .print e =>
    let v ← eval e
    note (.print (v.display ++ "\n"))
    lift (Run.write (v.display ++ "\n"))
    return .normal
  | .var name initial =>
    defineVariable eval name initial
    return .normal
  | .block b =>
    let e ← step Run.nest
    inScope e (execAll exec b)
  | .if c y n =>
    if (← eval c).truthy then exec y
    else match n with
    | some n => exec n
    | none => return .normal
  | .while c b =>
    if (← eval c).truthy then
      match ← exec b with
      | .normal => exec s
      | .broke => return .normal
      | .returned v => return .returned v
    else return .normal
  | .break _ => return .broke
  | .return _ none => return .returned .nil
  | .return _ (some e) => return .returned (← eval e)
  | .function f =>
    let scope := (← machine).scope
    let id ← step Run.newObject
    step (Run.define scope f.name.text
      (some (.function id ⟨f.name.text, ⟨f.routine, scope⟩, false⟩)))
    return .normal
  | .class name superclass methods classMethods =>
    step (defineClass site name superclass methods classMethods)
    return .normal

end Steps

mutual

def exec (site : ρ → Option Binding) : Nat → Stmt ρ → Run ρ (Outcome ρ EnvId)
  | 0, _ => throw .outOfFuel
  | fuel + 1, s => do
    note (.statement s)
    execStep site (exec site fuel) (eval site fuel) s

def eval (site : ρ → Option Binding) : Nat → Expr ρ → Run ρ (Value ρ EnvId)
  | 0, _ => throw .outOfFuel
  | fuel + 1, e => do
    note (.expression e)
    evalStep site (exec site fuel) (eval site fuel) e

end

def interpretFrom (site : ρ → Option Binding) (fuel : Nat) (last : Value ρ EnvId) :
    List (Stmt ρ) → Run ρ (Value ρ EnvId)
  | [] => return last
  | .expr e :: ss => do interpretFrom site fuel (← eval site fuel e) ss
  | s :: ss => do
    let _ ← exec site fuel s
    interpretFrom site fuel last ss

def interpret (site : ρ → Option Binding) (fuel : Nat) (p : List (Stmt ρ)) :
    Run ρ (Value ρ EnvId) := do
  let v ← interpretFrom site fuel .nil p
  note .flush
  lift Run.flush
  return v

end Journal

end Lox
