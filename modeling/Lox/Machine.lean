import Lox.RuntimeError

/-!
The state of a running program and the smallest steps on it. A step that fails keeps what it did
before. The current environment is a register of the machine; `inScope` sets it for a phrase and puts
the old one back however the phrase ends.
-/

namespace Lox

variable {ρ κ : Type}

/-- Why a program does not go on: an error, or more nested or repeated steps than were allowed. -/
inductive Stop where
  | error (e : RuntimeError)
  | outOfFuel

abbrev Fields (ρ κ : Type) := List (String × Value ρ κ)

def Fields.insert (name : String) (v : Value ρ κ) : Fields ρ κ → Fields ρ κ
  | [] => [(name, v)]
  | (n, w) :: fields => if n == name then (n, v) :: fields else (n, w) :: Fields.insert name v fields

@[simp] theorem Fields.lookup_insert (name : String) (v : Value ρ κ) (fields : Fields ρ κ) :
    (fields.insert name v).lookup name = some v := by
  induction fields with
  | nil => simp [Fields.insert]
  | cons field fields ih =>
    obtain ⟨n, w⟩ := field
    by_cases h : n = name
    · simp [Fields.insert, h]
    · have h' : (name == n) = false := by simp [Ne.symm h]
      simp [Fields.insert, h, List.lookup_cons, h', ih]

/-- A function keeps the environment that it was written in. -/
structure Machine (ρ : Type) where
  environments : Environments (Value ρ EnvId) := {}
  scope : EnvId := EnvId.global
  /-- The fields of every object made so far, by identity. -/
  objects : Array (Fields ρ EnvId) := #[]
  host : Host := {}

abbrev Run (ρ : Type) := EStateM Stop (Machine ρ)

namespace Machine

/-- The machine at the start of a session: the native functions are global variables. -/
def start (host : Host) : Machine ρ :=
  { host, environments := Native.all.foldl (fun s n => s.define .global n.name (some (.native n))) {} }

/-- The place of a variable: by its binding, or by its name among the globals. -/
def place? (m : Machine ρ) (site : Option Binding) (name : String) : Option (EnvId × Nat) :=
  match site with
  | some b => (m.environments.ancestor? m.scope b.distance).bind fun e =>
    if m.environments.hasSlot e b.slot then some (e, b.slot) else none
  | none => (m.environments.slot? .global name).map (EnvId.global, ·)

def field? (m : Machine ρ) (id : ObjectId) (name : String) : Option (Value ρ EnvId) :=
  m.objects[id]?.bind (·.lookup name)

end Machine

namespace Run

def raise {α : Type} (fault : RuntimeFault) (line : Nat) : Run ρ α :=
  throw (.error ⟨fault, some line⟩)

/-- The value of an operation that does not touch the machine. -/
def ofExcept {α : Type} : Except RuntimeError α → Run ρ α
  | .ok a => return a
  | .error e => throw (.error e)

/-- Runs a phrase in an environment, and leaves the machine in the one it was in. -/
def inScope {α : Type} (e : EnvId) (phrase : Run ρ α) : Run ρ α := fun m =>
  let before := m.scope
  match phrase { m with scope := e } with
  | .ok a m => .ok a { m with scope := before }
  | .error stop m => .error stop { m with scope := before }

/-- Runs a call: errors without a line get the line of the call. -/
def onLine {α : Type} (line : Nat) (phrase : Run ρ α) : Run ρ α := fun m =>
  match phrase m with
  | .error (.error e) m => .error (.error (e.withLine line)) m
  | r => r

/-- A new environment nested in the given one. -/
def nestIn (e : EnvId) : Run ρ EnvId := modifyGet fun m =>
  (m.environments.fresh, { m with environments := m.environments.nest e })

/-- A new environment nested in the current one. -/
def nest : Run ρ EnvId := do nestIn (← get).scope

def define (e : EnvId) (name : String) (v : Option (Value ρ EnvId)) : Run ρ Unit :=
  modify fun m => { m with environments := m.environments.define e name v }

def put (e : EnvId) (slot : Nat) (v : Value ρ EnvId) : Run ρ Unit :=
  modify fun m => { m with environments := m.environments.put e slot v }

/-- Declares a name in the current environment, and answers its slot there. -/
def declare (name : String) : Run ρ Nat := do
  let m ← get
  let e := m.scope
  let slot := m.environments.slotFor e name
  define e name none
  return slot

def read (site : Option Binding) (name : Lexeme) : Run ρ (Value ρ EnvId) := do
  let m ← get
  match m.place? site name.text with
  | none => raise (.undefinedVariable name.text) name.line
  | some (e, slot) => match m.environments.getSlot e slot with
    | .found v => return v
    | .unassigned => raise (.uninitializedVariable name.text) name.line
    | .missing => raise (.undefinedVariable name.text) name.line

def assign (site : Option Binding) (name : Lexeme) (v : Value ρ EnvId) : Run ρ Unit := do
  match (← get).place? site name.text with
  | some (e, slot) => put e slot v
  | none => raise (.undefinedVariable name.text) name.line

/-- The identity of a new object. -/
def newObject : Run ρ ObjectId := modifyGet fun m =>
  (m.objects.size, { m with objects := m.objects.push [] })

def setField (id : ObjectId) (name : String) (v : Value ρ EnvId) : Run ρ Unit :=
  modify fun m => { m with objects := m.objects.modify id (Fields.insert name v) }

/-- Writes a text, or as much of it as the output takes. -/
def write (text : String) : Run ρ Unit
  | ⟨environments, scope, objects, ⟨console, files, clock, explored⟩⟩ =>
    match console.write (Text.Utf8.encode text) with
    | (true, console) => .ok () ⟨environments, scope, objects, ⟨console, files, clock, explored⟩⟩
    | (false, console) => .error (.error ⟨.output .outputFull, none⟩)
      ⟨environments, scope, objects, ⟨console, files, clock, explored⟩⟩

def flush : Run ρ Unit := do
  if (← get).host.console.flushFails then throw (.error ⟨.output .flushFailed, none⟩)

def native (n : Native) (arguments : List (Value ρ EnvId)) (h : arguments.length = n.arity) :
    Run ρ (Value ρ EnvId)
  | ⟨environments, scope, objects, host⟩ =>
    match n.run arguments h host with
    | .ok v host => .ok v ⟨environments, scope, objects, host⟩
    | .error fault host =>
      .error (.error ⟨.native n fault, none⟩) ⟨environments, scope, objects, host⟩

theorem scope_inScope {α : Type} (e : EnvId) (phrase : Run ρ α) (m : Machine ρ) :
    match inScope e phrase m with
    | .ok _ m' | .error _ m' => m'.scope = m.scope := by
  unfold inScope
  cases phrase { m with scope := e } <;> rfl

end Run

end Lox
