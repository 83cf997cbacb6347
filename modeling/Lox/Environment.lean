/-!
Environments: the variables of a scope while a program runs. Environments are linked to the one they
are nested in and are never removed. A name is declared at most once in an environment and keeps the
slot that its first declaration gave it, so that a variable can be reached by name, by slot, and by
slot from any environment inside.
-/

namespace Lox

/-- What is known of a variable: it does not exist, it has no value yet, or it has one. -/
inductive Lookup (α : Type) where
  | missing
  | unassigned
  | found (a : α)
  deriving Repr, DecidableEq

abbrev EnvId := Nat

/-- The first environment is the global one. -/
def EnvId.global : EnvId := 0

/-- The variables of a scope, by slot, and the environment it is nested in. -/
structure Environment (α : Type) where
  entries : List (String × Option α) := []
  enclosing : Option EnvId := none

namespace Environment

variable {α : Type}

def names (e : Environment α) : List String := e.entries.map (·.1)

def slot? (e : Environment α) (name : String) : Option Nat := e.entries.findIdx? (·.1 == name)

/-- The slot that a declaration of the name has. -/
def slotFor (e : Environment α) (name : String) : Nat := (e.slot? name).getD e.entries.length

def hasSlot (e : Environment α) (slot : Nat) : Bool := slot < e.entries.length

def getSlot (e : Environment α) (slot : Nat) : Lookup α :=
  match e.entries[slot]? with
  | none => .missing
  | some (_, none) => .unassigned
  | some (_, some a) => .found a

def get (e : Environment α) (name : String) : Lookup α :=
  match e.slot? name with
  | none => .missing
  | some slot => e.getSlot slot

def putSlot (e : Environment α) (slot : Nat) (a : Option α) : Environment α :=
  { e with entries := e.entries.modify slot fun (name, _) => (name, a) }

/-- Declares a name. A second declaration keeps the slot and replaces its value. -/
def define (e : Environment α) (name : String) (a : Option α) : Environment α :=
  match e.slot? name with
  | some slot => e.putSlot slot a
  | none => { e with entries := e.entries ++ [(name, a)] }

@[simp] theorem enclosing_putSlot (e : Environment α) (slot : Nat) (a : Option α) :
    (e.putSlot slot a).enclosing = e.enclosing := rfl

@[simp] theorem enclosing_define (e : Environment α) (name : String) (a : Option α) :
    (e.define name a).enclosing = e.enclosing := by
  unfold define
  split <;> rfl

end Environment

/-- Linked environments. At first there is the global one alone. -/
structure Environments (α : Type) where
  all : Array (Environment α) := #[{}]

namespace Environments

variable {α : Type}

/-- The next environment, nested in the given one and still empty. -/
def fresh (s : Environments α) : EnvId := s.all.size

def nest (s : Environments α) (e : EnvId) : Environments α :=
  ⟨s.all.push { enclosing := some e }⟩

def modify (s : Environments α) (e : EnvId) (f : Environment α → Environment α) : Environments α :=
  ⟨s.all.modify e f⟩

def define (s : Environments α) (e : EnvId) (name : String) (a : Option α) : Environments α :=
  s.modify e (·.define name a)

/-- Stores a value in a slot that exists. -/
def put (s : Environments α) (e : EnvId) (slot : Nat) (a : α) : Environments α :=
  s.modify e (·.putSlot slot (some a))

def slot? (s : Environments α) (e : EnvId) (name : String) : Option Nat :=
  s.all[e]?.bind (·.slot? name)

def slotFor (s : Environments α) (e : EnvId) (name : String) : Nat :=
  (s.all[e]?.map (·.slotFor name)).getD 0

def hasSlot (s : Environments α) (e : EnvId) (slot : Nat) : Bool := s.all[e]?.any (·.hasSlot slot)

def get (s : Environments α) (e : EnvId) (name : String) : Lookup α :=
  (s.all[e]?.map (·.get name)).getD .missing

def getSlot (s : Environments α) (e : EnvId) (slot : Nat) : Lookup α :=
  (s.all[e]?.map (·.getSlot slot)).getD .missing

/-- The environment so many links up. -/
def ancestor? (s : Environments α) (e : EnvId) : Nat → Option EnvId
  | 0 => some e
  | distance + 1 => (s.all[e]?.bind (·.enclosing)).bind (s.ancestor? · distance)

def getAt (s : Environments α) (e : EnvId) (distance slot : Nat) : Lookup α :=
  match s.ancestor? e distance with
  | none => .missing
  | some e => s.getSlot e slot

/-- Assigns to a declared name, or to none. -/
def assign? (s : Environments α) (e : EnvId) (name : String) (a : α) : Option (Environments α) :=
  (s.slot? e name).map (s.put e · a)

def setSlot? (s : Environments α) (e : EnvId) (slot : Nat) (a : α) : Option (Environments α) :=
  if s.hasSlot e slot then some (s.put e slot a) else none

def assignAt? (s : Environments α) (e : EnvId) (distance slot : Nat) (a : α) :
    Option (Environments α) :=
  (s.ancestor? e distance).bind (s.setSlot? · slot a)

end Environments

end Lox
