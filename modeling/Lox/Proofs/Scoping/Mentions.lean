import Lox.Proofs.Scoping.Names

/-!
The words of a program that scoping has to do with, and what is around each of them. Both are read off
the tree alone: the names that the scopes around a word have declared before it, and the loops, the
routines and the classes that it stands in the body of. So are the scopes of the program, each with the
words in it.
-/

namespace Lox

namespace Scoping

/-- What has a body, apart from scopes. A class comes with the name of the one above. -/
inductive Frame where
  | loop
  | function
  | lambda
  | method (name : String)
  | classMethod (name : String)
  | class (superclass : Option String)
  deriving Repr, DecidableEq

namespace Frame

def isRoutine : Frame → Bool
  | .function | .lambda | .method _ | .classMethod _ => true
  | .loop | .class _ => false

def isClass : Frame → Bool
  | .class _ => true
  | _ => false

def isClassMethod : Frame → Bool
  | .classMethod _ => true
  | _ => false

end Frame

/-- What is around a place, innermost first: the names that each scope has declared before the place,
as often as it has declared them, and what the place is in the body of. Outside all scopes names are
global. -/
structure Surroundings where
  levels : List (List String) := []
  frames : List Frame := []
  deriving Repr, DecidableEq

namespace Surroundings

/-- Behind declarations of these names. Outside all scopes nothing is kept of them. -/
def declare (S : Surroundings) (names : List String) : Surroundings :=
  { S with levels := S.levels.modifyHead (· ++ names) }

/-- In a new scope with these names. -/
def opened (S : Surroundings) (names : List String) : Surroundings :=
  { S with levels := names :: S.levels }

def within (S : Surroundings) (frame : Frame) : Surroundings :=
  { S with frames := frame :: S.frames }

/-- In a class, which has a scope of its own and, if there is a class above, one more around that. -/
def inClass (S : Surroundings) : Option String → Surroundings
  | none => (S.within (.class none)).opened ["this"]
  | some superclass => ((S.within (.class (some superclass))).opened ["super"]).opened ["this"]

/-- The innermost routine. -/
def routine? (S : Surroundings) : Option Frame := S.frames.find? Frame.isRoutine

/-- The innermost class. -/
def class? (S : Surroundings) : Option Frame := S.frames.find? Frame.isClass

/-- No loop outside a routine is a loop of it. -/
def inLoop (S : Surroundings) : Bool := (S.frames.takeWhile fun f => !f.isRoutine).contains .loop

end Surroundings

/-- A word that declares a name, refers to a variable or jumps. A declaration comes with the initial
value of its variable, if it has one. -/
inductive Word where
  | declaration (name : Lexeme) (initial : Option (Expr RefId))
  | read (id : RefId) (name : Lexeme)
  | assign (id : RefId) (name : Lexeme)
  | this (id : RefId) (keyword : Lexeme)
  | super (id : RefId) (keyword : Lexeme)
  /-- A class names the one above, which reads its variable. -/
  | inherit (id : RefId) (superclass name : Lexeme)
  | return (keyword : Lexeme) (hasValue : Bool)
  | break (keyword : Lexeme)

namespace Word

def lexeme : Word → Lexeme
  | .declaration l _ | .read _ l | .assign _ l | .this _ l | .super _ l | .inherit _ l _ | .return l _
  | .break l => l

/-- The identity of a reference. -/
def id? : Word → Option RefId
  | .read id _ | .assign id _ | .this id _ | .super id _ | .inherit id _ _ => some id
  | .declaration _ _ | .return _ _ | .break _ => none

/-- Does the word read the variable of its name? -/
def reads : Word → Bool
  | .read _ _ | .inherit _ _ _ => true
  | _ => false

end Word

/-- A word where it stands. -/
structure Mention where
  word : Word
  around : Surroundings

/-- A scope of a program: its height, which is how many scopes are open in it, and the words in it. -/
structure Extent where
  height : Nat
  words : List Mention

/-- Parameters are declared one after another. -/
def parameterMentions (S : Surroundings) : List Lexeme → List Mention
  | [] => []
  | name :: names => ⟨.declaration name none, S⟩ :: parameterMentions (S.declare [name.text]) names

end Scoping

open Scoping

mutual

/-- The names that a statement declares in the scope around it. -/
def Stmt.declares : Stmt RefId → List String
  | .var name _ | .class name _ _ _ => [name.text]
  | .function ⟨name, _⟩ => [name.text]
  | .if _ y none => y.declares
  | .if _ y (some n) => y.declares ++ n.declares
  | .while _ b => b.declares
  | .expr _ | .print _ | .block _ | .break _ | .return _ _ => []

def Stmt.declaresAll : List (Stmt RefId) → List String
  | [] => []
  | s :: ss => s.declares ++ Stmt.declaresAll ss

end

mutual

/-- The words in a tree, in the order in which scoping comes to them: as they are written, but for the
value that an assignment to a variable or a property stores, which comes before its target. -/
def Expr.mentions (S : Surroundings) : Expr RefId → List Mention
  | .literal _ => []
  | .variable id name => [⟨.read id name, S⟩]
  | .assign id name e => e.mentions S ++ [⟨.assign id name, S⟩]
  | .this id keyword => [⟨.this id keyword, S⟩]
  | .super id keyword _ => [⟨.super id keyword, S⟩]
  | .unary _ _ e | .group e | .get e _ => e.mentions S
  | .binary _ _ l r | .logical _ _ l r => l.mentions S ++ r.mentions S
  | .ternary c y n => c.mentions S ++ (y.mentions S ++ n.mentions S)
  | .call c as _ => c.mentions S ++ Expr.mentionsAll S as
  | .set o _ e => e.mentions S ++ o.mentions S
  | .lambda _ r => r.mentions (S.within .lambda)

def Expr.mentionsAll (S : Surroundings) : List (Expr RefId) → List Mention
  | [] => []
  | e :: es => e.mentions S ++ Expr.mentionsAll S es

def Stmt.mentions (S : Surroundings) : Stmt RefId → List Mention
  | .expr e | .print e => e.mentions S
  | .var name none => [⟨.declaration name none, S⟩]
  | .var name (some e) => ⟨.declaration name (some e), S⟩ :: e.mentions (S.declare [name.text])
  | .block b => Stmt.mentionsAll (S.opened []) b
  | .if c y none => c.mentions S ++ y.mentions S
  | .if c y (some n) => c.mentions S ++ (y.mentions S ++ n.mentions (S.declare y.declares))
  | .while c b => c.mentions S ++ b.mentions (S.within .loop)
  | .break keyword => [⟨.break keyword, S⟩]
  | .return keyword none => [⟨.return keyword false, S⟩]
  | .return keyword (some e) => ⟨.return keyword true, S⟩ :: e.mentions S
  | .function ⟨name, r⟩ =>
    ⟨.declaration name none, S⟩ :: r.mentions ((S.declare [name.text]).within .function)
  | .class name none ms cs =>
    ⟨.declaration name none, S⟩ ::
      (Definition.methodMentions ((S.declare [name.text]).inClass none) ms ++
        Definition.classMethodMentions ((S.declare [name.text]).inClass none) cs)
  | .class name (some (id, superclass)) ms cs =>
    ⟨.declaration name none, S⟩ :: ⟨.inherit id superclass name, S.declare [name.text]⟩ ::
      (Definition.methodMentions ((S.declare [name.text]).inClass (some superclass.text)) ms ++
        Definition.classMethodMentions ((S.declare [name.text]).inClass (some superclass.text)) cs)

def Stmt.mentionsAll (S : Surroundings) : List (Stmt RefId) → List Mention
  | [] => []
  | s :: ss => s.mentions S ++ Stmt.mentionsAll (S.declare s.declares) ss

/-- Parameters and body share a scope. -/
def Routine.mentions (S : Surroundings) : Routine RefId → List Mention
  | ⟨params, body⟩ => parameterMentions (S.opened []) params ++
      Stmt.mentionsAll ((S.opened []).declare (params.map (·.text))) body

def Definition.methodMentions (S : Surroundings) : List (Definition RefId) → List Mention
  | [] => []
  | ⟨name, r⟩ :: ms => r.mentions (S.within (.method name.text)) ++ Definition.methodMentions S ms

def Definition.classMethodMentions (S : Surroundings) : List (Definition RefId) → List Mention
  | [] => []
  | ⟨name, r⟩ :: ms =>
    r.mentions (S.within (.classMethod name.text)) ++ Definition.classMethodMentions S ms

end

namespace Scoping.Surroundings

variable (S : Surroundings)

/-- The scope that is opened in these surroundings, with the words in it. -/
def extent (words : List Mention) : Extent := ⟨S.levels.length + 1, words⟩

/-- The scopes of a class behind those in its methods. -/
def classExtents (inner : List Extent) (words : List Mention) : Option String → List Extent
  | none => inner ++ [S.extent words]
  | some _ => inner ++ [(S.opened ["super"]).extent words] ++ [S.extent words]

end Scoping.Surroundings

mutual

/-- The scopes in a tree, in the order in which scoping closes them. -/
def Expr.extents (S : Surroundings) : Expr RefId → List Extent
  | .literal _ | .variable _ _ | .this _ _ | .super _ _ _ => []
  | .assign _ _ e | .unary _ _ e | .group e | .get e _ => e.extents S
  | .binary _ _ l r | .logical _ _ l r => l.extents S ++ r.extents S
  | .ternary c y n => c.extents S ++ (y.extents S ++ n.extents S)
  | .call c as _ => c.extents S ++ Expr.extentsAll S as
  | .set o _ e => e.extents S ++ o.extents S
  | .lambda _ r => r.extents (S.within .lambda)

def Expr.extentsAll (S : Surroundings) : List (Expr RefId) → List Extent
  | [] => []
  | e :: es => e.extents S ++ Expr.extentsAll S es

def Stmt.extents (S : Surroundings) : Stmt RefId → List Extent
  | .expr e | .print e | .return _ (some e) => e.extents S
  | .var _ none | .break _ | .return _ none => []
  | .var name (some e) => e.extents (S.declare [name.text])
  | .block b => Stmt.extentsAll (S.opened []) b ++ [S.extent (Stmt.mentionsAll (S.opened []) b)]
  | .if c y none => c.extents S ++ y.extents S
  | .if c y (some n) => c.extents S ++ (y.extents S ++ n.extents (S.declare y.declares))
  | .while c b => c.extents S ++ b.extents (S.within .loop)
  | .function ⟨name, r⟩ => r.extents ((S.declare [name.text]).within .function)
  | .class name superclass ms cs =>
    let above := superclass.map (·.2.text)
    let inside := (S.declare [name.text]).inClass above
    (S.declare [name.text]).classExtents
      (Definition.methodExtents inside ms ++ Definition.classMethodExtents inside cs)
      (Definition.methodMentions inside ms ++ Definition.classMethodMentions inside cs) above

def Stmt.extentsAll (S : Surroundings) : List (Stmt RefId) → List Extent
  | [] => []
  | s :: ss => s.extents S ++ Stmt.extentsAll (S.declare s.declares) ss

def Routine.extents (S : Surroundings) : Routine RefId → List Extent
  | ⟨params, body⟩ => Stmt.extentsAll ((S.opened []).declare (params.map (·.text))) body ++
      [S.extent (Routine.mentions S ⟨params, body⟩)]

def Definition.methodExtents (S : Surroundings) : List (Definition RefId) → List Extent
  | [] => []
  | ⟨name, r⟩ :: ms => r.extents (S.within (.method name.text)) ++ Definition.methodExtents S ms

def Definition.classMethodExtents (S : Surroundings) : List (Definition RefId) → List Extent
  | [] => []
  | ⟨name, r⟩ :: ms =>
    r.extents (S.within (.classMethod name.text)) ++ Definition.classMethodExtents S ms

end

end Lox
