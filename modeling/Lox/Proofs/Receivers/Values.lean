import Lox.Proofs.Lexical.Steps
import Lox.Proofs.Receivers.Environments

/-!
Where values come from. A class value comes from a declaration of a class, which also made the
environment of its methods; a method value comes from a class of its receiver or one above; any other
function value comes from code that runs inside of a method or outside of all classes. All this stays
so as a program runs.
-/

namespace Lox

open Scoping

/-! Inside of phrases. -/

namespace Scoping.Phrase

/-- The phrase declares a class. -/
def isClass : Phrase → Bool
  | .stmt (.class _ _ _ _) => true
  | _ => false

/-- Scoping goes from the first phrase into the second one, not into the members of a class. -/
def Holds (outer inner : Phrase) : Prop :=
  outer.isClass = false ∧ ∃ c s d t, Visit.Enters ⟨c, s, outer⟩ ⟨d, t, inner⟩

/-- The second phrase is inside of the first one, in no class inside of that one. -/
def Encloses : Phrase → Phrase → Prop := Relation.ReflTransGen Holds

theorem Encloses.refl (phrase : Phrase) : phrase.Encloses phrase := Relation.ReflTransGen.refl

theorem Encloses.enter {outer phrase inner : Phrase} (h : outer.Encloses phrase)
    (holds : phrase.Holds inner) : outer.Encloses inner := Relation.ReflTransGen.tail h holds

end Scoping.Phrase

/-! Classes and their members. -/

variable {ρ κ : Type}

/-- The second class is the first one or above it. -/
inductive Class.Descends : Class ρ κ → Class ρ κ → Prop
  | refl (c : Class ρ κ) : Descends c c
  | up {c parent k : Class ρ κ} (hp : c.superclass = some parent) (h : Descends parent k) : Descends c k

/-- The function is a method of an instance from this class of it, or a class method of a class. -/
inductive Value.Offers : Value ρ κ → Class ρ κ → Function ρ κ → Prop
  | method (id : ObjectId) {k c : Class ρ κ} {f : Function ρ κ} (h : k.Descends c)
      (hf : f ∈ c.methods) : Offers (.instance id k) c f
  | classMethod {k c : Class ρ κ} {f : Function ρ κ} (h : k.Descends c) (hf : f ∈ c.classMethods) :
      Offers (.class k) c f

theorem Value.Offers.mem {r : Value ρ κ} {c : Class ρ κ} {f : Function ρ κ} (h : r.Offers c f) :
    f ∈ c.methods ∨ f ∈ c.classMethods := by
  cases h with
  | method id descends hf => exact .inl hf
  | classMethod descends hf => exact .inr hf

namespace Class

variable {c : Class ρ κ} {f : Function ρ κ} {name : String}

theorem mem_of_ownMethod? {fs : List (Function ρ κ)} (h : ownMethod? name fs = some f) :
    f ∈ fs ∧ f.name = name :=
  ⟨List.mem_of_find?_eq_some h, by simpa using List.find?_some h⟩

theorem of_orElse {α : Type} {a b : Option α} {x : α} (h : (a <|> b) = some x) :
    a = some x ∨ b = some x := by
  cases a with
  | some y => exact .inl h
  | none => exact .inr h

/-- A method that is found is one of a class from there upwards. -/
theorem findMethod?_some : ∀ {c : Class ρ κ}, c.findMethod? name = some f →
    ∃ k, c.Descends k ∧ f ∈ k.methods ∧ f.name = name
  | ⟨_, _, none, _, _⟩, h => ⟨_, .refl _, mem_of_ownMethod? h⟩
  | ⟨_, _, some parent, _, _⟩, h => by
    obtain h | h := of_orElse h
    · exact ⟨_, .refl _, mem_of_ownMethod? h⟩
    · obtain ⟨k, descends, hf⟩ := findMethod?_some (c := parent) h
      exact ⟨k, .up rfl descends, hf⟩

theorem findClassMethod?_some : ∀ {c : Class ρ κ}, c.findClassMethod? name = some f →
    ∃ k, c.Descends k ∧ f ∈ k.classMethods ∧ f.name = name
  | ⟨_, _, none, _, _⟩, h => ⟨_, .refl _, mem_of_ownMethod? h⟩
  | ⟨_, _, some parent, _, _⟩, h => by
    obtain h | h := of_orElse h
    · exact ⟨_, .refl _, mem_of_ownMethod? h⟩
    · obtain ⟨k, descends, hf⟩ := findClassMethod?_some (c := parent) h
      exact ⟨k, .up rfl descends, hf⟩

theorem Descends.trans {c k l : Class ρ κ} (h : c.Descends k) (h' : k.Descends l) : c.Descends l := by
  induction h with
  | refl => exact h'
  | up hp _ ih => exact .up hp (ih h')

end Class

theorem mem_methodTable {scope : κ} {initializer : Lexeme → Bool} {ds : List (Definition ρ)}
    {f : Function ρ κ} (h : f ∈ methodTable scope initializer ds) :
    ∃ d ∈ ds, f = ⟨d.name.text, ⟨d.routine, scope⟩, initializer d.name⟩ := by
  obtain ⟨d, hd, rfl⟩ := List.mem_map.mp (List.mem_reverse.mp h)
  exact ⟨d, hd, rfl⟩

/-- A class value of this declaration, whose methods have this environment around them. -/
def Stmt.makes (name : Lexeme) (ms cs : List (Definition ρ)) (scope : κ) (id : ObjectId)
    (parent : Option (Class ρ κ)) : Class ρ κ :=
  ⟨id, name.text, parent, methodTable scope (fun l => l.text == Scoping.initializerName) ms,
    methodTable scope (fun _ => false) cs⟩

section Makes

variable {name : Lexeme} {ms cs : List (Definition ρ)} {scope : κ} {id : ObjectId}
  {parent : Option (Class ρ κ)} {f : Function ρ κ}

theorem Stmt.mem_methods_makes (h : f ∈ (makes name ms cs scope id parent).methods) :
    ∃ d ∈ ms, f = ⟨d.name.text, ⟨d.routine, scope⟩, d.name.text == Scoping.initializerName⟩ := by
  dsimp only [makes] at h
  exact mem_methodTable h

theorem Stmt.mem_classMethods_makes (h : f ∈ (makes name ms cs scope id parent).classMethods) :
    ∃ d ∈ cs, f = ⟨d.name.text, ⟨d.routine, scope⟩, false⟩ := by
  dsimp only [makes] at h
  exact mem_methodTable h

/-- All members have the same environment around them. -/
theorem Stmt.scope_makes (h : f ∈ (makes name ms cs scope id parent).methods ∨
    f ∈ (makes name ms cs scope id parent).classMethods) : f.closure.scope = scope := by
  obtain h | h := h
  · obtain ⟨d, _, rfl⟩ := mem_methods_makes h
    rfl
  · obtain ⟨d, _, rfl⟩ := mem_classMethods_makes h
    rfl

end Makes

/-- A class method of one of the programs calls for a method above under the name of initializers. -/
def NamesInitializerAbove (ps : List Program) : Prop :=
  ∃ p ∈ ps, ∃ c Γ name clause ms cs, Stands p c Γ (.stmt (.class name (some clause) ms cs)) ∧
    ∃ d ∈ cs, ∃ kind id keyword method,
      (Phrase.routine kind d.routine).Encloses (.expr (.super id keyword method)) ∧
        method.text = Scoping.initializerName

namespace Machine

variable {ps qs : List Program} {m m' : Machine RefId} {e : EnvId} {Γ : Names}

/-- The environment binds the method to its receiver. -/
structure Binds (m : Machine RefId) (e : EnvId) (r : Value RefId EnvId) (c : Class RefId EnvId)
    (f : Function RefId EnvId) : Prop where
  receiver : m.Receiver e r f.closure.scope
  offers : r.Offers c f

theorem Binds.grow {r : Value RefId EnvId} {c : Class RefId EnvId} {f : Function RefId EnvId}
    (h : m.Binds e r c f) (hm : m.Grows m') : m'.Binds e r c f := ⟨h.receiver.grow hm, h.offers⟩

/-- The phrase runs, or a routine is kept, in this environment: outside of all classes, or inside of a
method that is bound. -/
inductive Lodged (m : Machine RefId) (phrase : Phrase) : Names → EnvId → Prop
  | top : Lodged m phrase [] .global
  | body {names : List String} {Γ : Names} {e up : EnvId} {r : Value RefId EnvId}
      {c : Class RefId EnvId} {f : Function RefId EnvId} {kind : RoutineKind}
      (hn : Names.Plain names) (h : m.Plain e (some up)) (bound : m.Binds up r c f)
      (around : m.Scoped Γ f.closure.scope)
      (inside : (Phrase.routine kind f.closure.routine).Encloses phrase) :
      Lodged m phrase (names :: ["this"] :: Γ) e
  | inner {names : List String} {Γ : Names} {e up : EnvId} (hn : Names.Plain names)
      (h : m.Plain e (some up)) (outer : Lodged m phrase Γ up) : Lodged m phrase (names :: Γ) e

/-- The class value comes from a declaration that stands in one of the programs, and the environment
around its methods is that of the declaration, or one inside of it for the class above. That class is
what the clause of the declaration led to when the class value was made. -/
inductive Formed (ps : List Program) (m : Machine RefId) : Class RefId EnvId → Prop
  | base {p : Program} {context : Context} {Γ : Names} {name : Lexeme} {ms cs : List (Definition RefId)}
      {scope : EnvId} {link : Option EnvId} (id : ObjectId) (member : p ∈ ps)
      (stands : Stands p context Γ (.stmt (.class name none ms cs)))
      (around : m.Scoped (Γ.declare name.text) scope) (plain : m.Plain scope link) :
      Formed ps m (Stmt.makes name ms cs scope id none)
  | derived {p : Program} {context : Context} {Γ : Names} {name : Lexeme} {clause : RefId × Lexeme}
      {ms cs : List (Definition RefId)} {scope : EnvId} {parent : Class RefId EnvId}
      {before : Machine RefId} (member : p ∈ ps)
      (stands : Stands p context Γ (.stmt (.class name (some clause) ms cs)))
      (clausal : Run.read (Γ.binding? clause.2.text) clause.2 before = .ok (.class parent) before)
      (grown : before.Grows m) (above : m.Above scope parent before.scope)
      (around : m.Scoped (Γ.declare name.text) before.scope) :
      Formed ps m (Stmt.makes name ms cs scope before.objects.size (some parent))

/-- The class and all above it are formed, and are objects of the machine. -/
def Rooted (ps : List Program) (m : Machine RefId) (c : Class RefId EnvId) : Prop :=
  ∀ k, c.Descends k → m.Formed ps k ∧ k.id < m.objects.size

/-- The routine stands in one of the programs, where it is kept. -/
def Owns (ps : List Program) (m : Machine RefId) (closure : Closure RefId EnvId) : Prop :=
  ∃ p ∈ ps, ∃ context Γ kind, Stands p context Γ (.routine kind closure.routine) ∧
    m.Lodged (.routine kind closure.routine) Γ closure.scope

/-- What is known of every value that a program can get at. -/
inductive Trusts (ps : List Program) (m : Machine RefId) : Value RefId EnvId → Prop
  | nil : Trusts ps m .nil
  | bool (b : Bool) : Trusts ps m (.bool b)
  | number (x : Float) : Trusts ps m (.number x)
  | string (s : String) : Trusts ps m (.string s)
  | native (n : Native) : Trusts ps m (.native n)
  | file (handle : FileSystem.HandleId) : Trusts ps m (.file handle)
  | function {id : ObjectId} (f : Function RefId EnvId) (hi : id < m.objects.size)
      (ordinary : f.initializer = false) (owned : m.Owns ps f.closure) : Trusts ps m (.function id f)
  | method {id : ObjectId} {f : Function RefId EnvId} {e : EnvId} {r : Value RefId EnvId}
      {c : Class RefId EnvId} (hi : id < m.objects.size) (bound : m.Binds e r c f)
      (named : ∀ k, r = .class k → f.name = Scoping.initializerName → NamesInitializerAbove ps) :
      Trusts ps m (.function id (f.within e))
  | lambda {id : ObjectId} (line : Nat) {closure : Closure RefId EnvId} (hi : id < m.objects.size)
      (owned : m.Owns ps closure) : Trusts ps m (.lambda id line closure)
  | class {c : Class RefId EnvId} (rooted : m.Rooted ps c) : Trusts ps m (.class c)
  | instance {id : ObjectId} {c : Class RefId EnvId} (hi : id < m.objects.size)
      (rooted : m.Rooted ps c) : Trusts ps m (.instance id c)

/-! All of it stays so. -/

theorem Lodged.grow {phrase : Phrase} (h : m.Lodged phrase Γ e) (hm : m.Grows m') :
    m'.Lodged phrase Γ e := by
  induction h with
  | top => exact .top
  | body hn h bound around inside =>
    exact .body hn (h.grow hm) (bound.grow hm) (around.grow hm) inside
  | inner hn h _ ih => exact .inner hn (h.grow hm) ih

theorem Formed.grow {c : Class RefId EnvId} (h : m.Formed ps c) (hp : ps ⊆ qs) (hm : m.Grows m') :
    m'.Formed qs c := by
  cases h with
  | base id member stands around plain =>
    exact .base id (hp member) stands (around.grow hm) (plain.grow hm)
  | derived member stands clausal grown above around =>
    exact .derived (hp member) stands clausal (grown.trans hm) (above.grow hm) (around.grow hm)

theorem Rooted.grow {c : Class RefId EnvId} (h : m.Rooted ps c) (hp : ps ⊆ qs) (hm : m.Grows m') :
    m'.Rooted qs c := by
  intro k hk
  obtain ⟨formed, hi⟩ := h k hk
  exact ⟨formed.grow hp hm, Nat.lt_of_lt_of_le hi hm.objects⟩

theorem Owns.grow {closure : Closure RefId EnvId} (h : m.Owns ps closure) (hp : ps ⊆ qs)
    (hm : m.Grows m') : m'.Owns qs closure := by
  obtain ⟨p, member, context, Γ, kind, stands, lodged⟩ := h
  exact ⟨p, hp member, context, Γ, kind, stands, lodged.grow hm⟩

theorem Trusts.grow {v : Value RefId EnvId} (h : m.Trusts ps v) (hp : ps ⊆ qs) (hm : m.Grows m') :
    m'.Trusts qs v := by
  cases h with
  | nil => exact .nil
  | bool b => exact .bool b
  | number x => exact .number x
  | string s => exact .string s
  | native n => exact .native n
  | file handle => exact .file handle
  | function f hi ordinary owned =>
    exact .function f (Nat.lt_of_lt_of_le hi hm.objects) ordinary (owned.grow hp hm)
  | method hi bound named =>
    refine .method (Nat.lt_of_lt_of_le hi hm.objects) (bound.grow hm) fun k hr hn => ?_
    obtain ⟨p, member, rest⟩ := named k hr hn
    exact ⟨p, hp member, rest⟩
  | lambda line hi owned => exact .lambda line (Nat.lt_of_lt_of_le hi hm.objects) (owned.grow hp hm)
  | «class» rooted => exact .class (rooted.grow hp hm)
  | «instance» hi rooted => exact .instance (Nat.lt_of_lt_of_le hi hm.objects) (rooted.grow hp hm)

/-! Where code runs. -/

namespace Lodged

variable {phrase inner : Phrase}

/-- What is inside runs in the same environment. -/
theorem enter (h : m.Lodged phrase Γ e) (holds : phrase.Holds inner) : m.Lodged inner Γ e := by
  induction h with
  | top => exact .top
  | body hn h bound around inside => exact .body hn h bound around (inside.enter holds)
  | inner hn h _ ih => exact .inner hn h ih

/-- A class is inside of the same method, but its members are not. -/
theorem lies (h : m.Lodged phrase Γ e) : m.Scoped Γ e := by
  induction h with
  | top => exact .top
  | body hn h bound around _ => exact .plain hn h (.receiver bound.receiver around)
  | inner hn h _ ih => exact .plain hn h ih

/-- A phrase runs in a plain environment. -/
theorem plain (h : m.Lodged phrase Γ e) (global : m.Plain .global none) : ∃ link, m.Plain e link := by
  cases h with
  | top => exact ⟨none, global⟩
  | body hn h | inner hn h => exact ⟨_, h⟩

theorem declare (h : m.Lodged phrase Γ e) {name : Lexeme} (ordinary : name.Ordinary) :
    m.Lodged phrase (Γ.declare name.text) e := by
  cases h with
  | top => exact .top
  | body hn h bound around inside =>
    obtain ⟨names', declared, plain⟩ := hn.declare ordinary
    rw [declared]
    exact .body plain h bound around inside
  | inner hn h outer =>
    obtain ⟨names', declared, plain⟩ := hn.declare ordinary
    rw [declared]
    exact .inner plain h outer

/-- Where scoping finds `this`, the method that the phrase is in has got its receiver; and where it finds
`super` around that, the class above the one of the method is there. -/
theorem home (h : m.Lodged phrase Γ e) {d : Nat} (hb : Γ.binding? "this" = some ⟨d, 0⟩) :
    ∃ found r c f kind, m.environments.ancestor? e d = some found ∧ m.This e found r ∧
      m.Binds found r c f ∧ (Phrase.routine kind f.closure.routine).Encloses phrase ∧
      (Γ.binding? "super" = some ⟨d + 1, 0⟩ → ∃ k outer, m.Above f.closure.scope k outer) := by
  induction h generalizing d with
  | top => cases hb
  | @body names Γ e up r c f kind hn h bound around inside =>
    obtain ⟨b, hb', hd⟩ := Names.binding?_outer hn.findIdx?_this hb
    cases hb'
    cases hd
    obtain ⟨env, he, hl, plain⟩ := h
    refine ⟨up, r, c, f, kind, ?_, .outside ⟨env, he, hl, plain⟩ (.here bound.receiver), bound, inside,
      fun hs => ?_⟩
    · rw [ancestor?_succ he hl]
      rfl
    · obtain ⟨b, hs', hd⟩ := Names.binding?_outer hn.findIdx?_super hs
      obtain ⟨⟨d, slot⟩, hs'', rfl⟩ := Names.binding?_outer rfl hs'
      cases hd
      exact around.above_of_super hs''
  | @inner names Γ e up hn h _ ih =>
    obtain ⟨⟨d, slot⟩, hb', hd⟩ := Names.binding?_outer hn.findIdx?_this hb
    cases hd
    obtain ⟨found, r, c, f, kind, hf, this, bound, inside, above⟩ := ih hb'
    obtain ⟨env, he, hl, plain⟩ := h
    refine ⟨found, r, c, f, kind, ?_, .outside ⟨env, he, hl, plain⟩ this, bound, inside, fun hs => ?_⟩
    · rw [ancestor?_succ he hl]
      exact hf
    · obtain ⟨⟨d', slot⟩, hs', hd⟩ := Names.binding?_outer hn.findIdx?_super hs
      cases hd
      exact above hs'

end Lodged

/-! What is known of the members of a class. -/

section Members

variable {r : Value RefId EnvId} {c : Class RefId EnvId} {f : Function RefId EnvId}

/-- A member of a class stands in its declaration, under `this` and what is around the class. -/
theorem Formed.stands (hc : m.Formed ps c) (faultless : ∀ p ∈ ps, Faultless p)
    (hf : f ∈ c.methods ∨ f ∈ c.classMethods) :
    ∃ p ∈ ps, ∃ d Δ kind, Stands p d (["this"] :: Δ) (.routine kind f.closure.routine) ∧
      m.Scoped Δ f.closure.scope := by
  have members {p : Program} {context : Context} {Γ : Names} {name : Lexeme}
      {superclass : Option (RefId × Lexeme)} {ms cs : List (Definition RefId)} {scope : EnvId}
      (member : p ∈ ps) (stands : Stands p context Γ (.stmt (.class name superclass ms cs)))
      {id : ObjectId} {parent : Option (Class RefId EnvId)}
      (around : m.Scoped (Names.behindClause superclass (Γ.declare name.text)) scope)
      (hf : f ∈ (Stmt.makes name ms cs scope id parent).methods ∨
        f ∈ (Stmt.makes name ms cs scope id parent).classMethods) :
      ∃ p ∈ ps, ∃ d Δ kind, Stands p d (["this"] :: Δ) (.routine kind f.closure.routine) ∧
        m.Scoped Δ f.closure.scope := by
    obtain ⟨d, methods, classMethods⟩ := stands.members (faultless p member)
    obtain hf | hf := hf
    · obtain ⟨x, hx, rfl⟩ := Stmt.mem_methods_makes hf
      exact ⟨p, member, d, _, _, methods.method (faultless p member) x hx, around⟩
    · obtain ⟨x, hx, rfl⟩ := Stmt.mem_classMethods_makes hf
      exact ⟨p, member, d, _, _, classMethods.classMethod (faultless p member) x hx, around⟩
  cases hc with
  | base id member stands around plain => exact members member stands around hf
  | derived member stands clausal grown above around =>
    exact members member stands (.above above around) hf

/-- Only methods of instances are initializers. -/
theorem Formed.initializer_of_classMethod (hc : m.Formed ps c) (hf : f ∈ c.classMethods) :
    f.initializer = false := by
  cases hc with
  | base | derived =>
    obtain ⟨x, _, rfl⟩ := Stmt.mem_classMethods_makes hf
    rfl

theorem Formed.initializer_of_method (hc : m.Formed ps c) (hf : f ∈ c.methods) :
    f.initializer = (f.name == initializerName) := by
  cases hc with
  | base | derived =>
    obtain ⟨x, _, rfl⟩ := Stmt.mem_methods_makes hf
    rfl

theorem Trusts.formed (hr : m.Trusts ps r) (offers : r.Offers c f) : m.Formed ps c := by
  cases offers with
  | method id descends hf =>
    cases hr with
    | «instance» hi rooted => exact (rooted c descends).1
  | classMethod descends hf =>
    cases hr with
    | «class» rooted => exact (rooted c descends).1

end Members

end Machine

end Lox
