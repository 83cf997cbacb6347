import Lox.Proofs.Scoping.Names
import Mathlib.Logic.Relation

/-!
The way that scoping takes through a program. Scoping comes to each phrase of a program in a context
and with some scopes open, and goes from there into the phrases inside. What it finds in a phrase it
also finds in the whole program, and how it binds the references of a phrase is how they are bound in
the program.
-/

namespace Lox

namespace Scoping

/-- A part of a program that scoping goes through on its own. -/
inductive Phrase where
  | expr (e : Expr RefId)
  | exprs (es : List (Expr RefId))
  | stmt (s : Stmt RefId)
  | stmts (ss : List (Stmt RefId))
  | routine (kind : RoutineKind) (r : Routine RefId)
  | methods (ms : List (Definition RefId))
  | classMethods (ms : List (Definition RefId))

namespace Phrase

/-- What scoping does with the phrase; of the tree that it answers only the references are kept. -/
def resolve (c : Context) : Phrase → Scoping (List Reference)
  | .expr e => return (← e.resolve c).references
  | .exprs es => return Expr.referencesAll (← Expr.resolveAll c es)
  | .stmt s => return (← s.resolve c).references
  | .stmts ss => return Stmt.referencesAll (← Stmt.resolveAll c ss)
  | .routine kind r => return (← r.resolve c kind).references
  | .methods ms => return Definition.referencesAll (← Definition.resolveMethods c ms)
  | .classMethods ms => return Definition.referencesAll (← Definition.resolveClassMethods c ms)

def Tidy : Phrase → Prop
  | .expr e => e.Tidy
  | .exprs es => Expr.TidyAll es
  | .stmt s => s.Tidy
  | .stmts ss => Stmt.TidyAll ss
  | .routine _ r => r.Tidy
  | .methods ms | .classMethods ms => Definition.TidyAll ms

end Phrase

/-- A scope is opened. -/
def State.opened (s : State) (scope : Scope) : State := { s with scopes := scope :: s.scopes }

/-- The scope of a name that the language itself declares. -/
def Scope.ofName (name : String) : Scope := [⟨⟨name, 0⟩, .used⟩]

/-- The name of a function or a class is declared and can be read at once. -/
def announce (name : Lexeme) : Scoping Unit := do
  declare name
  define name

/-- The clause that names the class above. -/
def inherit (name : Lexeme) (id : RefId) (superclass : Lexeme) : Scoping Reference := do
  announce name
  if superclass.text = name.text then note .inheritsFromItself superclass
  read id superclass

/-- Scoping comes to a phrase in this context and state. -/
structure Visit where
  context : Context
  state : State
  phrase : Phrase

/-- From one visit scoping goes into another one: to a phrase inside, in the state in which the
phrases before it have left the scoping. -/
inductive Visit.Enters : Visit → Visit → Prop
  | first (c s e es) : Enters ⟨c, s, .exprs (e :: es)⟩ ⟨c, s, .expr e⟩
  | rest (c s e es) : Enters ⟨c, s, .exprs (e :: es)⟩ ⟨c, (e.resolve c s).2, .exprs es⟩
  | assigned (c s id name e) : Enters ⟨c, s, .expr (.assign id name e)⟩ ⟨c, s, .expr e⟩
  | operand (c s op sign e) : Enters ⟨c, s, .expr (.unary op sign e)⟩ ⟨c, s, .expr e⟩
  | left (c s op sign l r) : Enters ⟨c, s, .expr (.binary op sign l r)⟩ ⟨c, s, .expr l⟩
  | right (c s op sign l r) :
      Enters ⟨c, s, .expr (.binary op sign l r)⟩ ⟨c, (l.resolve c s).2, .expr r⟩
  | either (c s op sign l r) : Enters ⟨c, s, .expr (.logical op sign l r)⟩ ⟨c, s, .expr l⟩
  | other (c s op sign l r) :
      Enters ⟨c, s, .expr (.logical op sign l r)⟩ ⟨c, (l.resolve c s).2, .expr r⟩
  | condition (c s e y n) : Enters ⟨c, s, .expr (.ternary e y n)⟩ ⟨c, s, .expr e⟩
  | yes (c s e y n) : Enters ⟨c, s, .expr (.ternary e y n)⟩ ⟨c, (e.resolve c s).2, .expr y⟩
  | no (c s e y n) :
      Enters ⟨c, s, .expr (.ternary e y n)⟩ ⟨c, (y.resolve c (e.resolve c s).2).2, .expr n⟩
  | inner (c s e) : Enters ⟨c, s, .expr (.group e)⟩ ⟨c, s, .expr e⟩
  | callee (c s e es line) : Enters ⟨c, s, .expr (.call e es line)⟩ ⟨c, s, .expr e⟩
  | arguments (c s e es line) :
      Enters ⟨c, s, .expr (.call e es line)⟩ ⟨c, (e.resolve c s).2, .exprs es⟩
  | object (c s o name) : Enters ⟨c, s, .expr (.get o name)⟩ ⟨c, s, .expr o⟩
  | value (c s o name e) : Enters ⟨c, s, .expr (.set o name e)⟩ ⟨c, s, .expr e⟩
  | target (c s o name e) : Enters ⟨c, s, .expr (.set o name e)⟩ ⟨c, (e.resolve c s).2, .expr o⟩
  | lambda (c s line r) : Enters ⟨c, s, .expr (.lambda line r)⟩ ⟨c, s, .routine .lambda r⟩
  | head (c s t ss) : Enters ⟨c, s, .stmts (t :: ss)⟩ ⟨c, s, .stmt t⟩
  | tail (c s t ss) : Enters ⟨c, s, .stmts (t :: ss)⟩ ⟨c, (t.resolve c s).2, .stmts ss⟩
  | expr (c s e) : Enters ⟨c, s, .stmt (.expr e)⟩ ⟨c, s, .expr e⟩
  | print (c s e) : Enters ⟨c, s, .stmt (.print e)⟩ ⟨c, s, .expr e⟩
  | initial (c s name e) :
      Enters ⟨c, s, .stmt (.var name (some e))⟩ ⟨c, (declare name s).2, .expr e⟩
  | block (c s b) : Enters ⟨c, s, .stmt (.block b)⟩ ⟨c, s.opened [], .stmts b⟩
  | test (c s e y n) : Enters ⟨c, s, .stmt (.if e y n)⟩ ⟨c, s, .expr e⟩
  | consequent (c s e y n) :
      Enters ⟨c, s, .stmt (.if e y n)⟩ ⟨c, (e.resolve c s).2, .stmt y⟩
  | alternative (c s e y n) : Enters ⟨c, s, .stmt (.if e y (some n))⟩
      ⟨c, (y.resolve c (e.resolve c s).2).2, .stmt n⟩
  | guard (c s e b) : Enters ⟨c, s, .stmt (.while e b)⟩ ⟨c, s, .expr e⟩
  | body (c s e b) :
      Enters ⟨c, s, .stmt (.while e b)⟩ ⟨{ c with inLoop := true }, (e.resolve c s).2, .stmt b⟩
  | answer (c s keyword e) : Enters ⟨c, s, .stmt (.return keyword (some e))⟩
      ⟨c, (checkReturn c keyword true s).2, .expr e⟩
  | function (c s name r) :
      Enters ⟨c, s, .stmt (.function ⟨name, r⟩)⟩ ⟨c, (announce name s).2, .routine .function r⟩
  | methods (c s name ms cs) : Enters ⟨c, s, .stmt (.class name none ms cs)⟩
      ⟨{ c with classKind := some .base }, (announce name s).2.opened (.ofName "this"), .methods ms⟩
  | classMethods (c s name ms cs) : Enters ⟨c, s, .stmt (.class name none ms cs)⟩
      ⟨{ c with classKind := some .base },
        (Definition.resolveMethods { c with classKind := some .base } ms
          ((announce name s).2.opened (.ofName "this"))).2, .classMethods cs⟩
  | derivedMethods (c s name id superclass ms cs) :
      Enters ⟨c, s, .stmt (.class name (some (id, superclass)) ms cs)⟩
        ⟨{ c with classKind := some .derived },
          ((inherit name id superclass s).2.opened (.ofName "super")).opened (.ofName "this"),
          .methods ms⟩
  | derivedClassMethods (c s name id superclass ms cs) :
      Enters ⟨c, s, .stmt (.class name (some (id, superclass)) ms cs)⟩
        ⟨{ c with classKind := some .derived },
          (Definition.resolveMethods { c with classKind := some .derived } ms
            (((inherit name id superclass s).2.opened (.ofName "super")).opened
              (.ofName "this"))).2,
          .classMethods cs⟩
  | statements (c s kind params b) : Enters ⟨c, s, .routine kind ⟨params, b⟩⟩
      ⟨{ c with routineKind := some kind, inLoop := false },
        (declareAll params (s.opened [])).2, .stmts b⟩
  | method (c s name r ms) :
      Enters ⟨c, s, .methods (⟨name, r⟩ :: ms)⟩ ⟨c, s, .routine (methodKind name) r⟩
  | laterMethods (c s name r ms) : Enters ⟨c, s, .methods (⟨name, r⟩ :: ms)⟩
      ⟨c, (r.resolve c (methodKind name) s).2, .methods ms⟩
  | classMethod (c s name r ms) :
      Enters ⟨c, s, .classMethods (⟨name, r⟩ :: ms)⟩ ⟨c, s, .routine .classMethod r⟩
  | laterClassMethods (c s name r ms) : Enters ⟨c, s, .classMethods (⟨name, r⟩ :: ms)⟩
      ⟨c, (r.resolve c .classMethod s).2, .classMethods ms⟩

/-- Scoping makes this visit on its way through the program. -/
def Visited (p : List (Stmt RefId)) : Visit → Prop :=
  Relation.ReflTransGen Visit.Enters ⟨{}, {}, .stmts p⟩

/-! What is known at every visit. -/

/-- Nothing but unused variables was found. -/
def Clean (fs : List Finding) : Prop := ∀ f ∈ fs, f.fault = .unusedVariable

theorem Clean.of_prefix {fs gs : List Finding} (h : Clean gs) (hp : fs <+: gs) : Clean fs :=
  fun f hf => h f (hp.subset hf)

/-- Findings that are no errors are about unused variables. -/
theorem Clean.of_errors {r : Resolution} {unused : Severity} (h : r.errors unused = []) :
    Clean r.findings := by
  intro f hf
  have error := List.filter_eq_nil_iff.mp h f hf
  by_contra hn
  exact error (by simp [Resolution.isError, hn])

/-- Inside a class `this` is the only name of its scope, and if there is a class above the scope
around that one is the scope of `super`. -/
def Context.Fits (c : Context) (Γ : Names) : Prop :=
  c.classKind.isSome → ∃ d, Γ.binding? "this" = some ⟨d, 0⟩ ∧
    (c.classKind = some .derived → Γ.binding? "super" = some ⟨d + 1, 0⟩)

namespace Context.Fits

variable {c : Context} {Γ : Names}

theorem opened (h : c.Fits Γ) : c.Fits ([] :: Γ) := by
  intro hc
  obtain ⟨d, ht, hs⟩ := h hc
  have bound {x : String} {b : Binding} (hx : Γ.binding? x = some b) :
      Names.binding? x ([] :: Γ) = some ⟨b.distance + 1, b.slot⟩ := by
    rw [Names.binding?, List.findIdx?_nil, hx]
    rfl
  exact ⟨d + 1, bound ht, fun hd => bound (hs hd)⟩

theorem declare (h : c.Fits Γ) {name : Lexeme} (hn : name.Ordinary) :
    c.Fits (Γ.declare name.text) := by
  intro hc
  obtain ⟨d, ht, hs⟩ := h hc
  rw [Names.binding?_declare_of_ne hn.1.symm, Names.binding?_declare_of_ne hn.2.symm]
  exact ⟨d, ht, hs⟩

theorem declareAll (h : c.Fits Γ) {names : List Lexeme} (hn : ∀ name ∈ names, name.Ordinary) :
    c.Fits (Γ.declareAll names) := by
  induction names generalizing Γ with
  | nil => exact h
  | cons name names ih =>
    exact ih (h.declare (hn name List.mem_cons_self)) fun n hm => hn n (List.mem_cons_of_mem _ hm)

theorem after (h : c.Fits Γ) {s : Stmt RefId} (hs : s.Tidy) : c.Fits (s.after Γ) := by
  cases s with
  | var name initial =>
    cases initial with
    | none => exact h.declare hs
    | some e => exact h.declare hs.1
  | function d =>
    obtain ⟨name, r⟩ := d
    exact h.declare hs.1
  | «class» name superclass ms cs => exact h.declare hs.1
  | _ => exact h

theorem base (c : Context) (Γ : Names) : { c with classKind := some .base }.Fits (["this"] :: Γ) :=
  fun _ => ⟨0, rfl, fun h => nomatch h⟩

theorem derived (c : Context) (Γ : Names) :
    { c with classKind := some .derived }.Fits (["this"] :: ["super"] :: Γ) :=
  fun _ => ⟨0, rfl, fun _ => rfl⟩

end Context.Fits

/-- The visit is of a phrase as the grammar makes them, and nothing is wrong in it; its references are
bound as in the whole program. -/
structure Visit.Sound (refs : List Reference) (v : Visit) : Prop where
  tidy : v.phrase.Tidy
  clean : Clean (v.phrase.resolve v.context v.state).2.findings
  bound : (v.phrase.resolve v.context v.state).1 ⊆ refs
  fits : v.context.Fits v.state.names

section Names

variable (c : Context) (s : State)

theorem names_opened (scope : Scope) : (s.opened scope).names = scope.names :: s.names := rfl

theorem announce_moves (name : Lexeme) : Moves (announce name) (Names.declare name.text) :=
  (Moves.declare name).bind fun _ => Moves.define name

theorem inherit_moves (name : Lexeme) (id : RefId) (superclass : Lexeme) :
    Moves (inherit name id superclass) (Names.declare name.text) := by
  refine Moves.bind (h := fun Γ => Γ) (announce_moves name) fun _ => ?_
  split
  · exact (Moves.note _ _).bind fun _ => Moves.read id superclass
  · exact Moves.read id superclass

end Names

section Sound

variable {refs : List Reference} {v w : Visit}

theorem Visit.Sound.enter (hv : v.Sound refs) (tidy : w.phrase.Tidy)
    (found : (w.phrase.resolve w.context w.state).2.findings <+:
      (v.phrase.resolve v.context v.state).2.findings)
    (bound : (w.phrase.resolve w.context w.state).1 ⊆ (v.phrase.resolve v.context v.state).1)
    (fits : w.context.Fits w.state.names) : w.Sound refs :=
  ⟨tidy, hv.clean.of_prefix found, List.Subset.trans bound hv.bound, fits⟩

theorem Context.Fits.same {c : Context} {Γ Δ : Names} (h : c.Fits Γ) (he : Δ = Γ) : c.Fits Δ := he ▸ h

/-- The methods of a class. -/
def members (c : Context) (ms cs : List (Definition RefId)) :
    Scoping (List (Definition Reference) × List (Definition Reference)) := do
  return (← Definition.resolveMethods c ms, ← Definition.resolveClassMethods c cs)

theorem members_moves (c : Context) {ms cs : List (Definition RefId)} (hm : Definition.TidyAll ms)
    (hc : Definition.TidyAll cs) : Moves (members c ms cs) id :=
  (Definition.resolveMethods_moves c hm).bind fun _ =>
    (Definition.resolveClassMethods_moves c hc).bind fun _ => .pure _

theorem resolve_derived (c : Context) (name : Lexeme) (id : RefId) (superclass : Lexeme)
    (ms cs : List (Definition RefId)) :
    (Stmt.class name (some (id, superclass)) ms cs).resolve c =
      (do
        let r ← inherit name id superclass
        inScopeOf "super" <| inScopeOf "this" do
          let (ms, cs) ← members { c with classKind := some .derived } ms cs
          return .class name (some (r, superclass)) ms cs) := by
  by_cases h : superclass.text = name.text
  · simp only [Stmt.resolve, inherit, announce, members, if_pos h, bind_assoc, pure_bind]
  · simp only [Stmt.resolve, inherit, announce, members, if_neg h, bind_assoc, pure_bind]

theorem findings_derived (c : Context) {ms cs : List (Definition RefId)}
    (hm : Definition.TidyAll ms) (hc : Definition.TidyAll cs) (s : State) :
    (members c ms cs ((s.opened (.ofName "super")).opened (.ofName "this"))).2.findings <+:
      (inScopeOf "super" (inScopeOf "this" (members c ms cs)) s).2.findings :=
  ((members_moves c hm hc).findings_inScope _ .id _).trans
    (((members_moves c hm hc).inScope (.ofName "this") .id).findings_inScope (.ofName "super") .id s)

/-- What is known at a visit is known at the visits it enters. -/
theorem Visit.Enters.sound (h : v.Enters w) (hv : v.Sound refs) : w.Sound refs := by
  have t := hv.tidy
  have fits := hv.fits
  cases h with
  | first c s e es =>
    exact hv.enter t.1 ((Expr.resolveAll_moves c t.2).findings _) (List.subset_append_left _ _) fits
  | rest c s e es =>
    exact hv.enter t.2 List.prefix_rfl (List.subset_append_right _ _)
      (fits.same ((Expr.resolve_moves c t.1).names s))
  | assigned c s id name e =>
    exact hv.enter t.2 List.prefix_rfl (List.subset_cons_self _ _) fits
  | operand c s op sign e => exact hv.enter t List.prefix_rfl (List.Subset.refl _) fits
  | left c s op sign l r | either c s op sign l r =>
    exact hv.enter t.1 ((Expr.resolve_moves c t.2).findings _) (List.subset_append_left _ _) fits
  | right c s op sign l r | other c s op sign l r =>
    exact hv.enter t.2 List.prefix_rfl (List.subset_append_right _ _)
      (fits.same ((Expr.resolve_moves c t.1).names s))
  | condition c s e y n =>
    exact hv.enter t.1 (((Expr.resolve_moves c t.2.1).findings _).trans
      ((Expr.resolve_moves c t.2.2).findings _))
      (List.subset_append_of_subset_left _ (List.subset_append_left _ _)) fits
  | yes c s e y n =>
    exact hv.enter t.2.1 ((Expr.resolve_moves c t.2.2).findings _)
      (List.subset_append_of_subset_left _ (List.subset_append_right _ _))
      (fits.same ((Expr.resolve_moves c t.1).names s))
  | no c s e y n =>
    exact hv.enter t.2.2 List.prefix_rfl (List.subset_append_right _ _)
      (fits.same (((Expr.resolve_moves c t.2.1).names _).trans ((Expr.resolve_moves c t.1).names s)))
  | inner c s e => exact hv.enter t List.prefix_rfl (List.Subset.refl _) fits
  | callee c s e es line =>
    exact hv.enter t.1 ((Expr.resolveAll_moves c t.2).findings _) (List.subset_append_left _ _) fits
  | arguments c s e es line =>
    exact hv.enter t.2 List.prefix_rfl (List.subset_append_right _ _)
      (fits.same ((Expr.resolve_moves c t.1).names s))
  | object c s o name => exact hv.enter t List.prefix_rfl (List.Subset.refl _) fits
  | value c s o name e =>
    exact hv.enter t.2 ((Expr.resolve_moves c t.1).findings _) (List.subset_append_right _ _) fits
  | target c s o name e =>
    exact hv.enter t.1 List.prefix_rfl (List.subset_append_left _ _)
      (fits.same ((Expr.resolve_moves c t.2).names s))
  | lambda c s line r => exact hv.enter t List.prefix_rfl (List.Subset.refl _) fits
  | head c s a ss =>
    exact hv.enter t.1 ((Stmt.resolveAll_moves c t.2).findings _) (List.subset_append_left _ _) fits
  | tail c s a ss =>
    exact hv.enter t.2 List.prefix_rfl (List.subset_append_right _ _)
      ((fits.after t.1).same ((Stmt.resolve_moves c t.1).names s))
  | expr c s e | print c s e => exact hv.enter t List.prefix_rfl (List.Subset.refl _) fits
  | initial c s name e =>
    exact hv.enter t.2 ((Moves.define name).findings _) (List.Subset.refl _)
      ((fits.declare t.1).same ((Moves.declare name).names s))
  | block c s b =>
    exact hv.enter t ((Stmt.resolveAll_moves c t).findings_inScope [] (Stmt.inner_afterAll b) s)
      (List.Subset.refl _) fits.opened
  | test c s e y n =>
    cases n with
    | none =>
      exact hv.enter t.1 ((Stmt.resolve_moves c t.2.1).findings _) (List.subset_append_left _ _) fits
    | some n =>
      exact hv.enter t.1 (((Stmt.resolve_moves c t.2.1.1).findings _).trans
        ((Stmt.resolve_moves c t.2.2.1).findings _))
        (List.subset_append_of_subset_left _ (List.subset_append_left _ _)) fits
  | consequent c s e y n =>
    cases n with
    | none =>
      exact hv.enter t.2.1 List.prefix_rfl (List.subset_append_right _ _)
        (fits.same ((Expr.resolve_moves c t.1).names s))
    | some n =>
      exact hv.enter t.2.1.1 ((Stmt.resolve_moves c t.2.2.1).findings _)
        (List.subset_append_of_subset_left _ (List.subset_append_right _ _))
        (fits.same ((Expr.resolve_moves c t.1).names s))
  | alternative c s e y n =>
    have names := (Stmt.resolve_moves c t.2.1.1).names (e.resolve c s).2
    rw [Stmt.after_of_not_declaration t.2.1.2] at names
    exact hv.enter t.2.2.1 List.prefix_rfl (List.subset_append_right _ _)
      (fits.same (names.trans ((Expr.resolve_moves c t.1).names s)))
  | guard c s e b =>
    exact hv.enter t.1 ((Stmt.resolve_moves { c with inLoop := true } t.2.1).findings _)
      (List.subset_append_left _ _) fits
  | body c s e b =>
    exact hv.enter t.2.1 List.prefix_rfl (List.subset_append_right _ _)
      (fits.same ((Expr.resolve_moves c t.1).names s))
  | answer c s keyword e =>
    exact hv.enter t List.prefix_rfl (List.Subset.refl _)
      (fits.same ((Moves.checkReturn c keyword true).names s))
  | function c s name r =>
    exact hv.enter t.2 List.prefix_rfl (List.Subset.refl _)
      ((fits.declare t.1).same ((announce_moves name).names s))
  | methods c s name ms cs =>
    have found := (members_moves { c with classKind := some .base } t.2.1 t.2.2).findings_inScope
      (.ofName "this") .id (announce name s).2
    exact hv.enter t.2.1 (((Definition.resolveClassMethods_moves _ t.2.2).findings _).trans found)
      (List.subset_append_of_subset_left _ (List.subset_append_right _ _)) (.base c _)
  | classMethods c s name ms cs =>
    have found := (members_moves { c with classKind := some .base } t.2.1 t.2.2).findings_inScope
      (.ofName "this") .id (announce name s).2
    exact hv.enter t.2.2 found (List.subset_append_right _ _)
      ((Context.Fits.base c _).same ((Definition.resolveMethods_moves _ t.2.1).names _))
  | derivedMethods c s name id superclass ms cs =>
    have found := findings_derived { c with classKind := some .derived } t.2.1 t.2.2
      (inherit name id superclass s).2
    refine hv.enter t.2.1 ?_ ?_ (.derived c _) <;> simp only [Phrase.resolve, resolve_derived]
    · exact ((Definition.resolveClassMethods_moves _ t.2.2).findings _).trans found
    · exact List.subset_append_of_subset_left _ (List.subset_append_right _ _)
  | derivedClassMethods c s name id superclass ms cs =>
    have found := findings_derived { c with classKind := some .derived } t.2.1 t.2.2
      (inherit name id superclass s).2
    refine hv.enter t.2.2 ?_ ?_
      ((Context.Fits.derived c _).same ((Definition.resolveMethods_moves _ t.2.1).names _)) <;>
      simp only [Phrase.resolve, resolve_derived]
    · exact found
    · exact List.subset_append_right _ _
  | statements c s kind params b =>
    have moves := (Moves.declareAll params).bind fun _ =>
      Stmt.resolveAll_moves { c with routineKind := some kind, inLoop := false } t.2
    exact hv.enter t.2 (moves.findings_inScope []
      ((Names.Inner.declareAll params).comp (Stmt.inner_afterAll b)) s) (List.Subset.refl _)
      ((fits.opened.declareAll t.1).same ((Moves.declareAll params).names (s.opened [])))
  | method c s name r ms =>
    exact hv.enter t.1.2 ((Definition.resolveMethods_moves c t.2).findings _)
      (List.subset_append_left _ _) fits
  | laterMethods c s name r ms =>
    exact hv.enter t.2 List.prefix_rfl (List.subset_append_right _ _)
      (fits.same ((Routine.resolve_moves c (methodKind name) t.1.2).names s))
  | classMethod c s name r ms =>
    exact hv.enter t.1.2 ((Definition.resolveClassMethods_moves c t.2).findings _)
      (List.subset_append_left _ _) fits
  | laterClassMethods c s name r ms =>
    exact hv.enter t.2 List.prefix_rfl (List.subset_append_right _ _)
      (fits.same ((Routine.resolve_moves c .classMethod t.1.2).names s))

end Sound

end Scoping

end Lox
