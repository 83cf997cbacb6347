import Lox.Proofs.Relabel.Syntax
import Lox.Scoping

/-!
Scoping relabelled programs. References get the same bindings whatever their identities and lines are,
and the same is found, on the other lines, behind whatever was found before. What the language itself
declares is on line zero, which stays.
-/

namespace Lox

variable {α β γ δ : Type}

/-- The relabeling of references that have their bindings. -/
def Relabeling.bound (φ : Relabeling RefId RefId) : Relabeling Reference Reference :=
  ⟨fun r => ⟨φ.ref r.id, r.binding⟩, φ.line⟩

namespace Scoping

variable (φ : Relabeling RefId RefId) (before : List Finding)

def Finding.relabel (f : Finding) : Finding := ⟨f.fault, f.place.relabel φ⟩

def Variable.relabel (v : Variable) : Variable := ⟨v.name.relabel φ, v.usage⟩

def Scope.relabel (scope : Scope) : Scope := scope.map (Variable.relabel φ)

/-- The state in a relabelled program, behind other findings. -/
def State.relabel (s : State) : State :=
  ⟨s.scopes.map (Scope.relabel φ), before ++ s.findings.map (Finding.relabel φ)⟩

section Scope

theorem Scope.slot?_relabel (scope : Scope) (name : String) :
    (Scope.relabel φ scope).slot? name = scope.slot? name := by
  simp only [Scope.slot?, Scope.relabel, List.findIdx?_map]
  rfl

theorem Scope.lookup?_relabel (scope : Scope) (name : String) :
    (Scope.relabel φ scope).lookup? name = (scope.lookup? name).map (Variable.relabel φ) := by
  simp only [Scope.lookup?, Scope.relabel, List.find?_map]
  rfl

theorem Scope.setUsage_relabel (scope : Scope) (name : String) (usage : Usage) :
    (Scope.relabel φ scope).setUsage name usage = Scope.relabel φ (scope.setUsage name usage) := by
  simp only [Scope.setUsage, Scope.relabel, List.map_map]
  congr 1
  funext v
  by_cases h : (v.name.text == name) = true
  · have h' : ((v.relabel φ).name.text == name) = true := h
    simp only [Function.comp, if_pos h, if_pos h']
    rfl
  · have h' : ¬ ((v.relabel φ).name.text == name) = true := h
    simp only [Function.comp, if_neg h, if_neg h']

theorem Scope.define_relabel (scope : Scope) (name : String) :
    (Scope.relabel φ scope).define name = Scope.relabel φ (scope.define name) := by
  simp only [Scope.define, Scope.lookup?_relabel]
  rcases scope.lookup? name with _ | ⟨x, _ | _ | _⟩
  · rfl
  · exact scope.setUsage_relabel φ name .defined
  · rfl
  · rfl

theorem Scope.unused_relabel (scope : Scope) :
    (Scope.relabel φ scope).unused = scope.unused.map (Finding.relabel φ) := by
  simp only [Scope.unused, Scope.relabel, List.filter_map, List.map_map]
  rfl

theorem binding?_relabel (name : String) (scopes : List Scope) :
    binding? name (scopes.map (Scope.relabel φ)) = binding? name scopes := by
  induction scopes with
  | nil => rfl
  | cons scope scopes ih => simp only [List.map_cons, binding?, Scope.slot?_relabel, ih]

theorem markUsed_relabel (name : String) (scopes : List Scope) :
    markUsed name (scopes.map (Scope.relabel φ)) =
      (markUsed name scopes).map (Scope.relabel φ) := by
  induction scopes with
  | nil => rfl
  | cons scope scopes ih =>
    simp only [List.map_cons, markUsed, Scope.slot?_relabel]
    split
    · rw [Scope.setUsage_relabel, List.map_cons]
    · rw [ih, List.map_cons]

end Scope

/-- In relabelled programs, the second phrase does as the first one does. -/
def Tracks (f : α → β) (p : Scoping α) (q : Scoping β) : Prop :=
  ∀ s : State, q (s.relabel φ before) = (f (p s).1, (p s).2.relabel φ before)

namespace Tracks

variable {φ before} {f : α → β} {g : γ → δ} {p : Scoping α} {q : Scoping β} {k : α → Scoping γ}
  {l : β → Scoping δ}

theorem pure (a : α) : Tracks φ before f (Pure.pure a) (Pure.pure (f a)) := fun _ => rfl

theorem bind (hp : Tracks φ before f p q) (hk : ∀ a, Tracks φ before g (k a) (l (f a))) :
    Tracks φ before g (p >>= k) (q >>= l) := by
  intro s
  have h := hk (p s).1 (p s).2
  simp only [Bind.bind, StateT.bind, hp s]
  exact h

theorem get {k : State → Scoping γ} {l : State → Scoping δ}
    (h : ∀ s, Tracks φ before g (k s) (l (s.relabel φ before))) :
    Tracks φ before g (MonadState.get >>= k) (MonadState.get >>= l) := fun s => h s s

theorem note (fault : Fault) (place : Lexeme) :
    Tracks φ before id (note fault place) (Scoping.note fault (place.relabel φ)) := by
  intro s
  change ((), State.mk _ (before ++ s.findings.map _ ++ [Finding.relabel φ ⟨fault, place⟩])) = _
  rw [List.append_assoc, ← List.map_singleton, ← List.map_append]
  rfl

theorem modifyScope {u v : Scope → Scope}
    (h : ∀ scope, v (Scope.relabel φ scope) = Scope.relabel φ (u scope)) :
    Tracks φ before id (modifyScope u) (Scoping.modifyScope v) := by
  rintro ⟨scopes, fs⟩
  cases scopes with
  | nil => rfl
  | cons scope scopes =>
    change ((), State.mk (v (Scope.relabel φ scope) :: _) _) = _
    rw [h]
    rfl

theorem declare (name : Lexeme) :
    Tracks φ before id (declare name) (Scoping.declare (name.relabel φ)) := by
  apply get
  rintro ⟨scopes, fs⟩
  cases scopes with
  | nil => exact pure (f := id) ()
  | cons scope scopes =>
    simp only [State.relabel, List.map_cons, Scope.slot?_relabel, Lexeme.text_relabel]
    split
    · exact note .alreadyDeclared name
    · apply modifyScope
      intro scope
      simp only [Scope.relabel, List.map_append]
      rfl

theorem define (name : Lexeme) :
    Tracks φ before id (define name) (Scoping.define (name.relabel φ)) :=
  modifyScope fun scope => scope.define_relabel φ name.text

theorem declareAll (names : List Lexeme) :
    Tracks φ before id (declareAll names)
      (Scoping.declareAll (names.map (Lexeme.relabel φ))) := by
  induction names with
  | nil => exact pure (f := id) ()
  | cons name names ih => exact (declare name).bind fun _ => (define name).bind fun _ => ih

theorem inScope (scope : Scope) (hp : Tracks φ before f p q) :
    Tracks φ before f (inScope scope p) (Scoping.inScope (scope.relabel φ) q) := by
  intro s
  have inner : q ⟨scope.relabel φ :: (s.relabel φ before).scopes, (s.relabel φ before).findings⟩ = _ :=
    hp { s with scopes := scope :: s.scopes }
  rw [inScope_run, inScope_run, inner]
  generalize p { s with scopes := scope :: s.scopes } = r
  obtain ⟨a, scopes, fs⟩ := r
  cases scopes with
  | nil => rfl
  | cons last outer =>
    change (f a, State.mk _ (before ++ fs.map _ ++ (last.relabel φ).unused)) = _
    rw [Scope.unused_relabel, List.append_assoc, ← List.map_append]
    rfl

theorem inScopeOf (h₀ : φ.line 0 = 0) (name : String) (hp : Tracks φ before f p q) :
    Tracks φ before f (inScopeOf name p) (Scoping.inScopeOf name q) := by
  have h := hp.inScope [⟨⟨name, 0⟩, .used⟩]
  simp only [Scope.relabel, List.map_singleton, Variable.relabel, Lexeme.relabel, h₀] at h
  exact h

theorem bindRef (id : RefId) (name : Lexeme) :
    Tracks φ before φ.bound.ref (Scoping.bind id name)
      (Scoping.bind (φ.ref id) (name.relabel φ)) := by
  intro s
  change (Reference.mk _ (binding? name.text (s.scopes.map (Scope.relabel φ))), _) = _
  rw [binding?_relabel]
  rfl

theorem read (id : RefId) (name : Lexeme) :
    Tracks φ before φ.bound.ref (read id name) (Scoping.read (φ.ref id) (name.relabel φ)) := by
  have rest : Tracks φ before φ.bound.ref
      (do
        modify fun s => { s with scopes := markUsed name.text s.scopes }
        Scoping.bind id name)
      (do
        modify fun s => { s with scopes := markUsed (name.relabel φ).text s.scopes }
        Scoping.bind (φ.ref id) (name.relabel φ)) := by
    have mark : Tracks φ before (fun u => u)
        (modify fun s => { s with scopes := markUsed name.text s.scopes } : Scoping Unit)
        (modify fun s => { s with scopes := markUsed name.text s.scopes }) := by
      intro s
      change ((), State.mk (markUsed name.text (s.scopes.map (Scope.relabel φ))) _) = _
      rw [markUsed_relabel]
      rfl
    exact mark.bind fun _ => bindRef id name
  apply get
  rintro ⟨scopes, fs⟩
  cases scopes with
  | nil => exact rest
  | cons scope scopes =>
    simp only [State.relabel, List.map_cons, Scope.lookup?_relabel, Lexeme.text_relabel]
    rcases scope.lookup? name.text with _ | ⟨x, _ | _ | _⟩
    · exact rest
    · exact (note .readInOwnInitializer name).bind fun _ => rest
    · exact rest
    · exact rest

theorem checkThis (context : Context) (keyword : Lexeme) : Tracks φ before id
    (checkThis context keyword) (Scoping.checkThis context (keyword.relabel φ)) := by
  unfold Scoping.checkThis
  split
  · exact note _ _
  · split
    · exact note _ _
    · exact pure (f := id) ()

theorem checkSuper (context : Context) (keyword : Lexeme) : Tracks φ before id
    (checkSuper context keyword) (Scoping.checkSuper context (keyword.relabel φ)) := by
  unfold Scoping.checkSuper
  split
  · exact note _ _
  · exact note _ _
  · exact pure (f := id) ()

theorem checkReturn (context : Context) (keyword : Lexeme) (hasValue : Bool) : Tracks φ before id
    (checkReturn context keyword hasValue)
    (Scoping.checkReturn context (keyword.relabel φ) hasValue) := by
  have done : Tracks φ before id (Pure.pure ()) (Pure.pure ()) := pure (f := id) ()
  unfold Scoping.checkReturn
  by_cases h : context.routineKind.isNone = true <;>
    by_cases h' : (hasValue && context.routineKind = some .initializer) = true
  · rw [if_pos h, if_pos h, if_pos h', if_pos h']
    exact (note _ _).bind fun _ => note _ _
  · rw [if_pos h, if_pos h, if_neg h', if_neg h']
    exact (note _ _).bind fun _ => done
  · rw [if_neg h, if_neg h, if_pos h', if_pos h']
    exact note _ _
  · rw [if_neg h, if_neg h, if_neg h', if_neg h']
    exact done

theorem checkBreak (context : Context) (keyword : Lexeme) : Tracks φ before id
    (checkBreak context keyword) (Scoping.checkBreak context (keyword.relabel φ)) := by
  unfold Scoping.checkBreak
  split
  · exact pure (f := id) ()
  · exact note _ _

end Tracks

end Scoping

open Scoping

section Trees

set_option linter.unusedSectionVars false

variable {φ : Relabeling RefId RefId} {before : List Finding} (h₀ : φ.line 0 = 0)

include h₀

mutual

theorem Expr.resolve_tracks : ∀ (context : Context) (e : Expr RefId),
    Tracks φ before (Expr.relabel φ.bound) (e.resolve context) ((e.relabel φ).resolve context)
  | _, .literal v => Tracks.pure (f := Expr.relabel φ.bound) (.literal v)
  | _, .variable id name =>
    (Tracks.read id name).bind fun r => Tracks.pure (f := Expr.relabel φ.bound) (.variable r name)
  | context, .assign id name e => (Expr.resolve_tracks context e).bind fun e =>
    (Tracks.bindRef id name).bind fun r => Tracks.pure (f := Expr.relabel φ.bound) (.assign r name e)
  | context, .this id keyword => (Tracks.checkThis context keyword).bind fun _ =>
    (Tracks.bindRef id keyword).bind fun r => Tracks.pure (f := Expr.relabel φ.bound) (.this r keyword)
  | context, .super id keyword method => (Tracks.checkSuper context keyword).bind fun _ =>
    (Tracks.bindRef id keyword).bind fun r =>
      Tracks.pure (f := Expr.relabel φ.bound) (.super r keyword method)
  | context, .unary op sign e => (Expr.resolve_tracks context e).bind fun e =>
    Tracks.pure (f := Expr.relabel φ.bound) (.unary op sign e)
  | context, .binary op sign l r => (Expr.resolve_tracks context l).bind fun l =>
    (Expr.resolve_tracks context r).bind fun r =>
      Tracks.pure (f := Expr.relabel φ.bound) (.binary op sign l r)
  | context, .logical op sign l r => (Expr.resolve_tracks context l).bind fun l =>
    (Expr.resolve_tracks context r).bind fun r =>
      Tracks.pure (f := Expr.relabel φ.bound) (.logical op sign l r)
  | context, .ternary c y n => (Expr.resolve_tracks context c).bind fun c =>
    (Expr.resolve_tracks context y).bind fun y => (Expr.resolve_tracks context n).bind fun n =>
      Tracks.pure (f := Expr.relabel φ.bound) (.ternary c y n)
  | context, .group e => (Expr.resolve_tracks context e).bind fun e =>
    Tracks.pure (f := Expr.relabel φ.bound) (.group e)
  | context, .call c as line => (Expr.resolve_tracks context c).bind fun c =>
    (Expr.resolveAll_tracks context as).bind fun as =>
      Tracks.pure (f := Expr.relabel φ.bound) (.call c as line)
  | context, .get o name => (Expr.resolve_tracks context o).bind fun o =>
    Tracks.pure (f := Expr.relabel φ.bound) (.get o name)
  | context, .set o name e => (Expr.resolve_tracks context e).bind fun e =>
    (Expr.resolve_tracks context o).bind fun o =>
      Tracks.pure (f := Expr.relabel φ.bound) (.set o name e)
  | context, .lambda line r => (Routine.resolve_tracks context .lambda r).bind fun r =>
    Tracks.pure (f := Expr.relabel φ.bound) (.lambda line r)

theorem Expr.resolveAll_tracks : ∀ (context : Context) (es : List (Expr RefId)),
    Tracks φ before (Expr.relabelAll φ.bound) (Expr.resolveAll context es)
      (Expr.resolveAll context (Expr.relabelAll φ es))
  | _, [] => Tracks.pure (f := Expr.relabelAll φ.bound) []
  | context, e :: es => (Expr.resolve_tracks context e).bind fun e =>
    (Expr.resolveAll_tracks context es).bind fun es =>
      Tracks.pure (f := Expr.relabelAll φ.bound) (e :: es)

theorem Stmt.resolve_tracks : ∀ (context : Context) (s : Stmt RefId),
    Tracks φ before (Stmt.relabel φ.bound) (s.resolve context) ((s.relabel φ).resolve context)
  | context, .expr e => (Expr.resolve_tracks context e).bind fun e =>
    Tracks.pure (f := Stmt.relabel φ.bound) (.expr e)
  | context, .print e => (Expr.resolve_tracks context e).bind fun e =>
    Tracks.pure (f := Stmt.relabel φ.bound) (.print e)
  | _, .var name none => (Tracks.declare name).bind fun _ => (Tracks.define name).bind fun _ =>
    Tracks.pure (f := Stmt.relabel φ.bound) (.var name none)
  | context, .var name (some e) => (Tracks.declare name).bind fun _ =>
    (Expr.resolve_tracks context e).bind fun e => (Tracks.define name).bind fun _ =>
      Tracks.pure (f := Stmt.relabel φ.bound) (.var name (some e))
  | context, .block b => (Tracks.inScope [] (Stmt.resolveAll_tracks context b)).bind fun b =>
    Tracks.pure (f := Stmt.relabel φ.bound) (.block b)
  | context, .if c y none => (Expr.resolve_tracks context c).bind fun c =>
    (Stmt.resolve_tracks context y).bind fun y =>
      Tracks.pure (f := Stmt.relabel φ.bound) (.if c y none)
  | context, .if c y (some n) => (Expr.resolve_tracks context c).bind fun c =>
    (Stmt.resolve_tracks context y).bind fun y => (Stmt.resolve_tracks context n).bind fun n =>
      Tracks.pure (f := Stmt.relabel φ.bound) (.if c y (some n))
  | context, .while c b => (Expr.resolve_tracks context c).bind fun c =>
    (Stmt.resolve_tracks { context with inLoop := true } b).bind fun b =>
      Tracks.pure (f := Stmt.relabel φ.bound) (.while c b)
  | context, .break keyword => (Tracks.checkBreak context keyword).bind fun _ =>
    Tracks.pure (f := Stmt.relabel φ.bound) (.break keyword)
  | context, .return keyword none => (Tracks.checkReturn context keyword false).bind fun _ =>
    Tracks.pure (f := Stmt.relabel φ.bound) (.return keyword none)
  | context, .return keyword (some e) => (Tracks.checkReturn context keyword true).bind fun _ =>
    (Expr.resolve_tracks context e).bind fun e =>
      Tracks.pure (f := Stmt.relabel φ.bound) (.return keyword (some e))
  | context, .function ⟨name, r⟩ => (Tracks.declare name).bind fun _ =>
    (Tracks.define name).bind fun _ =>
      (Definition.resolve_tracks context .function ⟨name, r⟩).bind fun f =>
        Tracks.pure (f := Stmt.relabel φ.bound) (.function f)
  | context, .class name none ms cs => (Tracks.declare name).bind fun _ =>
    (Tracks.define name).bind fun _ => Tracks.inScopeOf h₀ "this" <|
      (Definition.resolveMethods_tracks { context with classKind := some .base } ms).bind fun ms =>
        (Definition.resolveClassMethods_tracks { context with classKind := some .base } cs).bind
          fun cs => Tracks.pure (f := Stmt.relabel φ.bound) (.class name none ms cs)
  | context, .class name (some (id, superclass)) ms cs => by
    have body (r : Reference) : Tracks φ before (Stmt.relabel φ.bound)
        (do
          let context := { context with classKind := some .derived }
          inScopeOf "super" <| inScopeOf "this" do
            return .class name (some (r, superclass)) (← Definition.resolveMethods context ms)
              (← Definition.resolveClassMethods context cs))
        (do
          let context := { context with classKind := some .derived }
          inScopeOf "super" <| inScopeOf "this" do
            return .class (name.relabel φ) (some (φ.bound.ref r, superclass.relabel φ))
              (← Definition.resolveMethods context (Definition.relabelAll φ ms))
              (← Definition.resolveClassMethods context (Definition.relabelAll φ cs))) := by
      apply Tracks.inScopeOf h₀ "super"
      apply Tracks.inScopeOf h₀ "this"
      apply (Definition.resolveMethods_tracks { context with classKind := some .derived } ms).bind
      intro ms
      apply (Definition.resolveClassMethods_tracks _ cs).bind
      intro cs
      exact Tracks.pure (f := Stmt.relabel φ.bound) (.class name (some (r, superclass)) ms cs)
    apply (Tracks.declare name).bind
    intro _
    apply (Tracks.define name).bind
    intro _
    by_cases h : superclass.text = name.text
    · have h' : (superclass.relabel φ).text = (name.relabel φ).text := h
      simp only [if_pos h]
      rw [if_pos h']
      exact (Tracks.note .inheritsFromItself superclass).bind fun _ =>
        (Tracks.read id superclass).bind body
    · have h' : (superclass.relabel φ).text ≠ (name.relabel φ).text := h
      simp only [if_neg h]
      rw [if_neg h']
      exact (Tracks.read id superclass).bind body

theorem Stmt.resolveAll_tracks : ∀ (context : Context) (ss : List (Stmt RefId)),
    Tracks φ before (Stmt.relabelAll φ.bound) (Stmt.resolveAll context ss)
      (Stmt.resolveAll context (Stmt.relabelAll φ ss))
  | _, [] => Tracks.pure (f := Stmt.relabelAll φ.bound) []
  | context, s :: ss => (Stmt.resolve_tracks context s).bind fun s =>
    (Stmt.resolveAll_tracks context ss).bind fun ss =>
      Tracks.pure (f := Stmt.relabelAll φ.bound) (s :: ss)

theorem Routine.resolve_tracks : ∀ (context : Context) (kind : RoutineKind) (r : Routine RefId),
    Tracks φ before (Routine.relabel φ.bound) (r.resolve context kind)
      ((r.relabel φ).resolve context kind)
  | context, kind, ⟨params, body⟩ => Tracks.inScope [] <| (Tracks.declareAll params).bind fun _ =>
    (Stmt.resolveAll_tracks { context with routineKind := some kind, inLoop := false } body).bind
      fun body => Tracks.pure (f := Routine.relabel φ.bound) ⟨params, body⟩

theorem Definition.resolve_tracks : ∀ (context : Context) (kind : RoutineKind)
    (d : Definition RefId), Tracks φ before (Definition.relabel φ.bound) (d.resolve context kind)
      ((d.relabel φ).resolve context kind)
  | context, kind, ⟨name, r⟩ => (Routine.resolve_tracks context kind r).bind fun r =>
    Tracks.pure (f := Definition.relabel φ.bound) ⟨name, r⟩

theorem Definition.resolveMethods_tracks : ∀ (context : Context) (ds : List (Definition RefId)),
    Tracks φ before (Definition.relabelAll φ.bound) (Definition.resolveMethods context ds)
      (Definition.resolveMethods context (Definition.relabelAll φ ds))
  | _, [] => Tracks.pure (f := Definition.relabelAll φ.bound) []
  | context, ⟨name, r⟩ :: ds =>
    (Definition.resolve_tracks context (methodKind name) ⟨name, r⟩).bind fun d =>
      (Definition.resolveMethods_tracks context ds).bind fun ds =>
        Tracks.pure (f := Definition.relabelAll φ.bound) (d :: ds)

theorem Definition.resolveClassMethods_tracks :
    ∀ (context : Context) (ds : List (Definition RefId)),
      Tracks φ before (Definition.relabelAll φ.bound) (Definition.resolveClassMethods context ds)
        (Definition.resolveClassMethods context (Definition.relabelAll φ ds))
  | _, [] => Tracks.pure (f := Definition.relabelAll φ.bound) []
  | context, d :: ds => (Definition.resolve_tracks context .classMethod d).bind fun d =>
    (Definition.resolveClassMethods_tracks context ds).bind fun ds =>
      Tracks.pure (f := Definition.relabelAll φ.bound) (d :: ds)

end

/-- What is found in a relabelled program, and the places of its variables. -/
theorem resolve_relabel (p : List (Stmt RefId)) :
    resolve (p.map (Stmt.relabel φ)) =
      ⟨(resolve p).program.map (Stmt.relabel φ.bound), (resolve p).findings.map (Finding.relabel φ)⟩ := by
  have tracks : Tracks φ [] _ _ _ := Stmt.resolveAll_tracks h₀ {} p
  have h := tracks {}
  rw [Stmt.relabelAll_eq_map, Stmt.relabelAll_eq_map] at h
  have run : Stmt.resolveAll {} (p.map (Stmt.relabel φ)) {} = _ := h
  rw [resolve_eq, run]
  rfl

end Trees

namespace Scoping

/-- What the phrase answers does not depend on the scopes, by this part of it. -/
def Answers (f : α → β) (p : Scoping α) (b : β) : Prop := ∀ s, f (p s).1 = b

namespace Answers

variable {f : α → β} {g : γ → δ} {p : Scoping α} {k : α → Scoping γ} {b : β} {d : δ}

theorem pure {a : α} (h : f a = b) : Answers f (Pure.pure a) b := fun _ => h

theorem bind (hp : Answers f p b) (hk : ∀ a, f a = b → Answers g (k a) d) :
    Answers g (p >>= k) d := fun s => hk (p s).1 (hp s) (p s).2

theorem after (hk : ∀ a, Answers g (k a) d) : Answers g (p >>= k) d := fun s => hk (p s).1 (p s).2

theorem inScope (scope : Scope) (hp : Answers f p b) : Answers f (inScope scope p) b := fun s =>
  hp { s with scopes := scope :: s.scopes }

theorem bindRef (id : RefId) (name : Lexeme) : Answers Reference.id (Scoping.bind id name) id :=
  fun _ => rfl

theorem read (id : RefId) (name : Lexeme) : Answers Reference.id (read id name) id := by
  have rest : Answers Reference.id
      (do
        modify fun s => { s with scopes := markUsed name.text s.scopes }
        Scoping.bind id name) id := after fun _ => bindRef id name
  apply after
  rintro ⟨scopes, _⟩
  cases scopes with
  | nil => exact rest
  | cons scope _ =>
    dsimp only
    rcases scope.lookup? name.text with _ | ⟨_, _ | _ | _⟩
    · exact rest
    · exact after fun _ => rest
    · exact rest
    · exact rest

end Answers

end Scoping

section Unbound

/-- The relabeling that forgets the bindings. -/
def unbound : Relabeling Reference RefId := .onRefs Reference.id

theorem Lexeme.map_relabel_unbound (ls : List Lexeme) : ls.map (Lexeme.relabel unbound) = ls :=
  List.map_id ls

mutual

theorem Expr.unbound_resolve : ∀ (context : Context) (e : Expr RefId),
    Answers (Expr.relabel unbound) (e.resolve context) e
  | _, .literal _ => Answers.pure rfl
  | _, .variable id name => (Answers.read id name).bind fun r hr => Answers.pure (by subst hr; rfl)
  | context, .assign id name e => (Expr.unbound_resolve context e).bind fun e he =>
    (Answers.bindRef id name).bind fun r hr => Answers.pure (by subst he; subst hr; rfl)
  | context, .this id keyword => Answers.after fun _ =>
    (Answers.bindRef id keyword).bind fun r hr => Answers.pure (by subst hr; rfl)
  | context, .super id keyword method => Answers.after fun _ =>
    (Answers.bindRef id keyword).bind fun r hr => Answers.pure (by subst hr; rfl)
  | context, .unary op sign e => (Expr.unbound_resolve context e).bind fun e he =>
    Answers.pure (by subst he; rfl)
  | context, .binary op sign l r => (Expr.unbound_resolve context l).bind fun l hl =>
    (Expr.unbound_resolve context r).bind fun r hr => Answers.pure (by subst hl; subst hr; rfl)
  | context, .logical op sign l r => (Expr.unbound_resolve context l).bind fun l hl =>
    (Expr.unbound_resolve context r).bind fun r hr => Answers.pure (by subst hl; subst hr; rfl)
  | context, .ternary c y n => (Expr.unbound_resolve context c).bind fun c hc =>
    (Expr.unbound_resolve context y).bind fun y hy =>
      (Expr.unbound_resolve context n).bind fun n hn =>
        Answers.pure (by subst hc; subst hy; subst hn; rfl)
  | context, .group e => (Expr.unbound_resolve context e).bind fun e he =>
    Answers.pure (by subst he; rfl)
  | context, .call c as line => (Expr.unbound_resolve context c).bind fun c hc =>
    (Expr.unbound_resolveAll context as).bind fun as ha => Answers.pure (by subst hc; subst ha; rfl)
  | context, .get o name => (Expr.unbound_resolve context o).bind fun o ho =>
    Answers.pure (by subst ho; rfl)
  | context, .set o name e => (Expr.unbound_resolve context e).bind fun e he =>
    (Expr.unbound_resolve context o).bind fun o ho => Answers.pure (by subst he; subst ho; rfl)
  | context, .lambda line r => (Routine.unbound_resolve context .lambda r).bind fun r hr =>
    Answers.pure (by subst hr; rfl)

theorem Expr.unbound_resolveAll : ∀ (context : Context) (es : List (Expr RefId)),
    Answers (Expr.relabelAll unbound) (Expr.resolveAll context es) es
  | _, [] => Answers.pure rfl
  | context, e :: es => (Expr.unbound_resolve context e).bind fun e he =>
    (Expr.unbound_resolveAll context es).bind fun es hs => Answers.pure (by subst he; subst hs; rfl)

theorem Stmt.unbound_resolve : ∀ (context : Context) (s : Stmt RefId),
    Answers (Stmt.relabel unbound) (s.resolve context) s
  | context, .expr e | context, .print e => (Expr.unbound_resolve context e).bind fun e he =>
    Answers.pure (by subst he; rfl)
  | _, .var _ none => Answers.after fun _ => Answers.after fun _ => Answers.pure rfl
  | context, .var _ (some e) => Answers.after fun _ => (Expr.unbound_resolve context e).bind fun e he =>
    Answers.after fun _ => Answers.pure (by subst he; rfl)
  | context, .block b => (Answers.inScope [] (Stmt.unbound_resolveAll context b)).bind fun b hb =>
    Answers.pure (by subst hb; rfl)
  | context, .if c y none => (Expr.unbound_resolve context c).bind fun c hc =>
    (Stmt.unbound_resolve context y).bind fun y hy => Answers.pure (by subst hc; subst hy; rfl)
  | context, .if c y (some n) => (Expr.unbound_resolve context c).bind fun c hc =>
    (Stmt.unbound_resolve context y).bind fun y hy => (Stmt.unbound_resolve context n).bind fun n hn =>
      Answers.pure (by subst hc; subst hy; subst hn; rfl)
  | context, .while c b => (Expr.unbound_resolve context c).bind fun c hc =>
    (Stmt.unbound_resolve { context with inLoop := true } b).bind fun b hb =>
      Answers.pure (by subst hc; subst hb; rfl)
  | _, .break _ => Answers.after fun _ => Answers.pure rfl
  | _, .return _ none => Answers.after fun _ => Answers.pure rfl
  | context, .return _ (some e) => Answers.after fun _ => (Expr.unbound_resolve context e).bind
    fun e he => Answers.pure (by subst he; rfl)
  | context, .function f => Answers.after fun _ => Answers.after fun _ =>
    (Definition.unbound_resolve context .function f).bind fun f hf =>
      Answers.pure (by subst hf; rfl)
  | context, .class name none ms cs => Answers.after fun _ => Answers.after fun _ =>
    Answers.inScope _ <|
      (Definition.unbound_resolveMethods { context with classKind := some .base } ms).bind fun ms hm =>
        (Definition.unbound_resolveClassMethods { context with classKind := some .base } cs).bind
          fun cs hc => Answers.pure (by subst hm; subst hc; rfl)
  | context, .class name (some (id, superclass)) ms cs => by
    have body (r : Reference) (hr : r.id = id) : Answers (Stmt.relabel unbound)
        (do
          let context := { context with classKind := some .derived }
          inScopeOf "super" <| inScopeOf "this" do
            return .class name (some (r, superclass)) (← Definition.resolveMethods context ms)
              (← Definition.resolveClassMethods context cs))
        (.class name (some (id, superclass)) ms cs) := by
      apply Answers.inScope
      apply Answers.inScope
      apply (Definition.unbound_resolveMethods _ ms).bind
      intro ms hm
      apply (Definition.unbound_resolveClassMethods _ cs).bind
      intro cs hc
      apply Answers.pure
      subst hr
      subst hm
      subst hc
      rfl
    apply Answers.after
    intro _
    apply Answers.after
    intro _
    by_cases h : superclass.text = name.text
    · simp only [if_pos h]
      exact Answers.after fun _ => (Answers.read id superclass).bind body
    · simp only [if_neg h]
      exact (Answers.read id superclass).bind body

theorem Stmt.unbound_resolveAll : ∀ (context : Context) (ss : List (Stmt RefId)),
    Answers (Stmt.relabelAll unbound) (Stmt.resolveAll context ss) ss
  | _, [] => Answers.pure rfl
  | context, s :: ss => (Stmt.unbound_resolve context s).bind fun s hs =>
    (Stmt.unbound_resolveAll context ss).bind fun ss ht => Answers.pure (by subst hs; subst ht; rfl)

theorem Routine.unbound_resolve : ∀ (context : Context) (kind : RoutineKind) (r : Routine RefId),
    Answers (Routine.relabel unbound) (r.resolve context kind) r
  | context, kind, ⟨params, body⟩ => Answers.inScope [] <| Answers.after fun _ =>
    (Stmt.unbound_resolveAll { context with routineKind := some kind, inLoop := false } body).bind
      fun body hb => Answers.pure (by
        subst hb
        simp only [Routine.relabel, Lexeme.map_relabel_unbound])

theorem Definition.unbound_resolve : ∀ (context : Context) (kind : RoutineKind)
    (d : Definition RefId), Answers (Definition.relabel unbound) (d.resolve context kind) d
  | context, kind, ⟨name, r⟩ => (Routine.unbound_resolve context kind r).bind fun r hr =>
    Answers.pure (by subst hr; rfl)

theorem Definition.unbound_resolveMethods : ∀ (context : Context) (ds : List (Definition RefId)),
    Answers (Definition.relabelAll unbound) (Definition.resolveMethods context ds) ds
  | _, [] => Answers.pure rfl
  | context, d :: ds => (Definition.unbound_resolve context (methodKind d.name) d).bind fun d hd =>
    (Definition.unbound_resolveMethods context ds).bind fun ds hs =>
      Answers.pure (by subst hd; subst hs; rfl)

theorem Definition.unbound_resolveClassMethods :
    ∀ (context : Context) (ds : List (Definition RefId)),
      Answers (Definition.relabelAll unbound) (Definition.resolveClassMethods context ds) ds
  | _, [] => Answers.pure rfl
  | context, d :: ds => (Definition.unbound_resolve context .classMethod d).bind fun d hd =>
    (Definition.unbound_resolveClassMethods context ds).bind fun ds hs =>
      Answers.pure (by subst hd; subst hs; rfl)

end

/-- Scoping adds the bindings to a program and changes nothing else in it. -/
theorem unbound_resolve (p : List (Stmt RefId)) :
    (resolve p).program.map (Stmt.relabel unbound) = p := by
  rw [← Stmt.relabelAll_eq_map]
  exact Stmt.unbound_resolveAll {} p {}

theorem references_resolve (p : List (Stmt RefId)) :
    (resolve p).references.map Reference.id = Stmt.referencesAll p := by
  have h := Stmt.referencesAll_relabelAll unbound (resolve p).program
  rw [Stmt.relabelAll_eq_map, unbound_resolve] at h
  exact h.symm

end Unbound

end Lox
