import Lox.Proofs.Parser.Tidy
import Lox.Scoping

/-!
The names that scoping has declared at each place. They alone decide where a reference is bound, and
a phrase changes them by its own declaration only. What is found is never taken back.
-/

namespace Lox

variable {ρ : Type}

/-- The names of the scopes that are open at a place, innermost scope first and in the order of their
slots. -/
abbrev Names := List (List String)

namespace Names

def binding? (name : String) : Names → Option Binding
  | [] => none
  | names :: outer =>
    match names.findIdx? (· == name) with
    | some slot => some ⟨0, slot⟩
    | none => (binding? name outer).map fun b => { b with distance := b.distance + 1 }

/-- Outside all scopes a declaration leaves nothing. -/
def declare (name : String) : Names → Names
  | [] => []
  | names :: outer => if name ∈ names then names :: outer else (names ++ [name]) :: outer

def declareAll (names : List Lexeme) (Γ : Names) : Names :=
  names.foldl (fun Γ name => Γ.declare name.text) Γ

/-- The innermost scope does not have the name. -/
def Fresh (name : String) : Names → Prop
  | [] => True
  | names :: _ => name ∉ names

/-- The change concerns the innermost scope alone. -/
def Inner (g : Names → Names) : Prop := ∀ names outer, ∃ names', g (names :: outer) = names' :: outer

variable {name : String} {g h : Names → Names}

theorem declare_cons_of_fresh {names : List String} {outer : Names} (h : name ∉ names) :
    declare name (names :: outer) = (names ++ [name]) :: outer := if_neg h

theorem Inner.id : Inner id := fun names _ => ⟨names, rfl⟩

theorem Inner.declare (name : String) : Inner (declare name) := by
  intro names outer
  by_cases h : name ∈ names
  · exact ⟨names, if_pos h⟩
  · exact ⟨names ++ [name], if_neg h⟩

theorem Inner.comp (hg : Inner g) (hh : Inner h) : Inner (h ∘ g) := by
  intro names outer
  obtain ⟨names₁, h₁⟩ := hg names outer
  obtain ⟨names₂, h₂⟩ := hh names₁ outer
  exact ⟨names₂, (congrArg h h₁).trans h₂⟩

theorem Inner.declareAll (names : List Lexeme) : Inner (declareAll names) := by
  induction names with
  | nil => exact .id
  | cons name names ih => exact (Inner.declare name.text).comp ih

/-- A declaration hides the variables of its own name only. -/
theorem binding?_declare_of_ne {x : String} (hx : x ≠ name) (Γ : Names) :
    (Γ.declare name).binding? x = Γ.binding? x := by
  cases Γ with
  | nil => rfl
  | cons names outer =>
    by_cases h : name ∈ names
    · rw [declare, if_pos h]
    · rw [declare_cons_of_fresh h, binding?, binding?, List.findIdx?_append]
      have hs : List.findIdx? (· == x) [name] = none := by simp [Ne.symm hx]
      rw [hs]
      cases names.findIdx? (· == x) <;> rfl

end Names

/-- The names behind a statement. -/
def Stmt.after (Γ : Names) : Stmt ρ → Names
  | .var name _ | .class name _ _ _ => Γ.declare name.text
  | .function ⟨name, _⟩ => Γ.declare name.text
  | _ => Γ

def Stmt.afterAll (Γ : Names) (ss : List (Stmt ρ)) : Names := ss.foldl Stmt.after Γ

theorem Stmt.after_of_not_declaration {s : Stmt ρ} (h : s.isDeclaration = false) (Γ : Names) :
    s.after Γ = Γ := by
  cases s <;> first | rfl | cases h

theorem Stmt.inner_after (s : Stmt ρ) : Names.Inner (after · s) := by
  cases s with
  | var name _ | «class» name _ _ _ => exact .declare name.text
  | function d =>
    cases d
    exact .declare _
  | _ => exact .id

theorem Stmt.inner_afterAll (ss : List (Stmt ρ)) : Names.Inner (afterAll · ss) := by
  induction ss with
  | nil => exact .id
  | cons s ss ih => exact s.inner_after.comp ih

theorem Stmt.afterAll_nil (ss : List (Stmt ρ)) : afterAll [] ss = [] := by
  induction ss with
  | nil => rfl
  | cons s ss ih =>
    have hs : s.after [] = [] := by
      cases s with
      | function d =>
        cases d
        rfl
      | _ => rfl
    rw [afterAll, List.foldl_cons, hs]
    exact ih

namespace Scoping

variable {α β : Type}

def Scope.names (scope : Scope) : List String := scope.map (·.name.text)

def State.names (s : State) : Names := s.scopes.map Scope.names

section Scope

theorem Scope.slot?_names (scope : Scope) (name : String) :
    scope.names.findIdx? (· == name) = scope.slot? name := by
  rw [Scope.names, List.findIdx?_map]
  rfl

theorem Scope.isSome_slot? (scope : Scope) (name : String) :
    (scope.slot? name).isSome ↔ name ∈ scope.names := by
  rw [← Scope.slot?_names, List.findIdx?_isSome, List.any_beq']
  exact List.contains_iff_mem

theorem Scope.names_setUsage (scope : Scope) (name : String) (usage : Usage) :
    (scope.setUsage name usage).names = scope.names := by
  simp only [Scope.names, Scope.setUsage, List.map_map]
  congr 1
  funext v
  by_cases h : (v.name.text == name) = true
  · simp only [Function.comp, if_pos h]
  · simp only [Function.comp, if_neg h]

theorem Scope.names_define (scope : Scope) (name : String) :
    (scope.define name).names = scope.names := by
  unfold Scope.define
  split
  · exact scope.names_setUsage name .defined
  · rfl

theorem binding?_names (name : String) (scopes : List Scope) :
    Names.binding? name (scopes.map Scope.names) = binding? name scopes := by
  induction scopes with
  | nil => rfl
  | cons scope scopes ih =>
    rw [List.map_cons, Names.binding?, binding?, Scope.slot?_names]
    cases scope.slot? name with
    | none => exact congrArg (Option.map _) ih
    | some slot => rfl

theorem names_markUsed (name : String) (scopes : List Scope) :
    (markUsed name scopes).map Scope.names = scopes.map Scope.names := by
  induction scopes with
  | nil => rfl
  | cons scope scopes ih =>
    rw [markUsed]
    split
    · rw [List.map_cons, List.map_cons, Scope.names_setUsage]
    · rw [List.map_cons, List.map_cons, ih]

end Scope

/-! The steps of scoping that look at its state, each as one change of it. -/

theorem declare_run (name : Lexeme) (s : State) : declare name s = ((), match s.scopes with
    | [] => s
    | scope :: outer =>
      if name.text ∈ scope.names then { s with findings := s.findings ++ [⟨.alreadyDeclared, name⟩] }
      else { s with scopes := (scope ++ [⟨name, .declared⟩]) :: outer }) := by
  obtain ⟨_ | ⟨scope, outer⟩, fs⟩ := s
  · rfl
  · change (if (scope.slot? name.text).isSome then note .alreadyDeclared name
      else modifyScope (· ++ [⟨name, .declared⟩])) ⟨scope :: outer, fs⟩ = _
    simp only [Scope.isSome_slot?]
    split <;> rfl

/-- A variable that is read while it is declared only is read in its own initial value. -/
theorem read_run (id : RefId) (name : Lexeme) (s : State) :
    read id name s = (⟨id, s.names.binding? name.text⟩, ⟨markUsed name.text s.scopes, s.findings ++
      match s.scopes.head?.bind (·.lookup? name.text) with
      | some ⟨_, .declared⟩ => [⟨.readInOwnInitializer, name⟩]
      | _ => []⟩) := by
  have rest (scopes : List Scope) (fs : List Finding) : (do
      modify fun s => { s with scopes := markUsed name.text s.scopes }
      Scoping.bind id name : Scoping Reference) ⟨scopes, fs⟩ =
        (⟨id, Names.binding? name.text (scopes.map Scope.names)⟩, ⟨markUsed name.text scopes, fs⟩) := by
    change (Reference.mk id (binding? name.text (markUsed name.text scopes)), _) = _
    rw [← binding?_names, names_markUsed]
  have entered {α : Type} (k : State → Scoping α) (s : State) : (get >>= k) s = k s s := rfl
  obtain ⟨_ | ⟨scope, outer⟩, fs⟩ := s
  · simp only [List.head?_nil, Option.bind_none, List.append_nil]
    exact rest [] fs
  · rw [Scoping.read, entered]
    dsimp only [List.head?_cons, Option.bind_some]
    rcases scope.lookup? name.text with _ | ⟨_, _ | _ | _⟩ <;> simp only [List.append_nil]
    · exact rest (scope :: outer) fs
    · exact rest (scope :: outer) (fs ++ [⟨.readInOwnInitializer, name⟩])
    · exact rest (scope :: outer) fs
    · exact rest (scope :: outer) fs

/-- The phrase changes the names in this way, and takes back nothing that was found. -/
structure Moves (p : Scoping α) (g : Names → Names) : Prop where
  names : ∀ s, (p s).2.names = g s.names
  findings : ∀ s, s.findings <+: (p s).2.findings

namespace Moves

variable {p : Scoping α} {k : α → Scoping β} {g h : Names → Names}

theorem pure (a : α) : Moves (Pure.pure a) id := ⟨fun _ => rfl, fun _ => List.prefix_rfl⟩

theorem bind (hp : Moves p g) (hk : ∀ a, Moves (k a) h) : Moves (p >>= k) (h ∘ g) where
  names s := ((hk (p s).1).names (p s).2).trans (congrArg h (hp.names s))
  findings s := (hp.findings s).trans ((hk (p s).1).findings (p s).2)

theorem congr (hp : Moves p g) (hg : ∀ Γ, g Γ = h Γ) : Moves p h :=
  ⟨fun s => (hp.names s).trans (hg s.names), hp.findings⟩

theorem get {k : State → Scoping β} (hk : ∀ s, Moves (k s) g) : Moves (MonadState.get >>= k) g :=
  ⟨fun s => (hk s).names s, fun s => (hk s).findings s⟩

theorem note (fault : Fault) (place : Lexeme) : Moves (note fault place) id :=
  ⟨fun _ => rfl, fun _ => List.prefix_append _ _⟩

theorem modifyScope {u : Scope → Scope} (hu : ∀ scope, (u scope).names = scope.names) :
    Moves (modifyScope u) id where
  names s := by
    obtain ⟨_ | ⟨scope, outer⟩, fs⟩ := s
    · rfl
    · exact congrArg (· :: outer.map Scope.names) (hu scope)
  findings s := by
    obtain ⟨_ | ⟨scope, outer⟩, fs⟩ := s <;> exact List.prefix_rfl

theorem define (name : Lexeme) : Moves (define name) id :=
  modifyScope fun scope => scope.names_define name.text

theorem declare (name : Lexeme) : Moves (declare name) (Names.declare name.text) where
  names s := by
    rw [declare_run]
    obtain ⟨_ | ⟨scope, outer⟩, fs⟩ := s
    · rfl
    · simp only [State.names, List.map_cons, Names.declare]
      split
      · rfl
      · exact congrArg (· :: outer.map Scope.names) List.map_append
  findings s := by
    rw [declare_run]
    obtain ⟨_ | ⟨scope, outer⟩, fs⟩ := s
    · exact List.prefix_rfl
    · dsimp only
      split
      · exact List.prefix_append _ _
      · exact List.prefix_rfl

theorem declareAll (names : List Lexeme) :
    Moves (declareAll names) (Names.declareAll names) := by
  induction names with
  | nil => exact pure ()
  | cons name names ih => exact (declare name).bind fun _ => (define name).bind fun _ => ih

/-- At the end of a phrase its own scope is still the innermost one. -/
theorem closes (scope : Scope) (hg : Names.Inner g) (hp : Moves p g) (s : State) :
    ∃ last outer, (p { s with scopes := scope :: s.scopes }).2.scopes = last :: outer ∧
      outer.map Scope.names = s.names := by
  obtain ⟨names, hn⟩ := hg scope.names s.names
  have opened : (p { s with scopes := scope :: s.scopes }).2.names = names :: s.names :=
    (hp.names _).trans hn
  obtain ⟨last, outer, hs, _, ho⟩ := List.map_eq_cons_iff.mp opened
  exact ⟨last, outer, hs, ho⟩

/-- The end of a scope takes back nothing that was found inside. -/
theorem findings_inScope (scope : Scope) (hg : Names.Inner g) (hp : Moves p g) (s : State) :
    (p { s with scopes := scope :: s.scopes }).2.findings <+:
      (Scoping.inScope scope p s).2.findings := by
  obtain ⟨last, outer, hs, _⟩ := hp.closes scope hg s
  rw [inScope_run, hs]
  exact List.prefix_append _ _

/-- A phrase in a scope of its own leaves the names as they were. -/
theorem inScope (scope : Scope) (hg : Names.Inner g) (hp : Moves p g) :
    Moves (inScope scope p) id where
  names s := by
    obtain ⟨last, outer, hs, ho⟩ := hp.closes scope hg s
    rw [inScope_run, hs]
    exact ho
  findings s := (hp.findings { s with scopes := scope :: s.scopes }).trans
    (hp.findings_inScope scope hg s)

theorem bindRef (id : RefId) (name : Lexeme) : Moves (Scoping.bind id name) fun Γ => Γ :=
  ⟨fun _ => rfl, fun _ => List.prefix_rfl⟩

theorem read (id : RefId) (name : Lexeme) : Moves (read id name) fun Γ => Γ where
  names s := by
    rw [read_run]
    exact names_markUsed name.text s.scopes
  findings s := by
    rw [read_run]
    exact List.prefix_append _ _

theorem checkThis (context : Context) (keyword : Lexeme) : Moves (checkThis context keyword) id := by
  unfold Scoping.checkThis
  split
  · exact note _ _
  · split
    · exact note _ _
    · exact pure ()

theorem checkSuper (context : Context) (keyword : Lexeme) :
    Moves (checkSuper context keyword) id := by
  unfold Scoping.checkSuper
  split
  · exact note _ _
  · exact note _ _
  · exact pure ()

theorem checkReturn (context : Context) (keyword : Lexeme) (hasValue : Bool) :
    Moves (checkReturn context keyword hasValue) id := by
  have valued : Moves (if hasValue && context.routineKind = some .initializer then
      Scoping.note .valueReturnFromInitializer keyword else Pure.pure ()) id := by
    split
    · exact note _ _
    · exact pure ()
  unfold Scoping.checkReturn
  by_cases h : context.routineKind.isNone = true
  · rw [if_pos h]
    exact (note _ _).bind fun _ => valued
  · rw [if_neg h]
    exact valued

theorem checkBreak (context : Context) (keyword : Lexeme) :
    Moves (checkBreak context keyword) id := by
  unfold Scoping.checkBreak
  split
  · exact pure ()
  · exact note _ _

end Moves

end Scoping

open Scoping

mutual

theorem Expr.resolve_moves : ∀ (context : Context) {e : Expr RefId}, e.Tidy →
    Moves (e.resolve context) id
  | _, .literal _, _ => .pure _
  | _, .variable id name, _ => (Moves.read id name).bind fun _ => .pure _
  | context, .assign id name _, h => (Expr.resolve_moves context h.2).bind fun _ =>
    (Moves.bindRef id name).bind fun _ => .pure _
  | context, .this id keyword, _ => (Moves.checkThis context keyword).bind fun _ =>
    (Moves.bindRef id keyword).bind fun _ => .pure _
  | context, .super id keyword _, _ => (Moves.checkSuper context keyword).bind fun _ =>
    (Moves.bindRef id keyword).bind fun _ => .pure _
  | context, .unary _ _ e, h | context, .group e, h | context, .get e _, h =>
    (Expr.resolve_moves context (e := e) h).bind fun _ => .pure _
  | context, .binary _ _ _ _, h | context, .logical _ _ _ _, h =>
    (Expr.resolve_moves context h.1).bind fun _ =>
      (Expr.resolve_moves context h.2).bind fun _ => .pure _
  | context, .ternary _ _ _, h => (Expr.resolve_moves context h.1).bind fun _ =>
    (Expr.resolve_moves context h.2.1).bind fun _ =>
      (Expr.resolve_moves context h.2.2).bind fun _ => .pure _
  | context, .call _ _ _, h => (Expr.resolve_moves context h.1).bind fun _ =>
    (Expr.resolveAll_moves context h.2).bind fun _ => .pure _
  | context, .set _ _ _, h => (Expr.resolve_moves context h.2).bind fun _ =>
    (Expr.resolve_moves context h.1).bind fun _ => .pure _
  | context, .lambda _ r, h => (Routine.resolve_moves context .lambda (r := r) h).bind fun _ =>
    .pure _

theorem Expr.resolveAll_moves : ∀ (context : Context) {es : List (Expr RefId)}, Expr.TidyAll es →
    Moves (Expr.resolveAll context es) id
  | _, [], _ => .pure _
  | context, _ :: _, h => (Expr.resolve_moves context h.1).bind fun _ =>
    (Expr.resolveAll_moves context h.2).bind fun _ => .pure _

theorem Stmt.resolve_moves : ∀ (context : Context) {s : Stmt RefId}, s.Tidy →
    Moves (s.resolve context) (s.after ·)
  | context, .expr e, h | context, .print e, h =>
    (Expr.resolve_moves context (e := e) h).bind fun _ => .pure _
  | _, .var name none, _ => (Moves.declare name).bind fun _ => (Moves.define name).bind fun _ =>
    .pure _
  | context, .var name (some _), h => (Moves.declare name).bind fun _ =>
    (Expr.resolve_moves context h.2).bind fun _ => (Moves.define name).bind fun _ => .pure _
  | context, .block b, h =>
    (Moves.inScope [] (Stmt.inner_afterAll b) (Stmt.resolveAll_moves context h)).bind fun _ => .pure _
  | context, .if _ _ none, h => (Expr.resolve_moves context h.1).bind fun _ =>
    ((Stmt.resolve_moves context h.2.1).congr (Stmt.after_of_not_declaration h.2.2)).bind fun _ =>
      .pure _
  | context, .if _ _ (some _), h => (Expr.resolve_moves context h.1).bind fun _ =>
    ((Stmt.resolve_moves context h.2.1.1).congr (Stmt.after_of_not_declaration h.2.1.2)).bind
      fun _ => ((Stmt.resolve_moves context h.2.2.1).congr
        (Stmt.after_of_not_declaration h.2.2.2)).bind fun _ => .pure _
  | context, .while _ _, h => (Expr.resolve_moves context h.1).bind fun _ =>
    ((Stmt.resolve_moves { context with inLoop := true } h.2.1).congr
      (Stmt.after_of_not_declaration h.2.2)).bind fun _ => .pure _
  | context, .break keyword, _ => (Moves.checkBreak context keyword).bind fun _ => .pure _
  | context, .return keyword none, _ => (Moves.checkReturn context keyword false).bind fun _ =>
    .pure _
  | context, .return keyword (some e), h => (Moves.checkReturn context keyword true).bind fun _ =>
    (Expr.resolve_moves context (e := e) h).bind fun _ => .pure _
  | context, .function ⟨name, _⟩, h => (Moves.declare name).bind fun _ =>
    (Moves.define name).bind fun _ => (Definition.resolve_moves context .function h).bind fun _ =>
      .pure _
  | context, .class name none ms cs, h => by
    have body : Moves (do
        let ms ← Definition.resolveMethods { context with classKind := some .base } ms
        let cs ← Definition.resolveClassMethods { context with classKind := some .base } cs
        Pure.pure (Stmt.class name none ms cs)) id :=
      (Definition.resolveMethods_moves _ h.2.1).bind fun _ =>
        (Definition.resolveClassMethods_moves _ h.2.2).bind fun _ => .pure _
    exact (Moves.declare name).bind fun _ => (Moves.define name).bind fun _ =>
      Moves.inScope _ .id body
  | context, .class name (some (id, superclass)) ms cs, h => by
    have body (r : Reference) : Moves (do
        let ms ← Definition.resolveMethods { context with classKind := some .derived } ms
        let cs ← Definition.resolveClassMethods { context with classKind := some .derived } cs
        Pure.pure (Stmt.class name (some (r, superclass)) ms cs)) fun Γ => Γ :=
      (Definition.resolveMethods_moves _ h.2.1).bind fun _ =>
        (Definition.resolveClassMethods_moves _ h.2.2).bind fun _ => .pure _
    have scopes (r : Reference) := Moves.inScope [⟨⟨"super", 0⟩, .used⟩] .id
      (Moves.inScope [⟨⟨"this", 0⟩, .used⟩] .id (body r))
    refine Moves.bind (h := fun Γ => Γ) (Moves.declare name) fun _ => ?_
    refine Moves.bind (h := fun Γ => Γ) (Moves.define name) fun _ => ?_
    split
    · exact (Moves.note .inheritsFromItself superclass).bind fun _ =>
        (Moves.read id superclass).bind scopes
    · exact (Moves.read id superclass).bind scopes

theorem Stmt.resolveAll_moves : ∀ (context : Context) {ss : List (Stmt RefId)}, Stmt.TidyAll ss →
    Moves (Stmt.resolveAll context ss) (Stmt.afterAll · ss)
  | _, [], _ => .pure _
  | context, _ :: _, h => (Stmt.resolve_moves context h.1).bind fun _ =>
    (Stmt.resolveAll_moves context h.2).bind fun _ => .pure _

theorem Routine.resolve_moves : ∀ (context : Context) (kind : RoutineKind) {r : Routine RefId},
    r.Tidy → Moves (r.resolve context kind) id
  | context, kind, ⟨params, body⟩, h => by
    refine Moves.inScope [] ((Names.Inner.declareAll params).comp (Stmt.inner_afterAll body)) ?_
    exact (Moves.declareAll params).bind fun _ =>
      (Stmt.resolveAll_moves { context with routineKind := some kind, inLoop := false } h.2).bind
        fun _ => .pure _

theorem Definition.resolve_moves : ∀ (context : Context) (kind : RoutineKind)
    {d : Definition RefId}, d.Tidy → Moves (d.resolve context kind) id
  | context, kind, ⟨_, _⟩, h => (Routine.resolve_moves context kind h.2).bind fun _ => .pure _

theorem Definition.resolveMethods_moves : ∀ (context : Context) {ds : List (Definition RefId)},
    Definition.TidyAll ds → Moves (Definition.resolveMethods context ds) id
  | _, [], _ => .pure _
  | context, ⟨name, _⟩ :: _, h => (Definition.resolve_moves context (methodKind name) h.1).bind
    fun _ => (Definition.resolveMethods_moves context h.2).bind fun _ => .pure _

theorem Definition.resolveClassMethods_moves :
    ∀ (context : Context) {ds : List (Definition RefId)}, Definition.TidyAll ds →
      Moves (Definition.resolveClassMethods context ds) id
  | _, [], _ => .pure _
  | context, _ :: _, h => (Definition.resolve_moves context .classMethod h.1).bind fun _ =>
    (Definition.resolveClassMethods_moves context h.2).bind fun _ => .pure _

end

end Lox
