import Lox.Scoping

/-!
Scoping that reports at once. Errors and warnings are two lists from the start, and the severity of an
unused variable is looked at wherever a scope ends, among the other faults that are met on the way. The
two lists are those that scoping makes of all it has found when it is done, so that a severity decides
where an unused variable is reported and nothing else.
-/

namespace Lox

namespace Scoping

/-- The scopes that are open, and what has been reported so far. -/
structure Reporting.State where
  scopes : List Scope := []
  errors : List Finding := []
  warnings : List Finding := []

abbrev Reporting := StateM Reporting.State

namespace Reporting

variable {α β : Type}

def error (fault : Fault) (place : Lexeme) : Reporting Unit :=
  modify fun s => { s with errors := s.errors ++ [⟨fault, place⟩] }

def warn (fault : Fault) (place : Lexeme) : Reporting Unit :=
  modify fun s => { s with warnings := s.warnings ++ [⟨fault, place⟩] }

def modifyScope (f : Scope → Scope) : Reporting Unit :=
  modify fun s => match s.scopes with
    | [] => s
    | scope :: outer => { s with scopes := f scope :: outer }

def declare (name : Lexeme) : Reporting Unit := do
  match (← get).scopes with
  | [] => return
  | scope :: _ =>
    if (scope.slot? name.text).isSome then error .alreadyDeclared name
    else modifyScope (· ++ [⟨name, .declared⟩])

def define (name : Lexeme) : Reporting Unit := modifyScope (·.define name.text)

def declareAll : List Lexeme → Reporting Unit
  | [] => return
  | name :: names => do
    declare name
    define name
    declareAll names

def unusedVariable (name : Lexeme) : Severity → Reporting Unit
  | .error => error .unusedVariable name
  | .warning => warn .unusedVariable name

/-- Reports the variables that were not read, one after another. -/
def unusedVariables (unused : Severity) : Scope → Reporting Unit
  | [] => return
  | ⟨_, .used⟩ :: scope => unusedVariables unused scope
  | ⟨name, _⟩ :: scope => do
    unusedVariable name unused
    unusedVariables unused scope

def beginScope (scope : Scope) : Reporting Unit := modify fun s => { s with scopes := scope :: s.scopes }

def endScope (unused : Severity) : Reporting Unit := do
  match (← get).scopes with
  | [] => return
  | scope :: outer =>
    modify fun s => { s with scopes := outer }
    unusedVariables unused scope

def inScope (unused : Severity) (scope : Scope) (phrase : Reporting α) : Reporting α := do
  beginScope scope
  let a ← phrase
  endScope unused
  return a

def inScopeOf (unused : Severity) (name : String) (phrase : Reporting α) : Reporting α :=
  inScope unused [⟨⟨name, 0⟩, .used⟩] phrase

def bind (id : RefId) (name : Lexeme) : Reporting Reference :=
  return ⟨id, binding? name.text (← get).scopes⟩

def read (id : RefId) (name : Lexeme) : Reporting Reference := do
  match (← get).scopes with
  | scope :: _ =>
    match scope.lookup? name.text with
    | some ⟨_, .declared⟩ => error .readInOwnInitializer name
    | _ => pure ()
  | [] => pure ()
  modify fun s => { s with scopes := markUsed name.text s.scopes }
  bind id name

def checkThis (context : Context) (keyword : Lexeme) : Reporting Unit :=
  if context.classKind.isNone then error .thisOutsideClass keyword
  else if context.routineKind = some .classMethod then error .thisInClassMethod keyword
  else pure ()

def checkSuper (context : Context) (keyword : Lexeme) : Reporting Unit :=
  match context.classKind with
  | none => error .superOutsideClass keyword
  | some .base => error .superWithoutSuperclass keyword
  | some .derived => pure ()

def checkReturn (context : Context) (keyword : Lexeme) (hasValue : Bool) : Reporting Unit := do
  if context.routineKind.isNone then error .topLevelReturn keyword
  if hasValue && context.routineKind = some .initializer then
    error .valueReturnFromInitializer keyword

def checkBreak (context : Context) (keyword : Lexeme) : Reporting Unit :=
  if context.inLoop then pure () else error .breakOutsideLoop keyword

end Reporting

end Scoping

open Scoping

section Traversal

variable (unused : Severity)

mutual

def Expr.report (context : Context) : Expr RefId → Reporting (Expr Reference)
  | .literal v => return .literal v
  | .variable id name => return .variable (← Reporting.read id name) name
  | .assign id name e => do
    let e ← e.report context
    return .assign (← Reporting.bind id name) name e
  | .this id keyword => do
    Reporting.checkThis context keyword
    return .this (← Reporting.bind id keyword) keyword
  | .super id keyword method => do
    Reporting.checkSuper context keyword
    return .super (← Reporting.bind id keyword) keyword method
  | .unary op sign e => return .unary op sign (← e.report context)
  | .binary op sign l r => return .binary op sign (← l.report context) (← r.report context)
  | .logical op sign l r => return .logical op sign (← l.report context) (← r.report context)
  | .ternary c y n => return .ternary (← c.report context) (← y.report context) (← n.report context)
  | .group e => return .group (← e.report context)
  | .call c as line => return .call (← c.report context) (← Expr.reportAll context as) line
  | .get o name => return .get (← o.report context) name
  | .set o name e => do
    let e ← e.report context
    return .set (← o.report context) name e
  | .lambda line r => return .lambda line (← r.report context .lambda)

def Expr.reportAll (context : Context) : List (Expr RefId) → Reporting (List (Expr Reference))
  | [] => return []
  | e :: es => return (← e.report context) :: (← Expr.reportAll context es)

def Stmt.report (context : Context) : Stmt RefId → Reporting (Stmt Reference)
  | .expr e => return .expr (← e.report context)
  | .print e => return .print (← e.report context)
  | .var name none => do
    Reporting.declare name
    Reporting.define name
    return .var name none
  | .var name (some e) => do
    Reporting.declare name
    let e ← e.report context
    Reporting.define name
    return .var name (some e)
  | .block b => return .block (← Reporting.inScope unused [] (Stmt.reportAll context b))
  | .if c y none => return .if (← c.report context) (← y.report context) none
  | .if c y (some n) =>
    return .if (← c.report context) (← y.report context) (some (← n.report context))
  | .while c b => return .while (← c.report context) (← b.report { context with inLoop := true })
  | .break keyword => do
    Reporting.checkBreak context keyword
    return .break keyword
  | .return keyword none => do
    Reporting.checkReturn context keyword false
    return .return keyword none
  | .return keyword (some e) => do
    Reporting.checkReturn context keyword true
    return .return keyword (some (← e.report context))
  | .function f => do
    Reporting.declare f.name
    Reporting.define f.name
    return .function (← f.report context .function)
  | .class name none ms cs => do
    Reporting.declare name
    Reporting.define name
    let context := { context with classKind := some .base }
    Reporting.inScopeOf unused "this" do
      return .class name none (← Definition.reportMethods context ms)
        (← Definition.reportClassMethods context cs)
  | .class name (some (id, superclass)) ms cs => do
    Reporting.declare name
    Reporting.define name
    if superclass.text = name.text then Reporting.error .inheritsFromItself superclass
    let superclassRef ← Reporting.read id superclass
    let context := { context with classKind := some .derived }
    Reporting.inScopeOf unused "super" <| Reporting.inScopeOf unused "this" do
      return .class name (some (superclassRef, superclass)) (← Definition.reportMethods context ms)
        (← Definition.reportClassMethods context cs)

def Stmt.reportAll (context : Context) : List (Stmt RefId) → Reporting (List (Stmt Reference))
  | [] => return []
  | s :: ss => return (← s.report context) :: (← Stmt.reportAll context ss)

def Routine.report (context : Context) (kind : RoutineKind) :
    Routine RefId → Reporting (Routine Reference)
  | ⟨params, body⟩ => Reporting.inScope unused [] do
    Reporting.declareAll params
    return ⟨params, ← Stmt.reportAll { context with routineKind := some kind, inLoop := false } body⟩

def Definition.report (context : Context) (kind : RoutineKind) :
    Definition RefId → Reporting (Definition Reference)
  | ⟨name, r⟩ => return ⟨name, ← r.report context kind⟩

def Definition.reportMethods (context : Context) :
    List (Definition RefId) → Reporting (List (Definition Reference))
  | [] => return []
  | m :: ms => return (← m.report context (methodKind m.name)) ::
      (← Definition.reportMethods context ms)

def Definition.reportClassMethods (context : Context) :
    List (Definition RefId) → Reporting (List (Definition Reference))
  | [] => return []
  | m :: ms => return (← m.report context .classMethod) :: (← Definition.reportClassMethods context ms)

end

end Traversal

namespace Scoping

variable {α β : Type}

/-- What has been found, as it is reported at once. -/
def State.reported (unused : Severity) (s : State) : Reporting.State :=
  ⟨s.scopes, s.findings.filter (Resolution.isError unused),
    s.findings.filter fun f => !Resolution.isError unused f⟩

/-- The second phrase does what the first one does, and reports at once what that finds. -/
def Reports (unused : Severity) (p : Scoping α) (q : Reporting α) : Prop :=
  ∀ s : State, q (s.reported unused) = ((p s).1, (p s).2.reported unused)

namespace Reports

variable {unused : Severity} {p : Scoping α} {q : Reporting α} {k : α → Scoping β}
  {l : α → Reporting β}

theorem pure (a : α) : Reports unused (Pure.pure a) (Pure.pure a) := fun _ => rfl

theorem bind (hp : Reports unused p q) (hk : ∀ a, Reports unused (k a) (l a)) :
    Reports unused (p >>= k) (q >>= l) := by
  intro s
  have h := hk (p s).1 (p s).2
  simp only [Bind.bind, StateT.bind, hp s]
  exact h

theorem ret (hp : Reports unused p q) (f : α → β) :
    Reports unused (do return f (← p)) (do return f (← q)) := hp.bind fun a => pure (f a)

theorem get {k : State → Scoping β} {l : Reporting.State → Reporting β}
    (h : ∀ s, Reports unused (k s) (l (s.reported unused))) :
    Reports unused (MonadState.get >>= k) (MonadState.get >>= l) := fun s => h s s

theorem error_reported {fault : Fault} {place : Lexeme}
    (h : Resolution.isError unused ⟨fault, place⟩ = true) (s : State) :
    Reporting.error fault place (s.reported unused) =
      ((), State.reported unused { s with findings := s.findings ++ [⟨fault, place⟩] }) := by
  simp only [State.reported, List.filter_append]
  rw [List.filter_cons_of_pos h, List.filter_cons_of_neg (by simp [h]), List.filter_nil,
    List.filter_nil, List.append_nil]
  rfl

theorem warn_reported {fault : Fault} {place : Lexeme}
    (h : Resolution.isError unused ⟨fault, place⟩ = false) (s : State) :
    Reporting.warn fault place (s.reported unused) =
      ((), State.reported unused { s with findings := s.findings ++ [⟨fault, place⟩] }) := by
  simp only [State.reported, List.filter_append]
  rw [List.filter_cons_of_neg (by simp [h]), List.filter_cons_of_pos (by simp [h]), List.filter_nil,
    List.filter_nil, List.append_nil]
  rfl

/-- A fault that is not an unused variable is an error by any severity. -/
theorem error {fault : Fault} (h : fault ≠ .unusedVariable) (place : Lexeme) :
    Reports unused (note fault place) (Reporting.error fault place) :=
  error_reported (by simp [Resolution.isError, h])

theorem modifyScope (f : Scope → Scope) :
    Reports unused (modifyScope f) (Reporting.modifyScope f) := by
  rintro ⟨_ | ⟨scope, outer⟩, findings⟩ <;> rfl

theorem declare (name : Lexeme) : Reports unused (declare name) (Reporting.declare name) := by
  apply get
  rintro ⟨_ | ⟨scope, outer⟩, findings⟩
  · exact pure ()
  · simp only [State.reported]
    split
    · exact error (by decide) name
    · exact modifyScope _

theorem define (name : Lexeme) : Reports unused (define name) (Reporting.define name) :=
  modifyScope _

theorem declareAll (names : List Lexeme) :
    Reports unused (declareAll names) (Reporting.declareAll names) := by
  induction names with
  | nil => exact pure ()
  | cons name names ih => exact (declare name).bind fun _ => (define name).bind fun _ => ih

theorem unusedVariable_reported (name : Lexeme) (s : State) :
    Reporting.unusedVariable name unused (s.reported unused) =
      ((), State.reported unused { s with findings := s.findings ++ [⟨.unusedVariable, name⟩] }) := by
  cases unused with
  | error => exact error_reported (by simp [Resolution.isError]) s
  | warning => exact warn_reported (by simp [Resolution.isError]) s

/-- The variables of a scope that were not read, one after another, are the findings at its end. -/
theorem unusedVariables_reported (scope : Scope) (s : State) :
    Reporting.unusedVariables unused scope (s.reported unused) =
      ((), State.reported unused { s with findings := s.findings ++ scope.unused }) := by
  induction scope generalizing s with
  | nil =>
    rw [Scope.unused, List.filter_nil, List.map_nil, List.append_nil]
    rfl
  | cons v scope ih =>
    have unread {name : Lexeme} {usage : Usage} (h : usage ≠ .used) :
        (do
          Reporting.unusedVariable name unused
          Reporting.unusedVariables unused scope : Reporting Unit) (s.reported unused) =
          ((), State.reported unused
            { s with findings := s.findings ++ Scope.unused (⟨name, usage⟩ :: scope) }) := by
      have here : Scope.unused (⟨name, usage⟩ :: scope) =
          [⟨.unusedVariable, name⟩] ++ Scope.unused scope := by
        rw [Scope.unused, List.filter_cons_of_pos (by simpa using h)]
        rfl
      simp only [Bind.bind, StateT.bind, unusedVariable_reported]
      rw [here, ← List.append_assoc]
      exact ih _
    obtain ⟨name, _ | _ | _⟩ := v
    · exact unread (by decide)
    · exact unread (by decide)
    · exact ih s

theorem inScope (scope : Scope) (hp : Reports unused p q) :
    Reports unused (inScope scope p) (Reporting.inScope unused scope q) := by
  intro s
  have inner := hp { s with scopes := scope :: s.scopes }
  change (let r := q (State.reported unused { s with scopes := scope :: s.scopes })
    ((r.1, (Reporting.endScope unused r.2).2) : α × Reporting.State)) = _
  rw [inScope_run, inner]
  generalize p { s with scopes := scope :: s.scopes } = r
  obtain ⟨a, scopes, findings⟩ := r
  cases scopes with
  | nil => rfl
  | cons last outer =>
    exact congrArg (a, ·.2) (unusedVariables_reported last ⟨outer, findings⟩)

theorem inScopeOf (name : String) (hp : Reports unused p q) :
    Reports unused (inScopeOf name p) (Reporting.inScopeOf unused name q) := inScope _ hp

theorem bindRef (id : RefId) (name : Lexeme) :
    Reports unused (Scoping.bind id name) (Reporting.bind id name) := fun _ => rfl

theorem read (id : RefId) (name : Lexeme) :
    Reports unused (read id name) (Reporting.read id name) := by
  have mark : Reports unused
      (do
        modify fun s => { s with scopes := markUsed name.text s.scopes }
        Scoping.bind id name)
      (do
        modify fun s => { s with scopes := markUsed name.text s.scopes }
        Reporting.bind id name) := fun _ => rfl
  apply get
  rintro ⟨_ | ⟨scope, outer⟩, findings⟩
  · exact mark
  · simp only [State.reported]
    rcases scope.lookup? name.text with _ | ⟨x, _ | _ | _⟩
    · exact mark
    · exact (error (by decide) name).bind fun _ => mark
    · exact mark
    · exact mark

theorem checkThis (context : Context) (keyword : Lexeme) :
    Reports unused (checkThis context keyword) (Reporting.checkThis context keyword) := by
  unfold Scoping.checkThis Reporting.checkThis
  split
  · exact error (by decide) keyword
  · split
    · exact error (by decide) keyword
    · exact pure ()

theorem checkSuper (context : Context) (keyword : Lexeme) :
    Reports unused (checkSuper context keyword) (Reporting.checkSuper context keyword) := by
  unfold Scoping.checkSuper Reporting.checkSuper
  rcases context.classKind with _ | _ | _
  · exact error (by decide) keyword
  · exact error (by decide) keyword
  · exact pure ()

theorem checkReturn (context : Context) (keyword : Lexeme) (hasValue : Bool) :
    Reports unused (checkReturn context keyword hasValue)
      (Reporting.checkReturn context keyword hasValue) := by
  unfold Scoping.checkReturn Reporting.checkReturn
  by_cases top : context.routineKind.isNone = true <;>
    by_cases value : (hasValue && context.routineKind = some .initializer) = true
  · rw [if_pos top, if_pos top, if_pos value, if_pos value]
    exact (error (by decide) keyword).bind fun _ => error (by decide) keyword
  · rw [if_pos top, if_pos top, if_neg value, if_neg value]
    exact (error (by decide) keyword).bind fun _ => pure ()
  · rw [if_neg top, if_neg top, if_pos value, if_pos value]
    exact error (by decide) keyword
  · rw [if_neg top, if_neg top, if_neg value, if_neg value]
    exact pure ()

theorem checkBreak (context : Context) (keyword : Lexeme) :
    Reports unused (checkBreak context keyword) (Reporting.checkBreak context keyword) := by
  unfold Scoping.checkBreak Reporting.checkBreak
  split
  · exact pure ()
  · exact error (by decide) keyword

end Reports

end Scoping

section Traversal

variable {unused : Severity}

mutual

theorem Expr.report_reports : ∀ (context : Context) (e : Expr RefId),
    Reports unused (e.resolve context) (e.report unused context)
  | _, .literal _ => Reports.pure _
  | _, .variable id name => (Reports.read id name).ret _
  | context, .assign id name e => (Expr.report_reports context e).bind fun _ =>
    (Reports.bindRef id name).ret _
  | context, .this id keyword => (Reports.checkThis context keyword).bind fun _ =>
    (Reports.bindRef id keyword).ret _
  | context, .super id keyword _ => (Reports.checkSuper context keyword).bind fun _ =>
    (Reports.bindRef id keyword).ret _
  | context, .unary _ _ e => (Expr.report_reports context e).ret _
  | context, .binary _ _ l r => (Expr.report_reports context l).bind fun _ =>
    (Expr.report_reports context r).ret _
  | context, .logical _ _ l r => (Expr.report_reports context l).bind fun _ =>
    (Expr.report_reports context r).ret _
  | context, .ternary c y n => (Expr.report_reports context c).bind fun _ =>
    (Expr.report_reports context y).bind fun _ => (Expr.report_reports context n).ret _
  | context, .group e => (Expr.report_reports context e).ret _
  | context, .call c as _ => (Expr.report_reports context c).bind fun _ =>
    (Expr.reportAll_reports context as).ret _
  | context, .get o _ => (Expr.report_reports context o).ret _
  | context, .set o _ e => (Expr.report_reports context e).bind fun _ =>
    (Expr.report_reports context o).ret _
  | context, .lambda _ r => (Routine.report_reports context .lambda r).ret _

theorem Expr.reportAll_reports : ∀ (context : Context) (es : List (Expr RefId)),
    Reports unused (Expr.resolveAll context es) (Expr.reportAll unused context es)
  | _, [] => Reports.pure _
  | context, e :: es => (Expr.report_reports context e).bind fun _ =>
    (Expr.reportAll_reports context es).ret _

theorem Stmt.report_reports : ∀ (context : Context) (s : Stmt RefId),
    Reports unused (s.resolve context) (s.report unused context)
  | context, .expr e => (Expr.report_reports context e).ret _
  | context, .print e => (Expr.report_reports context e).ret _
  | _, .var name none => (Reports.declare name).bind fun _ => (Reports.define name).ret _
  | context, .var name (some e) => (Reports.declare name).bind fun _ =>
    (Expr.report_reports context e).bind fun _ => (Reports.define name).ret _
  | context, .block b => (Reports.inScope [] (Stmt.reportAll_reports context b)).ret _
  | context, .if c y none => (Expr.report_reports context c).bind fun _ =>
    (Stmt.report_reports context y).ret _
  | context, .if c y (some n) => (Expr.report_reports context c).bind fun _ =>
    (Stmt.report_reports context y).bind fun _ => (Stmt.report_reports context n).ret _
  | context, .while c b => (Expr.report_reports context c).bind fun _ =>
    (Stmt.report_reports _ b).ret _
  | context, .break keyword => (Reports.checkBreak context keyword).ret _
  | context, .return keyword none => (Reports.checkReturn context keyword false).ret _
  | context, .return keyword (some e) => (Reports.checkReturn context keyword true).bind fun _ =>
    (Expr.report_reports context e).ret _
  | context, .function ⟨name, r⟩ => (Reports.declare name).bind fun _ =>
    (Reports.define name).bind fun _ =>
      (Definition.report_reports context .function ⟨name, r⟩).ret _
  | _, .class name none ms cs => (Reports.declare name).bind fun _ =>
    (Reports.define name).bind fun _ => Reports.inScopeOf "this" <|
      (Definition.reportMethods_reports _ ms).bind fun _ =>
        (Definition.reportClassMethods_reports _ cs).ret _
  | context, .class name (some (id, superclass)) ms cs => by
    have body (r : Reference) : Reports unused
        (do
          let context := { context with classKind := some .derived }
          inScopeOf "super" <| inScopeOf "this" do
            return Stmt.class name (some (r, superclass)) (← Definition.resolveMethods context ms)
              (← Definition.resolveClassMethods context cs))
        (do
          let context := { context with classKind := some .derived }
          Reporting.inScopeOf unused "super" <| Reporting.inScopeOf unused "this" do
            return Stmt.class name (some (r, superclass))
              (← Definition.reportMethods unused context ms)
              (← Definition.reportClassMethods unused context cs)) := by
      apply Reports.inScopeOf "super"
      apply Reports.inScopeOf "this"
      apply (Definition.reportMethods_reports _ ms).bind
      intro _
      exact (Definition.reportClassMethods_reports _ cs).ret _
    apply (Reports.declare name).bind
    intro _
    apply (Reports.define name).bind
    intro _
    by_cases h : superclass.text = name.text
    · simp only [if_pos h]
      exact (Reports.error (by decide) superclass).bind fun _ =>
        (Reports.read id superclass).bind body
    · simp only [if_neg h]
      exact (Reports.read id superclass).bind body

theorem Stmt.reportAll_reports : ∀ (context : Context) (ss : List (Stmt RefId)),
    Reports unused (Stmt.resolveAll context ss) (Stmt.reportAll unused context ss)
  | _, [] => Reports.pure _
  | context, s :: ss => (Stmt.report_reports context s).bind fun _ =>
    (Stmt.reportAll_reports context ss).ret _

theorem Routine.report_reports : ∀ (context : Context) (kind : RoutineKind) (r : Routine RefId),
    Reports unused (r.resolve context kind) (r.report unused context kind)
  | _, _, ⟨params, body⟩ => Reports.inScope [] <| (Reports.declareAll params).bind fun _ =>
    (Stmt.reportAll_reports _ body).ret _

theorem Definition.report_reports : ∀ (context : Context) (kind : RoutineKind)
    (d : Definition RefId), Reports unused (d.resolve context kind) (d.report unused context kind)
  | context, kind, ⟨_, r⟩ => (Routine.report_reports context kind r).ret _

theorem Definition.reportMethods_reports : ∀ (context : Context) (ds : List (Definition RefId)),
    Reports unused (Definition.resolveMethods context ds)
      (Definition.reportMethods unused context ds)
  | _, [] => Reports.pure _
  | context, ⟨name, r⟩ :: ds =>
    (Definition.report_reports context (methodKind name) ⟨name, r⟩).bind fun _ =>
      (Definition.reportMethods_reports context ds).ret _

theorem Definition.reportClassMethods_reports :
    ∀ (context : Context) (ds : List (Definition RefId)),
      Reports unused (Definition.resolveClassMethods context ds)
        (Definition.reportClassMethods unused context ds)
  | _, [] => Reports.pure _
  | context, d :: ds => (Definition.report_reports context .classMethod d).bind fun _ =>
    (Definition.reportClassMethods_reports context ds).ret _

end

end Traversal

/-- A program with its references bound, and what was reported of it. -/
structure Report where
  program : List (Stmt Reference)
  errors : List Finding
  warnings : List Finding

/-- The bindings of the references that have one. -/
def Report.bindings (r : Report) : List (RefId × Binding) :=
  (Stmt.referencesAll r.program).filterMap fun ref => ref.binding.map (ref.id, ·)

def reportScoping (unused : Severity) (program : List (Stmt RefId)) : Report :=
  let (program, s) := (Stmt.reportAll unused {} program).run {}
  ⟨program, s.errors, s.warnings⟩

/-- What is reported at once is what scoping makes of its findings in the end. -/
theorem reportScoping_eq (unused : Severity) (program : List (Stmt RefId)) :
    reportScoping unused program = ⟨(resolve program).program, (resolve program).errors unused,
      (resolve program).warnings unused⟩ := by
  have h := (Stmt.reportAll_reports {} program : Scoping.Reports unused _ _) {}
  change (let r := Stmt.reportAll unused {} program (State.reported unused {})
    Report.mk r.1 r.2.errors r.2.warnings) = _
  rw [h]
  rfl

end Lox
