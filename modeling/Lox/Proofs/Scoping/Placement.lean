import Lox.Proofs.Scoping.Judgments
import Lox.Source

/-!
Placement. Most faults can be seen from a word and what is around it: a jump out of nothing, a word of
classes outside of one, a name that its scope has already. Scoping finds exactly these, each once and at
its word.
-/

namespace Lox

namespace Scoping

/-- Is it this fault for the word to stand where it does? -/
def Mention.breaks (m : Mention) (fault : Fault) : Bool :=
  match m.word with
  | .declaration name _ =>
    fault == .alreadyDeclared && m.around.levels.head?.any (·.contains name.text)
  | .read _ _ | .assign _ _ => false
  | .this _ _ => fault == .thisOutsideClass && m.around.class?.isNone ||
    fault == .thisInClassMethod && m.around.class?.isSome && m.around.routine?.any Frame.isClassMethod
  | .super _ _ => fault == .superOutsideClass && m.around.class?.isNone ||
    fault == .superWithoutSuperclass && m.around.class? == some (.class none)
  | .inherit _ superclass name => fault == .inheritsFromItself && superclass.text == name.text
  | .return _ hasValue => fault == .topLevelReturn && m.around.routine?.isNone ||
    fault == .valueReturnFromInitializer && hasValue && m.around.routine? == some (.method "init")
  | .break _ => fault == .breakOutsideLoop && !m.around.inLoop

/-- The faults that can be told from a word and what is around it. -/
def Fault.placements : List Fault :=
  [.alreadyDeclared, .topLevelReturn, .valueReturnFromInitializer, .breakOutsideLoop,
    .thisOutsideClass, .thisInClassMethod, .superOutsideClass, .superWithoutSuperclass,
    .inheritsFromItself]

theorem Fault.ne_unused {fault : Fault} (h : fault ∈ placements) : fault ≠ .unusedVariable := by
  rintro rfl
  exact absurd h (by decide)

/-- The findings of such faults, in their order. -/
def placementsOf (fs : List Finding) : List Finding := fs.filter (·.fault ∈ Fault.placements)

/-- What is wrong with the place of a word. -/
def Mention.misplacements (m : Mention) : List Finding :=
  (Fault.placements.filter m.breaks).map (⟨·, m.word.lexeme⟩)

section Findings

variable {fs gs : List Finding}

theorem placementsOf_append : placementsOf (fs ++ gs) = placementsOf fs ++ placementsOf gs :=
  List.filter_append fs gs

theorem placementsOf_misplacements (m : Mention) : placementsOf m.misplacements = m.misplacements := by
  simp only [placementsOf, Mention.misplacements, List.filter_eq_self, List.forall_mem_map]
  intro fault h
  exact decide_eq_true (List.mem_of_mem_filter h)

/-- The end of a scope finds unused variables only. -/
theorem placementsOf_unused (scope : Scope) : placementsOf scope.unused = [] := by
  rw [placementsOf, List.filter_eq_nil_iff]
  intro f hf
  obtain ⟨v, -, rfl⟩ := List.mem_map.mp hf
  simp [Fault.placements]

/-- A fault of a word is found there once. -/
theorem filter_misplacements {fault : Fault} (h : fault ∈ Fault.placements) (m : Mention) :
    m.misplacements.filter (·.fault == fault) =
      if m.breaks fault then [⟨fault, m.word.lexeme⟩] else [] := by
  have once : Fault.placements.filter (· == fault) = [fault] := by
    revert fault
    decide
  rw [Mention.misplacements, List.filter_map, List.filter_filter]
  have same : (fun f => ((fun f : Finding => f.fault == fault) ∘ (⟨·, m.word.lexeme⟩)) f && m.breaks f) =
      fun f => m.breaks f && (f == fault) := by
    funext f
    exact Bool.and_comm _ _
  rw [same, ← List.filter_filter, once]
  by_cases hb : m.breaks fault = true <;> simp [hb]

end Findings

/-! What each step finds. -/

theorem findings_declare (name : Lexeme) (s : State) :
    (declare name s).2.findings = s.findings ++
      if s.names.head?.any (·.contains name.text) then [⟨.alreadyDeclared, name⟩] else [] := by
  rw [declare_run]
  obtain ⟨_ | ⟨scope, outer⟩, fs⟩ := s
  · exact (List.append_nil fs).symm
  · simp only [State.names, List.map_cons, List.head?_cons, Option.any_some, List.contains_iff_mem]
    split
    · rfl
    · exact (List.append_nil fs).symm

theorem findings_define (name : Lexeme) (s : State) : (define name s).2.findings = s.findings := by
  obtain ⟨_ | ⟨scope, outer⟩, fs⟩ := s <;> rfl

/-- To read a variable is wrong in its own initial value only. -/
theorem placementsOf_read (id : RefId) (name : Lexeme) (s : State) :
    placementsOf (read id name s).2.findings = placementsOf s.findings := by
  rw [read_run, placementsOf_append]
  split <;> exact List.append_nil _

theorem findings_checkThis (c : Context) (keyword : Lexeme) (s : State) :
    (checkThis c keyword s).2.findings = s.findings ++
      if c.classKind.isNone then [⟨.thisOutsideClass, keyword⟩]
      else if c.routineKind = some .classMethod then [⟨.thisInClassMethod, keyword⟩] else [] := by
  unfold checkThis
  split
  · rfl
  · split
    · rfl
    · exact (List.append_nil _).symm

theorem findings_checkSuper (c : Context) (keyword : Lexeme) (s : State) :
    (checkSuper c keyword s).2.findings = s.findings ++
      match c.classKind with
      | none => [⟨.superOutsideClass, keyword⟩]
      | some .base => [⟨.superWithoutSuperclass, keyword⟩]
      | some .derived => [] := by
  unfold checkSuper
  rcases c.classKind with _ | _ | _
  · rfl
  · rfl
  · exact (List.append_nil _).symm

theorem findings_checkReturn (c : Context) (keyword : Lexeme) (hasValue : Bool) (s : State) :
    (checkReturn c keyword hasValue s).2.findings = s.findings ++
      ((if c.routineKind.isNone then [⟨.topLevelReturn, keyword⟩] else []) ++
        if hasValue && c.routineKind = some .initializer then
          [⟨.valueReturnFromInitializer, keyword⟩] else []) := by
  by_cases top : c.routineKind.isNone = true <;>
    by_cases value : (hasValue && c.routineKind = some .initializer) = true
  · rw [if_pos top, if_pos value, ← List.append_assoc]
    simp only [checkReturn, if_pos top, if_pos value]
    rfl
  · rw [if_pos top, if_neg value, List.append_nil]
    simp only [checkReturn, if_pos top, if_neg value]
    rfl
  · rw [if_neg top, if_pos value, List.nil_append]
    simp only [checkReturn, if_neg top, if_pos value]
    rfl
  · rw [if_neg top, if_neg value, List.append_nil, List.append_nil]
    simp only [checkReturn, if_neg top, if_neg value]
    rfl

theorem findings_checkBreak (c : Context) (keyword : Lexeme) (s : State) :
    (checkBreak c keyword s).2.findings =
      s.findings ++ if c.inLoop then [] else [⟨.breakOutsideLoop, keyword⟩] := by
  unfold checkBreak
  split
  · exact (List.append_nil _).symm
  · rfl

/-! What scoping keeps of the innermost routine and class. -/

namespace Surroundings

variable (S : Surroundings)

theorem class?_eq : S.class? = none ∨ ∃ superclass, S.class? = some (.class superclass) := by
  cases h : S.class? with
  | none => exact .inl rfl
  | some frame =>
    have isClass := List.find?_some h
    cases frame with
    | «class» superclass => exact .inr ⟨superclass, rfl⟩
    | _ => cases isClass

theorem isNone_classKind : S.context.classKind.isNone = S.class?.isNone := by
  obtain h | ⟨_ | superclass, h⟩ := S.class?_eq <;> simp [context, h, Frame.classKind?]

theorem isNone_routineKind : S.context.routineKind.isNone = S.routine?.isNone := by
  simp only [context]
  cases h : S.routine? with
  | none => rfl
  | some frame =>
    have isRoutine := List.find?_some h
    cases frame <;> simp_all [Frame.isRoutine, Frame.routineKind?]

theorem routineKind_classMethod :
    S.context.routineKind = some .classMethod ↔ S.routine?.any Frame.isClassMethod := by
  simp only [context]
  cases h : S.routine? with
  | none => simp
  | some frame =>
    cases frame with
    | method name =>
      by_cases hn : name = initializerName <;> simp [Frame.routineKind?, Frame.isClassMethod, hn]
    | _ => simp [Frame.routineKind?, Frame.isClassMethod]

theorem routineKind_initializer :
    S.context.routineKind = some .initializer ↔ S.routine? = some (.method "init") := by
  simp only [context]
  cases h : S.routine? with
  | none => simp
  | some frame =>
    cases frame with
    | method name =>
      by_cases hn : name = "init" <;> simp [Frame.routineKind?, initializerName, hn]
    | _ => simp [Frame.routineKind?]

end Surroundings

/-! What is wrong with the place of each kind of word. -/

section Words

variable (S : Surroundings) (id : RefId) (name keyword : Lexeme)

theorem misplacements_declaration (initial : Option (Expr RefId)) :
    Mention.misplacements ⟨.declaration name initial, S⟩ =
      if S.names.head?.any (·.contains name.text) then [⟨.alreadyDeclared, name⟩] else [] := by
  have known : S.names.head?.any (·.contains name.text) =
      S.levels.head?.any (·.contains name.text) := by
    cases hl : S.levels <;> simp [Surroundings.names, hl]
  rw [known]
  cases h : S.levels.head?.any (·.contains name.text) <;>
    simp [-List.contains_eq_mem, Mention.misplacements, Fault.placements, Mention.breaks, Word.lexeme, h]

theorem misplacements_read : Mention.misplacements ⟨.read id name, S⟩ = [] := by
  simp [Mention.misplacements, Fault.placements, Mention.breaks]

theorem misplacements_assign : Mention.misplacements ⟨.assign id name, S⟩ = [] := by
  simp [Mention.misplacements, Fault.placements, Mention.breaks]

theorem misplacements_this : Mention.misplacements ⟨.this id keyword, S⟩ =
    if S.context.classKind.isNone then [⟨.thisOutsideClass, keyword⟩]
    else if S.context.routineKind = some .classMethod then [⟨.thisInClassMethod, keyword⟩] else [] := by
  simp only [S.isNone_classKind, S.routineKind_classMethod]
  cases hc : S.class? <;> cases hr : S.routine?.any Frame.isClassMethod <;>
    simp [Mention.misplacements, Fault.placements, Mention.breaks, Word.lexeme, hc, hr]

theorem misplacements_super : Mention.misplacements ⟨.super id keyword, S⟩ =
    match S.context.classKind with
    | none => [⟨.superOutsideClass, keyword⟩]
    | some .base => [⟨.superWithoutSuperclass, keyword⟩]
    | some .derived => [] := by
  obtain hc | ⟨_ | superclass, hc⟩ := S.class?_eq <;>
    simp [Mention.misplacements, Fault.placements, Mention.breaks, Word.lexeme, hc,
      Surroundings.context, Frame.classKind?]

theorem misplacements_inherit (superclass : Lexeme) :
    Mention.misplacements ⟨.inherit id superclass name, S⟩ =
      if superclass.text = name.text then [⟨.inheritsFromItself, superclass⟩] else [] := by
  by_cases h : superclass.text = name.text <;>
    simp [Mention.misplacements, Fault.placements, Mention.breaks, Word.lexeme, h]

theorem misplacements_return (hasValue : Bool) :
    Mention.misplacements ⟨.return keyword hasValue, S⟩ =
      (if S.context.routineKind.isNone then [⟨.topLevelReturn, keyword⟩] else []) ++
        if hasValue && S.context.routineKind = some .initializer then
          [⟨.valueReturnFromInitializer, keyword⟩] else [] := by
  simp only [S.isNone_routineKind, S.routineKind_initializer]
  cases hr : S.routine? with
  | none =>
    cases hasValue <;>
      simp [Mention.misplacements, Fault.placements, Mention.breaks, Word.lexeme, hr]
  | some frame =>
    by_cases hi : frame = .method "init" <;> cases hasValue <;>
      simp [Mention.misplacements, Fault.placements, Mention.breaks, Word.lexeme, hr, hi]

theorem misplacements_break : Mention.misplacements ⟨.break keyword, S⟩ =
    if S.context.inLoop then [] else [⟨.breakOutsideLoop, keyword⟩] := by
  cases h : S.inLoop <;>
    simp [Mention.misplacements, Fault.placements, Mention.breaks, Word.lexeme, Surroundings.context, h]

end Words

variable {α β : Type}

/-- What the computation finds wrong with the places of words is what is wrong with these. -/
structure Places (S : Surroundings) (ds : List String) (ms : List Mention) (p : Scoping α) : Prop
    extends Declares S ds p where
  found : ∀ s, s.names = S.names → placementsOf (p s).2.findings =
    placementsOf s.findings ++ ms.flatMap Mention.misplacements

namespace Places

variable {S : Surroundings} {ds ds' : List String} {ms ms' : List Mention} {p : Scoping α}
  {k : α → Scoping β}

/-- A word that leaves the names as they are. -/
theorem word {m : Mention} (declares : Declares S [] p)
    (h : ∀ s, placementsOf (p s).2.findings = placementsOf s.findings ++ m.misplacements) :
    Places S [] [m] p where
  toDeclares := declares
  found s _ := by
    rw [List.flatMap_singleton]
    exact h s

theorem bind (hp : Places S ds ms p) (hk : ∀ a, Places (S.declare ds) ds' ms' (k a)) :
    Places S (ds ++ ds') (ms ++ ms') (p >>= k) where
  toDeclares := hp.toDeclares.bind fun a => (hk a).toDeclares
  found s hs := by
    have rest := (hk (p s).1).found (p s).2 (hp.names s hs)
    rw [List.flatMap_append, ← List.append_assoc, ← hp.found s hs]
    exact rest

theorem inScope {scope : Scope} {names : List String} (h : Places (S.opened names) ds ms p)
    (hn : scope.names = names.eraseDups) : Places S [] ms (inScope scope p) where
  toDeclares := h.toDeclares.inScope hn
  found s hs := by
    obtain ⟨last, outer, -, -, closed⟩ := h.toDeclares.closes hn hs
    rw [closed, placementsOf_append, placementsOf_unused, List.append_nil]
    exact h.found _ (Surroundings.names_of_opened hn hs)

theorem declaring {name : Lexeme} {initial : Option (Expr RefId)}
    (h : Places (S.declare [name.text]) [] ms p) :
    Places S [name.text] (⟨.declaration name initial, S⟩ :: ms) (declaring name p) where
  toDeclares := h.toDeclares.declaring
  found s hs := by
    change placementsOf (define name (p (declare name s).2).2).2.findings = _
    rw [findings_define, h.found _ (Surroundings.names_of_declared name hs), findings_declare, hs,
      ← misplacements_declaration, placementsOf_append, placementsOf_misplacements, List.flatMap_cons,
      List.append_assoc]

theorem pure (S : Surroundings) (a : α) : Places S [] [] (Pure.pure a : Scoping α) where
  toDeclares := .of_moves (.pure a)
  found _ _ := (List.append_nil _).symm

theorem within {frame : Frame} (h : Places (S.within frame) ds ms p) : Places S ds ms p where
  toDeclares := h.toDeclares.within
  found := h.found

theorem reads (S : Surroundings) (id : RefId) (name : Lexeme) :
    Places S [] [⟨.read id name, S⟩] (read id name) := by
  refine word (.of_moves (Moves.read id name)) fun s => ?_
  rw [misplacements_read, List.append_nil]
  exact placementsOf_read id name s

theorem assigns (S : Surroundings) (id : RefId) (name : Lexeme) :
    Places S [] [⟨.assign id name, S⟩] (Scoping.bind id name) := by
  refine word (.of_moves (Moves.bindRef id name)) fun s => ?_
  rw [misplacements_assign, List.append_nil]
  rfl

theorem this (S : Surroundings) (id : RefId) (keyword : Lexeme) :
    Places S [] [⟨.this id keyword, S⟩] (referThis S.context id keyword) := by
  refine word (.of_moves (.referThis S.context id keyword)) fun s => ?_
  change placementsOf (checkThis S.context keyword s).2.findings = _
  rw [findings_checkThis, placementsOf_append, ← misplacements_this S id, placementsOf_misplacements]

theorem super (S : Surroundings) (id : RefId) (keyword : Lexeme) :
    Places S [] [⟨.super id keyword, S⟩] (referSuper S.context id keyword) := by
  refine word (.of_moves (.referSuper S.context id keyword)) fun s => ?_
  change placementsOf (checkSuper S.context keyword s).2.findings = _
  rw [findings_checkSuper, placementsOf_append, ← misplacements_super S id, placementsOf_misplacements]

theorem inherits (S : Surroundings) (id : RefId) (superclass name : Lexeme) :
    Places S [] [⟨.inherit id superclass name, S⟩] (referAbove name id superclass) := by
  refine word (.referAbove name id superclass) fun s => ?_
  have noted : (if superclass.text = name.text then (note .inheritsFromItself superclass s).2
      else s).findings = s.findings ++ Mention.misplacements ⟨.inherit id superclass name, S⟩ := by
    rw [misplacements_inherit]
    split
    · rfl
    · exact (List.append_nil _).symm
  rw [referAbove_run, placementsOf_read, noted, placementsOf_append, placementsOf_misplacements]

theorem returns (S : Surroundings) (keyword : Lexeme) (hasValue : Bool) :
    Places S [] [⟨.return keyword hasValue, S⟩] (checkReturn S.context keyword hasValue) := by
  refine word (.of_moves (Moves.checkReturn _ keyword hasValue)) fun s => ?_
  rw [findings_checkReturn, ← misplacements_return, placementsOf_append, placementsOf_misplacements]

theorem breaks (S : Surroundings) (keyword : Lexeme) :
    Places S [] [⟨.break keyword, S⟩] (checkBreak S.context keyword) := by
  refine word (.of_moves (Moves.checkBreak _ keyword)) fun s => ?_
  rw [findings_checkBreak, ← misplacements_break, placementsOf_append, placementsOf_misplacements]

end Places

theorem places_closed : Judgment.Closed fun _ S ds ms _ _ _ p => Places S ds ms p where
  pure S _ _ a _ := .pure S a
  bind hp hk := hp.bind hk
  within h := h.within
  block h := h.inScope rfl
  own h := h.inScope rfl
  declaration _ h := h.declaring
  reads := .reads
  assigns := .assigns
  this := .this
  super := .super
  inherits := .inherits
  returns := .returns
  breaks := .breaks

/-- What is found wrong with the places of words is what is wrong with them, in their order. -/
theorem placementsOf_resolve (p : List (Stmt RefId)) : placementsOf (resolve p).findings =
    (Stmt.mentionsAll {} p).flatMap Mention.misplacements := by
  rw [← List.nil_append (List.flatMap _ _)]
  exact (Stmt.resolveAll_judged places_closed {} p).found {} rfl

/-- Such a fault is an error, however unused variables are reported. -/
theorem filter_errors {fault : Fault} (h : fault ∈ Fault.placements) (r : Resolution)
    (unused : Severity) : (r.errors unused).filter (·.fault == fault) =
      (placementsOf r.findings).filter (·.fault == fault) := by
  have error := Fault.ne_unused h
  simp only [Resolution.errors, placementsOf, List.filter_filter]
  congr 1
  funext f
  cases hf : f.fault == fault with
  | false => rfl
  | true => simp [Resolution.isError, eq_of_beq hf, h, error]

/-- The errors of a fault that can be told from a word and what is around it are exactly those of the
words that have it, one for each and in their order. -/
theorem placement_errors_exact (p : List (Stmt RefId)) (unused : Severity) {fault : Fault}
    (h : fault ∈ Fault.placements) : ((resolve p).errors unused).filter (·.fault == fault) =
      ((Stmt.mentionsAll {} p).filter (·.breaks fault)).map fun m => ⟨fault, m.word.lexeme⟩ := by
  rw [filter_errors h, placementsOf_resolve, List.filter_flatMap]
  induction Stmt.mentionsAll {} p with
  | nil => rfl
  | cons m ms ih =>
    rw [List.flatMap_cons, filter_misplacements h, ih]
    by_cases hb : m.breaks fault = true <;> simp [hb]

/-- A loop around a lambda is no loop of it. -/
theorem misplaced_breaks_found :
    let p : List (Stmt RefId) := [
      .while (.literal (.bool true)) (.expr (.lambda 1 ⟨[], [.break ⟨"break", 1⟩]⟩)), .break ⟨"break", 2⟩]
    Fault.breakOutsideLoop ∈ Fault.placements ∧
      ((resolve p).errors .warning).filter (·.fault == .breakOutsideLoop) =
        [⟨.breakOutsideLoop, ⟨"break", 1⟩⟩, ⟨.breakOutsideLoop, ⟨"break", 2⟩⟩] := by
  intro p
  refine ⟨by decide, ?_⟩
  rw [placement_errors_exact p .warning (by decide)]
  rfl

/-! Class methods. -/

def Frame.isMember : Frame → Bool
  | .method _ | .classMethod _ => true
  | _ => false

/-- In the body of a class method, however deep, but not in a method of a class declared there. -/
def Surroundings.inClassMethod (S : Surroundings) : Bool :=
  (S.frames.find? Frame.isMember).any Frame.isClassMethod

/-- Between a place and the member of a class that it is in there may be functions and lambdas only. -/
theorem Surroundings.routine?_inClassMethod {S : Surroundings} (h : S.inClassMethod) :
    S.routine?.any Frame.isClassMethod ∨ S.routine? = some .function ∨ S.routine? = some .lambda := by
  obtain ⟨levels, frames⟩ := S
  simp only [inClassMethod, routine?] at *
  induction frames with
  | nil => cases h
  | cons frame frames ih =>
    cases frame with
    | loop | «class» => exact ih h
    | function => exact .inr (.inl rfl)
    | lambda => exact .inr (.inr rfl)
    | method | classMethod => exact .inl h

theorem breaks_of_accepted {p : List (Stmt RefId)} {unused : Severity}
    (accepted : (resolve p).errors unused = []) {m : Mention} (hm : m ∈ Stmt.mentionsAll {} p)
    (fault : Fault) (h : fault ∈ Fault.placements) : m.breaks fault = false := by
  by_contra hb
  have misplaced : ⟨fault, m.word.lexeme⟩ ∈ m.misplacements :=
    List.mem_map_of_mem (List.mem_filter.mpr ⟨h, eq_true_of_ne_false hb⟩)
  have placed : ⟨fault, m.word.lexeme⟩ ∈ placementsOf (resolve p).findings := by
    rw [placementsOf_resolve]
    exact List.mem_flatMap_of_mem hm misplaced
  exact Fault.ne_unused h (Clean.of_errors accepted _ (List.mem_of_mem_filter placed))

/-- In an accepted program the words `this` in the body of a class method, apart from those in methods
of classes declared there, are all in functions and lambdas. -/
theorem this_in_class_method_nested {p : List (Stmt RefId)} {unused : Severity}
    (accepted : (resolve p).errors unused = []) {m : Mention} (hm : m ∈ Stmt.mentionsAll {} p)
    {id : RefId} {keyword : Lexeme} (hw : m.word = .this id keyword) (inside : m.around.inClassMethod) :
    m.around.routine? = some .function ∨ m.around.routine? = some .lambda := by
  obtain ⟨word, S⟩ := m
  obtain rfl : word = .this id keyword := hw
  have inClass : S.class?.isSome := by
    simpa [Mention.breaks] using breaks_of_accepted accepted hm .thisOutsideClass (by decide)
  have allowed : S.routine?.any Frame.isClassMethod = false := by
    simpa [Mention.breaks, inClass] using breaks_of_accepted accepted hm .thisInClassMethod (by decide)
  exact (Surroundings.routine?_inClassMethod inside).resolve_left (by simp [allowed])

theorem this_in_function_of_class_method :
    let p : List (Stmt RefId) := [.class ⟨"A", 1⟩ none []
      [⟨⟨"m", 1⟩, [], [.function ⟨⟨"f", 1⟩, [], [.expr (.this 0 ⟨"this", 1⟩)]⟩]⟩]]
    let S : Surroundings := ⟨[[], ["f"], ["this"]], [.function, .classMethod "m", .class none]⟩
    (resolve p).errors .warning = [] ∧ S.inClassMethod ∧
      (S.routine? = some .function ∨ S.routine? = some .lambda) := by
  intro p S
  have accepted : (resolve p).errors .warning = [] := by decide
  have mentioned : ⟨.this 0 ⟨"this", 1⟩, S⟩ ∈ Stmt.mentionsAll {} p := List.mem_of_getElem? (i := 2) rfl
  exact ⟨accepted, rfl, this_in_class_method_nested accepted mentioned rfl rfl⟩

/-- A function of a class method may have the word inside. -/
theorem this_in_class_method_accepted :
    let p := (parse (scan "class A { class m() { fun f() { return this; } return f(); } }").tokens 0)
    p.errors = [] ∧ (resolve p.statements).errors .error = [] ∧
      (Stmt.mentionsAll {} p.statements).any fun m =>
        m.word matches .this _ _ && m.around.inClassMethod := by
  decide +kernel

end Scoping

end Lox
