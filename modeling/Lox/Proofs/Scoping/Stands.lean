import Lox.Proofs.Scoping.Visits
import Lox.Session

/-!
Where phrases stand. A phrase stands in a program in a context and under the names that scoping has
declared when it comes to it. In a program without faults each phrase stands so that its declarations
are new to their scopes and its jumps and words of classes have something around them to concern.
-/

namespace Lox

open Scoping

namespace Names

/-- None of the names is in the innermost scope when its turn to be declared comes. -/
def FreshAll (Γ : Names) : List Lexeme → Prop
  | [] => True
  | name :: names => Γ.Fresh name.text ∧ FreshAll (Γ.declare name.text) names

/-- The names behind the clause of a class that names the one above. -/
def behindClause {α : Type} : Option α → Names → Names
  | none, Γ => Γ
  | some _, Γ => ["super"] :: Γ

end Names

/-- The program is as the grammar makes it, and nothing is wrong with its scoping. -/
structure Faultless (p : Program) : Prop where
  tidy : Stmt.TidyAll p
  clean : Clean (resolve p).findings

theorem Faultless.visited {p : Program} (hp : Faultless p) {v : Visit} (hv : Visited p v) :
    v.Sound (resolve p).references := by
  induction hv with
  | refl => exact ⟨hp.tidy, hp.clean, List.Subset.refl _, fun h => nomatch h⟩
  | tail _ enters ih => exact enters.sound ih

/-- Scoping comes to the phrase in this context, when it has declared these names. -/
def Stands (p : Program) (c : Context) (Γ : Names) (phrase : Phrase) : Prop :=
  ∃ s : State, s.names = Γ ∧ Visited p ⟨c, s, phrase⟩

theorem Stands.program (p : Program) : Stands p {} [] (.stmts p) :=
  ⟨{}, rfl, Relation.ReflTransGen.refl⟩

/-! What scoping has noted when it is through with a word. -/

namespace Scoping

variable {s : State}

theorem fresh_of_clean {name : Lexeme} (h : Clean (declare name s).2.findings) :
    s.names.Fresh name.text := by
  obtain ⟨_ | ⟨scope, outer⟩, fs⟩ := s
  · trivial
  · intro hm
    rw [declare_run] at h
    simp only [if_pos hm] at h
    exact nomatch h _ (List.mem_append_right fs List.mem_cons_self)

theorem freshAll_of_clean {names : List Lexeme} (h : Clean (declareAll names s).2.findings) :
    s.names.FreshAll names := by
  induction names generalizing s with
  | nil => trivial
  | cons name names ih =>
    have declared : (define name (declare name s).2).2.names = s.names.declare name.text :=
      (announce_moves name).names s
    have first : Clean (declare name s).2.findings :=
      h.of_prefix (((Moves.define name).bind fun _ => Moves.declareAll names).findings _)
    exact ⟨fresh_of_clean first, declared ▸ ih h⟩

theorem fault_of_clean_note {fault : Fault} {place : Lexeme}
    (h : Clean (note fault place s).2.findings) : fault = .unusedVariable :=
  h ⟨fault, place⟩ (List.mem_append_right _ List.mem_cons_self)

theorem classKind_of_checkThis {c : Context} {keyword : Lexeme}
    (h : Clean (checkThis c keyword s).2.findings) : c.classKind.isSome := by
  unfold checkThis at h
  rcases hk : c.classKind with _ | kind
  · simp only [hk, Option.isNone_none, if_true] at h
    cases fault_of_clean_note h
  · rfl

theorem classKind_of_checkSuper {c : Context} {keyword : Lexeme}
    (h : Clean (checkSuper c keyword s).2.findings) : c.classKind = some .derived := by
  unfold checkSuper at h
  rcases hk : c.classKind with _ | _ | _ <;> simp only [hk] at h
  · cases fault_of_clean_note h
  · cases fault_of_clean_note h
  · rfl

theorem inLoop_of_checkBreak {c : Context} {keyword : Lexeme}
    (h : Clean (checkBreak c keyword s).2.findings) : c.inLoop := by
  unfold checkBreak at h
  by_contra hc
  rw [if_neg hc] at h
  cases fault_of_clean_note h

theorem routineKind_of_checkReturn {c : Context} {keyword : Lexeme} {hasValue : Bool}
    (h : Clean (checkReturn c keyword hasValue s).2.findings) :
    c.routineKind.isSome ∧ (hasValue → c.routineKind ≠ some .initializer) := by
  rcases hk : c.routineKind with _ | kind
  · have noted : (checkReturn c keyword hasValue s).2.findings =
        s.findings ++ [⟨.topLevelReturn, keyword⟩] := by
      simp only [checkReturn, hk, Option.isNone_none, if_true, reduceCtorEq, decide_false,
        Bool.and_false, Bool.false_eq_true, if_false]
      rfl
    rw [noted] at h
    exact nomatch h _ (List.mem_append_right _ List.mem_cons_self)
  · refine ⟨rfl, fun hv hi => ?_⟩
    have noted : (checkReturn c keyword hasValue s).2.findings =
        s.findings ++ [⟨.valueReturnFromInitializer, keyword⟩] := by
      simp only [checkReturn, hk, hi, hv, Option.isNone_some, Bool.false_eq_true, if_false,
        decide_true, Bool.and_self, if_true]
      rfl
    rw [noted] at h
    exact nomatch h _ (List.mem_append_right _ List.mem_cons_self)

theorem lookup_names (scopes : List Scope) (name : String) :
    binding? name scopes = Names.binding? name (scopes.map Scope.names) :=
  (binding?_names name scopes).symm

/-- The binding that a reference gets where it reads. -/
theorem read_answers (id : RefId) (name : Lexeme) (s : State) :
    (read id name s).1 = ⟨id, s.names.binding? name.text⟩ := by
  rw [read_run]

theorem bind_answers (id : RefId) (name : Lexeme) {s t : State} (h : t.names = s.names) :
    (bind id name t).1 = ⟨id, s.names.binding? name.text⟩ := by
  change Reference.mk id (binding? name.text t.scopes) = _
  rw [lookup_names, ← h]
  rfl

/-- The clause of a class is right only if it names another class, and then it refers to what is
outside of the class. -/
theorem inherit_clean {name superclass : Lexeme} {id : RefId}
    (h : Clean (inherit name id superclass s).2.findings) :
    Clean (announce name s).2.findings ∧ superclass.text ≠ name.text ∧
      (inherit name id superclass s).1 =
        ⟨id, (s.names.declare name.text).binding? superclass.text⟩ := by
  by_cases he : superclass.text = name.text
  · have noted : (inherit name id superclass s) =
        read id superclass (note .inheritsFromItself superclass (announce name s).2).2 := by
      simp only [inherit, if_pos he]
      rfl
    rw [noted] at h
    cases fault_of_clean_note (h.of_prefix ((Moves.read id superclass).findings _))
  · have answered : inherit name id superclass s = read id superclass (announce name s).2 := by
      simp only [inherit, if_neg he]
      rfl
    rw [answered] at h ⊢
    refine ⟨h.of_prefix ((Moves.read id superclass).findings _), he, ?_⟩
    rw [read_answers, (announce_moves name).names s]

end Scoping

namespace Stands

variable {p : Program} {c : Context} {Γ : Names} (hp : Faultless p)

include hp

theorem sound {phrase : Phrase} (h : Stands p c Γ phrase) :
    ∃ s : State, s.names = Γ ∧ Visit.Sound (resolve p).references ⟨c, s, phrase⟩ := by
  obtain ⟨s, hs, hv⟩ := h
  exact ⟨s, hs, hp.visited hv⟩

theorem tidy {phrase : Phrase} (h : Stands p c Γ phrase) : phrase.Tidy := by
  obtain ⟨s, _, hv⟩ := h.sound hp
  exact hv.tidy

theorem enter {phrase inner : Phrase} {d : Context} {Δ : Names} (h : Stands p c Γ phrase)
    (he : ∀ s : State, s.names = Γ → phrase.Tidy →
      ∃ t : State, t.names = Δ ∧ Visit.Enters ⟨c, s, phrase⟩ ⟨d, t, inner⟩) :
    Stands p d Δ inner := by
  obtain ⟨s, hs, hv⟩ := h
  obtain ⟨t, ht, enters⟩ := he s hs (hp.visited hv).tidy
  exact ⟨t, ht, hv.tail enters⟩

/-! Expressions. -/

theorem exprs {e : Expr RefId} {es : List (Expr RefId)} (h : Stands p c Γ (.exprs (e :: es))) :
    Stands p c Γ (.expr e) ∧ Stands p c Γ (.exprs es) :=
  ⟨h.enter hp fun s hs _ => ⟨s, hs, .first c s e es⟩,
    h.enter hp fun s hs t => ⟨_, ((Expr.resolve_moves c t.1).names s).trans hs, .rest c s e es⟩⟩

theorem assigned {id : RefId} {name : Lexeme} {e : Expr RefId}
    (h : Stands p c Γ (.expr (.assign id name e))) : Stands p c Γ (.expr e) :=
  h.enter hp fun s hs _ => ⟨s, hs, .assigned c s id name e⟩

theorem unary {op : UnaryOp} {sign : Lexeme} {e : Expr RefId}
    (h : Stands p c Γ (.expr (.unary op sign e))) : Stands p c Γ (.expr e) :=
  h.enter hp fun s hs _ => ⟨s, hs, .operand c s op sign e⟩

theorem binary {op : BinaryOp} {sign : Lexeme} {l r : Expr RefId}
    (h : Stands p c Γ (.expr (.binary op sign l r))) :
    Stands p c Γ (.expr l) ∧ Stands p c Γ (.expr r) :=
  ⟨h.enter hp fun s hs _ => ⟨s, hs, .left c s op sign l r⟩,
    h.enter hp fun s hs t =>
      ⟨_, ((Expr.resolve_moves c t.1).names s).trans hs, .right c s op sign l r⟩⟩

theorem logical {op : LogicalOp} {sign : Lexeme} {l r : Expr RefId}
    (h : Stands p c Γ (.expr (.logical op sign l r))) :
    Stands p c Γ (.expr l) ∧ Stands p c Γ (.expr r) :=
  ⟨h.enter hp fun s hs _ => ⟨s, hs, .either c s op sign l r⟩,
    h.enter hp fun s hs t =>
      ⟨_, ((Expr.resolve_moves c t.1).names s).trans hs, .other c s op sign l r⟩⟩

theorem ternary {e y n : Expr RefId} (h : Stands p c Γ (.expr (.ternary e y n))) :
    Stands p c Γ (.expr e) ∧ Stands p c Γ (.expr y) ∧ Stands p c Γ (.expr n) :=
  ⟨h.enter hp fun s hs _ => ⟨s, hs, .condition c s e y n⟩,
    h.enter hp fun s hs t => ⟨_, ((Expr.resolve_moves c t.1).names s).trans hs, .yes c s e y n⟩,
    h.enter hp fun s hs t => ⟨_, ((Expr.resolve_moves c t.2.1).names _).trans
      (((Expr.resolve_moves c t.1).names s).trans hs), .no c s e y n⟩⟩

theorem group {e : Expr RefId} (h : Stands p c Γ (.expr (.group e))) : Stands p c Γ (.expr e) :=
  h.enter hp fun s hs _ => ⟨s, hs, .inner c s e⟩

theorem call {e : Expr RefId} {es : List (Expr RefId)} {line : Nat}
    (h : Stands p c Γ (.expr (.call e es line))) :
    Stands p c Γ (.expr e) ∧ Stands p c Γ (.exprs es) :=
  ⟨h.enter hp fun s hs _ => ⟨s, hs, .callee c s e es line⟩,
    h.enter hp fun s hs t =>
      ⟨_, ((Expr.resolve_moves c t.1).names s).trans hs, .arguments c s e es line⟩⟩

theorem get {o : Expr RefId} {name : Lexeme} (h : Stands p c Γ (.expr (.get o name))) :
    Stands p c Γ (.expr o) :=
  h.enter hp fun s hs _ => ⟨s, hs, .object c s o name⟩

theorem set {o e : Expr RefId} {name : Lexeme} (h : Stands p c Γ (.expr (.set o name e))) :
    Stands p c Γ (.expr o) ∧ Stands p c Γ (.expr e) :=
  ⟨h.enter hp fun s hs t =>
      ⟨_, ((Expr.resolve_moves c t.2).names s).trans hs, .target c s o name e⟩,
    h.enter hp fun s hs _ => ⟨s, hs, .value c s o name e⟩⟩

theorem lambda {line : Nat} {r : Routine RefId} (h : Stands p c Γ (.expr (.lambda line r))) :
    Stands p c Γ (.routine .lambda r) :=
  h.enter hp fun s hs _ => ⟨s, hs, .lambda c s line r⟩

/-! Statements. -/

theorem stmts {a : Stmt RefId} {ss : List (Stmt RefId)} (h : Stands p c Γ (.stmts (a :: ss))) :
    Stands p c Γ (.stmt a) ∧ Stands p c (a.after Γ) (.stmts ss) :=
  ⟨h.enter hp fun s hs _ => ⟨s, hs, .head c s a ss⟩,
    h.enter hp fun s hs t => ⟨_, by rw [(Stmt.resolve_moves c t.1).names s, hs], .tail c s a ss⟩⟩

theorem expr {e : Expr RefId} (h : Stands p c Γ (.stmt (.expr e))) : Stands p c Γ (.expr e) :=
  h.enter hp fun s hs _ => ⟨s, hs, .expr c s e⟩

theorem print {e : Expr RefId} (h : Stands p c Γ (.stmt (.print e))) : Stands p c Γ (.expr e) :=
  h.enter hp fun s hs _ => ⟨s, hs, .print c s e⟩

theorem initial {name : Lexeme} {e : Expr RefId} (h : Stands p c Γ (.stmt (.var name (some e)))) :
    Stands p c (Γ.declare name.text) (.expr e) :=
  h.enter hp fun s hs _ => ⟨_, by rw [(Moves.declare name).names s, hs], .initial c s name e⟩

theorem block {b : List (Stmt RefId)} (h : Stands p c Γ (.stmt (.block b))) :
    Stands p c ([] :: Γ) (.stmts b) :=
  h.enter hp fun s hs _ => ⟨s.opened [], congrArg ([] :: ·) hs, .block c s b⟩

theorem condition {e : Expr RefId} {y : Stmt RefId} {n : Option (Stmt RefId)}
    (h : Stands p c Γ (.stmt (.if e y n))) : Stands p c Γ (.expr e) :=
  h.enter hp fun s hs _ => ⟨s, hs, .test c s e y n⟩

theorem yes {e : Expr RefId} {y : Stmt RefId} {n : Option (Stmt RefId)}
    (h : Stands p c Γ (.stmt (.if e y n))) : Stands p c Γ (.stmt y) ∧ y.isDeclaration = false := by
  have t := h.tidy hp
  refine ⟨h.enter hp fun s hs t => ⟨_, ?_, .consequent c s e y n⟩, ?_⟩
  · cases n with
    | none => exact ((Expr.resolve_moves c t.1).names s).trans hs
    | some n => exact ((Expr.resolve_moves c t.1).names s).trans hs
  · cases n with
    | none => exact t.2.2
    | some n => exact t.2.1.2

theorem no {e : Expr RefId} {y n : Stmt RefId} (h : Stands p c Γ (.stmt (.if e y (some n)))) :
    Stands p c Γ (.stmt n) ∧ n.isDeclaration = false := by
  refine ⟨h.enter hp fun s hs t => ⟨_, ?_, .alternative c s e y n⟩, (h.tidy hp).2.2.2⟩
  rw [(Stmt.resolve_moves c t.2.1.1).names, Stmt.after_of_not_declaration t.2.1.2]
  exact ((Expr.resolve_moves c t.1).names s).trans hs

theorem loop {e : Expr RefId} {b : Stmt RefId} (h : Stands p c Γ (.stmt (.while e b))) :
    Stands p c Γ (.expr e) ∧ Stands p { c with inLoop := true } Γ (.stmt b) ∧
      b.isDeclaration = false :=
  ⟨h.enter hp fun s hs _ => ⟨s, hs, .guard c s e b⟩,
    h.enter hp fun s hs t => ⟨_, ((Expr.resolve_moves c t.1).names s).trans hs, .body c s e b⟩,
    (h.tidy hp).2.2⟩

theorem answer {keyword : Lexeme} {e : Expr RefId}
    (h : Stands p c Γ (.stmt (.return keyword (some e)))) : Stands p c Γ (.expr e) :=
  h.enter hp fun s hs _ =>
    ⟨_, ((Moves.checkReturn c keyword true).names s).trans hs, .answer c s keyword e⟩

theorem function {name : Lexeme} {r : Routine RefId} (h : Stands p c Γ (.stmt (.function ⟨name, r⟩))) :
    Stands p c (Γ.declare name.text) (.routine .function r) :=
  h.enter hp fun s hs _ => ⟨_, by rw [(announce_moves name).names s, hs], .function c s name r⟩

theorem statements {kind : RoutineKind} {params : List Lexeme} {b : List (Stmt RefId)}
    (h : Stands p c Γ (.routine kind ⟨params, b⟩)) :
    Stands p { c with routineKind := some kind, inLoop := false }
      (Names.declareAll params ([] :: Γ)) (.stmts b) :=
  h.enter hp fun s hs _ => ⟨_, by rw [(Moves.declareAll params).names, names_opened, hs]; rfl,
    .statements c s kind params b⟩

theorem method {ms : List (Definition RefId)} (h : Stands p c Γ (.methods ms)) :
    ∀ m ∈ ms, Stands p c Γ (.routine (methodKind m.name) m.routine) := by
  induction ms with
  | nil =>
    intro m hm
    cases hm
  | cons first ms ih =>
    obtain ⟨name, r⟩ := first
    intro m hm
    obtain rfl | hm := List.mem_cons.mp hm
    · exact h.enter hp fun s hs _ => ⟨s, hs, .method c s name r ms⟩
    · refine ih (h.enter hp fun s hs t => ⟨_, ?_, .laterMethods c s name r ms⟩) m hm
      exact ((Routine.resolve_moves c (methodKind name) t.1.2).names s).trans hs

theorem classMethod {ms : List (Definition RefId)} (h : Stands p c Γ (.classMethods ms)) :
    ∀ m ∈ ms, Stands p c Γ (.routine .classMethod m.routine) := by
  induction ms with
  | nil =>
    intro m hm
    cases hm
  | cons first ms ih =>
    obtain ⟨name, r⟩ := first
    intro m hm
    obtain rfl | hm := List.mem_cons.mp hm
    · exact h.enter hp fun s hs _ => ⟨s, hs, .classMethod c s name r ms⟩
    · refine ih (h.enter hp fun s hs t => ⟨_, ?_, .laterClassMethods c s name r ms⟩) m hm
      exact ((Routine.resolve_moves c .classMethod t.1.2).names s).trans hs

theorem members {name : Lexeme} {superclass : Option (RefId × Lexeme)}
    {ms cs : List (Definition RefId)} (h : Stands p c Γ (.stmt (.class name superclass ms cs))) :
    ∃ d : Context,
      Stands p d (["this"] :: Names.behindClause superclass (Γ.declare name.text)) (.methods ms) ∧
      Stands p d (["this"] :: Names.behindClause superclass (Γ.declare name.text))
        (.classMethods cs) := by
  cases superclass with
  | none =>
    have names (s : State) (hs : s.names = Γ) :
        ((announce name s).2.opened (.ofName "this")).names = ["this"] :: Γ.declare name.text := by
      rw [names_opened, (announce_moves name).names s, hs]
      rfl
    exact ⟨{ c with classKind := some .base },
      h.enter hp fun s hs _ => ⟨_, names s hs, .methods c s name ms cs⟩,
      h.enter hp fun s hs t =>
        ⟨_, ((Definition.resolveMethods_moves _ t.2.1).names _).trans (names s hs),
          .classMethods c s name ms cs⟩⟩
  | some clause =>
    obtain ⟨id, superclass⟩ := clause
    have names (s : State) (hs : s.names = Γ) :
        (((inherit name id superclass s).2.opened (.ofName "super")).opened (.ofName "this")).names =
          ["this"] :: ["super"] :: Γ.declare name.text := by
      rw [names_opened, names_opened, (inherit_moves name id superclass).names s, hs]
      rfl
    exact ⟨{ c with classKind := some .derived },
      h.enter hp fun s hs _ => ⟨_, names s hs, .derivedMethods c s name id superclass ms cs⟩,
      h.enter hp fun s hs t =>
        ⟨_, ((Definition.resolveMethods_moves _ t.2.1).names _).trans (names s hs),
          .derivedClassMethods c s name id superclass ms cs⟩⟩

/-! What a faultless program says of its words. -/

theorem reads {id : RefId} {name : Lexeme} (h : Stands p c Γ (.expr (.variable id name))) :
    ⟨id, Γ.binding? name.text⟩ ∈ (resolve p).references := by
  obtain ⟨s, rfl, hv⟩ := h.sound hp
  exact hv.bound (read_answers id name s ▸ List.mem_cons_self)

theorem assigns {id : RefId} {name : Lexeme} {e : Expr RefId}
    (h : Stands p c Γ (.expr (.assign id name e))) :
    ⟨id, Γ.binding? name.text⟩ ∈ (resolve p).references ∧ name.Ordinary := by
  obtain ⟨s, rfl, hv⟩ := h.sound hp
  exact ⟨hv.bound (bind_answers id name ((Expr.resolve_moves c hv.tidy.2).names s) ▸
    List.mem_cons_self), hv.tidy.1⟩

theorem this {id : RefId} {keyword : Lexeme} (h : Stands p c Γ (.expr (.this id keyword))) :
    keyword.text = "this" ∧ ∃ d, Γ.binding? "this" = some ⟨d, 0⟩ ∧
      ⟨id, Γ.binding? "this"⟩ ∈ (resolve p).references := by
  obtain ⟨s, rfl, hv⟩ := h.sound hp
  have text : keyword.text = "this" := hv.tidy
  obtain ⟨d, hd, _⟩ := hv.fits (classKind_of_checkThis hv.clean)
  refine ⟨text, d, hd, hv.bound ?_⟩
  exact text ▸ bind_answers id keyword ((Moves.checkThis c keyword).names s) ▸ List.mem_cons_self

theorem super {id : RefId} {keyword method : Lexeme}
    (h : Stands p c Γ (.expr (.super id keyword method))) :
    keyword.text = "super" ∧ ∃ d, Γ.binding? "this" = some ⟨d, 0⟩ ∧
      Γ.binding? "super" = some ⟨d + 1, 0⟩ ∧
      ⟨id, Γ.binding? "super"⟩ ∈ (resolve p).references := by
  obtain ⟨s, rfl, hv⟩ := h.sound hp
  have text : keyword.text = "super" := hv.tidy
  have derived := classKind_of_checkSuper hv.clean
  obtain ⟨d, hd, hs⟩ := hv.fits (by rw [derived]; rfl)
  refine ⟨text, d, hd, hs derived, hv.bound ?_⟩
  exact text ▸ bind_answers id keyword ((Moves.checkSuper c keyword).names s) ▸ List.mem_cons_self

theorem breaks {keyword : Lexeme} (h : Stands p c Γ (.stmt (.break keyword))) : c.inLoop := by
  obtain ⟨s, rfl, hv⟩ := h.sound hp
  exact inLoop_of_checkBreak hv.clean

theorem returns {keyword : Lexeme} {value : Option (Expr RefId)}
    (h : Stands p c Γ (.stmt (.return keyword value))) :
    c.routineKind.isSome ∧ (value.isSome → c.routineKind ≠ some .initializer) := by
  obtain ⟨s, rfl, hv⟩ := h.sound hp
  cases value with
  | none => exact ⟨(routineKind_of_checkReturn hv.clean).1, fun h => nomatch h⟩
  | some e =>
    have checked : Clean (checkReturn c keyword true s).2.findings :=
      hv.clean.of_prefix ((Expr.resolve_moves c hv.tidy).findings _)
    obtain ⟨inside, value⟩ := routineKind_of_checkReturn checked
    exact ⟨inside, fun _ => value rfl⟩

theorem declares {name : Lexeme} {initial : Option (Expr RefId)}
    (h : Stands p c Γ (.stmt (.var name initial))) : Γ.Fresh name.text ∧ name.Ordinary := by
  obtain ⟨s, rfl, hv⟩ := h.sound hp
  cases initial with
  | none => exact ⟨fresh_of_clean (hv.clean.of_prefix ((Moves.define name).findings _)), hv.tidy⟩
  | some e =>
    have rest := (Expr.resolve_moves c hv.tidy.2).bind fun _ => Moves.define name
    exact ⟨fresh_of_clean (hv.clean.of_prefix (rest.findings _)), hv.tidy.1⟩

theorem names {name : Lexeme} {r : Routine RefId} (h : Stands p c Γ (.stmt (.function ⟨name, r⟩))) :
    Γ.Fresh name.text ∧ name.Ordinary := by
  obtain ⟨s, rfl, hv⟩ := h.sound hp
  have rest := (Moves.define name).bind fun _ => Routine.resolve_moves c .function hv.tidy.2
  exact ⟨fresh_of_clean (hv.clean.of_prefix (rest.findings _)), hv.tidy.1⟩

theorem inherits {name superclass : Lexeme} {id : RefId} {ms cs : List (Definition RefId)}
    (h : Stands p c Γ (.stmt (.class name (some (id, superclass)) ms cs))) :
    Γ.Fresh name.text ∧ name.Ordinary ∧ ⟨id, Γ.binding? superclass.text⟩ ∈ (resolve p).references := by
  obtain ⟨s, rfl, hv⟩ := h.sound hp
  have clean := hv.clean
  have bound := hv.bound
  simp only [Phrase.resolve, resolve_derived] at clean bound
  have inherited : Clean (inherit name id superclass s).2.findings := by
    have body := (members_moves { c with classKind := some .derived } hv.tidy.2.1 hv.tidy.2.2)
    have scopes := (body.inScope (.ofName "this") .id).inScope (.ofName "super") .id
    exact clean.of_prefix (scopes.findings _)
  obtain ⟨announced, differs, answers⟩ := inherit_clean inherited
  refine ⟨fresh_of_clean (announced.of_prefix ((Moves.define name).findings _)), hv.tidy.1, ?_⟩
  rw [← Names.binding?_declare_of_ne differs, ← answers]
  exact bound (List.mem_append_left _ (List.mem_append_left _ List.mem_cons_self))

theorem defines {name : Lexeme} {superclass : Option (RefId × Lexeme)} {ms cs : List (Definition RefId)}
    (h : Stands p c Γ (.stmt (.class name superclass ms cs))) :
    Γ.Fresh name.text ∧ name.Ordinary := by
  cases superclass with
  | some clause => exact ⟨(h.inherits hp).1, (h.inherits hp).2.1⟩
  | none =>
    obtain ⟨s, rfl, hv⟩ := h.sound hp
    have body := (members_moves { c with classKind := some .base } hv.tidy.2.1 hv.tidy.2.2)
    have rest := (Moves.define name).bind fun _ => body.inScope (.ofName "this") .id
    exact ⟨fresh_of_clean (hv.clean.of_prefix (rest.findings _)), hv.tidy.1⟩

theorem params {kind : RoutineKind} {r : Routine RefId} (h : Stands p c Γ (.routine kind r)) :
    Names.FreshAll ([] :: Γ) r.params ∧ ∀ name ∈ r.params, name.Ordinary := by
  obtain ⟨s, rfl, hv⟩ := h.sound hp
  obtain ⟨params, body⟩ := r
  have moves := (Moves.declareAll params).bind fun _ =>
    Stmt.resolveAll_moves { c with routineKind := some kind, inLoop := false } hv.tidy.2
  have inside := moves.findings_inScope []
    ((Names.Inner.declareAll params).comp (Stmt.inner_afterAll body)) s
  have first := (Stmt.resolveAll_moves { c with routineKind := some kind, inLoop := false }
    hv.tidy.2).findings (declareAll params (s.opened [])).2
  exact ⟨freshAll_of_clean (s := s.opened []) (hv.clean.of_prefix (first.trans inside)), hv.tidy.1⟩

end Stands

end Lox
