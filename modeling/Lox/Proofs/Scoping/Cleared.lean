import Lox.Proofs.Scoping.Unread

/-!
References and variables that are never read. Where scoping comes to a phrase, some variables of each
scope around it will not have been read in the end. A reference that reads is bound to a variable that
will have been read, so never to one that is reported.
-/

namespace Lox

namespace Scoping

/-- Names of variables that are never read, scope by scope outwards. -/
abbrev Marks := List (List String)

def Marks.at (Δ : Marks) (distance : Nat) : List String := Δ.getD distance []

/-- Nothing has been read under these names. -/
def Clears (Δ : Marks) (scopes : List Scope) : Prop :=
  ∀ distance name, Read scopes distance name → name ∉ Δ.at distance

/-- The names that are never read behind the clause of a class that names the one above. -/
def Marks.behindClause {α : Type} : Option α → Marks → Marks
  | none, Δ => Δ
  | some _, Δ => [] :: Δ

/-- The names that are never read, inside of the phrase. -/
def Phrase.inside : Phrase → Marks → Marks
  | .stmt (.block b), Δ => (Routine.ownScope ⟨[], b⟩).unread :: Δ
  | .routine _ r, Δ => r.ownScope.unread :: Δ
  | .stmt (.class _ superclass _ _), Δ => [] :: Marks.behindClause superclass Δ
  | _, Δ => Δ

/-- Under these names, what is found for the name is none of these. -/
def Marks.Spares (Δ : Marks) (Γ : Names) (name : String) : Prop :=
  ∀ b, Γ.binding? name = some b → name ∉ Δ.at b.distance

/-- At this visit, nothing is read under these names in what is left of the scopes. -/
structure Cleared (p : List (Stmt RefId)) (Δ : Marks) (v : Visit) : Prop where
  visited : Visited p v
  fine : ∀ scope ∈ v.state.scopes, scope.Fine
  clears : Clears Δ (v.phrase.resolve v.context v.state).2.scopes

section

variable {α : Type} {q : Scoping α} {Δ : Marks} {s : State}

/-- What has not been read in the end was not read before. -/
theorem Clears.before (alone : Alone q q) (fine : ∀ scope ∈ s.scopes, scope.Fine)
    (h : Clears Δ (q s).2.scopes) : Clears Δ s.scopes :=
  fun distance name hr => h distance name ((alone.advance fine).read hr)

theorem Clears.cons {scopes : List Scope} {scope : Scope} {marks : List String} (h : Clears Δ scopes)
    (hs : ∀ name, scope.Read name → name ∉ marks) : Clears (marks :: Δ) (scope :: scopes) := by
  rintro (_ | distance) name hr
  · exact hs name ((read_head _ _ _).mp hr)
  · exact h distance name hr

theorem Clears.own {scopes : List Scope} {scope : Scope} (fine : scope.Fine) (h : Clears Δ scopes) :
    Clears (scope.unread :: Δ) (scope :: scopes) := h.cons fun _ => fine.notMem_unread

theorem Clears.free {scopes : List Scope} (scope : Scope) (h : Clears Δ scopes) :
    Clears ([] :: Δ) (scope :: scopes) := h.cons fun _ _ => List.not_mem_nil

end

theorem fine_opened {s : State} {scope : Scope} (h : ∀ scope ∈ s.scopes, scope.Fine)
    (hs : scope.Fine) : ∀ x ∈ (s.opened scope).scopes, Scope.Fine x :=
  List.forall_mem_cons.mpr ⟨hs, h⟩

theorem Alone.announce {name : Lexeme} (ordinary : name.Ordinary) :
    Alone (announce name) (Scoping.announce name) :=
  (Alone.declare ordinary).bind fun _ _ => .define name

theorem Alone.inherit {name : Lexeme} (ordinary : name.Ordinary) (id : RefId) (superclass : Lexeme) :
    Alone (inherit name id superclass) (Scoping.inherit name id superclass) := by
  refine (Alone.announce ordinary).bind fun _ _ => ?_
  split
  · exact (Alone.note _ _).bind fun _ _ => .read id superclass
  · exact .read id superclass

/-- Inside of a class none of its own variables is among the slots. -/
theorem Clears.ofOwn {α : Type} {p : Scoping α} {Δ : Marks} {s : State} {name : String}
    (alone : Alone p p) (h : Clears Δ (inScopeOf name p s).2.scopes) :
    Clears ([] :: Δ) (p (s.opened (.ofName name))).2.scopes := by
  obtain ⟨outer, opened, closed, -⟩ := alone.opened (Scope.fine_own name) s
  have after : Clears Δ outer := by
    rw [← closed]
    exact h
  have inside : (p (s.opened (.ofName name))).2.scopes = _ := opened
  rw [inside]
  exact after.free _

/-- Inside of a scope its own unread variables are among the slots. -/
theorem Clears.ofScope {α β : Type} {p : Scoping α} {q : Scoping β} {Δ : Marks} {s : State}
    (alone : Alone p q) (h : Clears Δ (inScope [] p s).2.scopes) :
    Clears (((q ⟨[[]], []⟩).2.scopes.headD []).unread :: Δ) (p (s.opened [])).2.scopes := by
  obtain ⟨outer, opened, closed, -⟩ := alone.opened Scope.fine_nil s
  rw [opened]
  exact (closed ▸ h : Clears Δ outer).own (alone.fine_last Scope.fine_nil)

section Bound

variable {name : String} {scopes : List Scope} {b : Binding}

theorem exists_of_binding? (h : binding? name scopes = some b) :
    ∃ scope v, scopes[b.distance]? = some scope ∧ scope[b.slot]? = some v ∧ v.name.text = name := by
  induction scopes generalizing b with
  | nil => cases h
  | cons scope scopes ih =>
    rw [binding?] at h
    cases hs : scope.slot? name with
    | none =>
      rw [hs] at h
      obtain ⟨b, hb, rfl⟩ := Option.map_eq_some_iff.mp h
      exact ih hb
    | some slot =>
      rw [hs] at h
      cases h
      obtain ⟨hlt, hn, -⟩ := List.findIdx?_eq_some_iff_getElem.mp hs
      exact ⟨scope, scope[slot], rfl, List.getElem?_eq_getElem hlt, beq_iff_eq.mp hn⟩

end Bound

section Spares

variable {Δ : Marks} {s : State}

/-- A name that has just been read. -/
theorem Clears.spares {name : String} (h : Clears Δ (markUsed name s.scopes)) :
    Δ.Spares s.names name := by
  intro b hb
  rw [State.names, binding?_names] at hb
  exact h b.distance name (read_markUsed.mpr (.inr ⟨rfl, by simp [hb]⟩))

/-- What the language itself declares counts as read. -/
theorem Clears.spares_own {name : String} (own : ¬ ∀ line, Lexeme.Ordinary ⟨name, line⟩)
    (fine : ∀ scope ∈ s.scopes, scope.Fine) (h : Clears Δ s.scopes) : Δ.Spares s.names name := by
  intro b hb
  rw [State.names, binding?_names] at hb
  obtain ⟨scope, v, hs, hv, rfl⟩ := exists_of_binding? hb
  have used := ((fine scope (List.mem_of_getElem? hs)).read v (List.mem_of_getElem? hv)).resolve_left
    fun ordinary => own fun _ => ordinary
  exact h b.distance v.name.text ⟨scope, hs, v, List.mem_of_getElem? hv, rfl, used⟩

theorem scopes_inherit (name : Lexeme) (id : RefId) (superclass : Lexeme) (s : State) :
    (inherit name id superclass s).2.scopes =
      markUsed superclass.text (announce name s).2.scopes := by
  by_cases he : superclass.text = name.text
  · have noted : inherit name id superclass s =
        read id superclass (note .inheritsFromItself superclass (announce name s).2).2 := by
      rw [inherit, if_pos he]
      rfl
    rw [noted, Alone.scopes_read]
    rfl
  · have answered : inherit name id superclass s = read id superclass (announce name s).2 := by
      rw [inherit, if_neg he]
      rfl
    rw [answered, Alone.scopes_read]

end Spares

namespace Cleared

variable {p : List (Stmt RefId)} {Δ : Marks} {v w : Visit}

/-- The phrase stands where scoping comes to it. -/
theorem stands {c : Context} {s : State} {phrase : Phrase} (h : Cleared p Δ ⟨c, s, phrase⟩) :
    Stands p c s.names phrase := ⟨s, rfl, h.visited⟩

theorem program (p : List (Stmt RefId)) : Cleared p [] ⟨{}, {}, .stmts p⟩ where
  visited := Relation.ReflTransGen.refl
  fine _ h := nomatch h
  clears _ _ _ := List.not_mem_nil

/-- What is never read around a phrase is never read inside of it, and the same can be said of its own
scopes. -/
theorem enter (hp : Faultless p) (h : Cleared p Δ v) (he : v.Enters w) :
    Cleared p (v.phrase.inside Δ) w := by
  have t := (hp.visited h.visited).tidy
  have visited := h.visited.tail he
  obtain ⟨-, fine, clears⟩ := h
  suffices h : (∀ scope ∈ w.state.scopes, scope.Fine) ∧
      Clears (v.phrase.inside Δ) (w.phrase.resolve w.context w.state).2.scopes from
    ⟨visited, h.1, h.2⟩
  cases he with
  | first c s e es =>
    have head := Expr.resolve_alone c c t.1
    exact ⟨fine, .before (Expr.resolveAll_alone c c t.2) (head.fine_after fine) clears⟩
  | rest c s e es => exact ⟨(Expr.resolve_alone c c t.1).fine_after fine, clears⟩
  | assigned c s id name e => exact ⟨fine, clears⟩
  | operand c s op sign e => exact ⟨fine, clears⟩
  | left c s op sign l r | either c s op sign l r =>
    have left := Expr.resolve_alone c c t.1
    exact ⟨fine, .before (Expr.resolve_alone c c t.2) (left.fine_after fine) clears⟩
  | right c s op sign l r | other c s op sign l r =>
    exact ⟨(Expr.resolve_alone c c t.1).fine_after fine, clears⟩
  | condition c s e y n =>
    have condition := (Expr.resolve_alone c c t.1).fine_after fine
    have yes := (Expr.resolve_alone c c t.2.1).fine_after condition
    exact ⟨fine, .before (Expr.resolve_alone c c t.2.1) condition
      (.before (Expr.resolve_alone c c t.2.2) yes clears)⟩
  | yes c s e y n =>
    have condition := (Expr.resolve_alone c c t.1).fine_after fine
    have yes := (Expr.resolve_alone c c t.2.1).fine_after condition
    exact ⟨condition, .before (Expr.resolve_alone c c t.2.2) yes clears⟩
  | no c s e y n =>
    have condition := (Expr.resolve_alone c c t.1).fine_after fine
    exact ⟨(Expr.resolve_alone c c t.2.1).fine_after condition, clears⟩
  | inner c s e => exact ⟨fine, clears⟩
  | callee c s e es line =>
    have callee := Expr.resolve_alone c c t.1
    exact ⟨fine, .before (Expr.resolveAll_alone c c t.2) (callee.fine_after fine) clears⟩
  | arguments c s e es line => exact ⟨(Expr.resolve_alone c c t.1).fine_after fine, clears⟩
  | object c s o name => exact ⟨fine, clears⟩
  | value c s o name e =>
    have value := Expr.resolve_alone c c t.2
    exact ⟨fine, .before (Expr.resolve_alone c c t.1) (value.fine_after fine) clears⟩
  | target c s o name e => exact ⟨(Expr.resolve_alone c c t.2).fine_after fine, clears⟩
  | lambda c s line r => exact ⟨fine, clears⟩
  | head c s a ss =>
    have head := Stmt.resolve_alone c c t.1
    exact ⟨fine, .before (Stmt.resolveAll_alone c c t.2) (head.fine_after fine) clears⟩
  | tail c s a ss => exact ⟨(Stmt.resolve_alone c c t.1).fine_after fine, clears⟩
  | expr c s e | print c s e => exact ⟨fine, clears⟩
  | initial c s name e =>
    have declared := (Alone.declare t.1).fine_after fine
    have initial := (Expr.resolve_alone c c t.2).fine_after declared
    exact ⟨declared, .before (.define name) initial clears⟩
  | block c s b =>
    exact ⟨fine_opened fine Scope.fine_nil,
      .ofScope ((Alone.pure () ()).bind fun _ _ => Stmt.resolveAll_alone c {} t) clears⟩
  | test c s e y n =>
    cases n with
    | none =>
      have condition := Expr.resolve_alone c c t.1
      exact ⟨fine, .before (Stmt.resolve_alone c c t.2.1) (condition.fine_after fine) clears⟩
    | some n =>
      have condition := (Expr.resolve_alone c c t.1).fine_after fine
      have yes := (Stmt.resolve_alone c c t.2.1.1).fine_after condition
      exact ⟨fine, .before (Stmt.resolve_alone c c t.2.1.1) condition
        (.before (Stmt.resolve_alone c c t.2.2.1) yes clears)⟩
  | consequent c s e y n =>
    have condition : Alone (e.resolve c) (e.resolve c) := by
      cases n <;> exact Expr.resolve_alone c c t.1
    have condition := condition.fine_after fine
    cases n with
    | none => exact ⟨condition, clears⟩
    | some n =>
      have yes := (Stmt.resolve_alone c c t.2.1.1).fine_after condition
      exact ⟨condition, .before (Stmt.resolve_alone c c t.2.2.1) yes clears⟩
  | alternative c s e y n =>
    have condition := (Expr.resolve_alone c c t.1).fine_after fine
    exact ⟨(Stmt.resolve_alone c c t.2.1.1).fine_after condition, clears⟩
  | guard c s e b =>
    have condition := Expr.resolve_alone c c t.1
    exact ⟨fine, .before (Stmt.resolve_alone _ _ t.2.1) (condition.fine_after fine) clears⟩
  | body c s e b => exact ⟨(Expr.resolve_alone c c t.1).fine_after fine, clears⟩
  | answer c s keyword e =>
    exact ⟨(Alone.checkReturn c c keyword true).fine_after fine, clears⟩
  | function c s name r => exact ⟨(Alone.announce t.1).fine_after fine, clears⟩
  | methods c s name ms cs =>
    have members := gather_alone { c with classKind := some .base } t.2.1 t.2.2 Prod.mk Prod.mk
    have opened := fine_opened ((Alone.announce t.1).fine_after fine) (Scope.fine_own "this")
    have inside := Clears.ofOwn members clears
    exact ⟨opened, .before (Definition.resolveClassMethods_alone _ _ t.2.2)
      ((Definition.resolveMethods_alone _ _ t.2.1).fine_after opened) inside⟩
  | classMethods c s name ms cs =>
    have members := gather_alone { c with classKind := some .base } t.2.1 t.2.2 Prod.mk Prod.mk
    have opened := fine_opened ((Alone.announce t.1).fine_after fine) (Scope.fine_own "this")
    exact ⟨(Definition.resolveMethods_alone _ _ t.2.1).fine_after opened,
      Clears.ofOwn members clears⟩
  | derivedMethods c s name id superclass ms cs =>
    have members := gather_alone { c with classKind := some .derived } t.2.1 t.2.2 Prod.mk Prod.mk
    have opened := fine_opened (fine_opened ((Alone.inherit t.1 id superclass).fine_after fine)
      (Scope.fine_own "super")) (Scope.fine_own "this")
    simp only [Phrase.resolve, resolve_derived] at clears
    have inside := Clears.ofOwn members (.ofOwn (.inScope (Scope.fine_own "this") members) clears)
    exact ⟨opened, .before (Definition.resolveClassMethods_alone _ _ t.2.2)
      ((Definition.resolveMethods_alone _ _ t.2.1).fine_after opened) inside⟩
  | derivedClassMethods c s name id superclass ms cs =>
    have members := gather_alone { c with classKind := some .derived } t.2.1 t.2.2 Prod.mk Prod.mk
    have opened := fine_opened (fine_opened ((Alone.inherit t.1 id superclass).fine_after fine)
      (Scope.fine_own "super")) (Scope.fine_own "this")
    simp only [Phrase.resolve, resolve_derived] at clears
    exact ⟨(Definition.resolveMethods_alone _ _ t.2.1).fine_after opened,
      Clears.ofOwn members (.ofOwn (.inScope (Scope.fine_own "this") members) clears)⟩
  | statements c s kind params b =>
    have params := Alone.declareAll t.1
    have body := Stmt.resolveAll_alone { c with routineKind := some kind, inLoop := false } {} t.2
    exact ⟨params.fine_after (fine_opened fine Scope.fine_nil),
      .ofScope (params.bind fun _ _ => body.ret (fun _ => ()) id) clears⟩
  | method c s name r ms =>
    have method := Routine.resolve_alone c c (methodKind name) (methodKind name) t.1.2
    exact ⟨fine, .before (Definition.resolveMethods_alone c c t.2) (method.fine_after fine) clears⟩
  | laterMethods c s name r ms =>
    exact ⟨(Routine.resolve_alone c c _ (methodKind name) t.1.2).fine_after fine, clears⟩
  | classMethod c s name r ms =>
    have method := Routine.resolve_alone c c .classMethod .classMethod t.1.2
    exact ⟨fine, .before (Definition.resolveClassMethods_alone c c t.2) (method.fine_after fine)
      clears⟩
  | laterClassMethods c s name r ms =>
    exact ⟨(Routine.resolve_alone c c .classMethod .classMethod t.1.2).fine_after fine, clears⟩

/-! References that read. -/

variable {c : Context} {s : State}

theorem reads {id : RefId} {name : Lexeme} (h : Cleared p Δ ⟨c, s, .expr (.variable id name)⟩) :
    Δ.Spares s.names name.text :=
  Clears.spares (Alone.scopes_read id name s ▸ h.clears)

/-- The class above and the receiver. -/
theorem super {id : RefId} {keyword method : Lexeme}
    (h : Cleared p Δ ⟨c, s, .expr (.super id keyword method)⟩) :
    Δ.Spares s.names "super" ∧ Δ.Spares s.names "this" := by
  have clears : Clears Δ s.scopes := .before (.checkSuper c c keyword) h.fine h.clears
  exact ⟨clears.spares_own (fun ordinary => (ordinary 0).2 rfl) h.fine,
    clears.spares_own (fun ordinary => (ordinary 0).1 rfl) h.fine⟩

variable (hp : Faultless p)

include hp

theorem this {id : RefId} {keyword : Lexeme} (h : Cleared p Δ ⟨c, s, .expr (.this id keyword)⟩) :
    Δ.Spares s.names keyword.text := by
  obtain ⟨text, -⟩ := h.stands.this hp
  have clears : Clears Δ s.scopes := .before (.checkThis c c keyword) h.fine h.clears
  exact clears.spares_own (fun ordinary => (ordinary 0).1 text) h.fine

theorem inherits {id : RefId} {name superclass : Lexeme} {ms cs : List (Definition RefId)}
    (h : Cleared p Δ ⟨c, s, .stmt (.class name (some (id, superclass)) ms cs)⟩) :
    Δ.Spares s.names superclass.text := by
  have sound := hp.visited h.visited
  have t := sound.tidy
  have clears := h.clears
  have clean := sound.clean
  simp only [Phrase.resolve, resolve_derived] at clears clean
  have members := gather_alone { c with classKind := some .derived } t.2.1 t.2.2 Prod.mk Prod.mk
  have moves := members_moves { c with classKind := some .derived } t.2.1 t.2.2
  have inherited : Clears Δ (inherit name id superclass s).2.scopes :=
    .before (.inScope (Scope.fine_own "super") (.inScope (Scope.fine_own "this") members))
      ((Alone.inherit t.1 id superclass).fine_after h.fine) clears
  obtain ⟨-, differs, -⟩ := inherit_clean (clean.of_prefix
    (((moves.inScope (.ofName "this") .id).inScope (.ofName "super") .id).findings _))
  rw [scopes_inherit] at inherited
  have spares : Δ.Spares (announce name s).2.names superclass.text := inherited.spares
  rwa [(announce_moves name).names s, Marks.Spares, Names.binding?_declare_of_ne differs] at spares

/-! The methods of a class. -/

theorem method {ms : List (Definition RefId)} (h : Cleared p Δ ⟨c, s, .methods ms⟩) :
    ∀ m ∈ ms, ∃ t kind, t.names = s.names ∧ Cleared p Δ ⟨c, t, .routine kind m.routine⟩ := by
  induction ms generalizing s with
  | nil => exact fun m hm => nomatch hm
  | cons first ms ih =>
    obtain ⟨name, r⟩ := first
    have tidy := (hp.visited h.visited).tidy
    refine List.forall_mem_cons.mpr
      ⟨⟨s, methodKind name, rfl, h.enter hp (.method c s name r ms)⟩, fun m hm => ?_⟩
    obtain ⟨t, kind, names, cleared⟩ := ih (h.enter hp (.laterMethods c s name r ms)) m hm
    exact ⟨t, kind, names.trans ((Routine.resolve_moves c (methodKind name) tidy.1.2).names s), cleared⟩

theorem classMethod {ms : List (Definition RefId)} (h : Cleared p Δ ⟨c, s, .classMethods ms⟩) :
    ∀ m ∈ ms, ∃ t kind, t.names = s.names ∧ Cleared p Δ ⟨c, t, .routine kind m.routine⟩ := by
  induction ms generalizing s with
  | nil => exact fun m hm => nomatch hm
  | cons first ms ih =>
    obtain ⟨name, r⟩ := first
    have tidy := (hp.visited h.visited).tidy
    refine List.forall_mem_cons.mpr
      ⟨⟨s, .classMethod, rfl, h.enter hp (.classMethod c s name r ms)⟩, fun m hm => ?_⟩
    obtain ⟨t, kind, names, cleared⟩ := ih (h.enter hp (.laterClassMethods c s name r ms)) m hm
    exact ⟨t, kind, names.trans ((Routine.resolve_moves c .classMethod tidy.1.2).names s), cleared⟩

theorem members {name : Lexeme} {superclass : Option (RefId × Lexeme)} {ms cs : List (Definition RefId)}
    (h : Cleared p Δ ⟨c, s, .stmt (.class name superclass ms cs)⟩) :
    ∀ m ∈ ms ++ cs, ∃ c t kind,
      t.names = ["this"] :: Names.behindClause superclass (s.names.declare name.text) ∧
      Cleared p ([] :: Marks.behindClause superclass Δ) ⟨c, t, .routine kind m.routine⟩ := by
  have tidy := (hp.visited h.visited).tidy
  -- both lists start in states with the same names
  have both {c : Context} {s₁ s₂ : State} {Γ : Names} {Δ : Marks} (names₁ : s₁.names = Γ)
      (names₂ : s₂.names = Γ) (methods : Cleared p Δ ⟨c, s₁, .methods ms⟩)
      (classMethods : Cleared p Δ ⟨c, s₂, .classMethods cs⟩) :
      ∀ m ∈ ms ++ cs, ∃ c t kind, t.names = Γ ∧ Cleared p Δ ⟨c, t, .routine kind m.routine⟩ := by
    intro m hm
    obtain hm | hm := List.mem_append.mp hm
    · obtain ⟨t, kind, names, cleared⟩ := methods.method hp m hm
      exact ⟨c, t, kind, names.trans names₁, cleared⟩
    · obtain ⟨t, kind, names, cleared⟩ := classMethods.classMethod hp m hm
      exact ⟨c, t, kind, names.trans names₂, cleared⟩
  cases superclass with
  | none =>
    have names : ((announce name s).2.opened (.ofName "this")).names =
        ["this"] :: s.names.declare name.text := by
      rw [names_opened, (announce_moves name).names s]
      rfl
    exact both names (((Definition.resolveMethods_moves _ tidy.2.1).names _).trans names)
      (h.enter hp (.methods c s name ms cs)) (h.enter hp (.classMethods c s name ms cs))
  | some clause =>
    obtain ⟨id, superclass⟩ := clause
    have names : (((inherit name id superclass s).2.opened (.ofName "super")).opened
        (.ofName "this")).names = ["this"] :: ["super"] :: s.names.declare name.text := by
      rw [names_opened, names_opened, (inherit_moves name id superclass).names s]
      rfl
    exact both names (((Definition.resolveMethods_moves _ tidy.2.1).names _).trans names)
      (h.enter hp (.derivedMethods c s name id superclass ms cs))
      (h.enter hp (.derivedClassMethods c s name id superclass ms cs))

end Cleared

/-! Phrases without scopes and declarations of their own. -/

def Phrase.isFlat : Phrase → Bool
  | .expr _ | .exprs _ | .stmt (.expr _) | .stmt (.print _) | .stmt (.if _ _ _) | .stmt (.while _ _)
  | .stmt (.return _ _) => true
  | _ => false

theorem Phrase.inside_of_isFlat {phrase : Phrase} (flat : phrase.isFlat = true) (Δ : Marks) :
    phrase.inside Δ = Δ := by
  unfold inside
  split
  · cases flat
  · cases flat
  · cases flat
  · rfl

theorem Visit.Enters.names {v w : Visit} (he : v.Enters w) (t : v.phrase.Tidy)
    (flat : v.phrase.isFlat = true) : w.state.names = v.state.names := by
  cases he with
  | rest c s e es | right c s op sign l r | other c s op sign l r | arguments c s e es line
  | yes c s e y n | body c s e b => exact (Expr.resolve_moves c t.1).names s
  | target c s o name e => exact (Expr.resolve_moves c t.2).names s
  | no c s e y n =>
    exact ((Expr.resolve_moves c t.2.1).names _).trans ((Expr.resolve_moves c t.1).names s)
  | consequent c s e y n => cases n <;> exact (Expr.resolve_moves c t.1).names s
  | alternative c s e y n =>
    refine ((Stmt.resolve_moves c t.2.1.1).names _).trans ?_
    rw [Stmt.after_of_not_declaration t.2.1.2]
    exact (Expr.resolve_moves c t.1).names s
  | answer c s keyword e => exact (Moves.checkReturn c keyword true).names s
  | first | assigned | operand | left | either | condition | inner | callee | object | value | lambda
  | expr | print | test | guard => rfl
  | _ => cases flat

end Scoping

end Lox
