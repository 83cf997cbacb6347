import Lox.Proofs.Scoping.Alone
import Lox.Proofs.Scoping.Stands

/-!
The variables that are never read. A block and a routine leave their own scope in the same state
wherever they stand, so that it can be told from them alone which of its variables are never read. Scope
after scope, these are the variables that scoping reports as unused.
-/

namespace Lox

namespace Scoping

/-- The names of the variables that are found unused when the scope is closed. -/
def Scope.unread (scope : Scope) : List String := scope.unused.map (·.place.text)

/-- A name that is read and one that is found unused are not the same, for a scope has a name once. -/
theorem Scope.Fine.notMem_unread {scope : Scope} (h : scope.Fine) {name : String}
    (hr : scope.Read name) : name ∉ scope.unread := by
  intro hm
  rw [unread, unused, List.map_map] at hm
  obtain ⟨w, hw, rfl⟩ := List.mem_map.mp hm
  obtain ⟨v, hv, hn, used⟩ := hr
  obtain ⟨member, unread⟩ := List.mem_filter.mp hw
  obtain rfl : w = v := Scope.unique h.nodup hv member hn.symm
  simp [used] at unread

end Scoping

open Scoping

/-- The scope of a routine as its statements leave it, which they do wherever it stands. A block is in
this like a routine without parameters. -/
def Routine.ownScope : Routine RefId → Scope
  | ⟨params, body⟩ =>
    ((do declareAll params; Stmt.resolveAll {} body : Scoping _) ⟨[[]], []⟩).2.scopes.headD []

example : (Routine.ownScope
    ⟨[⟨"a", 1⟩, ⟨"b", 1⟩], [.print (.variable 0 ⟨"a", 1⟩)]⟩).unread = ["b"] := by decide

mutual

/-- The scopes of the blocks and routines in a tree, in the order in which scoping closes them. -/
def Expr.scopes : Expr RefId → List Scope
  | .literal _ | .variable _ _ | .this _ _ | .super _ _ _ => []
  | .assign _ _ e | .unary _ _ e | .group e | .get e _ => e.scopes
  | .binary _ _ l r | .logical _ _ l r => l.scopes ++ r.scopes
  | .ternary c y n => c.scopes ++ (y.scopes ++ n.scopes)
  | .call c as _ => c.scopes ++ Expr.scopesAll as
  | .set o _ e => e.scopes ++ o.scopes
  | .lambda _ r => r.scopes

def Expr.scopesAll : List (Expr RefId) → List Scope
  | [] => []
  | e :: es => e.scopes ++ Expr.scopesAll es

def Stmt.scopes : Stmt RefId → List Scope
  | .expr e | .print e => e.scopes
  | .var _ none | .break _ | .return _ none => []
  | .var _ (some e) | .return _ (some e) => e.scopes
  | .block b => Stmt.scopesAll b ++ [Routine.ownScope ⟨[], b⟩]
  | .if c y none => c.scopes ++ y.scopes
  | .if c y (some n) => c.scopes ++ (y.scopes ++ n.scopes)
  | .while c b => c.scopes ++ b.scopes
  | .function d => d.scopes
  | .class _ _ ms cs => Definition.scopesAll ms ++ Definition.scopesAll cs

def Stmt.scopesAll : List (Stmt RefId) → List Scope
  | [] => []
  | s :: ss => s.scopes ++ Stmt.scopesAll ss

def Routine.scopes : Routine RefId → List Scope
  | ⟨params, body⟩ => Stmt.scopesAll body ++ [Routine.ownScope ⟨params, body⟩]

def Definition.scopes : Definition RefId → List Scope
  | ⟨_, r⟩ => r.scopes

def Definition.scopesAll : List (Definition RefId) → List Scope
  | [] => []
  | d :: ds => d.scopes ++ Definition.scopesAll ds

end

namespace Scoping

variable {α β γ : Type}

/-- The findings about unused variables. -/
def unusedOf (fs : List Finding) : List Finding := fs.filter (·.fault == .unusedVariable)

theorem unusedOf_append (fs gs : List Finding) : unusedOf (fs ++ gs) = unusedOf fs ++ unusedOf gs :=
  List.filter_append fs gs

theorem Scope.unusedOf_unused (scope : Scope) : unusedOf scope.unused = scope.unused := by
  rw [unusedOf, List.filter_eq_self]
  intro f hf
  obtain ⟨v, _, rfl⟩ := List.mem_map.mp hf
  rfl

theorem Alone.advance {p : Scoping α} (h : Alone p p) {s : State}
    (fine : ∀ scope ∈ s.scopes, scope.Fine) : Advance s.scopes (p s).2.scopes := by
  obtain ⟨_, _, -, hp, advance⟩ := h s.scopes [] [] s.findings fine
  exact hp ▸ advance

theorem Alone.fine_after {p : Scoping α} (h : Alone p p) {s : State}
    (fine : ∀ scope ∈ s.scopes, scope.Fine) : ∀ scope ∈ (p s).2.scopes, scope.Fine :=
  (h.advance fine).fine

/-- The innermost scope, when a phrase that can stand alone has ended in it. -/
theorem Alone.opened {p : Scoping α} {q : Scoping β} (h : Alone p q) {scope : Scope}
    (fine : scope.Fine) (s : State) :
    ∃ outer, (p (s.opened scope)).2.scopes =
      (q ⟨[scope], []⟩).2.scopes.headD [] :: outer ∧
      (Scoping.inScope scope p s).2.scopes = outer ∧
      (Scoping.inScope scope p s).2.findings = (p (s.opened scope)).2.findings ++
        ((q ⟨[scope], []⟩).2.scopes.headD []).unused := by
  obtain ⟨inner, outer, hp, hq, advance⟩ := h [scope] s.scopes s.findings []
    (List.forall_mem_singleton.mpr fine)
  obtain ⟨last, rfl⟩ := List.length_eq_one_iff.mp advance.length
  have ended : (p (s.opened scope)).2.scopes = last :: outer := hp
  refine ⟨outer, ?_, ?_, ?_⟩
  · rw [ended, hq]
    rfl
  · exact congrArg State.scopes (inScope_closed ended)
  · rw [inScope_closed ended, hq]
    rfl

theorem Alone.fine_last {p : Scoping α} {q : Scoping β} (h : Alone p q) {scope : Scope}
    (fine : scope.Fine) : ((q ⟨[scope], []⟩).2.scopes.headD []).Fine := by
  obtain ⟨inner, _, -, hq, advance⟩ := h [scope] [] [] [] (List.forall_mem_singleton.mpr fine)
  obtain ⟨last, rfl⟩ := List.length_eq_one_iff.mp advance.length
  rw [hq]
  exact advance.fine last (List.mem_singleton_self _)

/-- The members of a class, and what is made of them. -/
def gather (c : Context) (ms cs : List (Definition RefId))
    (f : List (Definition Reference) → List (Definition Reference) → α) : Scoping α := do
  return f (← Definition.resolveMethods c ms) (← Definition.resolveClassMethods c cs)

section Members

variable (c : Context) {ms cs : List (Definition RefId)} (hm : Definition.TidyAll ms)
  (hc : Definition.TidyAll cs)

include hm hc

theorem gather_alone (f g : List (Definition Reference) → List (Definition Reference) → α) :
    Alone (gather c ms cs f) (gather c ms cs g) :=
  (Definition.resolveMethods_alone c c hm).bind fun _ _ =>
    (Definition.resolveClassMethods_alone c c hc).ret _ _

theorem gather_moves (f : List (Definition Reference) → List (Definition Reference) → α) :
    Moves (gather c ms cs f) id :=
  (Definition.resolveMethods_moves c hm).bind fun _ =>
    (Definition.resolveClassMethods_moves c hc).bind fun _ => .pure _

end Members

/-- What the phrase finds unused are the variables that are not read in these scopes. -/
def Leaves (p : Scoping α) (scopes : List Scope) : Prop :=
  ∀ s : State, (∀ scope ∈ s.scopes, scope.Fine) →
    unusedOf (p s).2.findings = unusedOf s.findings ++ scopes.flatMap Scope.unused

namespace Leaves

variable {p : Scoping α} {q : Scoping γ} {k : α → Scoping β} {scopes more : List Scope}

theorem nothing (h : ∀ s, unusedOf (p s).2.findings = unusedOf s.findings) : Leaves p [] :=
  fun s _ => (h s).trans (List.append_nil _).symm

theorem pure (a : α) : Leaves (Pure.pure a) [] := nothing fun _ => rfl

theorem bind (alone : Alone p p) (hp : Leaves p scopes) (hk : ∀ a, Leaves (k a) more) :
    Leaves (p >>= k) (scopes ++ more) := by
  intro s fine
  have first := hp s fine
  have second := hk (p s).1 (p s).2 (alone.fine_after fine)
  rw [first, List.append_assoc, ← List.flatMap_append] at second
  exact second

/-- A phrase and something that finds nothing. -/
theorem bindNothing (alone : Alone p p) (hp : Leaves p scopes) (hk : ∀ a, Leaves (k a) []) :
    Leaves (p >>= k) scopes := by
  have h := hp.bind alone hk
  rwa [List.append_nil] at h

/-- A phrase behind something that finds nothing. -/
theorem skip (alone : Alone p p) (hp : Leaves p []) (hk : ∀ a, Leaves (k a) more) :
    Leaves (p >>= k) more := hp.bind alone hk

theorem ret (hp : Leaves p scopes) (f : α → β) : Leaves (do return f (← p)) scopes :=
  fun s fine => hp s fine

theorem note {fault : Fault} (h : fault ≠ .unusedVariable) (place : Lexeme) :
    Leaves (note fault place) [] := by
  refine nothing fun s => ?_
  change unusedOf (s.findings ++ [⟨fault, place⟩]) = _
  rw [unusedOf_append]
  simp [unusedOf, h]

theorem define (name : Lexeme) : Leaves (define name) [] := by
  refine nothing ?_
  rintro ⟨_ | ⟨scope, outer⟩, fs⟩ <;> rfl

theorem declare (name : Lexeme) : Leaves (declare name) [] := by
  rintro ⟨_ | ⟨scope, outer⟩, fs⟩ fine
  · exact (List.append_nil _).symm
  · change unusedOf ((if (scope.slot? name.text).isSome then Scoping.note .alreadyDeclared name
      else Scoping.modifyScope (· ++ [⟨name, .declared⟩])) ⟨scope :: outer, fs⟩).2.findings = _
    split
    · exact note (by decide) name ⟨scope :: outer, fs⟩ fine
    · exact (List.append_nil _).symm

theorem declareAll {names : List Lexeme} (ordinary : ∀ name ∈ names, name.Ordinary) :
    Leaves (declareAll names) [] := by
  induction names with
  | nil => exact pure ()
  | cons name names ih =>
    obtain ⟨first, rest⟩ := List.forall_mem_cons.mp ordinary
    exact (declare name).bind (.declare first) fun _ => (define name).bind (.define name) fun _ =>
      ih rest

theorem bindRef (id : RefId) (name : Lexeme) : Leaves (Scoping.bind id name) [] :=
  nothing fun _ => rfl

theorem read (id : RefId) (name : Lexeme) : Leaves (read id name) [] := by
  refine nothing fun s => ?_
  rw [read_run, unusedOf_append]
  split <;> exact List.append_nil _

theorem checkThis (c : Context) (keyword : Lexeme) : Leaves (checkThis c keyword) [] := by
  unfold Scoping.checkThis
  split
  · exact note (by decide) keyword
  · split
    · exact note (by decide) keyword
    · exact pure ()

theorem checkSuper (c : Context) (keyword : Lexeme) : Leaves (checkSuper c keyword) [] := by
  unfold Scoping.checkSuper
  rcases c.classKind with _ | _ | _
  · exact note (by decide) keyword
  · exact note (by decide) keyword
  · exact pure ()

theorem checkReturn (c : Context) (keyword : Lexeme) (hasValue : Bool) :
    Leaves (checkReturn c keyword hasValue) [] := by
  have valued : Leaves (if hasValue && c.routineKind = some .initializer then
      Scoping.note .valueReturnFromInitializer keyword else Pure.pure ()) [] := by
    split
    · exact note (by decide) keyword
    · exact pure ()
  unfold Scoping.checkReturn
  by_cases h : c.routineKind.isNone = true
  · rw [if_pos h]
    exact (note (by decide) keyword).bind (.note _ _) fun _ => valued
  · rw [if_neg h]
    exact valued

theorem checkBreak (c : Context) (keyword : Lexeme) : Leaves (checkBreak c keyword) [] := by
  unfold Scoping.checkBreak
  split
  · exact pure ()
  · exact note (by decide) keyword

/-- A phrase in a scope of its own, which the other phrase leaves in the same state. -/
theorem inScope {scope : Scope} (fine : scope.Fine) (alone : Alone p q) (hp : Leaves p scopes) :
    Leaves (inScope scope p) (scopes ++ [(q ⟨[scope], []⟩).2.scopes.headD []]) := by
  intro s outer_fine
  obtain ⟨_, -, -, found⟩ := alone.opened fine s
  have inside := hp (s.opened scope) (List.forall_mem_cons.mpr ⟨fine, outer_fine⟩)
  rw [found, unusedOf_append, Scope.unusedOf_unused, inside, List.append_assoc, List.flatMap_append,
    List.flatMap_singleton]
  rfl

/-- The variable that the language itself declares is never found unused. -/
theorem inScopeOf (name : String) (alone : Alone p p) (moves : Moves p id) (hp : Leaves p scopes) :
    Leaves (inScopeOf name p) scopes := by
  have own := inScope (Scope.fine_own name) alone hp
  have advance := alone.advance (s := ⟨[[⟨⟨name, 0⟩, .used⟩]], []⟩)
    (List.forall_mem_singleton.mpr (Scope.fine_own name))
  have names : (p ⟨[[⟨⟨name, 0⟩, .used⟩]], []⟩).2.scopes.map Scope.names = [[name]] :=
    moves.names ⟨[[⟨⟨name, 0⟩, .used⟩]], []⟩
  have read : Read _ 0 name := advance.read ⟨_, rfl, _, List.mem_singleton_self _, rfl, rfl⟩
  obtain ⟨last, hl⟩ := List.length_eq_one_iff.mp advance.length
  rw [hl] at names read
  obtain ⟨v, rfl⟩ : ∃ v, last = [v] := by
    have length := congrArg List.length (List.singleton_inj.mp names)
    rw [Scope.names, List.length_map] at length
    exact List.length_eq_one_iff.mp length
  obtain ⟨scope, hs, w, hw, -, used⟩ := read
  obtain rfl : [v] = scope := Option.some.inj hs
  obtain rfl : w = v := List.mem_singleton.mp hw
  intro s outer_fine
  rw [Scoping.inScopeOf, own s outer_fine, hl, List.flatMap_append, List.flatMap_singleton,
    List.headD_cons, Scope.unused, List.filter_cons_of_neg (by simp [used]), List.filter_nil,
    List.map_nil, List.append_nil]

end Leaves

end Scoping

open Scoping

mutual

theorem Expr.resolve_leaves : ∀ (c : Context) {e : Expr RefId}, e.Tidy →
    Leaves (e.resolve c) e.scopes
  | _, .literal _, _ => .pure _
  | _, .variable id name, _ => (Leaves.read id name).ret _
  | c, .assign id name _, h => (Expr.resolve_leaves c h.2).bindNothing (Expr.resolve_alone c c h.2)
    fun _ => (Leaves.bindRef id name).ret _
  | c, .this id keyword, _ => (Leaves.checkThis c keyword).skip (.checkThis c c keyword) fun _ =>
    (Leaves.bindRef id keyword).ret _
  | c, .super id keyword _, _ => (Leaves.checkSuper c keyword).skip (.checkSuper c c keyword) fun _ =>
    (Leaves.bindRef id keyword).ret _
  | c, .unary _ _ e, h | c, .group e, h | c, .get e _, h =>
    (Expr.resolve_leaves c (e := e) h).ret _
  | c, .binary _ _ _ _, h | c, .logical _ _ _ _, h =>
    (Expr.resolve_leaves c h.1).bind (Expr.resolve_alone c c h.1) fun _ =>
      (Expr.resolve_leaves c h.2).ret _
  | c, .ternary _ _ _, h => (Expr.resolve_leaves c h.1).bind (Expr.resolve_alone c c h.1) fun _ =>
    (Expr.resolve_leaves c h.2.1).bind (Expr.resolve_alone c c h.2.1) fun _ =>
      (Expr.resolve_leaves c h.2.2).ret _
  | c, .call _ _ _, h => (Expr.resolve_leaves c h.1).bind (Expr.resolve_alone c c h.1) fun _ =>
    (Expr.resolveAll_leaves c h.2).ret _
  | c, .set _ _ _, h => (Expr.resolve_leaves c h.2).bind (Expr.resolve_alone c c h.2) fun _ =>
    (Expr.resolve_leaves c h.1).ret _
  | c, .lambda _ r, h => (Routine.resolve_leaves c .lambda (r := r) h).ret _

theorem Expr.resolveAll_leaves : ∀ (c : Context) {es : List (Expr RefId)}, Expr.TidyAll es →
    Leaves (Expr.resolveAll c es) (Expr.scopesAll es)
  | _, [], _ => .pure _
  | c, _ :: _, h => (Expr.resolve_leaves c h.1).bind (Expr.resolve_alone c c h.1) fun _ =>
    (Expr.resolveAll_leaves c h.2).ret _

theorem Stmt.resolve_leaves : ∀ (c : Context) {s : Stmt RefId}, s.Tidy →
    Leaves (s.resolve c) s.scopes
  | c, .expr e, h | c, .print e, h => (Expr.resolve_leaves c (e := e) h).ret _
  | _, .var name none, h => (Leaves.declare name).skip (.declare h) fun _ =>
    (Leaves.define name).ret _
  | c, .var name (some _), h => (Leaves.declare name).skip (.declare h.1) fun _ =>
    (Expr.resolve_leaves c h.2).bindNothing (Expr.resolve_alone c c h.2) fun _ =>
      (Leaves.define name).ret _
  | c, .block _, h => (Leaves.inScope Scope.fine_nil
    ((Alone.pure () ()).bind fun _ _ => Stmt.resolveAll_alone c {} h)
    (Stmt.resolveAll_leaves c h)).ret _
  | c, .if _ _ none, h => (Expr.resolve_leaves c h.1).bind (Expr.resolve_alone c c h.1) fun _ =>
    (Stmt.resolve_leaves c h.2.1).ret _
  | c, .if _ _ (some _), h => (Expr.resolve_leaves c h.1).bind (Expr.resolve_alone c c h.1) fun _ =>
    (Stmt.resolve_leaves c h.2.1.1).bind (Stmt.resolve_alone c c h.2.1.1) fun _ =>
      (Stmt.resolve_leaves c h.2.2.1).ret _
  | c, .while _ _, h => (Expr.resolve_leaves c h.1).bind (Expr.resolve_alone c c h.1) fun _ =>
    (Stmt.resolve_leaves _ h.2.1).ret _
  | c, .break keyword, _ => (Leaves.checkBreak c keyword).ret _
  | c, .return keyword none, _ => (Leaves.checkReturn c keyword false).ret _
  | c, .return keyword (some e), h => (Leaves.checkReturn c keyword true).skip
    (.checkReturn c c keyword true) fun _ => (Expr.resolve_leaves c (e := e) h).ret _
  | c, .function ⟨name, _⟩, h => (Leaves.declare name).skip (.declare h.1) fun _ =>
    (Leaves.define name).skip (.define name) fun _ => (Definition.resolve_leaves c .function h).ret _
  | c, .class name none ms cs, h => by
    have body : Leaves (gather { c with classKind := some .base } ms cs (Stmt.class name none))
        (Definition.scopesAll ms ++ Definition.scopesAll cs) :=
      (Definition.resolveMethods_leaves _ h.2.1).bind (Definition.resolveMethods_alone _ _ h.2.1)
        fun _ => (Definition.resolveClassMethods_leaves _ h.2.2).ret _
    exact (Leaves.declare name).skip (.declare h.1) fun _ =>
      (Leaves.define name).skip (.define name) fun _ =>
        .inScopeOf "this" (gather_alone _ h.2.1 h.2.2 _ _) (gather_moves _ h.2.1 h.2.2 _) body
  | c, .class name (some (id, superclass)) ms cs, h => by
    have body (r : Reference) : Leaves (inScopeOf "super" <| inScopeOf "this" <|
        gather { c with classKind := some .derived } ms cs (Stmt.class name (some (r, superclass))))
        (Definition.scopesAll ms ++ Definition.scopesAll cs) :=
      .inScopeOf "super" (.inScope (Scope.fine_own "this") (gather_alone _ h.2.1 h.2.2 _ _))
        (.inScope _ .id (gather_moves _ h.2.1 h.2.2 _)) <|
        .inScopeOf "this" (gather_alone _ h.2.1 h.2.2 _ _) (gather_moves _ h.2.1 h.2.2 _) <|
          (Definition.resolveMethods_leaves _ h.2.1).bind (Definition.resolveMethods_alone _ _ h.2.1)
            fun _ => (Definition.resolveClassMethods_leaves _ h.2.2).ret _
    refine (Leaves.declare name).skip (.declare h.1) fun _ => ?_
    refine (Leaves.define name).skip (.define name) fun _ => ?_
    split
    · exact (Leaves.note (by decide) superclass).skip (.note _ _) fun _ =>
        (Leaves.read id superclass).skip (.read id superclass) body
    · exact (Leaves.read id superclass).skip (.read id superclass) body

theorem Stmt.resolveAll_leaves : ∀ (c : Context) {ss : List (Stmt RefId)}, Stmt.TidyAll ss →
    Leaves (Stmt.resolveAll c ss) (Stmt.scopesAll ss)
  | _, [], _ => .pure _
  | c, _ :: _, h => (Stmt.resolve_leaves c h.1).bind (Stmt.resolve_alone c c h.1) fun _ =>
    (Stmt.resolveAll_leaves c h.2).ret _

theorem Routine.resolve_leaves : ∀ (c : Context) (kind : RoutineKind) {r : Routine RefId},
    r.Tidy → Leaves (r.resolve c kind) r.scopes
  | _, _, ⟨_, _⟩, h => Leaves.inScope Scope.fine_nil
    ((Alone.declareAll h.1).bind fun _ _ => (Stmt.resolveAll_alone _ {} h.2).ret _ id)
    ((Leaves.declareAll h.1).skip (.declareAll h.1) fun _ => (Stmt.resolveAll_leaves _ h.2).ret _)

theorem Definition.resolve_leaves : ∀ (c : Context) (kind : RoutineKind)
    {m : Definition RefId}, m.Tidy → Leaves (m.resolve c kind) m.scopes
  | c, kind, ⟨_, _⟩, h => (Routine.resolve_leaves c kind h.2).ret _

theorem Definition.resolveMethods_leaves : ∀ (c : Context) {ms : List (Definition RefId)},
    Definition.TidyAll ms → Leaves (Definition.resolveMethods c ms) (Definition.scopesAll ms)
  | _, [], _ => .pure _
  | c, ⟨_, _⟩ :: _, h => (Definition.resolve_leaves c _ h.1).bind (Definition.resolve_alone c c _ _ h.1)
    fun _ => (Definition.resolveMethods_leaves c h.2).ret _

theorem Definition.resolveClassMethods_leaves : ∀ (c : Context) {ms : List (Definition RefId)},
    Definition.TidyAll ms → Leaves (Definition.resolveClassMethods c ms) (Definition.scopesAll ms)
  | _, [], _ => .pure _
  | c, _ :: _, h => (Definition.resolve_leaves c _ h.1).bind (Definition.resolve_alone c c _ _ h.1)
    fun _ => (Definition.resolveClassMethods_leaves c h.2).ret _

end

/-- The unused variables of a program are those that are not read in the scopes of its blocks and
routines. -/
theorem warnings_resolve {p : List (Stmt RefId)} (h : Stmt.TidyAll p) :
    (resolve p).warnings .warning = (Stmt.scopesAll p).flatMap Scope.unused := by
  have warning (f : Finding) : (!Resolution.isError .warning f) = (f.fault == .unusedVariable) := by
    simp [Resolution.isError, bne]
  simp only [Resolution.warnings, warning]
  exact Stmt.resolveAll_leaves {} h {} fun _ hs => absurd hs List.not_mem_nil

end Lox
