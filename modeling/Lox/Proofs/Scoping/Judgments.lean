import Lox.Proofs.Names
import Lox.Proofs.Scoping.Alone
import Lox.Proofs.Scoping.Mentions
import Lox.Proofs.Scoping.Visits

/-!
Judgments on scoping. A judgment connects what scoping does somewhere with what is around it, with the
words it comes to and with the references that it answers. One that can be passed on from the parts of a
phrase to the phrase, and that holds of each kind of word, holds of every tree.
-/

namespace Lox

namespace Scoping

/-! What scoping itself keeps of the surroundings: a context, and names by their slots. -/

def Frame.routineKind? : Frame → Option RoutineKind
  | .function => some .function
  | .lambda => some .lambda
  | .method name => some (if name = initializerName then .initializer else .method)
  | .classMethod _ => some .classMethod
  | .loop | .class _ => none

def Frame.classKind? : Frame → Option ClassKind
  | .class none => some .base
  | .class (some _) => some .derived
  | _ => none

namespace Surroundings

variable (S : Surroundings)

def context : Context where
  routineKind := S.routine?.bind Frame.routineKind?
  classKind := S.class?.bind Frame.classKind?
  inLoop := S.inLoop

def names : Names := S.levels.map List.eraseDups

@[simp] theorem context_declare (names : List String) : (S.declare names).context = S.context := rfl

@[simp] theorem context_opened (names : List String) : (S.opened names).context = S.context := rfl

theorem context_loop : (S.within .loop).context = { S.context with inLoop := true } := rfl

theorem context_routine {frame : Frame} {kind : RoutineKind} (h : frame.routineKind? = some kind) :
    (S.within frame).context = { S.context with routineKind := some kind, inLoop := false } := by
  cases frame <;> cases h <;> rfl

theorem context_class {frame : Frame} {kind : ClassKind} (h : frame.classKind? = some kind) :
    (S.within frame).context = { S.context with classKind := some kind } := by
  rcases frame with _ | _ | _ | _ | _ | (_ | _) <;> cases h <;> rfl

@[simp] theorem declare_nil : S.declare [] = S := by
  obtain ⟨_ | ⟨names, outer⟩, frames⟩ := S <;> simp [declare]

theorem declare_append (ds ds' : List String) : S.declare (ds ++ ds') = (S.declare ds).declare ds' := by
  obtain ⟨_ | ⟨names, outer⟩, frames⟩ := S <;> simp [declare]

@[simp] theorem length_declare (ds : List String) : (S.declare ds).levels.length = S.levels.length :=
  List.length_modifyHead

/-- A name that a scope has already keeps its slot, and another one gets the next. -/
theorem names_declare (name : String) : (S.declare [name]).names = S.names.declare name := by
  obtain ⟨_ | ⟨names, outer⟩, frames⟩ := S
  · rfl
  · by_cases h : name ∈ names <;>
      simp [Surroundings.names, declare, Names.declare, eraseDups_concat, h]

variable {S} {s : State}

/-- Scoping and the surroundings keep the same names when a scope is opened. -/
theorem names_of_opened {scope : Scope} {names : List String} (hn : scope.names = names.eraseDups)
    (hs : s.names = S.names) : (s.opened scope).names = (S.opened names).names := by
  rw [Scoping.names_opened, hn, hs]
  rfl

/-- They do so when a name is declared. -/
theorem names_of_declared (name : Lexeme) (hs : s.names = S.names) :
    (Scoping.declare name s).2.names = (S.declare [name.text]).names := by
  rw [(Moves.declare name).names, hs, names_declare]

end Surroundings

/-! The steps of scoping that belong to one word each. -/

variable {α β : Type}

/-- The declaration of a name around the computation of its initial value. -/
def declaring (name : Lexeme) (initial : Scoping α) : Scoping α := do
  declare name
  let a ← initial
  define name
  return a

def referThis (context : Context) (id : RefId) (keyword : Lexeme) : Scoping Reference := do
  checkThis context keyword
  bind id keyword

def referSuper (context : Context) (id : RefId) (keyword : Lexeme) : Scoping Reference := do
  checkSuper context keyword
  bind id keyword

theorem Moves.referThis (context : Context) (id : RefId) (keyword : Lexeme) :
    Moves (referThis context id keyword) fun Γ => Γ :=
  (Moves.checkThis context keyword).bind fun _ => Moves.bindRef id keyword

theorem Moves.referSuper (context : Context) (id : RefId) (keyword : Lexeme) :
    Moves (referSuper context id keyword) fun Γ => Γ :=
  (Moves.checkSuper context keyword).bind fun _ => Moves.bindRef id keyword

/-- The name of the class above, where a class of this name is declared. -/
def referAbove (name : Lexeme) (id : RefId) (superclass : Lexeme) : Scoping Reference := do
  if superclass.text = name.text then note .inheritsFromItself superclass
  read id superclass

theorem referAbove_run (name : Lexeme) (id : RefId) (superclass : Lexeme) (s : State) :
    referAbove name id superclass s = read id superclass
      (if superclass.text = name.text then (note .inheritsFromItself superclass s).2 else s) := by
  by_cases h : superclass.text = name.text
  · simp only [referAbove, if_pos h]
    rfl
  · simp only [referAbove, if_neg h]

/-- A judgment on a computation in these surroundings that declares these names in the scope around it,
comes to these words and opens and closes these scopes. The references of its answer are told from what
it answers; they include earlier ones, which the computation was given. -/
abbrev Judgment := ∀ α : Type, Surroundings → List String → List Mention → List Extent →
  List Reference → (α → List Reference) → Scoping α → Prop

/-- The judgment is passed on to larger phrases, and holds of each word. -/
structure Judgment.Closed (J : Judgment) : Prop where
  pure {α : Type} (S : Surroundings) {earlier : List Reference} {refs : α → List Reference} {a : α}
    (h : earlier.Perm (refs a)) : J α S [] [] [] earlier refs (pure a)
  bind {α β : Type} {S : Surroundings} {ds ds' : List String} {ms ms' : List Mention}
    {es es' : List Extent} {earlier : List Reference} {refs : α → List Reference}
    {refs' : β → List Reference} {p : Scoping α} {k : α → Scoping β} (hp : J α S ds ms es [] refs p)
    (hk : ∀ a, J β (S.declare ds) ds' ms' es' (earlier ++ refs a) refs' (k a)) :
    J β S (ds ++ ds') (ms ++ ms') (es ++ es') earlier refs' (p >>= k)
  within {α : Type} {S : Surroundings} {ds : List String} {ms : List Mention} {es : List Extent}
    {earlier : List Reference} {refs : α → List Reference} {p : Scoping α} {frame : Frame}
    (h : J α (S.within frame) ds ms es earlier refs p) : J α S ds ms es earlier refs p
  block {α : Type} {S : Surroundings} {ds : List String} {ms : List Mention} {es : List Extent}
    {earlier : List Reference} {refs : α → List Reference} {p : Scoping α}
    (h : J α (S.opened []) ds ms es earlier refs p) :
    J α S [] ms (es ++ [S.extent ms]) earlier refs (inScope [] p)
  own {α : Type} {S : Surroundings} {ds : List String} {ms : List Mention} {es : List Extent}
    {earlier : List Reference} {refs : α → List Reference} {p : Scoping α} {name : String}
    (h : J α (S.opened [name]) ds ms es earlier refs p) :
    J α S [] ms (es ++ [S.extent ms]) earlier refs (inScopeOf name p)
  declaration {α : Type} {S : Surroundings} {name : Lexeme} {initial : Option (Expr RefId)}
    {ms : List Mention} {es : List Extent} {refs : α → List Reference} {p : Scoping α}
    (hi : ∀ e, initial = some e → ms = e.mentions (S.declare [name.text]))
    (hp : J α (S.declare [name.text]) [] ms es [] refs p) :
    J α S [name.text] (⟨.declaration name initial, S⟩ :: ms) es [] refs (declaring name p)
  reads (S : Surroundings) (id : RefId) (name : Lexeme) :
    J Reference S [] [⟨.read id name, S⟩] [] [] ([·]) (read id name)
  assigns (S : Surroundings) (id : RefId) (name : Lexeme) :
    J Reference S [] [⟨.assign id name, S⟩] [] [] ([·]) (Scoping.bind id name)
  this (S : Surroundings) (id : RefId) (keyword : Lexeme) :
    J Reference S [] [⟨.this id keyword, S⟩] [] [] ([·]) (referThis S.context id keyword)
  super (S : Surroundings) (id : RefId) (keyword : Lexeme) :
    J Reference S [] [⟨.super id keyword, S⟩] [] [] ([·]) (referSuper S.context id keyword)
  inherits (S : Surroundings) (id : RefId) (superclass name : Lexeme) :
    J Reference S [] [⟨.inherit id superclass name, S⟩] [] [] ([·]) (referAbove name id superclass)
  returns (S : Surroundings) (keyword : Lexeme) (hasValue : Bool) :
    J Unit S [] [⟨.return keyword hasValue, S⟩] [] [] (fun _ => [])
      (checkReturn S.context keyword hasValue)
  breaks (S : Surroundings) (keyword : Lexeme) :
    J Unit S [] [⟨.break keyword, S⟩] [] [] (fun _ => []) (checkBreak S.context keyword)

namespace Judgment.Closed

variable {J : Judgment} (hJ : J.Closed) {S : Surroundings} {ds : List String} {ms ms' : List Mention}
  {es es' : List Extent} {earlier : List Reference} {refs : α → List Reference}
  {refs' : β → List Reference} {p : Scoping α}

include hJ

theorem ret {f : α → β} (hp : J α S ds ms es [] refs p)
    (hf : ∀ a, (earlier ++ refs a).Perm (refs' (f a))) :
    J β S ds ms es earlier refs' (do return f (← p)) := by
  have h := hJ.bind hp fun a => hJ.pure (S.declare ds) (hf a)
  rwa [List.append_nil, List.append_nil, List.append_nil] at h

/-- Going on behind a computation without declarations. -/
theorem andThen {k : α → Scoping β} (hp : J α S [] ms es [] refs p)
    (hk : ∀ a, J β S ds ms' es' (earlier ++ refs a) refs' (k a)) :
    J β S ds (ms ++ ms') (es ++ es') earlier refs' (p >>= k) :=
  hJ.bind hp fun a => S.declare_nil.symm ▸ hk a

theorem announce (S : Surroundings) (name : Lexeme) :
    J Unit S [name.text] [⟨.declaration name none, S⟩] [] [] (fun _ => []) (announce name) :=
  hJ.declaration (fun _ h => by cases h) (hJ.pure (a := ()) _ (.refl []))

/-- Going on behind the declaration of a name. -/
theorem announcing {name : Lexeme} {q : Scoping β}
    (h : J β (S.declare [name.text]) ds ms es earlier refs' q) :
    J β S (name.text :: ds) (⟨.declaration name none, S⟩ :: ms) es earlier refs'
      (do Scoping.announce name; q) := by
  refine hJ.bind (hJ.announce S name) fun _ => ?_
  rwa [List.append_nil]

theorem declareAll (S : Surroundings) (names : List Lexeme) :
    J Unit S (names.map (·.text)) (parameterMentions S names) [] [] (fun _ => [])
      (declareAll names) := by
  induction names generalizing S with
  | nil => exact hJ.pure S (.refl [])
  | cons name names ih => exact hJ.announcing (ih (S.declare [name.text]))

theorem members {c : Context} {ds cs : List (Definition RefId)}
    (hm : J _ S [] ms es [] Definition.referencesAll (Definition.resolveMethods c ds))
    (hc : J _ S [] ms' es' [] Definition.referencesAll (Definition.resolveClassMethods c cs)) :
    J _ S [] (ms ++ ms') (es ++ es') []
      (fun x => Definition.referencesAll x.1 ++ Definition.referencesAll x.2) (members c ds cs) :=
  hJ.andThen hm fun _ => hJ.ret hc fun _ => .refl _

end Judgment.Closed

/-- Where the names are those of the surroundings, they are so behind the computation. -/
structure Declares (S : Surroundings) (ds : List String) (p : Scoping α) : Prop where
  names : ∀ s, s.names = S.names → (p s).2.names = (S.declare ds).names

namespace Declares

variable {S : Surroundings} {ds ds' : List String} {p : Scoping α} {k : α → Scoping β}

theorem of_moves (h : Moves p id) : Declares S [] p where
  names s hs := by
    rw [h.names, S.declare_nil]
    exact hs

theorem bind (hp : Declares S ds p) (hk : ∀ a, Declares (S.declare ds) ds' (k a)) :
    Declares S (ds ++ ds') (p >>= k) where
  names s hs := by
    rw [S.declare_append]
    exact (hk (p s).1).names (p s).2 (hp.names s hs)

theorem within {frame : Frame} (h : Declares (S.within frame) ds p) : Declares S ds p := ⟨h.names⟩

/-- At the end of a phrase in a scope of its own, this scope is the innermost one, and it is closed. -/
theorem closes {scope : Scope} {names : List String} (h : Declares (S.opened names) ds p)
    (hn : scope.names = names.eraseDups) {s : State} (hs : s.names = S.names) :
    ∃ last outer, (p (s.opened scope)).2.scopes = last :: outer ∧ outer.map Scope.names = S.names ∧
      inScope scope p s =
        ((p (s.opened scope)).1, ⟨outer, (p (s.opened scope)).2.findings ++ last.unused⟩) := by
  obtain ⟨last, outer, ended, -, rest⟩ :=
    List.map_eq_cons_iff.mp (h.names _ (Surroundings.names_of_opened hn hs))
  exact ⟨last, outer, ended, rest, Prod.ext rfl (inScope_closed ended)⟩

theorem inScope {scope : Scope} {names : List String} (h : Declares (S.opened names) ds p)
    (hn : scope.names = names.eraseDups) : Declares S [] (inScope scope p) where
  names s hs := by
    obtain ⟨last, outer, -, rest, closed⟩ := h.closes hn hs
    rw [closed, S.declare_nil]
    exact rest

theorem declaring {name : Lexeme} (h : Declares (S.declare [name.text]) [] p) :
    Declares S [name.text] (declaring name p) where
  names s hs := by
    have initial := h.names _ (Surroundings.names_of_declared name hs)
    rw [Surroundings.declare_nil] at initial
    exact ((Moves.define name).names _).trans initial

theorem referAbove (name : Lexeme) (id : RefId) (superclass : Lexeme) :
    Declares S [] (referAbove name id superclass) where
  names s hs := by
    rw [referAbove_run, (Moves.read id superclass).names, S.declare_nil]
    split <;> exact hs

end Declares

end Scoping

open Scoping

section Traversal

variable {J : Judgment} (hJ : J.Closed)

include hJ

mutual

theorem Expr.resolve_judged : ∀ (S : Surroundings) (e : Expr RefId),
    J _ S [] (e.mentions S) (e.extents S) [] Expr.references (e.resolve S.context)
  | S, .literal _ => hJ.pure S (.refl [])
  | S, .variable id name => hJ.ret (hJ.reads S id name) fun _ => .refl _
  | S, .assign id name e => by
    rw [Expr.extents, ← (e.extents S).append_nil]
    exact hJ.andThen (Expr.resolve_judged S e) fun _ =>
      hJ.ret (hJ.assigns S id name) fun _ => List.perm_append_singleton _ _
  | S, .this id keyword => by
    exact hJ.ret (f := (Expr.this · keyword)) (hJ.this S id keyword) fun _ => .refl _
  | S, .super id keyword method => by
    exact hJ.ret (f := (Expr.super · keyword method)) (hJ.super S id keyword) fun _ => .refl _
  | S, .unary _ _ e | S, .group e | S, .get e _ =>
    hJ.ret (Expr.resolve_judged S e) fun _ => .refl _
  | S, .binary _ _ l r | S, .logical _ _ l r => hJ.andThen (Expr.resolve_judged S l) fun _ =>
    hJ.ret (Expr.resolve_judged S r) fun _ => .refl _
  | S, .ternary c y n => hJ.andThen (Expr.resolve_judged S c) fun _ =>
    hJ.andThen (Expr.resolve_judged S y) fun _ =>
      hJ.ret (Expr.resolve_judged S n) fun _ => .refl _
  | S, .call c as _ => hJ.andThen (Expr.resolve_judged S c) fun _ =>
    hJ.ret (Expr.resolveAll_judged S as) fun _ => .refl _
  | S, .set o _ e => hJ.andThen (Expr.resolve_judged S e) fun _ =>
    hJ.ret (Expr.resolve_judged S o) fun _ => List.perm_append_comm
  | S, .lambda _ r => hJ.ret (Routine.resolve_judged S .lambda rfl r) fun _ => .refl _

theorem Expr.resolveAll_judged : ∀ (S : Surroundings) (es : List (Expr RefId)),
    J _ S [] (Expr.mentionsAll S es) (Expr.extentsAll S es) [] Expr.referencesAll
      (Expr.resolveAll S.context es)
  | S, [] => hJ.pure S (.refl [])
  | S, e :: es => hJ.andThen (Expr.resolve_judged S e) fun _ =>
    hJ.ret (Expr.resolveAll_judged S es) fun _ => .refl _

theorem Stmt.resolve_judged : ∀ (S : Surroundings) (s : Stmt RefId),
    J _ S s.declares (s.mentions S) (s.extents S) [] Stmt.references (s.resolve S.context)
  | S, .expr e | S, .print e => hJ.ret (Expr.resolve_judged S e) fun _ => .refl _
  | S, .var name none => by
    exact hJ.ret (f := fun _ => Stmt.var name none) (hJ.announce S name) fun _ => .refl []
  | S, .var name (some e) => by
    have initial : J _ S [name.text] (⟨.declaration name (some e), S⟩ :: _) _ [] _ _ :=
      hJ.declaration (fun _ h => by cases h; rfl) (Expr.resolve_judged (S.declare [name.text]) e)
    exact hJ.ret (f := fun e => Stmt.var name (some e)) initial fun _ => .refl _
  | S, .block b => hJ.ret (hJ.block (Stmt.resolveAll_judged (S.opened []) b)) fun _ => .refl _
  | S, .if c y none => hJ.andThen (Expr.resolve_judged S c) fun _ =>
    hJ.ret (Stmt.resolve_judged S y) fun _ => .refl _
  | S, .if c y (some n) => hJ.andThen (Expr.resolve_judged S c) fun _ =>
    hJ.bind (Stmt.resolve_judged S y) fun _ => by
      exact hJ.ret (Stmt.resolve_judged (S.declare y.declares) n) fun _ => .refl _
  | S, .while c b => by
    have body := Stmt.resolve_judged (S.within .loop) b
    rw [S.context_loop] at body
    exact hJ.andThen (Expr.resolve_judged S c) fun _ => hJ.ret (hJ.within body) fun _ => .refl _
  | S, .break keyword => hJ.ret (hJ.breaks S keyword) fun _ => .refl []
  | S, .return keyword none => hJ.ret (hJ.returns S keyword false) fun _ => .refl []
  | S, .return keyword (some e) => by
    have value : J _ S [] ([⟨.return keyword true, S⟩] ++ e.mentions S) ([] ++ e.extents S) [] Stmt.references _ :=
      hJ.andThen (hJ.returns S keyword true) fun _ =>
        hJ.ret (f := fun e => Stmt.return keyword (some e)) (Expr.resolve_judged S e) fun _ => .refl _
    exact value
  | S, .function ⟨name, r⟩ => by
    have routine := Routine.resolve_judged (S.declare [name.text]) .function rfl r
    exact hJ.announcing (hJ.ret (f := fun r => Stmt.function ⟨name, r⟩) routine fun _ => .refl _)
  | S, .class name none ds cs => by
    have body := hJ.members (Definition.resolveMethods_judged ((S.declare [name.text]).inClass none) ds)
      (Definition.resolveClassMethods_judged _ cs)
    have made : J _ _ [] _ _ [] Stmt.references _ :=
      hJ.ret (f := fun x => Stmt.class name none x.1 x.2) body fun _ => .refl _
    exact hJ.announcing (hJ.within (hJ.own made))
  | S, .class name (some (id, superclass)) ds cs => by
    have body := hJ.members
      (Definition.resolveMethods_judged ((S.declare [name.text]).inClass (some superclass.text)) ds)
      (Definition.resolveClassMethods_judged _ cs)
    have made (r : Reference) : J _ _ [] _ _ [r] Stmt.references _ :=
      hJ.ret (f := fun x => Stmt.class name (some (r, superclass)) x.1 x.2) body fun _ => .refl _
    have above : J _ (S.declare [name.text]) [] ([⟨.inherit id superclass name, _⟩] ++ _)
        ([] ++ _) [] Stmt.references _ :=
      hJ.andThen (hJ.inherits _ id superclass name) fun r => hJ.within (hJ.own (hJ.own (made r)))
    rw [resolve_derived]
    exact hJ.announcing above

theorem Stmt.resolveAll_judged : ∀ (S : Surroundings) (ss : List (Stmt RefId)),
    J _ S (Stmt.declaresAll ss) (Stmt.mentionsAll S ss) (Stmt.extentsAll S ss) []
      Stmt.referencesAll (Stmt.resolveAll S.context ss)
  | S, [] => hJ.pure S (.refl [])
  | S, s :: ss => hJ.bind (Stmt.resolve_judged S s) fun _ =>
    hJ.ret (Stmt.resolveAll_judged (S.declare s.declares) ss) fun _ => .refl _

theorem Routine.resolve_judged : ∀ (S : Surroundings) (frame : Frame) {k : RoutineKind},
    frame.routineKind? = some k → ∀ r : Routine RefId,
      J _ S [] (r.mentions (S.within frame)) (r.extents (S.within frame)) [] Routine.references
        (r.resolve S.context k)
  | S, frame, _, h, ⟨params, body⟩ => by
    have statements := Stmt.resolveAll_judged
      (((S.within frame).opened []).declare (params.map (·.text))) body
    rw [Surroundings.context_declare, Surroundings.context_opened, S.context_routine h] at statements
    exact hJ.within (hJ.block (hJ.bind (hJ.declareAll _ params) fun _ =>
      hJ.ret statements fun _ => .refl _))

theorem Definition.resolveMethods_judged : ∀ (S : Surroundings) (ms : List (Definition RefId)),
    J _ S [] (Definition.methodMentions S ms) (Definition.methodExtents S ms) []
      Definition.referencesAll (Definition.resolveMethods S.context ms)
  | S, [] => hJ.pure S (.refl [])
  | S, ⟨name, r⟩ :: ms => by
    have routine := Routine.resolve_judged S (.method name.text) (k := methodKind name) rfl r
    exact hJ.andThen (hJ.ret routine fun _ => .refl _) fun _ =>
      hJ.ret (Definition.resolveMethods_judged S ms) fun _ => .refl _

theorem Definition.resolveClassMethods_judged : ∀ (S : Surroundings) (ms : List (Definition RefId)),
    J _ S [] (Definition.classMethodMentions S ms) (Definition.classMethodExtents S ms) []
      Definition.referencesAll (Definition.resolveClassMethods S.context ms)
  | S, [] => hJ.pure S (.refl [])
  | S, ⟨name, r⟩ :: ms => by
    have routine := Routine.resolve_judged S (.classMethod name.text) (k := .classMethod) rfl r
    exact hJ.andThen (hJ.ret routine fun _ => .refl _) fun _ =>
      hJ.ret (Definition.resolveClassMethods_judged S ms) fun _ => .refl _

end

end Traversal

end Lox
