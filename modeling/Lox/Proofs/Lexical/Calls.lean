import Lox.Proofs.Lexical.Steps

/-!
Methods and calls. A method gets its receiver in an environment of its own, of which lexical scoping
makes one cell. A called routine gets its parameters in another one, which its body shares; so if
statements agree, calls do. A body never ends with a jump out of a loop, and that of an initializer
answers nothing.
-/

namespace Lox

open Lexical (Locals Scope)

/-- The environment that a statement adds names to when it runs in this one. -/
def Stmt.own {ρ : Type} (a : Stmt ρ) (e : EnvId) : Option EnvId := if a.isDeclaration then some e else none

theorem Stmt.own_of_declaration {ρ : Type} {a : Stmt ρ} (h : a.isDeclaration = true) (e : EnvId) :
    a.own e = some e := if_pos h

theorem Stmt.own_of_not_declaration {ρ : Type} {a : Stmt ρ} (h : a.isDeclaration = false) (e : EnvId) :
    a.own e = none := if_neg (h ▸ Bool.false_ne_true)

namespace World

variable {own : Option EnvId} {W V : World} {m m' : Machine RefId} {s s' : Lexical.Store RefId}
  {S : Setting} {p : Program} {c : Scoping.Context} {Γ : Names} {locals : Locals} {e : EnvId}

/-- What is to be seen where a block begins. -/
theorem seen_nested (chain : W.Chain Γ e locals) :
    (W.nested e).Seen ([] :: Γ) W.outline.length (some locals) := by
  have outline : (W.nested e).outline[W.outline.length]? = some (some e, []) :=
    List.getElem?_concat_length
  exact ⟨.opened outline (chain.extend (W.grows_nested e).toExtends), ⟨_, outline⟩, by simp⟩

/-! Methods. -/

theorem bind_agrees (hs : W.Sees m s) {f : Function RefId EnvId} {f' : Function RefId Locals}
    (hf : W.Methods f f') {v : Value RefId EnvId} {v' : Value RefId Locals} (hv : W.Values v v')
    (receiver : v.isReceiver) :
    Agrees none W m s (fun V g g' => V.Functions id g g' ∧ g.arity = f.arity) (f.bind v) (f.bind v)
      (Lexical.bind f' v') := by
  obtain ⟨routine, p, hp, c, Γ, kind, chain, stands, initializer⟩ := hf.closure
  have special : Special "this" (some v) := ⟨fun _ => ⟨v, rfl, receiver⟩, fun h => nomatch h⟩
  have grows := (W.grows_nested f.closure.scope).toExtends
  refine .nestIn hs f.closure.scope ?_
  refine (define_agrees (hs.nest _) (seen_nested chain) List.not_mem_nil (.some (hv.extend grows))
    special).bind fun later seen => ?_
  refine .pure later.sees
    ⟨⟨hf.name, hf.initializer, routine, p, ?_, c, _, kind, seen.chain, stands, initializer⟩, rfl⟩
  exact later.extension.programs (grows.programs hp)

theorem bindMethod_agrees (hs : W.Sees m s) {f : Option (Function RefId EnvId)}
    {f' : Option (Function RefId Locals)} (hf : Option.Rel W.Methods f f') {v : Value RefId EnvId}
    {v' : Value RefId Locals} (hv : W.Values v v') (receiver : v.isReceiver) (name : Lexeme) :
    Agrees none W m s Values (bindMethod f v name) (bindMethod f v name)
      (Lexical.bindMethod f' v' name) := by
  cases hf with
  | none => exact .raise hs _ _
  | some hf =>
    refine (bind_agrees hs hf hv receiver).bind fun later ⟨hg, _⟩ => ?_
    refine (newObject_agrees later.sees).bind fun later same => .pure later.sees ?_
    exact same ▸ .function _ (hg.extend later.extension)

theorem getProperty_agrees (hs : W.Sees m s) {v : Value RefId EnvId} {v' : Value RefId Locals}
    (hv : W.Values v v') (name : Lexeme) :
    Agrees none W m s Values (v.getProperty name) (v.getProperty name)
      (Lexical.getProperty v' name) := by
  cases hv with
  | «instance» id h =>
    simp only [Value.getProperty, Lexical.getProperty]
    refine .get ?_
    have fields := hs.field? id name.text
    generalize m.field? id name.text = w, s.field? id name.text = w' at fields
    cases fields with
    | some hw => exact .pure hs hw
    | none => exact bindMethod_agrees hs (h.findMethod? _) (.instance id h) rfl name
  | @«class» k k' h =>
    simp only [Value.getProperty, Lexical.getProperty, h.id]
    split
    · exact .raise hs _ _
    · refine .get ?_
      have fields := hs.field? k.id name.text
      generalize m.field? k.id name.text = w, s.field? k.id name.text = w' at fields
      cases fields with
      | some hw => exact .pure hs hw
      | none => exact bindMethod_agrees hs (h.findClassMethod? _) (.class h) rfl name
  | _ => exact .raise hs _ _

/-- Both the class above and the receiver are found. -/
theorem getSuper_agrees (hb : S.Before W p Γ m s locals) {id : RefId} {keyword method : Lexeme}
    (stands : Stands p c Γ (.expr (.super id keyword method))) :
    Agrees none W m s Values (getSuper (S.site id) keyword method)
      (getSuper (S.site id) keyword method) (Lexical.getSuper locals keyword method) := by
  obtain ⟨_, d, this, super, bound⟩ := stands.super hb.faultless
  obtain ⟨_, e, v, v', hl, held⟩ := hb.held super
  obtain ⟨_, e', w, w', hl', held'⟩ := hb.held this
  obtain ⟨k, rfl⟩ := held.special.2 rfl
  obtain ⟨receiver, rfl, hr⟩ := held'.special.1 rfl
  rw [hb.site_eq bound, super]
  apply Agrees.get
  simp only [held.getAt, held'.getAt, held.value? hl, held'.value? hl']
  have values := held.values
  have values' := held'.values
  cases values with
  | some hv =>
    cases hv with
    | «class» hk =>
      cases values' with
      | some hw =>
        cases hw with
        | «instance» id h => exact bindMethod_agrees hb.sees (hk.findMethod? _) (.instance id h) rfl _
        | «class» h => exact bindMethod_agrees hb.sees (hk.findClassMethod? _) (.class h) rfl _
        | _ => cases hr

/-! Statements, one after another. -/

theorem Later.ofOwn {a : Stmt RefId} (h : Later (a.own e) W m V m' s') :
    Later (some e) W m V m' s' := by
  cases hd : a.isDeclaration with
  | true => exact a.own_of_declaration hd e ▸ h
  | false => exact .weaken (a.own_of_not_declaration hd e ▸ h)

/-- How statements of a context end. Behind a normal end these names are declared. -/
inductive Endings (W : World) (c : Scoping.Context) (Γ : Names) (e : EnvId) :
    Outcome RefId EnvId → Lexical.Ending RefId → Prop
  | normal {scope : Scope} (seen : W.Seen Γ e scope) : Endings W c Γ e .normal (.behind scope)
  | broke (inside : c.inLoop) : Endings W c Γ e .broke .broke
  | returned {v : Value RefId EnvId} {v' : Value RefId Locals} (hv : W.Values v v')
      (inside : c.routineKind.isSome) (nothing : c.routineKind = some .initializer → v = .nil) :
      Endings W c Γ e (.returned v) (.returned v')

end World

namespace Setting

/-- What is expected holds wherever a phrase of a program without faults runs. -/
structure Fulfilled (S : Setting) (w : Watch RefId) : Prop where
  stmt : ∀ {W p c Γ m s locals a}, S.Before W p Γ m s locals → Stands p c Γ (.stmt a) → w.stmt a m
  expr : ∀ {W p c Γ m s locals e}, S.Before W p Γ m s locals → Stands p c Γ (.expr e) → w.expr e m
  access : ∀ {W p c Γ m s locals e}, S.Before W p Γ m s locals → Stands p c Γ (.expr e) →
    w.access e m
  body : ∀ {initializer outcome}, outcome ≠ .broke →
    (initializer = true → ∀ v, outcome = .returned v → v = .nil) → w.body initializer outcome
  top : w.top .normal

/-- Statements agree, if so much fuel is left. Only declarations add to the environment they run in. -/
def ExecAgrees (S : Setting) (w : Watch RefId) (stop : Stop) (fuel : Nat) : Prop :=
  ∀ {W p c Γ m s scope a}, S.Before W p Γ m s scope.locals → W.Seen Γ m.scope scope →
    Stands p c Γ (.stmt a) →
    World.Agrees (a.own m.scope) W m s (fun V => V.Endings c (a.after Γ) m.scope)
      (w.exec stop S.site fuel a) (exec S.site fuel a) (Lexical.exec fuel scope a)

/-- Expressions agree, if so much fuel is left. -/
def EvalAgrees (S : Setting) (w : Watch RefId) (stop : Stop) (fuel : Nat) : Prop :=
  ∀ {W p c Γ m s locals e}, S.Before W p Γ m s locals → Stands p c Γ (.expr e) →
    World.Agrees none W m s World.Values
      (w.eval stop S.site fuel e) (eval S.site fuel e) (Lexical.eval fuel locals e)

end Setting

namespace World

variable {W : World} {m : Machine RefId} {s : Lexical.Store RefId} {S : Setting} {p : Program}
  {c : Scoping.Context} {Γ : Names} {locals : Locals} {scope : Scope} {w : Watch RefId} {stop : Stop}
  {fuel : Nat}

theorem execAll_agrees (hx : S.ExecAgrees w stop fuel) {ss : List (Stmt RefId)}
    (hb : S.Before W p Γ m s scope.locals) (seen : W.Seen Γ m.scope scope)
    (stands : Stands p c Γ (.stmts ss)) :
    Agrees (some m.scope) W m s (fun V => V.Endings c (Stmt.afterAll Γ ss) m.scope)
      (execAll (w.exec stop S.site fuel) ss) (execAll (exec S.site fuel) ss)
      (Lexical.execAll (Lexical.exec fuel) scope ss) := by
  induction ss generalizing W m s Γ scope with
  | nil => exact .pure hb.sees (.normal seen)
  | cons a ss ih =>
    obtain ⟨head, tail⟩ := stands.stmts hb.faultless
    refine (hx hb seen head).bindOf Later.ofOwn fun later ending => ?_
    cases ending with
    | normal seen =>
      rw [← later.scope] at seen ⊢
      exact ih ⟨later.sees, later.grows.same.trans hb.programs, hb.member, seen.chain⟩ seen tail
    | broke inside => exact .pure later.sees (.broke inside)
    | returned hv inside nothing => exact .pure later.sees (.returned hv inside nothing)

/-! Calls. -/

variable {vs : List (Value RefId EnvId)} {vs' : List (Value RefId Locals)}

theorem callClosure_agrees (hw : S.Fulfilled w) (hx : S.ExecAgrees w stop fuel) (hs : W.Sees m s)
    (hp : W.programs = S.programs) {initializer : Bool} {k : Closure RefId EnvId}
    {k' : Closure RefId Locals} (hk : W.Closures id initializer k k') (hv : List.Forall₂ W.Values vs vs')
    (length : vs.length = k.routine.params.length) :
    Agrees none W m s Values (w.callClosure stop (w.exec stop S.site fuel) initializer k vs)
      (k.call (exec S.site fuel) vs) (Lexical.callClosure (Lexical.exec fuel) k' vs') := by
  obtain ⟨⟨params, body⟩, around⟩ := k
  obtain ⟨routine, p, member, c, Γ, kind, chain, stands, initial⟩ := hk
  have faultless := S.faultless p (hp ▸ member)
  obtain ⟨fresh, ordinary⟩ := stands.params faultless
  have grows := W.grows_nested around
  unfold Watch.callClosure Closure.call Lexical.callClosure
  rw [routine]
  refine .nestIn hs around ?_
  refine (params_agree (hs.nest _) (seen_nested chain) fresh ordinary
    (hv.imp fun _ _ h => h.extend grows.toExtends) length).bind fun later seen => ?_
  have programs := (later.grows.same.trans grows.same).trans hp
  refine ((execAll_agrees hx ⟨later.sees.enter _, programs, hp ▸ member, seen.chain⟩ seen
    (stands.statements faultless)).inScope).bind fun later ending => ?_
  cases ending with
  | normal =>
    exact .expect (hw.body nofun nofun) (.pure later.sees .nil)
  | broke inside => cases inside
  | returned hv inside nothing =>
    refine .expect (hw.body nofun fun hi v hr => ?_) (.pure later.sees hv)
    cases hr
    exact nothing (congrArg some (initial hi).1)

/-- The receiver of a method that is called is in the first slot around it. -/
theorem callFunction_agrees (hw : S.Fulfilled w) (hx : S.ExecAgrees w stop fuel) (hs : W.Sees m s)
    (hp : W.programs = S.programs) {f : Function RefId EnvId} {f' : Function RefId Locals}
    (hf : W.Functions id f f') (hv : List.Forall₂ W.Values vs vs') (length : vs.length = f.arity) :
    Agrees none W m s Values (w.callFunction stop (w.exec stop S.site fuel) f vs)
      (f.call (exec S.site fuel) vs) (Lexical.callFunction (Lexical.exec fuel) f' vs') := by
  refine (callClosure_agrees hw hx hs hp hf.closure hv length).bind fun {V m' s' v v'} later hv => ?_
  rw [hf.initializer]
  cases hi : f.initializer with
  | false => exact .pure later.sees hv
  | true =>
    obtain ⟨_, p, _, c, Γ, kind, chain, _, initial⟩ := hf.closure
    obtain ⟨_, outer, rfl⟩ := initial hi
    obtain ⟨cell, hl, found⟩ := (chain.extend later.extension).lookup "this"
    obtain ⟨e, w, w', held⟩ := (later.sees.enter f.closure.scope).find found
    obtain rfl : f.closure.scope = e := Option.some.inj held.ancestor
    obtain ⟨receiver, rfl, _⟩ := held.special.1 rfl
    have value := held.value? hl
    have values := held.values
    apply Agrees.get
    rw [held.getSlot, value]
    cases values with
    | some hr => exact .pure later.sees hr

theorem instantiate_agrees (hw : S.Fulfilled w) (hx : S.ExecAgrees w stop fuel) (hs : W.Sees m s)
    (hp : W.programs = S.programs) {k : Class RefId EnvId} {k' : Class RefId Locals}
    (hk : W.Classes k k') (hv : List.Forall₂ W.Values vs vs') (length : vs.length = k.arity) :
    Agrees none W m s Values (w.instantiate stop (w.exec stop S.site fuel) k vs)
      (k.instantiate (exec S.site fuel) vs) (Lexical.instantiate (Lexical.exec fuel) k' vs') := by
  refine (newObject_agrees hs).bind fun {V m' s' i i'} later same => ?_
  obtain rfl : i' = i := same
  have programs := later.grows.same.trans hp
  have hk := hk.extend later.extension
  have hv := hv.imp fun _ _ h => h.extend later.extension
  have initializer : Option.Rel V.Methods k.initializer? k'.initializer? := hk.findMethod? _
  have arity : k.arity = (k.initializer?.map Function.arity).getD 0 := rfl
  rw [arity] at length
  dsimp only
  generalize k.initializer? = f, k'.initializer? = f' at initializer length
  cases initializer with
  | none => exact .pure later.sees (.instance i' hk)
  | some hf =>
    refine (bind_agrees later.sees hf (.instance i' hk) rfl).bind fun later ⟨hg, arity⟩ => ?_
    refine (callFunction_agrees hw hx later.sees (later.grows.same.trans programs) hg
      (hv.imp fun _ _ h => h.extend later.extension) (length.trans arity.symm)).bind
        fun after _ => .pure after.sees (.instance i' ?_)
    exact (hk.extend later.extension).extend after.extension

theorem checkArity_agrees (hs : W.Sees m s) {expected : Nat} (hv : List.Forall₂ W.Values vs vs')
    (line : Nat) {α β : Type} {Q : World → α → β → Prop} {watched p : Run RefId α}
    {q : Lexical.Run RefId β} (h : vs.length = expected → Agrees none W m s Q watched p q) :
    Agrees none W m s Q (do checkArity expected vs line; watched) (do checkArity expected vs line; p)
      (do Lexical.checkArity expected vs' line; q) := by
  rw [checkArity, Lexical.checkArity, ← hv.length_eq]
  by_cases he : vs.length = expected
  · rw [if_pos he, if_pos he]
    exact ⟨(h he).same, (h he).ends⟩
  · rw [if_neg he, if_neg he]
    have failed : Agrees none W m s (fun _ (_ _ : Unit) => False) _ _ _ :=
      .raise hs (.arityMismatch expected vs.length) line
    exact failed.bind fun _ h => h.elim

theorem call_agrees (hw : S.Fulfilled w) (hx : S.ExecAgrees w stop fuel) (hs : W.Sees m s)
    (hp : W.programs = S.programs) {v : Value RefId EnvId} {v' : Value RefId Locals}
    (hc : W.Values v v') (hv : List.Forall₂ W.Values vs vs') (line : Nat) :
    Agrees none W m s Values (w.call stop (w.exec stop S.site fuel) v vs line)
      (v.call (exec S.site fuel) vs line) (Lexical.call (Lexical.exec fuel) v' vs' line) := by
  cases hc with
  | function id hf =>
    simp only [Watch.call, Value.call, Lexical.call, hf.arity]
    exact checkArity_agrees hs hv line fun length =>
      (callFunction_agrees hw hx hs hp hf hv length).onLine line
  | lambda id l hk =>
    simp only [Watch.call, Value.call, Lexical.call, hk.1]
    exact checkArity_agrees hs hv line fun length =>
      (callClosure_agrees hw hx hs hp hk hv length).onLine line
  | «class» hk =>
    simp only [Watch.call, Value.call, Lexical.call, hk.arity]
    exact checkArity_agrees hs hv line fun length =>
      (instantiate_agrees hw hx hs hp hk hv length).onLine line
  | native n =>
    simp only [Watch.call, Value.call, Lexical.call]
    by_cases h : vs.length = n.arity
    · have h' : vs'.length = n.arity := hv.length_eq ▸ h
      rw [dif_pos h, dif_pos h']
      exact (native_agrees hs n hv h h').onLine line
    · rw [dif_neg h, dif_neg (hv.length_eq ▸ h), hv.length_eq]
      exact .raise hs _ _
  | _ => exact .raise hs _ _

end World

end Lox
