import Lox.Proofs.Lexical.Calls
import Lox.Proofs.Marked.Calls
import Lox.Proofs.Operator

/-!
The evaluator with marks agrees with the evaluator on all phrases of programs without faults. One step
of it does so if the phrases inside do, which is shown form by form; the rest is an induction on the
fuel. What is known of a phrase is the visit at which scoping came to it.
-/

namespace Lox

open Scoping

namespace Marked

/-- A phrase of a program is about to run. The chain of environments is that of the scopes at the visit,
and nothing is read in what is marked. -/
structure Before (S : Setting) (O : Outline) (p : Program) (Δ : Marks) (v : Visit)
    (m : Lox.Machine RefId) (d : Shade) : Prop where
  sees : Sees S.programs O m d
  member : p ∈ S.programs
  cleared : Cleared p Δ v
  chain : O.Chain v.state.names Δ m.scope

variable {α : Type} {own : Option EnvId} {S : Setting} {O P : Outline} {p : Program} {Δ : Marks}
  {v w : Visit} {c : Context} {s : State} {m m' : Lox.Machine RefId} {d d' : Shade} {e : EnvId}
  {Γ : Names} {i : Interference} {fuel : Nat}

namespace Before

variable (hb : Before S O p Δ v m d)

include hb

theorem faultless : Faultless p := S.faultless p hb.member

theorem tidy : v.phrase.Tidy := (hb.faultless.visited hb.cleared.visited).tidy

theorem site_eq {id : RefId} {b : Option Binding} (h : ⟨id, b⟩ ∈ (resolve p).references) :
    S.site id = b := S.bound p hb.member _ h

/-- Into a phrase inside of one that has no scopes and declarations of its own. -/
theorem enter (he : v.Enters w) (flat : v.phrase.isFlat = true) : Before S O p Δ w m d where
  sees := hb.sees
  member := hb.member
  cleared := v.phrase.inside_of_isFlat flat Δ ▸ hb.cleared.enter hb.faultless he
  chain := (he.names hb.tidy flat).symm ▸ hb.chain

theorem exact (he : v.Enters w) (flat : v.phrase.isFlat = true) (h : O.Exact e v.state.names) :
    O.Exact e w.state.names := (he.names hb.tidy flat).symm ▸ h

end Before

theorem Later.before (h : Later own S.programs O m P m' d') (hb : Before S O p Δ v m d) :
    Before S P p Δ v m' d' := ⟨h.sees, hb.member, hb.cleared, h.chain hb.chain⟩

/-- What a phrase returns, if it returns something. -/
def Returns (ps : List Program) (P : Outline) (outcome : Outcome RefId EnvId) : Prop :=
  ∀ v, outcome = .returned v → P.Good ps v

/-- How a statement ends. Behind a normal end these names are declared. -/
def Endings (ps : List Program) (Γ : Names) (Δ : Marks) (e : EnvId) (P : Outline) :
    Outcome RefId EnvId → Prop
  | .normal => Seen P Γ Δ e
  | .broke => True
  | .returned v => P.Good ps v

theorem Endings.returns {ps : List Program} {outcome : Outcome RefId EnvId}
    (h : Endings ps Γ Δ e P outcome) : Returns ps P outcome := by
  rintro v rfl
  exact h

/-- Behind a phrase that adds no names, the same is to be seen. -/
theorem Later.endings {ps : List Program} {outcome : Outcome RefId EnvId}
    (h : Later none ps O m P m' d') (seen : Seen O Γ Δ e) (hr : Returns ps P outcome) :
    Endings ps Γ Δ e P outcome := by
  cases outcome with
  | normal => exact h.seen seen
  | broke => trivial
  | returned v => exact hr v rfl

/-- Statements agree, if so much fuel is left. Only declarations add to the environment they run in. -/
def ExecAgrees (S : Setting) (i : Interference) (fuel : Nat) : Prop :=
  ∀ {O p Δ c s m d a}, Before S O p Δ ⟨c, s, .stmt a⟩ m d → O.Exact m.scope s.names →
    Agrees (a.own m.scope) S.programs O m d (Endings S.programs (a.after s.names) Δ m.scope)
      (exec i S.site fuel a) (Lox.exec S.site fuel a)

/-- Expressions agree, if so much fuel is left. -/
def EvalAgrees (S : Setting) (i : Interference) (fuel : Nat) : Prop :=
  ∀ {O p Δ c s m d e}, Before S O p Δ ⟨c, s, .expr e⟩ m d →
    Agrees none S.programs O m d (fun P => P.Good S.programs) (eval i S.site fuel e)
      (Lox.eval S.site fuel e)

/-! Statements, one after another. -/

theorem Later.ofOwn {a : Stmt RefId} (h : Later (a.own e) S.programs O m P m' d') :
    Later (some e) S.programs O m P m' d' := by
  cases hd : a.isDeclaration with
  | true => exact a.own_of_declaration hd e ▸ h
  | false => exact .weaken (a.own_of_not_declaration hd e ▸ h)

theorem execAll_agrees (hx : ExecAgrees S i fuel) {ss : List (Stmt RefId)}
    (hb : Before S O p Δ ⟨c, s, .stmts ss⟩ m d) (exact : O.Exact m.scope s.names) :
    Agrees (some m.scope) S.programs O m d (Returns S.programs)
      (execAll (exec i S.site fuel) ss) (Lox.execAll (Lox.exec S.site fuel) ss) := by
  induction ss generalizing O m d s with
  | nil => exact .pure hb.sees nofun
  | cons a ss ih =>
    have head : Before S O p Δ ⟨c, s, .stmt a⟩ m d :=
      ⟨hb.sees, hb.member, hb.cleared.enter hb.faultless (.head c s a ss), hb.chain⟩
    refine (hx head exact).bindOf Later.ofOwn fun {P m' d' outcome} later ending => ?_
    cases outcome with
    | normal =>
      obtain ⟨chain, exact⟩ := ending
      rw [← later.scope] at chain exact ⊢
      rw [← (Stmt.resolve_moves c hb.tidy.1).names s] at chain exact
      exact ih ⟨later.sees, hb.member, hb.cleared.enter hb.faultless (.tail c s a ss), chain⟩ exact
    | broke => exact .pure later.sees nofun
    | returned v => exact .pure later.sees ending.returns

/-- The parameters of a routine get its arguments, one after another. -/
theorem params_agree {ps : List Program} {params : List Lexeme} {vs : List (Value RefId EnvId)}
    (hs : Sees ps O m d) (seen : Seen O Γ Δ e) (fresh : Names.FreshAll Γ params)
    (hv : ∀ v ∈ vs, O.Good ps v) (length : vs.length = params.length) :
    Agrees (some e) ps O m d (fun P _ => Seen P (Γ.declareAll params) Δ e)
      (defineAll i e params vs) (Lox.defineAll e params vs) := by
  induction params generalizing vs O m d Γ with
  | nil =>
    obtain rfl := List.length_eq_zero_iff.mp length
    exact .pure hs seen
  | cons name params ih =>
    cases vs with
    | nil => cases length
    | cons v vs =>
      obtain ⟨first, rest⟩ := List.forall_mem_cons.mp hv
      refine (defineStored_agrees hs i e name.text fun w hw =>
        Option.some.inj hw ▸ first.later (O.extends_declared e name.text)).bind fun later equal => ?_
      exact ih later.sees (equal ▸ seen.declared fresh.1) fresh.2
        (fun v hv => (rest v hv).later later.grows) (Nat.succ.inj length)

/-! Calls. -/

variable {vs : List (Value RefId EnvId)}

theorem callClosure_agrees (hx : ExecAgrees S i fuel) (hs : Sees S.programs O m d)
    {initializer : Bool} {k : Closure RefId EnvId} (hk : Stems S.programs O.Chain initializer k)
    (hv : ∀ v ∈ vs, O.Good S.programs v) (length : vs.length = k.routine.params.length) :
    Agrees none S.programs O m d (fun P => P.Good S.programs)
      (callClosure i (exec i S.site fuel) k vs) (k.call (Lox.exec S.site fuel) vs) := by
  obtain ⟨⟨params, body⟩, around⟩ := k
  obtain ⟨p, member, c, s, kind, Δ, chain, cleared, -⟩ := hk
  have faultless := S.faultless p member
  obtain ⟨fresh, -⟩ := cleared.stands.params faultless
  unfold callClosure Closure.call
  refine .nestIn hs around _ fun sees => ?_
  have inside := seen_nested chain (Routine.ownScope ⟨params, body⟩).unread
  refine (params_agree sees inside fresh (fun v hv' => (hv v hv').later (O.extends_nested _ _))
    length).bind fun {P m' d' _} later seen => ?_
  have names := (Moves.declareAll params).names (s.opened [])
  have before : Before S P p ((Routine.ownScope ⟨params, body⟩).unread :: Δ)
      ⟨{ c with routineKind := some kind, inLoop := false }, (declareAll params (s.opened [])).2,
        .stmts body⟩ { m' with scope := O.length } d' :=
    ⟨later.sees.around O.length m'.host, member,
      cleared.enter faultless (.statements c s kind params body), names ▸ seen.chain⟩
  refine ((execAll_agrees hx before (names ▸ seen.exact)).inScope).bind
    fun {P m' d' outcome} later ending => ?_
  cases outcome with
  | returned v => exact .pure later.sees (ending v rfl)
  | normal | broke => exact .pure later.sees trivial

/-- The receiver of an initializer is in an environment without marks. -/
theorem callFunction_agrees (hx : ExecAgrees S i fuel) (hs : Sees S.programs O m d)
    {f : Function RefId EnvId} (hf : Stems S.programs O.Chain f.initializer f.closure)
    (hv : ∀ v ∈ vs, O.Good S.programs v) (length : vs.length = f.arity) :
    Agrees none S.programs O m d (fun P => P.Good S.programs)
      (callFunction i (exec i S.site fuel) f vs) (f.call (Lox.exec S.site fuel) vs) := by
  refine (callClosure_agrees hx hs hf hv length).bind fun {P m' d' v} later hv => ?_
  cases hi : f.initializer with
  | false => exact .pure later.sees hv
  | true =>
    obtain ⟨p, _, c, s, kind, Δ, chain, _, initial⟩ := hf
    obtain ⟨Γ, Δ, names, rfl⟩ := initial hi
    rw [names] at chain
    have spares : P.Spares f.closure.scope 0 := by
      obtain @⟨_⟩ | ⟨he, _, _⟩ := chain.extend later.grows
      exact Outline.spares_of_free (Outline.marksAt_eq he) 0
    obtain ⟨-, same, good⟩ := later.sees.unmarked spares
    have same : (d'.over m').machine.environments.getSlot f.closure.scope 0 = _ := same
    rw [if_pos rfl, if_pos rfl, Agrees, bind_of_ok (spare_run later.sees i spares), get_bind_run,
      get_bind_run, same]
    cases hg : m'.environments.getSlot f.closure.scope 0 with
    | found receiver => exact Agrees.pure later.sees (good receiver hg)
    | missing | unassigned => exact Agrees.pure later.sees trivial

theorem instantiate_agrees (hx : ExecAgrees S i fuel) (hs : Sees S.programs O m d)
    {k : Class RefId EnvId} (hk : O.Classes S.programs k) (hv : ∀ v ∈ vs, O.Good S.programs v)
    (length : vs.length = k.arity) :
    Agrees none S.programs O m d (fun P => P.Good S.programs)
      (instantiate i (exec i S.site fuel) k vs) (k.instantiate (Lox.exec S.site fuel) vs) := by
  refine (newObject_agrees hs).bind fun {P m' d' id} later _ => ?_
  have object : P.Good S.programs (.instance id k) := hk.extend (List.Subset.refl _) later.grows
  have arity : k.arity = (k.initializer?.map Function.arity).getD 0 := rfl
  rw [arity] at length
  dsimp only
  cases hi : k.initializer? with
  | none => exact .pure later.sees object
  | some f =>
    rw [hi] at length
    have method : P.Method S.programs f :=
      Outline.Classes.findMethod? object Scoping.initializerName hi
    refine (bind_agrees later.sees method object).bind fun after ⟨hg, arity⟩ => ?_
    have grows := later.grows.trans after.grows
    refine (callFunction_agrees hx after.sees hg (fun v h => (hv v h).later grows)
      (length.trans arity.symm)).bind fun last _ => .pure last.sees ?_
    exact object.later (after.grows.trans last.grows)

theorem call_agrees (hx : ExecAgrees S i fuel) (hs : Sees S.programs O m d) {v : Value RefId EnvId}
    (hc : O.Good S.programs v) (hv : ∀ v ∈ vs, O.Good S.programs v) (line : Nat) :
    Agrees none S.programs O m d (fun P => P.Good S.programs)
      (call i (exec i S.site fuel) v vs line) (v.call (Lox.exec S.site fuel) vs line) := by
  -- behind the check there are as many arguments as parameters
  have checked {expected : Nat} {q : Run (Value RefId EnvId)} {p : Lox.Run RefId (Value RefId EnvId)}
      (h : vs.length = expected → Agrees none S.programs O m d (fun P => P.Good S.programs) q p) :
      Agrees none S.programs O m d (fun P => P.Good S.programs)
        (do checkArity expected vs line; q) (do Lox.checkArity expected vs line; p) := by
    unfold checkArity Lox.checkArity
    by_cases he : vs.length = expected
    · rw [if_pos he]
      exact h he
    · rw [if_neg he]
      exact .raise hs _ _
  cases v with
  | function id f =>
    exact checked fun length => (callFunction_agrees hx hs hc hv length).onLine line
  | lambda id l k => exact checked fun length => (callClosure_agrees hx hs hc hv length).onLine line
  | «class» k => exact checked fun length => (instantiate_agrees hx hs hc hv length).onLine line
  | native n =>
    simp only [call, Value.call]
    by_cases h : vs.length = n.arity
    · rw [dif_pos h, dif_pos h]
      exact (native_agrees hs n h).onLine line
    · rw [dif_neg h, dif_neg h]
      exact .raise hs _ _
  | _ => exact .raise hs _ _

/-! Declarations. -/

/-- A function sees its own name. -/
theorem defineFunction_agrees {name : Lexeme} {r : Routine RefId}
    (hb : Before S O p Δ ⟨c, s, .stmt (.function ⟨name, r⟩)⟩ m d) (exact : O.Exact m.scope s.names)
    (id : ObjectId) :
    Agrees (some m.scope) S.programs O m d (fun P _ => Seen P (s.names.declare name.text) Δ m.scope)
      (define i m.scope name.text (some (.function id ⟨name.text, ⟨r, m.scope⟩, false⟩)))
      (Run.define m.scope name.text (some (.function id ⟨name.text, ⟨r, m.scope⟩, false⟩))) := by
  obtain ⟨fresh, -⟩ := hb.cleared.stands.names hb.faultless
  have seen := Seen.declared ⟨hb.chain, exact⟩ fresh
  have names := (announce_moves name).names s
  have cleared : Cleared p Δ ⟨c, (announce name s).2, .routine .function r⟩ :=
    hb.cleared.enter hb.faultless (.function c s name r)
  have good : (O.declared m.scope name.text).Good S.programs
      (.function id ⟨name.text, ⟨r, m.scope⟩, false⟩) :=
    ⟨p, hb.member, c, _, .function, Δ, names ▸ seen.chain, cleared, nofun⟩
  exact (defineStored_agrees hb.sees i m.scope name.text fun w hw => Option.some.inj hw ▸ good).imp
    fun _ equal => equal ▸ seen

theorem readSuperclass_agrees {name : Lexeme} {superclass : Option (RefId × Lexeme)}
    {ms cs : List (Definition RefId)}
    (hb : Before S O p Δ ⟨c, s, .stmt (.class name superclass ms cs)⟩ m d) :
    Agrees none S.programs O m d
      (fun P k => (∀ c, k = some c → P.Classes S.programs c) ∧ k.isSome = superclass.isSome)
      (readSuperclass i S.site superclass) (Lox.readSuperclass S.site superclass) := by
  cases superclass with
  | none => exact .pure hb.sees ⟨nofun, rfl⟩
  | some clause =>
    obtain ⟨id, above⟩ := clause
    have site := hb.site_eq (hb.cleared.stands.inherits hb.faultless).2.2
    simp only [readSuperclass, Lox.readSuperclass, site]
    refine (read_agrees hb.sees i hb.chain (hb.cleared.inherits hb.faultless)).bind
      fun {P m' d' v} later hv => ?_
    cases v with
    | «class» k =>
      refine .pure later.sees ⟨fun c hc => ?_, rfl⟩
      cases hc
      exact hv
    | _ => exact .raise later.sees _ _

theorem methodScope_agrees {ps : List Program} (hs : Sees ps O m d) (chain : O.Chain Γ Δ m.scope)
    {k : Option (Class RefId EnvId)} (hk : ∀ c, k = some c → O.Classes ps c) {α : Type}
    {superclass : Option α} (same : k.isSome = superclass.isSome) :
    Agrees none ps O m d
      (fun P => P.Chain (Names.behindClause superclass Γ) (Marks.behindClause superclass Δ))
      (lift (methodScope k)) (methodScope k) := by
  cases k with
  | none =>
    cases superclass with
    | some _ => cases same
    | none => exact .step rfl rfl (.refl hs) chain
  | some k =>
    cases superclass with
    | none => cases same
    | some _ =>
      have nested : methodScope (some k) m = (do
          let e ← Run.nestIn m.scope
          Run.define e "super" (some (.class k))
          return e : Lox.Run RefId EnvId) m := rfl
      refine .lifted nested rfl ?_
      rw [lift_bind]
      refine .nestLift hs m.scope fun sees => ?_
      rw [lift_bind]
      have grows := (O.extends_nested m.scope []).trans (Outline.extends_declared O.length "super")
      have above : Entry ps ((O.nested m.scope []).declared O.length "super")
          ((O.nested m.scope []).marksAt O.length) ("super", some (.class k))
          ("super", some (.class k)) :=
        ⟨rfl, fun _ => ⟨rfl, fun w hw =>
          Option.some.inj hw ▸ (hk k rfl).extend (List.Subset.refl ps) grows⟩⟩
      refine (define_agrees sees above).bind fun later equal => .pure later.sees ?_
      have seen : Seen _ (["super"] :: Γ) ([] :: Δ) O.length :=
        (seen_nested chain []).declared List.not_mem_nil
      exact equal ▸ seen.chain

theorem method_methodTable (member : p ∈ S.programs) (chain : O.Chain Γ Δ e)
    {initializer : Lexeme → Bool} {ds : List (Definition RefId)}
    (cleared : ∀ x ∈ ds, ∃ c t kind, t.names = ["this"] :: Γ ∧
      Cleared p ([] :: Δ) ⟨c, t, .routine kind x.routine⟩) :
    ∀ f ∈ methodTable e initializer ds, O.Method S.programs f := by
  intro f hf
  rw [methodTable, List.mem_reverse, List.mem_map] at hf
  obtain ⟨x, hx, rfl⟩ := hf
  obtain ⟨c, t, kind, names, cleared⟩ := cleared x hx
  exact ⟨p, member, c, t, kind, _, ⟨Γ, Δ, names, rfl, chain⟩, cleared, fun _ => ⟨Γ, Δ, names, rfl⟩⟩

/-- The methods of a class have the class above and its name around them. -/
theorem defineClass_agrees {name : Lexeme} {superclass : Option (RefId × Lexeme)}
    {ms cs : List (Definition RefId)}
    (hb : Before S O p Δ ⟨c, s, .stmt (.class name superclass ms cs)⟩ m d)
    (exact : O.Exact m.scope s.names) :
    Agrees (some m.scope) S.programs O m d (fun P _ => Seen P (s.names.declare name.text) Δ m.scope)
      (defineClass i S.site name superclass ms cs) (Lox.defineClass S.site name superclass ms cs) := by
  obtain ⟨fresh, -⟩ := hb.cleared.stands.defines hb.faultless
  have cleared := hb.cleared.members hb.faultless
  have seen : Seen O s.names Δ m.scope := ⟨hb.chain, exact⟩
  unfold defineClass Lox.defineClass
  refine (readSuperclass_agrees hb).andThen fun {P₁ m₁ d₁ k} later₁ ⟨hk, same⟩ => ?_
  have seen := later₁.seen seen
  rw [← later₁.scope] at seen ⊢
  refine (declare_agrees later₁.sees seen fresh).bind fun {P₂ m₂ d₂ slot} later₂ seen => ?_
  rw [← later₂.scope] at seen ⊢
  refine (methodScope_agrees later₂.sees seen.chain (fun c hc =>
    (hk c hc).extend (List.Subset.refl _) later₂.grows) same).andThen
      fun {P₃ m₃ d₃ around} later₃ chain => ?_
  refine (newObject_agrees later₃.sees).andThen fun {P₄ m₄ d₄ id} later₄ _ => ?_
  refine .current ?_
  have grows := later₂.grows.trans (later₃.grows.trans later₄.grows)
  have value : P₄.Good S.programs
      (.class ⟨id, name.text, k, methodTable around (·.text == Scoping.initializerName) ms,
        methodTable around (fun _ => false) cs⟩) := by
    refine Outline.Classes.of _ _ (fun c hc => (hk c hc).extend (List.Subset.refl _) grows) ?_ ?_
    · exact method_methodTable hb.member (chain.extend later₄.grows) fun x hx =>
        cleared x (List.mem_append_left _ hx)
    · exact method_methodTable hb.member (chain.extend later₄.grows) fun x hx =>
        cleared x (List.mem_append_right _ hx)
  exact ((put_agrees later₄.sees i m₄.scope slot value).imp fun later₅ _ =>
    later₅.seen (later₄.seen (later₃.seen seen))).weaken

theorem defineVariable_agrees (he : EvalAgrees S i fuel) {name : Lexeme}
    {initial : Option (Expr RefId)} (hb : Before S O p Δ ⟨c, s, .stmt (.var name initial)⟩ m d)
    (exact : O.Exact m.scope s.names) :
    Agrees (some m.scope) S.programs O m d (fun P _ => Seen P (s.names.declare name.text) Δ m.scope)
      (defineVariable i (eval i S.site fuel) name initial)
      (Lox.defineVariable (Lox.eval S.site fuel) name initial) := by
  obtain ⟨fresh, -⟩ := hb.cleared.stands.declares hb.faultless
  have seen : Seen O s.names Δ m.scope := ⟨hb.chain, exact⟩
  have names := (Moves.declare name).names s
  -- the initial value is evaluated where the name is declared
  have initial_before {x : Expr RefId} (hi : initial = some x) {O : Outline}
      {m : Lox.Machine RefId} {d : Shade} (hs : Sees S.programs O m d)
      (chain : O.Chain (s.names.declare name.text) Δ m.scope) :
      Before S O p Δ ⟨c, (declare name s).2, .expr x⟩ m d := by
    subst hi
    exact ⟨hs, hb.member, hb.cleared.enter hb.faultless (.initial c s name x), names ▸ chain⟩
  unfold defineVariable Lox.defineVariable
  refine .current ?_
  by_cases hg : m.scope = EnvId.global
  · dsimp only
    rw [if_pos hg, if_pos hg]
    obtain ⟨outside, rfl⟩ := hb.sees.outside (hg ▸ hb.chain)
    have declared : s.names.declare name.text = [] := by rw [outside, Names.declare]
    rw [declared] at initial_before ⊢
    rw [hg]
    have defined {O : Outline} {m : Lox.Machine RefId} {d : Shade} (hs : Sees S.programs O m d)
        {v : Option (Value RefId EnvId)} (hv : ∀ w, v = some w → O.Good S.programs w) :
        Agrees (some EnvId.global) S.programs O m d (fun P _ => Seen P [] [] .global)
          (define i .global name.text v) (Run.define .global name.text v) :=
      (defineStored_agrees hs i .global name.text fun w hw =>
        (hv w hw).later (O.extends_declared _ name.text)).imp fun _ _ => seen_top
    cases initial with
    | none => exact defined hb.sees fun _ hw => by cases hw
    | some x =>
      refine ((he (initial_before rfl hb.sees (hg ▸ .top))).map
        (R := fun P v => ∀ w, v = some w → P.Good S.programs w) ?_).andThen fun later hv =>
          defined later.sees hv
      intro P v hv w hw
      exact Option.some.inj hw ▸ hv
  · dsimp only
    rw [if_neg hg, if_neg hg]
    refine (declare_agrees hb.sees seen fresh).bind fun {P m' d' slot} later seen => ?_
    cases initial with
    | none => exact .pure later.sees seen
    | some x =>
      refine (he (initial_before rfl later.sees (later.scope ▸ seen.chain))).andThen fun after hv => ?_
      exact ((put_agrees after.sees i m.scope slot hv).imp fun last _ =>
        last.seen (after.seen seen)).weaken

/-! Phrases. -/

theorem evalAll_agrees (he : EvalAgrees S i fuel) {es : List (Expr RefId)}
    (hb : Before S O p Δ ⟨c, s, .exprs es⟩ m d) :
    Agrees none S.programs O m d (fun P vs => ∀ v ∈ vs, P.Good S.programs v)
      (evalAll (eval i S.site fuel) es) (Lox.evalAll (Lox.eval S.site fuel) es) := by
  induction es generalizing O m d s with
  | nil => exact .pure hb.sees nofun
  | cons e es ih =>
    refine (he (hb.enter (.first c s e es) rfl)).bind fun later hv => ?_
    exact (ih ((later.before hb).enter (.rest c s e es) rfl)).bind fun after hvs =>
      .pure after.sees (List.forall_mem_cons.mpr ⟨hv.later after.grows, hvs⟩)

theorem good_unary {ps : List Program} (op : UnaryOp) (line : Nat) (v : Value RefId EnvId) :
    ∀ w, op.apply line v = .ok w → O.Good ps w := by
  intro w hw
  obtain ⟨b, rfl⟩ := UnaryOp.apply_ofBare hw
  exact Outline.good_ofBare b

theorem good_binary {ps : List Program} (op : BinaryOp) (line : Nat) (v : Value RefId EnvId)
    {u : Value RefId EnvId} (hu : O.Good ps u) : ∀ w, op.apply line v u = .ok w → O.Good ps w := by
  intro w hw
  obtain rfl | ⟨b, rfl⟩ := BinaryOp.apply_ofBare hw
  · exact hu
  · exact Outline.good_ofBare b

theorem evalStep_agrees (hx : ExecAgrees S i fuel) (he : EvalAgrees S i fuel) {e : Expr RefId}
    (hb : Before S O p Δ ⟨c, s, .expr e⟩ m d) :
    Agrees none S.programs O m d (fun P => P.Good S.programs)
      (evalStep i S.site (exec i S.site fuel) (eval i S.site fuel) e)
      (Lox.evalStep S.site (Lox.exec S.site fuel) (Lox.eval S.site fuel) e) := by
  have hp := hb.faultless
  have stands := hb.cleared.stands
  cases e with
  | literal v => exact .pure hb.sees (Outline.good_ofLiteral v)
  | «variable» id name =>
    have site := hb.site_eq (stands.reads hp)
    simp only [evalStep, Lox.evalStep, site]
    exact read_agrees hb.sees i hb.chain hb.cleared.reads
  | assign id name e =>
    refine (he (hb.enter (.assigned c s id name e) rfl)).bind fun later hv => ?_
    exact (assign_agrees later.sees i (S.site id) name hv).bind fun after _ =>
      .pure after.sees (hv.later after.grows)
  | this id keyword =>
    obtain ⟨text, _, _, bound⟩ := stands.this hp
    have site := hb.site_eq bound
    rw [← text] at site
    simp only [evalStep, Lox.evalStep, site]
    exact read_agrees hb.sees i hb.chain (hb.cleared.this hp)
  | super id keyword method =>
    obtain ⟨_, distance, receiver, above, bound⟩ := stands.super hp
    obtain ⟨spares, spares'⟩ := hb.cleared.super
    have site := hb.site_eq bound
    simp only [evalStep, Lox.evalStep, site]
    exact getSuper_agrees hb.sees i hb.chain above receiver spares spares' keyword method
  | unary op sign e =>
    exact (he (hb.enter (.operand c s op sign e) rfl)).bind fun {P m' d' v} later _ =>
      ofExcept_agrees later.sees (good_unary op sign.line v)
  | binary op sign l r =>
    refine (he (hb.enter (.left c s op sign l r) rfl)).bind fun {P m' d' v} later _ => ?_
    exact (he ((later.before hb).enter (.right c s op sign l r) rfl)).bind fun after hr =>
      ofExcept_agrees after.sees (good_binary op sign.line v hr)
  | logical op sign l r =>
    refine (he (hb.enter (.either c s op sign l r) rfl)).bind fun {P m' d' v} later hl => ?_
    cases op.decides v with
    | true => exact .pure later.sees hl
    | false => exact he ((later.before hb).enter (.other c s op sign l r) rfl)
  | ternary e y n =>
    refine (he (hb.enter (.condition c s e y n) rfl)).bind fun {P m' d' v} later _ => ?_
    cases v.truthy with
    | true => exact he ((later.before hb).enter (.yes c s e y n) rfl)
    | false => exact he ((later.before hb).enter (.no c s e y n) rfl)
  | group e => exact he (hb.enter (.inner c s e) rfl)
  | call e es line =>
    refine (he (hb.enter (.callee c s e es line) rfl)).bind fun later hv => ?_
    refine (evalAll_agrees he ((later.before hb).enter (.arguments c s e es line) rfl)).bind
      fun after hvs => ?_
    exact call_agrees hx after.sees (hv.later after.grows) hvs line
  | get o name =>
    exact (he (hb.enter (.object c s o name) rfl)).bind fun later hv =>
      getProperty_agrees later.sees hv name
  | set o name e =>
    refine (he (hb.enter (.target c s o name e) rfl)).bind fun {P m' d' v} later _ => ?_
    cases v.fieldsOf? with
    | none => exact .raise later.sees _ _
    | some id =>
      refine (he ((later.before hb).enter (.value c s o name e) rfl)).bind fun after hv => ?_
      exact (setField_agrees after.sees id name.text hv).bind fun last _ =>
        .pure last.sees (hv.later last.grows)
  | lambda line r =>
    refine .current ((newObject_agrees hb.sees).bind fun {P m' d' id} later _ => ?_)
    exact .pure later.sees ⟨p, hb.member, c, s, .lambda, Δ, hb.chain.extend later.grows,
      hb.cleared.enter hp (.lambda c s line r), fun h => by cases h⟩

/-- A statement that is no declaration. -/
theorem branch_agrees (hx : ExecAgrees S i fuel) {a : Stmt RefId}
    (hb : Before S O p Δ ⟨c, s, .stmt a⟩ m d) (exact : O.Exact m.scope s.names)
    (plain : a.isDeclaration = false) :
    Agrees none S.programs O m d (Returns S.programs) (exec i S.site fuel a)
      (Lox.exec S.site fuel a) := by
  have agrees := hx hb exact
  rw [Stmt.own_of_not_declaration plain] at agrees
  exact agrees.imp fun _ ending => ending.returns

theorem execStep_agrees (hx : ExecAgrees S i fuel) (he : EvalAgrees S i fuel) {a : Stmt RefId}
    (hb : Before S O p Δ ⟨c, s, .stmt a⟩ m d) (exact : O.Exact m.scope s.names) :
    Agrees (a.own m.scope) S.programs O m d (Endings S.programs (a.after s.names) Δ m.scope)
      (execStep i S.site (exec i S.site fuel) (eval i S.site fuel) a)
      (Lox.execStep S.site (Lox.exec S.site fuel) (Lox.eval S.site fuel) a) := by
  have hp := hb.faultless
  have seen : Seen O s.names Δ m.scope := ⟨hb.chain, exact⟩
  cases a with
  | expr e =>
    exact (he (hb.enter (.expr c s e) rfl)).bind fun later _ => .pure later.sees (later.seen seen)
  | print e =>
    refine (he (hb.enter (.print c s e) rfl)).bind fun {P m' d' v} later _ => ?_
    exact (write_agrees later.sees (v.display ++ "\n")).bind fun after _ =>
      .pure after.sees (after.seen (later.seen seen))
  | var name initial =>
    exact (defineVariable_agrees he hb exact).bind fun later seen => .pure later.sees seen
  | block b =>
    have inside := seen_nested hb.chain (Routine.ownScope ⟨[], b⟩).unread
    have real : Lox.execStep S.site (Lox.exec S.site fuel) (Lox.eval S.site fuel) (.block b) m =
        (Run.nestIn m.scope >>= fun e => Run.inScope e (Lox.execAll (Lox.exec S.site fuel) b)) m := rfl
    have agrees : Agrees none S.programs O m d (Returns S.programs)
        (nestIn m.scope ⟨[], b⟩ >>= fun e => inScope e (execAll (exec i S.site fuel) b))
        (Run.nestIn m.scope >>= fun e => Run.inScope e (Lox.execAll (Lox.exec S.site fuel) b)) := by
      refine .nestIn hb.sees m.scope ⟨[], b⟩ fun sees => ?_
      have before : Before S (O.nested m.scope (Routine.ownScope ⟨[], b⟩).unread) p
          ((Routine.ownScope ⟨[], b⟩).unread :: Δ) ⟨c, s.opened [], .stmts b⟩
          { m with environments := m.environments.nest m.scope, scope := O.length }
          ⟨d.environments.nest m.scope, (O.length, (Routine.ownScope ⟨[], b⟩).unread) :: d.marks⟩ :=
        ⟨sees.around O.length m.host, hb.member, hb.cleared.enter hp (.block c s b), inside.chain⟩
      exact (execAll_agrees hx before inside.exact).inScope
    exact .congr real rfl (agrees.imp fun later hr => later.endings seen hr)
  | «if» e y n =>
    obtain ⟨-, plain⟩ := hb.cleared.stands.yes hp
    refine (he (hb.enter (.test c s e y n) rfl)).bind fun {P m' d' v} later _ => ?_
    have hb := later.before hb
    have seen := later.seen seen
    rw [← later.scope] at seen
    have ends {outcome : Outcome RefId EnvId} {U : Outline} {m'' : Lox.Machine RefId} {d'' : Shade}
        (after : Later none S.programs P m' U m'' d'') (hr : Returns S.programs U outcome) :
        Endings S.programs s.names Δ m.scope U outcome := later.scope ▸ after.endings seen hr
    cases v.truthy with
    | true =>
      have enters := Visit.Enters.consequent c s e y n
      exact (branch_agrees hx (hb.enter enters rfl) (hb.exact enters rfl seen.exact) plain).imp ends
    | false =>
      cases n with
      | none => exact .pure hb.sees (ends (.refl hb.sees) nofun)
      | some n =>
        obtain ⟨-, plain⟩ := hb.cleared.stands.no hp
        have enters := Visit.Enters.alternative c s e y n
        exact (branch_agrees hx (hb.enter enters rfl) (hb.exact enters rfl seen.exact) plain).imp ends
  | «while» e b =>
    obtain ⟨-, -, plain⟩ := hb.cleared.stands.loop hp
    have loop : Agrees none S.programs O m d (Returns S.programs)
        (execStep i S.site (exec i S.site fuel) (eval i S.site fuel) (.while e b))
        (Lox.execStep S.site (Lox.exec S.site fuel) (Lox.eval S.site fuel) (.while e b)) := by
      refine (he (hb.enter (.guard c s e b) rfl)).bind fun {P m' d' v} later _ => ?_
      have hb := later.before hb
      have seen := later.scope ▸ later.seen seen
      cases v.truthy with
      | false => exact .pure hb.sees nofun
      | true =>
        have enters := Visit.Enters.body c s e b
        refine (branch_agrees hx (hb.enter enters rfl) (hb.exact enters rfl seen.exact) plain).bind
          fun {P m' d' outcome} after hr => ?_
        cases outcome with
        | normal => exact branch_agrees hx (after.before hb) (after.scope ▸ after.seen seen).exact rfl
        | broke => exact .pure after.sees nofun
        | returned v => exact .pure after.sees hr
    exact loop.imp fun later hr => later.endings seen hr
  | «break» keyword => exact .pure hb.sees trivial
  | «return» keyword value =>
    cases value with
    | none => exact .pure hb.sees trivial
    | some e =>
      exact (he (hb.enter (.answer c s keyword e) rfl)).bind fun later hv => .pure later.sees hv
  | function x =>
    obtain ⟨name, r⟩ := x
    refine .current ((newObject_agrees hb.sees).andThen fun {P m' d' id} later _ => ?_)
    have exact := later.scope ▸ (later.seen seen).exact
    have agrees := defineFunction_agrees (i := i) (later.before hb) exact id
    rw [later.scope] at agrees
    exact agrees.bind fun after seen => .pure after.sees seen
  | «class» name superclass ms cs =>
    exact (defineClass_agrees hb exact).bind fun later seen => .pure later.sees seen

/-- All phrases agree, whatever the fuel. -/
theorem phrases_agree (S : Setting) (i : Interference) (fuel : Nat) :
    ExecAgrees S i fuel ∧ EvalAgrees S i fuel := by
  induction fuel with
  | zero => exact ⟨fun hb _ => .throw hb.sees .outOfFuel, fun hb => .throw hb.sees .outOfFuel⟩
  | succ fuel ih =>
    obtain ⟨hx, he⟩ := ih
    exact ⟨fun hb exact => execStep_agrees hx he hb exact, fun hb => evalStep_agrees hx he hb⟩

/-- Outside of all blocks nothing is declared, however a statement ends. -/
theorem interpretFrom_agrees {last : Value RefId EnvId} {ss : List (Stmt RefId)}
    (hb : Before S O p Δ ⟨c, s, .stmts ss⟩ m d) (top : s.names = []) (hv : O.Good S.programs last) :
    Agrees (some m.scope) S.programs O m d (fun P => P.Good S.programs)
      (interpretFrom i S.site fuel last ss) (Lox.interpretFrom S.site fuel last ss) := by
  obtain ⟨hx, he⟩ := phrases_agree S i fuel
  induction ss generalizing O m d s last with
  | nil => exact .pure hb.sees hv
  | cons a ss ih =>
    have hp := hb.faultless
    have head : Before S O p Δ ⟨c, s, .stmt a⟩ m d :=
      ⟨hb.sees, hb.member, hb.cleared.enter hp (.head c s a ss), hb.chain⟩
    have behind : (a.resolve c s).2.names = [] := by
      rw [(Stmt.resolve_moves c hb.tidy.1).names s, top]
      exact Stmt.afterAll_nil [a]
    have tail {own : Option EnvId} {P : Outline} {m' : Lox.Machine RefId} {d' : Shade}
        (later : Later own S.programs O m P m' d') :
        Before S P p Δ ⟨c, (a.resolve c s).2, .stmts ss⟩ m' d' := by
      have chain := later.chain hb.chain
      refine ⟨later.sees, hb.member, hb.cleared.enter hp (.tail c s a ss), ?_⟩
      rw [top] at chain
      rw [behind]
      exact chain
    have statement :
        Agrees (some m.scope) S.programs O m d (fun P => P.Good S.programs)
          (do
            let _ ← exec i S.site fuel a
            interpretFrom i S.site fuel last ss)
          (do
            let _ ← Lox.exec S.site fuel a
            Lox.interpretFrom S.site fuel last ss) := by
      refine (hx head (top ▸ trivial)).bindOf Later.ofOwn fun later _ => ?_
      rw [← later.scope]
      exact ih (tail later) behind (hv.later later.grows)
    cases a with
    | expr e =>
      refine (he (head.enter (.expr c s e) rfl)).andThen fun later hv => ?_
      rw [← later.scope]
      exact ih (tail later) behind hv
    | _ => exact statement

theorem interpret_agrees (hs : Sees S.programs O m d) (hp : p ∈ S.programs)
    (global : m.scope = .global) :
    Agrees (some m.scope) S.programs O m d (fun P => P.Good S.programs)
      (interpret i S.site fuel p) (Lox.interpret S.site fuel p) := by
  have before : Before S O p [] ⟨{}, {}, .stmts p⟩ m d := ⟨hs, hp, .program p, global ▸ .top⟩
  have nothing : O.Good S.programs .nil := trivial
  exact (interpretFrom_agrees before rfl nothing).bind fun later hv =>
    (flush_agrees later.sees).bind fun after _ => .pure after.sees (hv.later after.grows)

end Marked

end Lox
