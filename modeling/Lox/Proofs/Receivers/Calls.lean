import Lox.Proofs.Receivers.Steps

/-!
Calls keep what is known of values. A routine that is called runs in a new environment inside of the one
it is kept in, which is that of running code or one that binds a method. So if statements keep what is
known, calls do.
-/

namespace Lox

open Scoping Machine

/-- What is expected holds wherever a phrase of a program without faults runs. It may be about a machine
that is behind the run. -/
structure Setting.Met (S : Setting) (w : Machine RefId → Watch RefId) : Prop where
  stmt : ∀ {p c Γ m n a}, S.Ready p Γ m (.stmt a) → Stands p c Γ (.stmt a) → m.Grows n →
    (w n).stmt a m
  expr : ∀ {p c Γ m n e}, S.Ready p Γ m (.expr e) → Stands p c Γ (.expr e) → m.Grows n →
    (w n).expr e m
  access : ∀ {p c Γ m n e}, S.Ready p Γ m (.expr e) → Stands p c Γ (.expr e) → m.Grows n →
    (w n).access e m
  body : ∀ n initializer outcome, (w n).body initializer outcome
  top : ∀ n outcome, (w n).top outcome

/-- Statements are safe, if so much fuel is left. -/
def Setting.ExecSafe (S : Setting) (w : Machine RefId → Watch RefId) (stop : Stop) (fuel : Nat) : Prop :=
  ∀ {p c Γ m a}, S.Ready p Γ m (.stmt a) → Stands p c Γ (.stmt a) →
    Receivers.Safe S.programs m
      (fun m' outcome => ∀ v, outcome = .returned v → m'.Trusts S.programs v)
      (fun n => (w n).exec stop S.site fuel a) (exec S.site fuel a)

/-- Expressions are safe, if so much fuel is left. -/
def Setting.EvalSafe (S : Setting) (w : Machine RefId → Watch RefId) (stop : Stop) (fuel : Nat) : Prop :=
  ∀ {p c Γ m e}, S.Ready p Γ m (.expr e) → Stands p c Γ (.expr e) →
    Receivers.Safe S.programs m (Receivers.Trusted S.programs)
      (fun n => (w n).eval stop S.site fuel e) (eval S.site fuel e)

namespace Machine

/-- Code of the routine runs well in a plain environment inside of the one that the routine is kept in. -/
def Callable (ps : List Program) (m : Machine RefId) (closure : Closure RefId EnvId) : Prop :=
  ∃ p ∈ ps, ∃ context Γ kind, Stands p context Γ (.routine kind closure.routine) ∧
    ∀ {m' e names}, m.Grows m' → m'.Plain e (some closure.scope) → Names.Plain names →
      m'.Lodged (.routine kind closure.routine) (names :: Γ) e

variable {ps : List Program} {m : Machine RefId}

theorem Owns.callable {closure : Closure RefId EnvId} (h : m.Owns ps closure) :
    m.Callable ps closure := by
  obtain ⟨p, member, context, Γ, kind, stands, lodged⟩ := h
  exact ⟨p, member, context, Γ, kind, stands, fun grows plain hn => .inner hn plain (lodged.grow grows)⟩

theorem Binds.callable {e : EnvId} {r : Value RefId EnvId} {c : Class RefId EnvId}
    {f : Function RefId EnvId} (h : m.Binds e r c f) (faultless : ∀ p ∈ ps, Faultless p)
    (hs : m.Sound ps) : m.Callable ps (f.within e).closure := by
  have formed := (hs.receiver h.receiver).formed h.offers
  obtain ⟨p, member, d, Δ, kind, stands, around⟩ := formed.stands faultless h.offers.mem
  exact ⟨p, member, d, _, kind, stands, fun grows plain hn =>
    .body hn plain (h.grow grows) (around.grow grows) (.refl _)⟩

/-- Functions and methods can be called. -/
theorem Trusts.callable {id : ObjectId} {f : Function RefId EnvId} (h : m.Trusts ps (.function id f))
    (faultless : ∀ p ∈ ps, Faultless p) (hs : m.Sound ps) : m.Callable ps f.closure := by
  cases h with
  | function f made ordinary owned => exact owned.callable
  | method made bound => exact bound.callable faultless hs

/-- An initializer is bound to an instance. -/
theorem Binds.instance_of_initializer {e : EnvId} {r : Value RefId EnvId} {c : Class RefId EnvId}
    {f : Function RefId EnvId} (h : m.Binds e r c f) (hs : m.Sound ps) (hi : f.initializer = true) :
    ∃ id k, r = .instance id k := by
  have formed := (hs.receiver h.receiver).formed h.offers
  cases h.offers with
  | method id => exact ⟨id, _, rfl⟩
  | classMethod _ hf =>
    rw [formed.initializer_of_classMethod hf] at hi
    cases hi

theorem Trusts.enter {v : Value RefId EnvId} (h : m.Trusts ps v) (e : EnvId) :
    { m with scope := e }.Trusts ps v := h.grow (List.Subset.refl ps) (.of_eq rfl (Nat.le_refl _))

end Machine

namespace Setting.Ready

variable {S : Setting} {p : Program} {c : Context} {Γ : Names} {m : Machine RefId} {a : Stmt RefId}
  {ss : List (Stmt RefId)}

/-- What is behind a statement runs where its name is declared as well. -/
theorem after (hb : S.Ready p Γ m (.stmts (a :: ss))) (stands : Stands p c Γ (.stmt a)) :
    S.Ready p (a.after Γ) m (.stmts ss) := by
  have rest : S.Ready p Γ m (.stmts ss) := hb.enter ⟨rfl, _, _, _, _, .tail {} {} a ss⟩
  refine ⟨hb.sound, hb.member, ?_⟩
  cases a with
  | var name initial => exact rest.lodged.declare (stands.declares hb.faultless).2
  | function d =>
    obtain ⟨name, r⟩ := d
    exact rest.lodged.declare (stands.names hb.faultless).2
  | «class» name superclass ms cs => exact rest.lodged.declare (stands.defines hb.faultless).2
  | _ => exact rest.lodged

theorem head (hb : S.Ready p Γ m (.stmts (a :: ss))) : S.Ready p Γ m (.stmt a) :=
  hb.enter ⟨rfl, _, _, _, _, .head {} {} a ss⟩

end Setting.Ready

namespace Receivers

variable {S : Setting} {w : Machine RefId → Watch RefId} {stop : Stop} {fuel : Nat}
  {m : Machine RefId}

theorem execAll_safe (hx : S.ExecSafe w stop fuel) {p : Program} {c : Context} {Γ : Names}
    {ss : List (Stmt RefId)} (hb : S.Ready p Γ m (.stmts ss)) (stands : Stands p c Γ (.stmts ss)) :
    Safe S.programs m (fun m' outcome => ∀ v, outcome = .returned v → m'.Trusts S.programs v)
      (fun n => execAll ((w n).exec stop S.site fuel) ss) (execAll (exec S.site fuel) ss) := by
  induction ss generalizing m Γ with
  | nil => exact .pure hb.sound nofun
  | cons a ss ih =>
    obtain ⟨head, tail⟩ := stands.stmts hb.faultless
    refine (hx hb.head head).bind fun {m' outcome} later answered => ?_
    cases outcome with
    | normal => exact ih ((hb.after head).later later) tail
    | broke => exact .pure later.sound nofun
    | returned v => exact .pure later.sound answered

variable {vs : List (Value RefId EnvId)}

theorem defineAll_safe {ps : List Program} (hs : m.Sound ps) {e : EnvId} {link : Option EnvId}
    (plain : m.Plain e link) {names : List Lexeme} (ordinary : ∀ name ∈ names, name.Ordinary)
    (hv : ∀ v ∈ vs, m.Trusts ps v) :
    Safe ps m (fun _ _ => True) (fun _ => defineAll e names vs) (defineAll e names vs) := by
  induction names generalizing m vs with
  | nil => exact .pure hs trivial
  | cons name names ih =>
    cases vs with
    | nil => exact .pure hs trivial
    | cons v vs =>
      obtain ⟨first, rest⟩ := List.forall_mem_cons.mp hv
      refine (define_safe hs plain (ordinary name List.mem_cons_self) fun w hw => ?_).bind
        fun later _ => ih later.sound (plain.grow later.grows)
          (fun n hn => ordinary n (List.mem_cons_of_mem _ hn)) (later.trustsAll rest)
      cases hw
      exact first

theorem callClosure_safe (hw : S.Met w) (hx : S.ExecSafe w stop fuel) (hs : m.Sound S.programs)
    {k : Closure RefId EnvId} (callable : m.Callable S.programs k)
    (hv : ∀ v ∈ vs, m.Trusts S.programs v) (initializer : Bool) :
    Safe S.programs m (Trusted S.programs)
      (fun n => (w n).callClosure stop ((w n).exec stop S.site fuel) initializer k vs)
      (k.call (exec S.site fuel) vs) := by
  obtain ⟨⟨params, body⟩, around⟩ := k
  obtain ⟨p, member, context, Γ, kind, stands, lodged⟩ := callable
  have faultless := S.faultless p member
  have ordinary := (stands.params faultless).2
  refine (nestIn_safe hs around).bind fun {m₁ e} later₁ plain => ?_
  refine (defineAll_safe later₁.sound plain ordinary (later₁.trustsAll hv)).bind
    fun {m₂ _} later₂ _ => ?_
  have plain := plain.grow later₂.grows
  have empty : Names.Plain [] := ⟨List.not_mem_nil, List.not_mem_nil⟩
  obtain ⟨names, declared, hn⟩ := empty.declareAll (Γ := Γ) ordinary
  have inside := (lodged (later₁.grows.trans later₂.grows) plain hn).enter
    ⟨rfl, _, _, _, _, .statements {} {} kind params body⟩
  have ready : S.Ready p (Names.declareAll params ([] :: Γ)) { m₂ with scope := e } (.stmts body) :=
    ⟨later₂.sound.enter e, member, declared ▸ inside.grow (.of_eq rfl (Nat.le_refl _))⟩
  refine ((execAll_safe hx ready (stands.statements faultless)).inScope
    fun scope answered v hv => (answered v hv).enter scope).bind fun {m₃ outcome} later₃ answered => ?_
  refine .expect (fun _ => hw.body _ _ _) ?_
  cases outcome with
  | returned v => exact .pure later₃.sound (answered v rfl)
  | normal | broke => exact .pure later₃.sound .nil

/-- The receiver of an initializer is in the first slot around it. -/
theorem callFunction_safe (hw : S.Met w) (hx : S.ExecSafe w stop fuel) (hs : m.Sound S.programs)
    {f : Function RefId EnvId} (callable : m.Callable S.programs f.closure)
    (hv : ∀ v ∈ vs, m.Trusts S.programs v) :
    Safe S.programs m (Trusted S.programs)
      (fun n => (w n).callFunction stop ((w n).exec stop S.site fuel) f vs)
      (f.call (exec S.site fuel) vs) := by
  refine (callClosure_safe hw hx hs callable hv f.initializer).bind fun {m' v} later answered => ?_
  split
  · refine .get ?_
    cases hr : m'.environments.getSlot f.closure.scope 0 with
    | found receiver => exact .pure later.sound (later.sound.getSlot hr)
    | unassigned | missing => exact .pure later.sound .nil
  · exact .pure later.sound answered

theorem instantiate_safe (hw : S.Met w) (hx : S.ExecSafe w stop fuel) (hs : m.Sound S.programs)
    {k : Class RefId EnvId} (rooted : m.Rooted S.programs k) (hv : ∀ v ∈ vs, m.Trusts S.programs v) :
    Safe S.programs m (Trusted S.programs)
      (fun n => (w n).instantiate stop ((w n).exec stop S.site fuel) k vs)
      (k.instantiate (exec S.site fuel) vs) := by
  refine (newObject_safe hs).bind fun {m₁ id} later₁ ⟨_, hi⟩ => ?_
  have object : m₁.Trusts S.programs (.instance id k) :=
    .instance hi (rooted.grow (List.Subset.refl _) later₁.grows)
  cases hf : k.initializer? with
  | none => exact .pure later₁.sound object
  | some f =>
    obtain ⟨c, descends, mem, _⟩ := Class.findMethod?_some hf
    refine (bind_safe later₁.sound (.method id descends mem) object).bind
      fun {m₂ g} later₂ ⟨e, eq, bound⟩ => ?_
    subst eq
    refine (callFunction_safe hw hx later₂.sound (bound.callable S.faultless later₂.sound)
      ((later₁.trans later₂).trustsAll hv)).bind fun {m₃ _} later₃ _ => .pure later₃.sound ?_
    exact (later₂.trans later₃).trusts object

theorem checkArity_safe {α : Type} {ps : List Program} (hs : m.Sound ps) {expected line : Nat}
    {Q : Machine RefId → α → Prop} {watched : Machine RefId → Run RefId α} {p : Run RefId α}
    (h : Safe ps m Q watched p) :
    Safe ps m Q (fun n => do checkArity expected vs line; watched n)
      (do checkArity expected vs line; p) := by
  rw [checkArity]
  split
  · exact ⟨h.same, h.ends⟩
  · have failed : Safe ps m (fun _ (_ : Unit) => False)
        (fun _ => Run.raise (.arityMismatch expected vs.length) line)
        (Run.raise (.arityMismatch expected vs.length) line) := .raise hs _ _
    exact failed.bind fun _ no => no.elim

theorem call_safe (hw : S.Met w) (hx : S.ExecSafe w stop fuel) (hs : m.Sound S.programs)
    {v : Value RefId EnvId} (hc : m.Trusts S.programs v) (hv : ∀ v ∈ vs, m.Trusts S.programs v)
    (line : Nat) :
    Safe S.programs m (Trusted S.programs)
      (fun n => (w n).call stop ((w n).exec stop S.site fuel) v vs line)
      (v.call (exec S.site fuel) vs line) := by
  cases v with
  | function id f =>
    have callable := hc.callable S.faultless hs
    exact checkArity_safe hs ((callFunction_safe hw hx hs callable hv).onLine line)
  | lambda id start k =>
    cases hc with
    | lambda _ made owned =>
      exact checkArity_safe hs ((callClosure_safe hw hx hs owned.callable hv false).onLine line)
  | «class» k =>
    cases hc with
    | «class» rooted => exact checkArity_safe hs ((instantiate_safe hw hx hs rooted hv).onLine line)
  | native n =>
    simp only [Watch.call, Value.call]
    split
    · exact (native_safe hs n vs _).onLine line
    · exact .raise hs _ _
  | _ => exact .raise hs _ _

end Receivers

end Lox
