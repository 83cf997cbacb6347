import Lox.Eval

/-!
What the evaluator keeps because its smallest steps do. A relation between a machine and the ones
after it that every smallest step keeps, and that does not mind the current environment, is kept by
every program, whether it fails or not.
-/

namespace Lox

section Bind

variable {ε σ α β : Type} {p : EStateM ε σ α} {k : α → EStateM ε σ β} {s t : σ}

theorem bind_of_ok {a : α} (h : p s = .ok a t) : (p >>= k) s = k a t := by
  simp only [bind, EStateM.bind, h]

theorem bind_of_error {e : ε} (h : p s = .error e t) : (p >>= k) s = .error e t := by
  simp only [bind, EStateM.bind, h]

theorem bind_ok {b : β} (h : (p >>= k) s = .ok b t) :
    ∃ a s₁, p s = .ok a s₁ ∧ k a s₁ = .ok b t := by
  simp only [bind, EStateM.bind] at h
  split at h
  · exact ⟨_, _, ‹_›, h⟩
  · cases h

end Bind

variable {ρ α β : Type}

namespace Run

/-- However the phrase ends, it leaves a machine that is related to the one before. -/
def Keeps (R : Machine ρ → Machine ρ → Prop) (p : Run ρ α) : Prop :=
  ∀ m, match p m with
    | .ok _ m' | .error _ m' => R m m'

/-- Every smallest step keeps the relation. -/
structure Steady (R : Machine ρ → Machine ρ → Prop) : Prop where
  refl : ∀ m, R m m
  trans : ∀ {m m' m''}, R m m' → R m' m'' → R m m''
  enter : ∀ {m m'} e, R { m with scope := e } m' → R m { m' with scope := m.scope }
  nestIn : ∀ e, Keeps R (nestIn e)
  define : ∀ e name v, Keeps R (define e name v)
  put : ∀ e slot v, Keeps R (put e slot v)
  newObject : Keeps R newObject
  setField : ∀ id name v, Keeps R (setField id name v)
  write : ∀ text, Keeps R (write text)
  native : ∀ n as h, Keeps R (native n as h)

variable {R : Machine ρ → Machine ρ → Prop} (hR : Steady R)

namespace Keeps

variable {p : Run ρ α} {k : α → Run ρ β}

theorem get {k : Machine ρ → Run ρ β} (hk : ∀ m, Keeps R (k m)) :
    Keeps R (MonadState.get >>= k) := fun m => hk m m

theorem onLine (line : Nat) (hp : Keeps R p) : Keeps R (onLine line p) := by
  intro m
  have h := hp m
  simp only [Run.onLine]
  cases hm : p m with
  | ok a m' =>
    rw [hm] at h
    exact h
  | error s m' =>
    rw [hm] at h
    cases s <;> exact h

include hR

theorem pure (a : α) : Keeps R (Pure.pure a) := fun m => hR.refl m

theorem throw (s : Stop) : Keeps R (throw s : Run ρ α) := fun m => hR.refl m

theorem raise (fault : RuntimeFault) (line : Nat) : Keeps R (raise fault line : Run ρ α) :=
  throw hR _

theorem ofExcept (x : Except RuntimeError α) : Keeps R (ofExcept x) := by
  cases x with
  | ok a => exact pure hR a
  | error e => exact throw hR _

theorem bind (hp : Keeps R p) (hk : ∀ a, Keeps R (k a)) : Keeps R (p >>= k) := by
  intro m
  have h := hp m
  simp only [Bind.bind, EStateM.bind]
  cases hm : p m with
  | error s m' =>
    rw [hm] at h
    exact h
  | ok a m' =>
    rw [hm] at h
    have h' := hk a m'
    dsimp only
    cases hk' : k a m' with
    | ok b m'' | error s m'' =>
      rw [hk'] at h'
      exact hR.trans h h'

theorem inScope (e : EnvId) (hp : Keeps R p) : Keeps R (inScope e p) := by
  intro m
  have h := hp { m with scope := e }
  simp only [Run.inScope]
  cases hm : p { m with scope := e } with
  | ok a m' | error s m' =>
    rw [hm] at h
    exact hR.enter e h

theorem map (f : α → β) (hp : Keeps R p) : Keeps R (f <$> p) := bind hR hp fun a => pure hR (f a)

theorem nest : Keeps R nest := get fun m => hR.nestIn m.scope

theorem declare (name : String) : Keeps R (declare name) :=
  get fun m => bind hR (hR.define m.scope name none) fun _ => pure hR _

theorem read (site : Option Binding) (name : Lexeme) : Keeps R (read site name) := by
  apply get
  intro m
  cases m.place? site name.text with
  | none => exact raise hR _ _
  | some place =>
    dsimp only
    cases m.environments.getSlot place.1 place.2 with
    | found v => exact pure hR v
    | unassigned | missing => exact raise hR _ _

theorem assign (site : Option Binding) (name : Lexeme) (v : Value ρ EnvId) :
    Keeps R (assign site name v) := by
  apply get
  intro m
  cases m.place? site name.text with
  | none => exact raise hR _ _
  | some place => exact hR.put _ _ v

end Keeps

end Run

open Run

section Steps

variable {R : Machine ρ → Machine ρ → Prop} (hR : Steady R)

include hR

theorem Function.bind_keeps (f : Function ρ EnvId) (receiver : Value ρ EnvId) :
    Keeps R (f.bind receiver) := by
  apply Keeps.bind hR (hR.nestIn f.closure.scope)
  intro e
  exact Keeps.bind hR (hR.define e "this" (some receiver)) fun _ => .pure hR _

theorem bindMethod_keeps (method : Option (Function ρ EnvId)) (receiver : Value ρ EnvId)
    (name : Lexeme) : Keeps R (bindMethod method receiver name) := by
  cases method with
  | none => exact .raise hR _ _
  | some f =>
    apply Keeps.bind hR (f.bind_keeps hR receiver)
    intro f
    exact Keeps.bind hR hR.newObject fun _ => .pure hR _

theorem Value.getProperty_keeps (object : Value ρ EnvId) (name : Lexeme) :
    Keeps R (object.getProperty name) := by
  cases object with
  | «instance» id c =>
    apply Keeps.get
    intro m
    cases m.field? id name.text with
    | some v => exact .pure hR v
    | none => exact bindMethod_keeps hR _ _ name
  | «class» c =>
    simp only [Value.getProperty]
    split
    · exact .raise hR _ _
    · apply Keeps.get
      intro m
      cases m.field? c.id name.text with
      | some v => exact .pure hR v
      | none => exact bindMethod_keeps hR _ _ name
  | _ => exact .raise hR _ _

theorem getSuper_keeps (site : Option Binding) (keyword method : Lexeme) :
    Keeps R (getSuper site keyword method) := by
  apply Keeps.get
  intro m
  have missing : Keeps R (raise (.undefinedVariable keyword.text) keyword.line :
    Run ρ (Value ρ EnvId)) := .raise hR _ _
  obtain _ | ⟨_ | distance, slot⟩ := site
  · exact missing
  · exact missing
  · dsimp only
    split
    · exact bindMethod_keeps hR _ _ method
    · exact bindMethod_keeps hR _ _ method
    · exact missing

theorem methodScope_keeps (parent : Option (Class ρ EnvId)) : Keeps R (methodScope parent) := by
  cases parent with
  | none => exact Keeps.get fun m => .pure hR m.scope
  | some c =>
    apply Keeps.bind hR (.nest hR)
    intro e
    exact Keeps.bind hR (hR.define e "super" _) fun _ => .pure hR e

theorem defineAll_keeps (e : EnvId) (names : List Lexeme) (vs : List (Value ρ EnvId)) :
    Keeps R (defineAll e names vs) := by
  induction names generalizing vs with
  | nil => exact .pure hR ()
  | cons name names ih =>
    cases vs with
    | nil => exact .pure hR ()
    | cons v vs => exact Keeps.bind hR (hR.define e name.text _) fun _ => ih vs

theorem checkArity_keeps (expected : Nat) (as : List (Value ρ EnvId)) (line : Nat) :
    Keeps R (checkArity expected as line) := by
  unfold checkArity
  split
  · exact .pure hR ()
  · exact .raise hR _ _

variable {site : ρ → Option Binding} {exec : Stmt ρ → Run ρ (Outcome ρ EnvId)}
  {eval : Expr ρ → Run ρ (Value ρ EnvId)}

theorem readSuperclass_keeps (superclass : Option (ρ × Lexeme)) :
    Keeps R (readSuperclass site superclass) := by
  cases superclass with
  | none => exact .pure hR none
  | some s =>
    apply Keeps.bind hR (.read hR _ _)
    intro v
    cases v with
    | «class» c => exact .pure hR (some c)
    | _ => exact .raise hR _ _

theorem defineClass_keeps (name : Lexeme) (superclass : Option (ρ × Lexeme))
    (methods classMethods : List (Definition ρ)) :
    Keeps R (defineClass site name superclass methods classMethods) := by
  apply Keeps.bind hR (readSuperclass_keeps hR superclass)
  intro parent
  apply Keeps.bind hR (.declare hR name.text)
  intro slot
  apply Keeps.bind hR (methodScope_keeps hR parent)
  intro scope
  apply Keeps.bind hR hR.newObject
  intro id
  exact Keeps.get fun m => hR.put m.scope slot _

variable (hx : ∀ s, Keeps R (exec s)) (hu : ∀ e, Keeps R (eval e))

include hx in
theorem execAll_keeps (ss : List (Stmt ρ)) : Keeps R (execAll exec ss) := by
  induction ss with
  | nil => exact .pure hR _
  | cons s ss ih =>
    apply Keeps.bind hR (hx s)
    intro o
    cases o with
    | normal => exact ih
    | broke | returned v => exact .pure hR _

include hu in
theorem evalAll_keeps (es : List (Expr ρ)) : Keeps R (evalAll eval es) := by
  induction es with
  | nil => exact .pure hR []
  | cons e es ih =>
    apply Keeps.bind hR (hu e)
    intro v
    exact Keeps.bind hR ih fun vs => .pure hR (v :: vs)

include hx

theorem Closure.call_keeps (c : Closure ρ EnvId) (as : List (Value ρ EnvId)) :
    Keeps R (c.call exec as) := by
  apply Keeps.bind hR (hR.nestIn c.scope)
  intro e
  apply Keeps.bind hR (defineAll_keeps hR e _ as)
  intro _
  apply Keeps.bind hR (.inScope hR e (execAll_keeps hR hx _))
  intro o
  cases o with
  | returned v => exact .pure hR v
  | normal | broke => exact .pure hR _

theorem Function.call_keeps (f : Function ρ EnvId) (as : List (Value ρ EnvId)) :
    Keeps R (f.call exec as) := by
  apply Keeps.bind hR (f.closure.call_keeps hR hx as)
  intro v
  split
  · apply Keeps.get
    intro m
    cases m.environments.getSlot f.closure.scope 0 with
    | found receiver => exact .pure hR receiver
    | unassigned | missing => exact .pure hR _
  · exact .pure hR v

theorem Class.instantiate_keeps (c : Class ρ EnvId) (as : List (Value ρ EnvId)) :
    Keeps R (c.instantiate exec as) := by
  apply Keeps.bind hR hR.newObject
  intro id
  cases c.initializer? with
  | none => exact .pure hR _
  | some f =>
    apply Keeps.bind hR (f.bind_keeps hR _)
    intro f
    exact Keeps.bind hR (f.call_keeps hR hx as) fun _ => .pure hR _

theorem Value.call_keeps (callee : Value ρ EnvId) (as : List (Value ρ EnvId)) (line : Nat) :
    Keeps R (callee.call exec as line) := by
  cases callee with
  | function id f =>
    exact Keeps.bind hR (checkArity_keeps hR _ as line) fun _ =>
      .onLine line (f.call_keeps hR hx as)
  | lambda id _ c =>
    exact Keeps.bind hR (checkArity_keeps hR _ as line) fun _ =>
      .onLine line (c.call_keeps hR hx as)
  | «class» c =>
    exact Keeps.bind hR (checkArity_keeps hR _ as line) fun _ =>
      .onLine line (c.instantiate_keeps hR hx as)
  | native n =>
    simp only [Value.call]
    split
    · exact .onLine line (hR.native n as _)
    · exact .raise hR _ _
  | _ => exact .raise hR _ _

omit hx

include hu in
theorem defineVariable_keeps (name : Lexeme) (initial : Option (Expr ρ)) :
    Keeps R (defineVariable eval name initial) := by
  apply Keeps.get
  intro m
  by_cases h : m.scope = EnvId.global
  · simp only [if_pos h]
    cases initial with
    | none => exact hR.define m.scope name.text none
    | some i => exact Keeps.bind hR (.map hR some (hu i)) fun v => hR.define m.scope name.text v
  · simp only [if_neg h]
    apply Keeps.bind hR (.declare hR name.text)
    intro slot
    cases initial with
    | none => exact .pure hR ()
    | some i => exact Keeps.bind hR (hu i) fun v => hR.put m.scope slot v

include hx hu

theorem evalStep_keeps (e : Expr ρ) : Keeps R (evalStep site exec eval e) := by
  cases e with
  | literal l => exact .pure hR _
  | «variable» r name | this r name => exact .read hR _ name
  | assign r name e =>
    exact Keeps.bind hR (hu e) fun v =>
      Keeps.bind hR (.assign hR _ name v) fun _ => .pure hR v
  | super r keyword method => exact getSuper_keeps hR _ keyword method
  | unary op sign e => exact Keeps.bind hR (hu e) fun v => .ofExcept hR _
  | binary op sign l r =>
    exact Keeps.bind hR (hu l) fun _ =>
      Keeps.bind hR (hu r) fun _ => .ofExcept hR _
  | logical op sign l r =>
    apply Keeps.bind hR (hu l)
    intro v
    split
    · exact .pure hR v
    · exact hu r
  | ternary c y n =>
    apply Keeps.bind hR (hu c)
    intro v
    split
    · exact hu y
    · exact hu n
  | group e => exact hu e
  | call c as line =>
    exact Keeps.bind hR (hu c) fun v =>
      Keeps.bind hR (evalAll_keeps hR hu as) fun vs => v.call_keeps hR hx vs line
  | get o name => exact Keeps.bind hR (hu o) fun v => v.getProperty_keeps hR name
  | set o name e =>
    apply Keeps.bind hR (hu o)
    intro v
    cases v.fieldsOf? with
    | none => exact .raise hR _ _
    | some id => exact Keeps.bind hR (hu e) fun w =>
        Keeps.bind hR (hR.setField id name.text w) fun _ => .pure hR w
  | lambda line r => exact Keeps.get fun m => Keeps.bind hR hR.newObject fun _ => .pure hR _

theorem execStep_keeps (s : Stmt ρ) : Keeps R (execStep site exec eval s) := by
  cases s with
  | expr e => exact Keeps.bind hR (hu e) fun _ => .pure hR _
  | print e =>
    exact Keeps.bind hR (hu e) fun v =>
      Keeps.bind hR (hR.write _) fun _ => .pure hR _
  | var name initial =>
    exact Keeps.bind hR (defineVariable_keeps hR hu name initial) fun _ =>
      .pure hR _
  | block b => exact Keeps.bind hR (.nest hR) fun e => .inScope hR e (execAll_keeps hR hx b)
  | «if» c y n =>
    apply Keeps.bind hR (hu c)
    intro v
    split
    · exact hx y
    · cases n with
      | none => exact .pure hR _
      | some n => exact hx n
  | «while» c b =>
    apply Keeps.bind hR (hu c)
    intro v
    split
    · apply Keeps.bind hR (hx b)
      intro o
      cases o with
      | normal => exact hx _
      | broke | returned v => exact .pure hR _
    · exact .pure hR _
  | «break» keyword => exact .pure hR _
  | «return» keyword value =>
    cases value with
    | none => exact .pure hR _
    | some e => exact Keeps.bind hR (hu e) fun v => .pure hR _
  | function d =>
    apply Keeps.get
    intro m
    apply Keeps.bind hR hR.newObject
    intro id
    exact Keeps.bind hR (hR.define m.scope d.name.text _) fun _ => .pure hR _
  | «class» name superclass methods classMethods =>
    exact Keeps.bind hR (defineClass_keeps hR name superclass methods classMethods) fun _ =>
      .pure hR _

end Steps

section Evaluator

variable {R : Machine ρ → Machine ρ → Prop} (hR : Steady R) (site : ρ → Option Binding)

include hR

theorem exec_eval_keep (fuel : Nat) :
    (∀ s, Keeps R (exec site fuel s)) ∧ ∀ e, Keeps R (eval site fuel e) := by
  induction fuel with
  | zero =>
    constructor
    · intro s
      simp only [exec]
      exact .throw hR .outOfFuel
    · intro e
      simp only [eval]
      exact .throw hR .outOfFuel
  | succ fuel ih =>
    constructor
    · intro s
      simpa only [exec] using execStep_keeps hR ih.1 ih.2 s
    · intro e
      simpa only [eval] using evalStep_keeps hR ih.1 ih.2 e

/-- What every smallest step keeps is kept by every program. -/
theorem interpretFrom_keeps (fuel : Nat) (last : Value ρ EnvId) (ss : List (Stmt ρ)) :
    Keeps R (interpretFrom site fuel last ss) := by
  have hx := (exec_eval_keep hR site fuel).1
  have hu := (exec_eval_keep hR site fuel).2
  induction ss generalizing last with
  | nil => exact .pure hR last
  | cons s ss ih =>
    cases s with
    | expr e => exact Keeps.bind hR (hu e) fun v => ih v
    | _ => exact Keeps.bind hR (hx _) fun _ => ih last

theorem interpret_keeps (fuel : Nat) (p : List (Stmt ρ)) : Keeps R (interpret site fuel p) := by
  apply Keeps.bind hR (interpretFrom_keeps hR site fuel .nil p)
  intro v
  have flush : Keeps R (flush : Run ρ Unit) := by
    apply Keeps.get
    intro m
    split
    · exact .throw hR _
    · exact .pure hR ()
  exact Keeps.bind hR flush fun _ => .pure hR v

end Evaluator

end Lox
