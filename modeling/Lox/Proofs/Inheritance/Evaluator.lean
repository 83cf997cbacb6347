import Lox.Proofs.CurrentScope
import Lox.Proofs.Inheritance.Steps

/-!
The evaluator enters all classes that it makes. A class statement makes a class behind the one that its
clause leads to, which is in the ledger because it is stored. All other phrases make none, and only pass
on values that they have got from memory. The induction is on the fuel.
-/

namespace Lox

namespace Ledger

variable {ρ : Type}

/-- If the statement is a class and ends well, then its class is a new object, and the class above it,
which the clause leads to, is an older one. -/
def Defines (made : Ledger ρ) (site : ρ → Option Binding) (m : Machine ρ) : Stmt ρ → Prop
  | .class name clause ms cs => ∀ m', defineClass site name clause ms cs m = .ok () m' →
    ∃ parent scope, readSuperclass site clause m = .ok parent m ∧
      (∀ k, parent = some k → made.Has k ∧ k.id < m.objects.size) ∧
      made.Has (Stmt.makes name ms cs scope m.objects.size parent) ∧ m.objects.size < m'.objects.size
  | _ => True

/-- The second ledger has one class more than the first one: what the declaration makes in the machine,
with a class above it that is in the first ledger. -/
def Adds (made : Ledger ρ) (site : ρ → Option Binding) (m : Machine ρ) (name : Lexeme)
    (clause : Option (ρ × Lexeme)) (ms cs : List (Definition ρ)) (made' : Ledger ρ) : Prop :=
  ∃ parent scope, readSuperclass site clause m = .ok parent m ∧
    (∀ k, parent = some k → made.Has k) ∧
    made' = made ++ [some (Stmt.makes name ms cs scope made.length parent)]

theorem Adds.defines {site : ρ → Option Binding} {m m' : Machine ρ} {name : Lexeme}
    {clause : Option (ρ × Lexeme)} {ms cs : List (Definition ρ)} {made made' all : Ledger ρ}
    (h : made.Adds site m name clause ms cs made') (fits : m.Fits made) (fits' : m'.Fits made')
    (le : made' <+: all) :
    ∃ parent scope, readSuperclass site clause m = .ok parent m ∧
      (∀ k, parent = some k → all.Has k ∧ k.id < m.objects.size) ∧
      all.Has (Stmt.makes name ms cs scope m.objects.size parent) ∧
        m.objects.size < m'.objects.size := by
  obtain ⟨parent, scope, read, above, rfl⟩ := h
  rw [← fits'.size, ← fits.size]
  refine ⟨parent, scope, read, fun k hk => ?_, ?_, by simp⟩
  · exact ⟨(above k hk).grow ((List.prefix_append _ _).trans le), (above k hk).lt⟩
  · have last : Has (made ++ [some (Stmt.makes name ms cs scope made.length parent)])
        (Stmt.makes name ms cs scope made.length parent) := List.getElem?_concat_length
    exact last.grow le

/-- The value that the statement returns, if it does, is known. -/
def Returns (made : Ledger ρ) (outcome : Outcome ρ EnvId) : Prop :=
  ∀ v, outcome = .returned v → made.Knows v

end Ledger

namespace Inheritance

variable {ρ : Type}

/-- What is expected holds wherever a ledger fits, of it and all that go on from it. -/
structure Met (site : ρ → Option Binding) (w : Ledger ρ → Watch ρ) : Prop where
  stmt : ∀ {made all : Ledger ρ} {m a}, m.Fits made → made <+: all → all.Defines site m a →
    (w all).stmt a m
  expr : ∀ {made all : Ledger ρ} {m} e, m.Fits made → made <+: all → (w all).expr e m
  access : ∀ {made all : Ledger ρ} {m} e, m.Fits made → made <+: all → (w all).access e m
  body : ∀ {made all : Ledger ρ} {outcome} initializer, made.Returns outcome → made <+: all →
    (w all).body initializer outcome
  top : ∀ all outcome, (w all).top outcome

section Phrases

variable (w : Ledger ρ → Watch ρ) (site : ρ → Option Binding) (fuel : Nat)

/-- Statements enter what they make, if so much fuel is left. -/
def ExecEnters : Prop :=
  ∀ {made : Ledger ρ} {m : Machine ρ} (a : Stmt ρ), m.Fits made →
    Enters made m Ledger.Returns (fun stop all => (w all).exec stop site fuel a) (exec site fuel a)

/-- Expressions enter what they make, if so much fuel is left. -/
def EvalEnters : Prop :=
  ∀ {made : Ledger ρ} {m : Machine ρ} (e : Expr ρ), m.Fits made →
    Enters made m Ledger.Knows (fun stop all => (w all).eval stop site fuel e) (eval site fuel e)

end Phrases

variable {w : Ledger ρ → Watch ρ} {site : ρ → Option Binding} {fuel : Nat}
  {made : Ledger ρ} {m : Machine ρ} {vs : List (Value ρ EnvId)}

/-! Calls. -/

theorem execAll_enters (hx : ExecEnters w site fuel) (ss : List (Stmt ρ)) (fits : m.Fits made) :
    Enters made m Ledger.Returns (fun stop all => execAll ((w all).exec stop site fuel) ss)
      (execAll (exec site fuel) ss) := by
  induction ss generalizing made m with
  | nil => exact .pure fits nofun
  | cons a ss ih =>
    refine (hx a fits).bind fun {_ _ outcome} _ fits answered => ?_
    cases outcome with
    | normal => exact ih fits
    | broke | returned v => exact .pure fits answered

theorem defineAll_enters (fits : m.Fits made) (e : EnvId) (names : List Lexeme)
    (hv : ∀ v ∈ vs, made.Knows v) :
    Enters made m (fun _ _ => True) (fun _ _ => defineAll e names vs) (defineAll e names vs) := by
  induction names generalizing made m vs with
  | nil => exact .pure fits trivial
  | cons name names ih =>
    cases vs with
    | nil => exact .pure fits trivial
    | cons v vs =>
      obtain ⟨first, rest⟩ := List.forall_mem_cons.mp hv
      refine (define_enters fits e name.text fun w hw => ?_).bind fun le fits _ =>
        ih fits fun v hv => (rest v hv).grow le
      cases hw
      exact first

section Calls

variable (hw : Met site w) (hx : ExecEnters w site fuel) (fits : m.Fits made)

include hw hx fits

theorem callClosure_enters (k : Closure ρ EnvId) (hv : ∀ v ∈ vs, made.Knows v) (initializer : Bool) :
    Enters made m Ledger.Knows
      (fun stop all => (w all).callClosure stop ((w all).exec stop site fuel) initializer k vs)
      (k.call (exec site fuel) vs) := by
  refine (nestIn_enters fits k.scope).bind fun {_ _ e} le fits _ => ?_
  refine (defineAll_enters fits e k.routine.params fun v h => (hv v h).grow le).bind
    fun _ fits _ => ?_
  refine (execAll_enters hx k.routine.body (fits.enter e)).inScope.bind
    fun {made' m' outcome} _ fits answered => ?_
  refine .expect (P := fun all _ => (w all).body initializer outcome) ?_ fun le _ le' =>
    hw.body initializer answered (le.trans le')
  cases outcome with
  | returned v => exact .pure fits (answered v rfl)
  | normal | broke => exact .pure fits (.of_none rfl)

theorem callFunction_enters (f : Function ρ EnvId) (hv : ∀ v ∈ vs, made.Knows v) :
    Enters made m Ledger.Knows
      (fun stop all => (w all).callFunction stop ((w all).exec stop site fuel) f vs)
      (f.call (exec site fuel) vs) := by
  refine (callClosure_enters hw hx fits f.closure hv f.initializer).bind
    fun {made' m' v} _ fits answered => ?_
  split
  · refine .get ?_
    cases hr : m'.environments.getSlot f.closure.scope 0 with
    | found receiver => exact .pure fits (fits.getSlot hr)
    | unassigned | missing => exact .pure fits (.of_none rfl)
  · exact .pure fits answered

/-- An instance is of a class that is known. -/
theorem instantiate_enters {c : Class ρ EnvId} (hc : made.Has c) (hv : ∀ v ∈ vs, made.Knows v) :
    Enters made m Ledger.Knows
      (fun stop all => (w all).instantiate stop ((w all).exec stop site fuel) c vs)
      (c.instantiate (exec site fuel) vs) := by
  refine (newObject_enters fits).bind fun {made' _ id} le fits _ => ?_
  have object : made'.Knows (.instance id c) := by
    rintro k ⟨⟩
    exact hc.grow le
  cases c.initializer? with
  | none => exact .pure fits object
  | some f =>
    refine (bind_enters fits f object).bind fun {_ _ g} le₂ fits _ => ?_
    refine (callFunction_enters hw hx fits g fun v h => ((hv v h).grow le).grow le₂).bind
      fun le₃ fits _ => .pure fits ?_
    exact object.grow (le₂.trans le₃)

omit hw hx in
theorem checkArity_enters {α : Type} {expected line : Nat} {Q : Ledger ρ → α → Prop}
    {watched : Stop → Ledger ρ → Run ρ α} {p : Run ρ α} (h : Enters made m Q watched p) :
    Enters made m Q (fun stop all => do checkArity expected vs line; watched stop all)
      (do checkArity expected vs line; p) := by
  rw [checkArity]
  split
  · exact h
  · have failed : Enters made m (fun _ (_ : Unit) => False)
        (fun _ _ => Run.raise (.arityMismatch expected vs.length) line)
        (Run.raise (.arityMismatch expected vs.length) line) := .raise fits _ _
    exact failed.bind fun _ _ no => no.elim

theorem call_enters {v : Value ρ EnvId} (hc : made.Knows v) (hv : ∀ v ∈ vs, made.Knows v)
    (line : Nat) :
    Enters made m Ledger.Knows (fun stop all => (w all).call stop ((w all).exec stop site fuel) v vs line)
      (v.call (exec site fuel) vs line) := by
  cases v with
  | function id f => exact checkArity_enters fits ((callFunction_enters hw hx fits f hv).onLine line)
  | lambda id start k =>
    exact checkArity_enters fits ((callClosure_enters hw hx fits k hv false).onLine line)
  | «class» c =>
    exact checkArity_enters fits ((instantiate_enters hw hx fits (hc c rfl) hv).onLine line)
  | native n =>
    simp only [Watch.call, Value.call]
    split
    · exact (native_enters fits n vs _).onLine line
    · exact .raise fits _ _
  | _ => exact .raise fits _ _

end Calls

/-! Expressions. -/

theorem evalAll_enters (he : EvalEnters w site fuel) (es : List (Expr ρ)) (fits : m.Fits made) :
    Enters made m (fun made' vs => ∀ v ∈ vs, made'.Knows v)
      (fun stop all => evalAll ((w all).eval stop site fuel) es) (evalAll (eval site fuel) es) := by
  induction es generalizing made m with
  | nil => exact .pure fits nofun
  | cons e es ih =>
    refine (he e fits).bind fun _ fits hv => (ih fits).bind fun le fits hvs => .pure fits ?_
    exact List.forall_mem_cons.mpr ⟨hv.grow le, hvs⟩

theorem evalStep_enters (hw : Met site w) (hx : ExecEnters w site fuel)
    (he : EvalEnters w site fuel) (e : Expr ρ) (fits : m.Fits made) :
    Enters made m Ledger.Knows
      (fun stop all =>
        (w all).evalStep stop site ((w all).exec stop site fuel) ((w all).eval stop site fuel) e)
      (evalStep site (exec site fuel) (eval site fuel) e) := by
  -- an expectation about a look-up is about the machine in front of it
  have looking {made' : Ledger ρ} {m' : Machine ρ} {α : Type} {Q : Ledger ρ → α → Prop} {p : Run ρ α}
      (fits : m'.Fits made') (h : Enters made' m' Q (fun _ _ => p) p) :
      Enters made' m' Q (fun stop all => Run.expect stop ((w all).access e) >>= fun _ => p) p :=
    h.expect fun le _ le' => hw.access e fits (le.trans le')
  cases e with
  | literal v => exact .pure fits (Ledger.knows_ofLiteral v)
  | «variable» id name => exact looking fits ((read_enters fits _ name).imp fun _ => And.right)
  | assign id name e =>
    refine (he e fits).bind fun _ fits hv => looking fits ?_
    exact (assign_enters fits (site id) name hv).bind fun le fits _ => .pure fits (hv.grow le)
  | this id keyword => exact looking fits ((read_enters fits _ keyword).imp fun _ => And.right)
  | super id keyword method => exact looking fits (getSuper_enters fits _ keyword method)
  | unary op sign e =>
    exact (he e fits).bind fun _ fits _ => ofExcept_enters fits fun _ => Ledger.knows_unary
  | binary op sign l r =>
    exact (he l fits).bind fun _ fits _ => (he r fits).bind fun _ fits hr =>
      ofExcept_enters fits fun _ => Ledger.knows_binary hr
  | logical op sign l r =>
    refine (he l fits).bind fun _ fits hl => ?_
    split
    · exact .pure fits hl
    · exact he r fits
  | ternary e y n =>
    refine (he e fits).bind fun _ fits _ => ?_
    split
    · exact he y fits
    · exact he n fits
  | group e => exact he e fits
  | call e es line =>
    refine (he e fits).bind fun _ fits hv => (evalAll_enters he es fits).bind fun le fits hvs => ?_
    exact call_enters hw hx fits (hv.grow le) hvs line
  | get o name => exact (he o fits).bind fun _ fits hv => getProperty_enters fits hv name
  | set o name e =>
    refine (he o fits).bind fun {_ _ v} _ fits _ => ?_
    cases v.fieldsOf? with
    | none => exact .raise fits _ _
    | some id =>
      refine (he e fits).bind fun _ fits hv => ?_
      exact (setField_enters fits id name.text hv).bind fun le fits _ => .pure fits (hv.grow le)
  | lambda line r =>
    exact .get ((newObject_enters fits).bind fun _ fits _ => .pure fits (.of_none rfl))

/-! Declarations. -/

theorem defineVariable_enters (he : EvalEnters w site fuel) (name : Lexeme)
    (initial : Option (Expr ρ)) (fits : m.Fits made) :
    Enters made m (fun _ _ => True)
      (fun stop all => defineVariable ((w all).eval stop site fuel) name initial)
      (defineVariable (eval site fuel) name initial) := by
  refine .get ?_
  by_cases hg : m.scope = EnvId.global
  · simp only [if_pos hg]
    cases initial with
    | none => exact define_enters fits _ _ nofun
    | some e =>
      refine ((he e fits).map (f := some)
        (R := fun made' a => ∀ v, a = some v → made'.Knows v) fun hv v hs => ?_).bind
        fun _ fits hv => define_enters fits m.scope name.text hv
      cases hs
      exact hv
  · simp only [if_neg hg]
    refine (declare_enters fits name.text).bind fun _ fits _ => ?_
    cases initial with
    | none => exact .pure fits trivial
    | some e =>
      exact (he e fits).bind fun _ fits hv => (put_enters fits _ _ hv).imp fun _ _ => trivial

/-- The class above is stored in a variable. -/
theorem readSuperclass_enters (fits : m.Fits made) (clause : Option (ρ × Lexeme)) :
    Enters made m (fun made' parent => made' = made ∧ ∀ k, parent = some k → made.Has k)
      (fun _ _ => readSuperclass site clause) (readSuperclass site clause) := by
  cases clause with
  | none => exact .pure fits ⟨rfl, nofun⟩
  | some clause =>
    refine (read_enters fits (site clause.1) clause.2).bind fun {_ _ v} _ fits₁ ⟨same, hv⟩ => ?_
    subst same
    cases v with
    | «class» c =>
      refine .pure fits₁ ⟨rfl, fun k hk => ?_⟩
      cases hk
      exact hv c rfl
    | _ => exact .raise fits₁ _ _

theorem methodScope_enters (fits : m.Fits made) {parent : Option (Class ρ EnvId)}
    (above : ∀ k, parent = some k → made.Has k) :
    Enters made m (fun made' _ => made' = made) (fun _ _ => methodScope parent) (methodScope parent) := by
  cases parent with
  | none => exact .get (.pure fits rfl)
  | some k =>
    have nested := fits.nest m.scope
    refine .step rfl (nested.define m.environments.fresh "super" fun v hv => ?_) rfl
    cases hv
    rintro c ⟨⟩
    exact above k rfl

/-- The class that a declaration makes is all that it adds, and stands behind the class above it. -/
theorem defineClass_enters (fits : m.Fits made) (name : Lexeme) (clause : Option (ρ × Lexeme))
    (ms cs : List (Definition ρ)) :
    Enters made m (fun made' _ => made.Adds site m name clause ms cs made')
      (fun _ _ => defineClass site name clause ms cs) (defineClass site name clause ms cs) := by
  refine (readSuperclass_enters fits clause).told.bind
    fun {_ _ parent} _ fits₁ ⟨⟨same, above⟩, _, read⟩ => ?_
  subst same
  obtain rfl := readSuperclass_ok read
  refine (declare_enters fits₁ name.text).bind fun {_ _ slot} _ fits₂ same => ?_
  subst same
  refine (methodScope_enters fits₂ above).bind fun {_ _ scope} _ fits₃ same => ?_
  subst same
  refine (newObject_adds fits₃ (fits₃.kept.class name ms cs scope above)).bind
    fun {_ m₄ id} _ fits₄ ⟨same, next⟩ => ?_
  subst same
  subst next
  refine .get ((put_enters fits₄ m₄.scope slot ?_).imp fun _ same => ⟨parent, scope, read, above, same⟩)
  rintro c ⟨⟩
  exact List.getElem?_concat_length

/-! Statements. -/

theorem execStep_enters (hx : ExecEnters w site fuel) (he : EvalEnters w site fuel)
    (a : Stmt ρ) (fits : m.Fits made) :
    Enters made m Ledger.Returns
      (fun stop all => execStep site ((w all).exec stop site fuel) ((w all).eval stop site fuel) a)
      (execStep site (exec site fuel) (eval site fuel) a) := by
  cases a with
  | expr e => exact (he e fits).bind fun _ fits _ => .pure fits nofun
  | print e =>
    exact (he e fits).bind fun _ fits _ => (write_enters fits _).bind fun _ fits _ => .pure fits nofun
  | var name initial =>
    exact (defineVariable_enters he name initial fits).bind fun _ fits _ => .pure fits nofun
  | block b =>
    exact (nest_enters fits).bind fun {_ _ e} _ fits _ => (execAll_enters hx b (fits.enter e)).inScope
  | «if» e y n =>
    refine (he e fits).bind fun _ fits _ => ?_
    split
    · exact hx y fits
    · cases n with
      | none => exact .pure fits nofun
      | some n => exact hx n fits
  | «while» e b =>
    refine (he e fits).bind fun _ fits _ => ?_
    split
    · refine (hx b fits).bind fun {_ _ outcome} _ fits answered => ?_
      cases outcome with
      | normal => exact hx (.while e b) fits
      | broke => exact .pure fits nofun
      | returned v => exact .pure fits answered
    · exact .pure fits nofun
  | «break» keyword => exact .pure fits nofun
  | «return» keyword value =>
    cases value with
    | none =>
      refine .pure fits fun v hv => ?_
      cases hv
      exact .of_none rfl
    | some e =>
      refine (he e fits).bind fun _ fits hv => .pure fits fun v h => ?_
      cases h
      exact hv
  | function d =>
    refine .get ((newObject_enters fits).bind fun _ fits _ => ?_)
    refine (define_enters fits _ d.name.text fun v hv => ?_).bind fun _ fits _ => .pure fits nofun
    cases hv
    exact .of_none rfl
  | «class» name clause ms cs =>
    exact (defineClass_enters fits name clause ms cs).bind fun _ fits _ => .pure fits nofun

/-- The expectation about a class statement is met: it makes the class that stands next in the ledger. -/
theorem class_enters (hw : Met site w) (name : Lexeme) (clause : Option (ρ × Lexeme))
    (ms cs : List (Definition ρ)) (fits : m.Fits made) :
    Enters made m Ledger.Returns
      (fun stop all => do
        Run.expect stop ((w all).stmt (.class name clause ms cs))
        execStep site ((w all).exec stop site fuel) ((w all).eval stop site fuel)
          (.class name clause ms cs))
      (execStep site (exec site fuel) (eval site fuel) (.class name clause ms cs)) := by
  have ran : Enters made m
      (fun made' outcome => made.Adds site m name clause ms cs made' ∧ outcome = .normal)
      (fun stop all => execStep site ((w all).exec stop site fuel) ((w all).eval stop site fuel)
        (.class name clause ms cs))
      (execStep site (exec site fuel) (eval site fuel) (.class name clause ms cs)) :=
    (defineClass_enters fits name clause ms cs).bind fun _ fits adds => .pure fits ⟨adds, rfl⟩
  refine (ran.expect fun le ends le' => hw.stmt fits (le.trans le') ?_).imp fun _ h v returned => ?_
  · intro m' defined
    have ended : execStep site (exec site fuel) (eval site fuel) (.class name clause ms cs) m =
        .ok .normal m' := bind_of_ok defined
    rw [ended] at ends
    cases ends with
    | ok fits' h => exact h.1.defines fits fits' le'
  · cases h.2.symm.trans returned

/-- All phrases enter what they make, whatever the fuel. -/
theorem phrases_enter (hw : Met site w) (fuel : Nat) :
    ExecEnters w site fuel ∧ EvalEnters w site fuel := by
  induction fuel with
  | zero => exact ⟨fun _ fits => .throw fits .outOfFuel, fun _ fits => .throw fits .outOfFuel⟩
  | succ fuel ih =>
    obtain ⟨hx, he⟩ := ih
    have statement {made : Ledger ρ} {m : Machine ρ} (a : Stmt ρ) (fits : m.Fits made)
        (defines : ∀ all : Ledger ρ, all.Defines site m a) :
        Enters made m Ledger.Returns (fun stop all => (w all).exec stop site (fuel + 1) a)
          (exec site (fuel + 1) a) :=
      (execStep_enters hx he a fits).expect fun le _ le' => hw.stmt fits (le.trans le') (defines _)
    refine ⟨fun {made m} a fits => ?_, fun e fits => ?_⟩
    · cases a with
      | «class» name clause ms cs => exact class_enters hw name clause ms cs fits
      | _ => exact statement _ fits fun _ => trivial
    · exact (evalStep_enters hw hx he e fits).expect fun le _ le' => hw.expr e fits (le.trans le')

theorem met_trivial (site : ρ → Option Binding) : Met site fun _ => {} :=
  ⟨fun _ _ _ => trivial, fun _ _ _ => trivial, fun _ _ _ => trivial, fun _ _ _ => trivial,
    fun _ _ => trivial⟩

/-- What an expression answers is in a ledger that goes on from the one in front of it. -/
theorem eval_ok (fits : m.Fits made) {e : Expr ρ} {v : Value ρ EnvId} {m' : Machine ρ}
    (h : eval site fuel e m = .ok v m') : ∃ made' : Ledger ρ, made <+: made' ∧ made'.Knows v := by
  obtain ⟨made', le, _, hv⟩ :=
    Enters.ok ((phrases_enter (met_trivial site) fuel).2 e fits) h
  exact ⟨made', le, hv⟩

/-! Programs. -/

theorem interpretFrom_enters (hw : Met site w) (fuel : Nat) {last : Value ρ EnvId}
    (ss : List (Stmt ρ)) (fits : m.Fits made) (hv : made.Knows last) :
    Enters made m Ledger.Knows (fun stop all => (w all).interpretFrom stop site fuel last ss)
      (interpretFrom site fuel last ss) := by
  obtain ⟨hx, he⟩ := phrases_enter hw fuel
  induction ss generalizing made m last with
  | nil => exact .pure fits hv
  | cons a ss ih =>
    have statement : Enters made m Ledger.Knows
        (fun stop all => do
          let outcome ← (w all).exec stop site fuel a
          Run.expect stop fun _ => (w all).top outcome
          (w all).interpretFrom stop site fuel last ss)
        (do
          let _ ← exec site fuel a
          interpretFrom site fuel last ss) :=
      (hx a fits).bind fun {_ _ outcome} le fits _ =>
        (ih fits (hv.grow le)).expect (P := fun all _ => (w all).top outcome) fun _ _ _ => hw.top _ _
    cases a with
    | expr e => exact (he e fits).bind fun _ fits hv => ih fits hv
    | _ => exact statement

theorem interpret_enters (hw : Met site w) (fuel : Nat) (p : List (Stmt ρ))
    (fits : m.Fits made) :
    Enters made m Ledger.Knows (fun stop all => (w all).interpret stop site fuel p)
      (interpret site fuel p) :=
  (interpretFrom_enters hw fuel p fits (.of_none rfl)).bind fun _ fits hv =>
    (flush_enters fits).bind fun le fits _ => .pure fits (hv.grow le)

end Inheritance

end Lox
