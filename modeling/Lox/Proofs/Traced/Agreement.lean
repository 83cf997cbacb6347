import Lox.Proofs.Traced.Faults
import Lox.Proofs.Watched

/-!
The traced evaluator does what the evaluator does. Where the one fails the other has the origin of the
error, and the error is what that leaves behind when it gets out of all calls in progress. The evaluator
is watched: it runs out of fuel at phrases that are not made of the tokens that they should be made of.
-/

namespace Lox

open Run (expect)

variable {ρ α β : Type} {G : Token → Prop}

/-- What every phrase of a run is made of. -/
def Watch.madeOf (G : Token → Prop) : Watch ρ where
  stmt s _ := s.MadeOf G
  expr e _ := e.MadeOf G

/-- The origin of an error is known, and each call in progress has a closing parenthesis. -/
structure Origin.Known (G : Token → Prop) (o : Origin ρ) : Prop where
  explained : o.Explained G
  calls : ∀ line ∈ o.calls, Closing G line

namespace Traced

/-- The second result is the first one with the origin of the error, if there is one. Nothing is said
where there was no fuel. -/
inductive Follows (G : Token → Prop) (calls : List Nat) :
    EStateM.Result Lox.Stop (Machine ρ) α → EStateM.Result (Stop ρ) (Machine ρ) α → Prop
  | ok (a : α) (m : Machine ρ) : Follows G calls (.ok a m) (.ok a m)
  | error {e : RuntimeError} {o : Origin ρ} (m : Machine ρ) (final : e.leaving calls = o.final)
      (known : o.Known G) : Follows G calls (.error (.error e) m) (.error (.error o) m)
  | outOfFuel (m : Machine ρ) (r : EStateM.Result (Stop ρ) (Machine ρ) α) :
      Follows G calls (.error .outOfFuel m) r

/-- The phrases agree while these calls are in progress. -/
def Agrees (G : Token → Prop) (calls : List Nat) (p : Lox.Run ρ α) (t : Run ρ α) : Prop :=
  ∀ m, Follows G calls (p m) (t m)

namespace Agrees

variable {calls : List Nat} {p : Lox.Run ρ α} {t : Run ρ α} {k : α → Lox.Run ρ β}
  {l : α → Run ρ β}

theorem pure (a : α) : Agrees G calls (Pure.pure a : Lox.Run ρ α) (Pure.pure a) := fun m => .ok a m

theorem outOfFuel : Agrees G calls (throw .outOfFuel : Lox.Run ρ α) t := fun m => .outOfFuel m _

theorem bind (hp : Agrees G calls p t) (hk : ∀ a, Agrees G calls (k a) (l a)) :
    Agrees G calls (p >>= k) (t >>= l) := by
  intro m
  have first := hp m
  generalize h : p m = r, h' : t m = r' at first
  cases first with
  | ok a m' =>
    rw [bind_of_ok h, bind_of_ok h']
    exact hk a m'
  | error m' final known =>
    rw [bind_of_error h, bind_of_error h']
    exact .error m' final known
  | outOfFuel m' =>
    rw [bind_of_error h]
    exact .outOfFuel m' _

theorem map (hp : Agrees G calls p t) (f : α → β) : Agrees G calls (f <$> p) (f <$> t) :=
  hp.bind (k := fun a => Pure.pure (f a)) (l := fun a => Pure.pure (f a)) fun a => pure (f a)

theorem get {k : Machine ρ → Lox.Run ρ β} {l : Machine ρ → Run ρ β}
    (h : ∀ m, Agrees G calls (k m) (l m)) :
    Agrees G calls (MonadState.get >>= k) (MonadState.get >>= l) := fun m => h m m

/-- What is expected is known to hold, or there is nothing to say. -/
theorem expect {P : Prop} (h : P → Agrees G calls p t) :
    Agrees G calls (expect .outOfFuel (fun _ => P) >>= fun _ => p) t := by
  intro m
  by_cases hP : P
  · rw [bind_of_ok (Run.expect_of (m := m) hP)]
    exact h hP m
  · have stopped : Run.expect .outOfFuel (fun _ => P) m = .error .outOfFuel m := if_neg hP
    rw [bind_of_error stopped]
    exact .outOfFuel m _

/-- A step fails with what can be explained. -/
theorem stepOf (raiser : Raiser ρ) (hc : ∀ line ∈ calls, Closing G line)
    (h : ∀ m e m', p m = .error (.error e) m' → Origin.Explained G ⟨e, raiser, calls⟩) :
    Agrees G calls p (step raiser calls p) := by
  intro m
  simp only [step]
  cases hm : p m with
  | ok a m' => exact .ok a m'
  | error stop m' =>
    cases stop with
    | error e => exact .error m' rfl ⟨h m e m' hm, hc⟩
    | outOfFuel => exact .outOfFuel m' _

/-- A step fails at a word of its phrase. -/
theorem step {raiser : Raiser ρ} (hc : ∀ line ∈ calls, Closing G line)
    (h : Run.RaisesAt (fun fault line => ∃ t, G t ∧ t.line = line ∧ raiser.Blames fault t.kind line) p) :
    Agrees G calls p (step raiser calls p) := by
  refine stepOf raiser hc fun m e m' he => ?_
  obtain ⟨line, eq, t, written, rfl, blamed⟩ := h m e m' he
  rw [eq]
  exact .token calls written blamed

/-- A step does not fail. -/
theorem silent {raiser : Raiser ρ} (hc : ∀ line ∈ calls, Closing G line)
    (h : Run.RaisesAt (fun _ _ => False) p) : Agrees G calls p (Traced.step raiser calls p) := by
  refine stepOf raiser hc fun m e m' he => ?_
  obtain ⟨line, _, no⟩ := h m e m' he
  exact no.elim

theorem inScope (e : EnvId) (h : Agrees G calls p t) :
    Agrees G calls (Run.inScope e p) (Traced.inScope e t) := by
  intro m
  have inner := h { m with scope := e }
  simp only [Run.inScope, Traced.inScope]
  generalize p { m with scope := e } = r at inner
  generalize t { m with scope := e } = r' at inner
  cases inner with
  | ok a m' => exact .ok a _
  | error m' final known => exact .error _ final known
  | outOfFuel m' => exact .outOfFuel _ _

/-- An error that gets out of a call leaves with the line of that call, if it had none, and outside
nothing is left to be done. -/
theorem onLine {line : Nat} (h : Agrees G (line :: calls) p t) :
    Agrees G calls (Run.onLine line p) t := by
  intro m
  have inner := h m
  simp only [Run.onLine]
  generalize p m = r, t m = r' at inner
  cases inner with
  | ok a m' => exact .ok a m'
  | error m' final known =>
    refine .error m' (Eq.trans ?_ final) known
    simp [RuntimeError.leaving, RuntimeError.withLine]
  | outOfFuel m' => exact .outOfFuel m' _

end Agrees

end Traced

open Traced (Agrees)

section Calls

variable {calls : List Nat} {exec : Stmt ρ → Run ρ (Outcome ρ EnvId)}
  {exec' : Stmt ρ → Traced.Run ρ (Outcome ρ EnvId)} (hx : ∀ s, Agrees G calls (exec s) (exec' s))

include hx

theorem execAll_traced (ss : List (Stmt ρ)) :
    Agrees G calls (execAll exec ss) (Traced.execAll exec' ss) := by
  induction ss with
  | nil => exact .pure _
  | cons s ss ih =>
    refine (hx s).bind fun outcome => ?_
    cases outcome with
    | normal => exact ih
    | broke | returned v => exact .pure _

variable (hc : ∀ line ∈ calls, Closing G line)

include hc

theorem callClosure_traced (raiser : Raiser ρ) (initializer : Bool) (c : Closure ρ EnvId)
    (vs : List (Value ρ EnvId)) :
    Agrees G calls ((Watch.madeOf G).callClosure .outOfFuel exec initializer c vs)
      (Traced.callClosure raiser calls exec' c vs) := by
  refine (Agrees.silent hc (Run.nestIn_raises c.scope)).bind fun e => ?_
  refine (Agrees.silent hc (defineAll_raises e _ vs)).bind fun _ => ?_
  refine ((execAll_traced hx c.routine.body).inScope e).bind fun outcome => .expect fun _ => ?_
  cases outcome with
  | returned v => exact .pure v
  | normal | broke => exact .pure _

theorem callFunction_traced (raiser : Raiser ρ) (f : Function ρ EnvId) (vs : List (Value ρ EnvId)) :
    Agrees G calls ((Watch.madeOf G).callFunction .outOfFuel exec f vs)
      (Traced.callFunction raiser calls exec' f vs) := by
  refine (callClosure_traced hx hc raiser f.initializer f.closure vs).bind fun v => ?_
  split
  · refine .get fun m => ?_
    cases m.environments.getSlot f.closure.scope 0 <;> exact .pure _
  · exact .pure v

theorem instantiate_traced (raiser : Raiser ρ) (c : Class ρ EnvId) (vs : List (Value ρ EnvId)) :
    Agrees G calls ((Watch.madeOf G).instantiate .outOfFuel exec c vs)
      (Traced.instantiate raiser calls exec' c vs) := by
  refine (Agrees.silent hc Run.newObject_raises).bind fun id => ?_
  dsimp only
  cases c.initializer? with
  | none => exact .pure _
  | some f =>
    refine (Agrees.silent hc (f.bind_raises _)).bind fun f => ?_
    exact (callFunction_traced hx hc raiser f vs).bind fun _ => .pure _

end Calls

section Steps

variable {calls : List Nat} (hc : ∀ line ∈ calls, Closing G line)

include hc

/-- An expression fails at a word of its own. -/
theorem Traced.Agrees.ofExpr {p : Lox.Run ρ α} {e : Expr ρ} (made : e.MadeOf G)
    (h : Lox.Run.RaisesAt (fun fault line => ∃ kind, e.Blames fault kind line) p) :
    Agrees G calls p (Traced.step (.expr e) calls p) := by
  refine .step hc fun m error m' he => ?_
  obtain ⟨line, eq, kind, blames⟩ := h m error m' he
  obtain ⟨t, written, rfl, rfl⟩ := blames.exists made
  exact ⟨t.line, eq, t, written, rfl, blames⟩

section Expressions

variable {site : ρ → Option Binding} {exec : Stmt ρ → Run ρ (Outcome ρ EnvId)}
  {exec' : List Nat → Stmt ρ → Traced.Run ρ (Outcome ρ EnvId)}
  (hx : ∀ {calls}, (∀ line ∈ calls, Closing G line) → ∀ s, Agrees G calls (exec s) (exec' calls s))
  {eval : Expr ρ → Run ρ (Value ρ EnvId)} {eval' : Expr ρ → Traced.Run ρ (Value ρ EnvId)}
  (he : ∀ e, Agrees G calls (eval e) (eval' e))

include hx in
theorem call_traced {c : Expr ρ} {as : List (Expr ρ)} {line : Nat} (made : (Expr.call c as line).MadeOf G)
    (callee : Value ρ EnvId) (vs : List (Value ρ EnvId)) :
    Agrees G calls ((Watch.madeOf G).call .outOfFuel exec callee vs line)
      (Traced.call calls exec' (.expr (.call c as line)) callee vs line) := by
  have inside : ∀ l ∈ line :: calls, Closing G l := List.forall_mem_cons.mpr ⟨made.2.2, hc⟩
  have checked (expected : Nat) : Agrees G calls (checkArity expected vs line)
      (Traced.step (.expr (.call c as line)) calls (checkArity expected vs line)) :=
    .ofExpr hc made (checkArity_raises ⟨_, .arityMismatch _ _ _ _ _⟩)
  cases callee with
  | function id f =>
    exact (checked f.arity).bind fun _ => .onLine (callFunction_traced (hx inside) inside _ f vs)
  | lambda id l k =>
    exact (checked k.routine.params.length).bind fun _ =>
      .onLine (callClosure_traced (hx inside) inside _ false k vs)
  | «class» k =>
    exact (checked k.arity).bind fun _ => .onLine (instantiate_traced (hx inside) inside _ k vs)
  | native n =>
    simp only [Watch.call, Traced.call]
    split
    · refine .onLine (.stepOf _ inside fun m e m' failed => ?_)
      simp only [Run.native] at failed
      split at failed
      · cases failed
      · cases failed
        exact .native n _ c as line calls
    · exact .ofExpr hc made (.raise ⟨_, .arityMismatch _ _ _ _ _⟩)
  | _ => exact .ofExpr hc made (.raise ⟨_, .notCallable c as line⟩)

include he

omit hc in
theorem evalAll_traced (es : List (Expr ρ)) :
    Agrees G calls (evalAll eval es) (Traced.evalAll eval' es) := by
  induction es with
  | nil => exact .pure []
  | cons e es ih => exact (he e).bind fun v => ih.bind fun vs => .pure (v :: vs)

include hx in
theorem evalStep_traced {e : Expr ρ} (made : e.MadeOf G) :
    Agrees G calls ((Watch.madeOf G).evalStep .outOfFuel site exec eval e)
      (Traced.evalStep site calls exec' eval' e) := by
  cases e with
  | literal v => exact .pure _
  | «variable» ref name =>
    exact .expect fun _ =>
      .ofExpr hc made (Run.read_raises ⟨_, .undefined ref name⟩ ⟨_, .uninitialized ref name⟩ _)
  | assign ref name e =>
    refine (he e).bind fun v => .expect fun _ => ?_
    exact (Agrees.ofExpr hc made (Run.assign_raises ⟨_, .assigned ref name e⟩ _ v)).bind fun _ =>
      .pure v
  | this ref keyword =>
    exact .expect fun _ => .ofExpr hc made
      (Run.read_raises ⟨_, .thisUndefined ref keyword⟩ ⟨_, .thisUninitialized ref keyword⟩ _)
  | super ref keyword method =>
    exact .expect fun _ => .ofExpr hc made
      (getSuper_raises ⟨_, .super ref keyword method⟩ ⟨_, .method ref keyword method⟩ _)
  | unary op sign e =>
    refine (he e).bind fun v => .ofExpr hc made (.ofExcept fun error h => ?_)
    obtain ⟨rfl, rfl⟩ := UnaryOp.error_of_apply h
    exact ⟨_, rfl, _, .numberOperand sign e⟩
  | binary op sign l r =>
    refine (he l).bind fun v => (he r).bind fun w => .ofExpr hc made (.ofExcept fun error h => ?_)
    obtain ⟨eq, blames⟩ := BinaryOp.blames_of_apply h l r
    exact ⟨_, eq, blames⟩
  | logical op sign l r =>
    refine (he l).bind fun v => ?_
    split
    · exact .pure v
    · exact he r
  | ternary c y n =>
    refine (he c).bind fun v => ?_
    split
    · exact he y
    · exact he n
  | group e => exact he e
  | call c as line =>
    exact (he c).bind fun callee => (evalAll_traced he as).bind fun vs =>
      call_traced hc hx made callee vs
  | get o name =>
    exact (he o).bind fun v => .ofExpr hc made (v.getProperty_raises
      ⟨_, .propertyOnNonInstance o name⟩ ⟨_, .initOnClass o name⟩ ⟨_, .undefinedProperty o name⟩)
  | set o name e =>
    refine (he o).bind fun v => ?_
    cases v.fieldsOf? with
    | none => exact .ofExpr hc made (.raise ⟨_, .fieldOnNonInstance o name e⟩)
    | some id =>
      refine (he e).bind fun w => ?_
      exact (Agrees.silent hc (Run.setField_raises id name.text w)).bind fun _ => .pure w
  | lambda line r =>
    refine .get fun m => ?_
    exact (Agrees.silent hc Run.newObject_raises).bind fun id => .pure _

end Expressions

section Statements

variable {site : ρ → Option Binding} {exec : Stmt ρ → Run ρ (Outcome ρ EnvId)}
  {exec' : List Nat → Stmt ρ → Traced.Run ρ (Outcome ρ EnvId)}
  (hx : ∀ s, Agrees G calls (exec s) (exec' calls s))
  {eval : Expr ρ → Run ρ (Value ρ EnvId)} {eval' : Expr ρ → Traced.Run ρ (Value ρ EnvId)}
  (he : ∀ e, Agrees G calls (eval e) (eval' e))

include he

theorem defineVariable_traced (raiser : Raiser ρ) (name : Lexeme) (initial : Option (Expr ρ)) :
    Agrees G calls (defineVariable eval name initial)
      (Traced.defineVariable calls eval' raiser name initial) := by
  refine .get fun m => ?_
  dsimp only
  split
  · cases initial with
    | none =>
      change Agrees G calls _ (Traced.step raiser calls (Run.define m.scope name.text none))
      exact .silent hc (Run.define_raises m.scope name.text none)
    | some i => exact ((he i).map some).bind fun v => .silent hc (Run.define_raises m.scope name.text v)
  · refine (Agrees.silent hc (Run.declare_raises name.text)).bind fun slot => ?_
    cases initial with
    | none => exact .pure ()
    | some i => exact (he i).bind fun v => .silent hc (Run.put_raises m.scope slot v)

include hx

theorem execStep_traced {s : Stmt ρ} (made : s.MadeOf G) :
    Agrees G calls (execStep site exec eval s) (Traced.execStep site calls exec' eval' s) := by
  cases s with
  | expr e => exact (he e).bind fun _ => .pure _
  | print e =>
    refine (he e).bind fun v => Agrees.bind (.stepOf _ hc fun m error m' failed => ?_) fun _ => .pure _
    simp only [Run.write] at failed
    split at failed
    · cases failed
    · cases failed
      exact .print _ e calls
  | var name initial =>
    exact (defineVariable_traced hc he _ name initial).bind fun _ => .pure _
  | block b =>
    exact (Agrees.silent hc Run.nest_raises).bind fun e => (execAll_traced hx b).inScope e
  | «if» c y n =>
    refine (he c).bind fun v => ?_
    split
    · exact hx y
    · cases n with
      | none => exact .pure _
      | some n => exact hx n
  | «while» c b =>
    refine (he c).bind fun v => ?_
    split
    · refine (hx b).bind fun outcome => ?_
      cases outcome with
      | normal => exact hx _
      | broke | returned v => exact .pure _
    · exact .pure _
  | «break» keyword => exact .pure _
  | «return» keyword value =>
    cases value with
    | none => exact .pure _
    | some e => exact (he e).bind fun v => .pure _
  | function f =>
    refine .get fun m => ?_
    refine (Agrees.silent hc Run.newObject_raises).bind fun id => ?_
    exact (Agrees.silent hc (Run.define_raises m.scope f.name.text _)).bind fun _ => .pure _
  | «class» name superclass ms cs =>
    refine Agrees.bind (.step hc ?_) fun _ => .pure _
    refine defineClass_raises fun fault kind line blames => ?_
    obtain ⟨t, written, rfl, rfl⟩ := blames.exists made
    exact ⟨t, written, rfl, blames⟩

end Statements

end Steps

section Evaluator

variable (site : ρ → Option Binding)

/-- All phrases agree, whatever the fuel and the calls in progress. -/
theorem phrases_traced (fuel : Nat) :
    (∀ {calls}, (∀ line ∈ calls, Closing G line) → ∀ s,
      Agrees G calls ((Watch.madeOf G).exec .outOfFuel site fuel s) (Traced.exec site fuel calls s)) ∧
    ∀ {calls}, (∀ line ∈ calls, Closing G line) → ∀ e,
      Agrees G calls ((Watch.madeOf G).eval .outOfFuel site fuel e) (Traced.eval site fuel calls e) := by
  induction fuel with
  | zero => exact ⟨fun _ _ => .outOfFuel, fun _ _ => .outOfFuel⟩
  | succ fuel ih =>
    obtain ⟨hx, he⟩ := ih
    exact ⟨fun hc s => .expect fun made => execStep_traced hc (hx hc) (he hc) made,
      fun hc e => .expect fun made => evalStep_traced hc hx (he hc) made⟩

theorem interpretFrom_traced (fuel : Nat) (last : Value ρ EnvId) (ss : List (Stmt ρ)) :
    Agrees G [] ((Watch.madeOf G).interpretFrom .outOfFuel site fuel last ss)
      (Traced.interpretFrom site fuel last ss) := by
  have none : ∀ line ∈ [], Closing G line := nofun
  induction ss generalizing last with
  | nil => exact .pure last
  | cons s ss ih =>
    have statement : Agrees G []
        (do
          let outcome ← (Watch.madeOf G).exec .outOfFuel site fuel s
          expect .outOfFuel fun _ => (Watch.madeOf G).top outcome
          (Watch.madeOf G).interpretFrom .outOfFuel site fuel last ss)
        (do
          let _ ← Traced.exec site fuel [] s
          Traced.interpretFrom site fuel last ss) :=
      ((phrases_traced site fuel).1 none s).bind fun _ => .expect fun _ => ih last
    cases s with
    | expr e => exact ((phrases_traced site fuel).2 none e).bind fun v => ih v
    | _ => exact statement

theorem interpret_traced (fuel : Nat) (p : List (Stmt ρ)) :
    Agrees G [] ((Watch.madeOf G).interpret .outOfFuel site fuel p) (Traced.interpret site fuel p) := by
  refine (interpretFrom_traced site fuel .nil p).bind fun v => Agrees.bind ?_ fun _ => .pure v
  refine .stepOf .ending nofun fun m e m' failed => ?_
  have failed : (if m.host.console.flushFails then throw (.error ⟨.output .flushFailed, none⟩)
      else pure () : Run ρ Unit) m = .error (.error e) m' := failed
  split at failed
  · cases failed
    exact .ending _
  · cases failed

end Evaluator

end Lox
