import Lox.Proofs.Journal.Evaluator

/-!
The evaluator beside the journaling evaluator. A relation between runs and runs with a journal that
holds of the smallest steps, and that the ways to put phrases together keep, holds of every program.
-/

namespace Lox

variable {ρ : Type}

/-- Nothing outside of the machine is asked for or changed. A native function that is called with as
many arguments as it takes is asked once it runs. -/
def Event.IsInner : Event ρ → Prop
  | .statement _ | .expression _ | .memory => True
  | .call (.native n) arguments _ => arguments.length = n.arity
  | .call _ _ _ => True
  | _ => False

namespace Journal

open Lox.Run (Enclosed)

/-- A relation between runs and runs with a journal that the evaluator keeps. -/
structure Paired (T : ∀ {α : Type}, Lox.Run ρ α → Run ρ α → Prop) : Prop where
  pure : ∀ {α : Type} (a : α), T (Pure.pure a) (Pure.pure a)
  outOfFuel : ∀ {α : Type}, T (throw .outOfFuel : Lox.Run ρ α) (throw .outOfFuel)
  lift : ∀ {α : Type} {p : Lox.Run ρ α}, Enclosed p → T p (lift p)
  bind : ∀ {α β : Type} {p : Lox.Run ρ α} {j : Run ρ α} {k : α → Lox.Run ρ β} {l : α → Run ρ β},
    T p j → (∀ a, T (k a) (l a)) → T (p >>= k) (j >>= l)
  /-- What follows the reading of the machine does not depend on the surroundings. -/
  get : ∀ {β : Type} {k : Machine ρ → Lox.Run ρ β} {l : Machine ρ → Run ρ β},
    (∀ m, T (k m) (l m)) → (∀ host m, k (m.within host) = k m) →
    (∀ host m, l (m.within host) = l m) → T (MonadState.get >>= k) (machine >>= l)
  inScope : ∀ {α : Type} {p : Lox.Run ρ α} {j : Run ρ α} (e : EnvId), T p j →
    T (Lox.Run.inScope e p) (inScope e j)
  onLine : ∀ {α : Type} {p : Lox.Run ρ α} {j : Run ρ α} (line : Nat), T p j →
    T (Lox.Run.onLine line p) (onLine line j)
  noted : ∀ {α : Type} {p : Lox.Run ρ α} {j : Run ρ α} {e : Event ρ}, e.IsInner → T p j →
    T p (do note e; j)
  native : ∀ (n : Native) (vs : List (Value ρ EnvId)) (h : vs.length = n.arity),
    T (Lox.Run.native n vs h) (do note (.native n vs); Journal.lift (Lox.Run.native n vs h))
  /-- A native that is called with too many or too few arguments. -/
  mismatch : ∀ {n : Native} {vs : List (Value ρ EnvId)} (line : Nat), vs.length ≠ n.arity →
    T (Lox.Run.raise (.arityMismatch n.arity vs.length) line : Lox.Run ρ (Value ρ EnvId)) (do
      note (.call (.native n) vs line)
      Journal.lift (Lox.Run.raise (.arityMismatch n.arity vs.length) line))
  print : ∀ text, T (Lox.Run.write text) (do note (.print text); Journal.lift (Lox.Run.write text))
  flush : T Lox.Run.flush (do note .flush; Journal.lift Lox.Run.flush)

variable {T : ∀ {α : Type}, Lox.Run ρ α → Run ρ α → Prop}

theorem Paired.step (hT : Paired T) {α : Type} {p : Lox.Run ρ α} (hp : Enclosed p) : T p (step p) :=
  hT.noted trivial (hT.lift hp)

theorem Paired.map (hT : Paired T) {α β : Type} {p : Lox.Run ρ α} {j : Run ρ α} (hp : T p j)
    (f : α → β) : T (f <$> p) (f <$> j) :=
  hT.bind (k := fun a => Pure.pure (f a)) (l := fun a => Pure.pure (f a)) hp fun a => hT.pure (f a)

/-- What is noted before a phrase, with what follows the phrase. -/
theorem Paired.before (hT : Paired T) {α β : Type} {e : Event ρ} {p : Lox.Run ρ α} {j : Run ρ α}
    {k : α → Lox.Run ρ β} {l : α → Run ρ β} (hp : T p (do note e; j)) (hk : ∀ a, T (k a) (l a)) :
    T (p >>= k) (do note e; j >>= l) := by
  have together := hT.bind hp hk
  rwa [bind_assoc] at together

end Journal

variable {T : ∀ {α : Type}, Run ρ α → Journal.Run ρ α → Prop} (hT : Journal.Paired T)

section Calls

variable {exec : Stmt ρ → Run ρ (Outcome ρ EnvId)} {exec' : Stmt ρ → Journal.Run ρ (Outcome ρ EnvId)}
  (hx : ∀ s, T (exec s) (exec' s))

include hT hx

theorem execAll_paired (ss : List (Stmt ρ)) : T (execAll exec ss) (Journal.execAll exec' ss) := by
  induction ss with
  | nil => exact hT.pure _
  | cons s ss ih =>
    refine hT.bind (hx s) fun outcome => ?_
    cases outcome with
    | normal => exact ih
    | broke | returned v => exact hT.pure _

theorem callClosure_paired (c : Closure ρ EnvId) (vs : List (Value ρ EnvId)) :
    T (c.call exec vs) (Journal.callClosure exec' c vs) := by
  refine hT.bind (hT.step (.nestIn c.scope)) fun e => ?_
  refine hT.bind (hT.step (defineAll_enclosed e _ vs)) fun _ => ?_
  refine hT.bind (hT.inScope e (execAll_paired hT hx c.routine.body)) fun outcome => ?_
  cases outcome with
  | returned v => exact hT.pure v
  | normal | broke => exact hT.pure _

theorem callFunction_paired (f : Function ρ EnvId) (vs : List (Value ρ EnvId)) :
    T (f.call exec vs) (Journal.callFunction exec' f vs) := by
  refine hT.bind (callClosure_paired hT hx f.closure vs) fun v => ?_
  split
  · refine hT.get (fun m => ?_) (fun _ _ => rfl) fun _ _ => rfl
    cases m.environments.getSlot f.closure.scope 0 <;> exact hT.pure _
  · exact hT.pure v

theorem instantiate_paired (c : Class ρ EnvId) (vs : List (Value ρ EnvId)) :
    T (c.instantiate exec vs) (Journal.instantiate exec' c vs) := by
  refine hT.bind (hT.step .newObject) fun id => ?_
  dsimp only
  cases c.initializer? with
  | none => exact hT.pure _
  | some f =>
    refine hT.bind (hT.step (f.bind_enclosed _)) fun f => ?_
    exact hT.bind (callFunction_paired hT hx f vs) fun _ => hT.pure _

theorem call_paired (callee : Value ρ EnvId) (vs : List (Value ρ EnvId)) (line : Nat) :
    T (callee.call exec vs line) (Journal.call exec' callee vs line) := by
  have checked (expected : Nat) : T (checkArity expected vs line)
      (Journal.lift (checkArity expected vs line)) := hT.lift (checkArity_enclosed expected vs line)
  cases callee with
  | function id f =>
    exact hT.noted trivial <| hT.bind (checked f.arity) fun _ =>
      hT.onLine line (callFunction_paired hT hx f vs)
  | lambda id _ c =>
    exact hT.noted trivial <| hT.bind (checked c.routine.params.length) fun _ =>
      hT.onLine line (callClosure_paired hT hx c vs)
  | «class» c =>
    exact hT.noted trivial <| hT.bind (checked c.arity) fun _ =>
      hT.onLine line (instantiate_paired hT hx c vs)
  | native n =>
    simp only [Value.call, Journal.call]
    split
    · next h => exact hT.noted h (hT.onLine line (hT.native n vs h))
    · next h => exact hT.mismatch line h
  | _ => exact hT.noted trivial (hT.lift (.raise _ _))

end Calls

section Steps

variable {site : ρ → Option Binding} {exec : Stmt ρ → Run ρ (Outcome ρ EnvId)}
  {exec' : Stmt ρ → Journal.Run ρ (Outcome ρ EnvId)} (hx : ∀ s, T (exec s) (exec' s))
  {eval : Expr ρ → Run ρ (Value ρ EnvId)} {eval' : Expr ρ → Journal.Run ρ (Value ρ EnvId)}
  (he : ∀ e, T (eval e) (eval' e))

include hT he

theorem evalAll_paired (es : List (Expr ρ)) : T (evalAll eval es) (Journal.evalAll eval' es) := by
  induction es with
  | nil => exact hT.pure []
  | cons e es ih => exact hT.bind (he e) fun v => hT.bind ih fun vs => hT.pure (v :: vs)

theorem defineVariable_paired (name : Lexeme) (initial : Option (Expr ρ)) :
    T (defineVariable eval name initial) (Journal.defineVariable eval' name initial) := by
  refine hT.get (fun m => ?_) (fun _ _ => rfl) fun _ _ => rfl
  dsimp only
  split
  · cases initial with
    | none => exact hT.step (.define m.scope name.text none)
    | some i => exact hT.bind (hT.map (he i) some) fun v => hT.step (.define m.scope name.text v)
  · refine hT.bind (hT.step (.declare name.text)) fun slot => ?_
    cases initial with
    | none => exact hT.pure ()
    | some i => exact hT.bind (he i) fun v => hT.step (.put m.scope slot v)

include hx

theorem evalStep_paired (e : Expr ρ) :
    T (evalStep site exec eval e) (Journal.evalStep site exec' eval' e) := by
  cases e with
  | literal v => exact hT.pure _
  | «variable» ref name => exact hT.step (.read _ _)
  | assign ref name e =>
    exact hT.bind (he e) fun v => hT.bind (hT.step (.assign _ _ v)) fun _ => hT.pure v
  | this ref keyword => exact hT.step (.read _ _)
  | super ref keyword method => exact hT.step (getSuper_enclosed _ _ _)
  | unary op sign e => exact hT.bind (he e) fun v => hT.lift (.ofExcept _)
  | binary op sign l r =>
    exact hT.bind (he l) fun v => hT.bind (he r) fun w => hT.lift (.ofExcept _)
  | logical op sign l r =>
    refine hT.bind (he l) fun v => ?_
    split
    · exact hT.pure v
    · exact he r
  | ternary c y n =>
    refine hT.bind (he c) fun v => ?_
    split
    · exact he y
    · exact he n
  | group e => exact he e
  | call c as line =>
    exact hT.bind (he c) fun callee => hT.bind (evalAll_paired hT he as) fun vs =>
      call_paired hT hx callee vs line
  | get o name => exact hT.bind (he o) fun v => hT.step (v.getProperty_enclosed name)
  | set o name e =>
    refine hT.bind (he o) fun v => ?_
    cases v.fieldsOf? with
    | none => exact hT.lift (.raise _ _)
    | some id =>
      exact hT.bind (he e) fun w =>
        hT.bind (hT.step (.setField id name.text w)) fun _ => hT.pure w
  | lambda line r =>
    refine hT.get (fun m => ?_) (fun _ _ => rfl) fun _ _ => rfl
    exact hT.bind (hT.step .newObject) fun id => hT.pure _

theorem execStep_paired (s : Stmt ρ) :
    T (execStep site exec eval s) (Journal.execStep site exec' eval' s) := by
  cases s with
  | expr e => exact hT.bind (he e) fun _ => hT.pure _
  | print e =>
    exact hT.bind (he e) fun v => hT.before (hT.print (v.display ++ "\n")) fun _ => hT.pure _
  | var name initial =>
    exact hT.bind (defineVariable_paired hT he name initial) fun _ => hT.pure _
  | block b =>
    exact hT.bind (hT.step .nest) fun e => hT.inScope e (execAll_paired hT hx b)
  | «if» c y n =>
    refine hT.bind (he c) fun v => ?_
    split
    · exact hx y
    · cases n with
      | none => exact hT.pure _
      | some n => exact hx n
  | «while» c b =>
    refine hT.bind (he c) fun v => ?_
    split
    · refine hT.bind (hx b) fun outcome => ?_
      cases outcome with
      | normal => exact hx _
      | broke | returned v => exact hT.pure _
    · exact hT.pure _
  | «break» keyword => exact hT.pure _
  | «return» keyword value =>
    cases value with
    | none => exact hT.pure _
    | some e => exact hT.bind (he e) fun v => hT.pure _
  | function f =>
    refine hT.get (fun m => ?_) (fun _ _ => rfl) fun _ _ => rfl
    refine hT.bind (hT.step .newObject) fun id => ?_
    exact hT.bind (hT.step (.define m.scope f.name.text _)) fun _ => hT.pure _
  | «class» name superclass ms cs =>
    exact hT.bind (hT.step (defineClass_enclosed name superclass ms cs)) fun _ => hT.pure _

end Steps

section Evaluator

variable (site : ρ → Option Binding)

include hT

theorem phrases_paired (fuel : Nat) :
    (∀ s, T (exec site fuel s) (Journal.exec site fuel s)) ∧
      ∀ e, T (eval site fuel e) (Journal.eval site fuel e) := by
  induction fuel with
  | zero => exact ⟨fun _ => hT.outOfFuel, fun _ => hT.outOfFuel⟩
  | succ fuel ih =>
    obtain ⟨hx, he⟩ := ih
    exact ⟨fun s => hT.noted trivial (execStep_paired hT hx he s),
      fun e => hT.noted trivial (evalStep_paired hT hx he e)⟩

theorem interpretFrom_paired (fuel : Nat) (last : Value ρ EnvId) (ss : List (Stmt ρ)) :
    T (interpretFrom site fuel last ss) (Journal.interpretFrom site fuel last ss) := by
  induction ss generalizing last with
  | nil => exact hT.pure last
  | cons s ss ih =>
    have statement : T
        (do
          let _ ← exec site fuel s
          interpretFrom site fuel last ss)
        (do
          let _ ← Journal.exec site fuel s
          Journal.interpretFrom site fuel last ss) :=
      hT.bind ((phrases_paired hT site fuel).1 s) fun _ => ih last
    cases s with
    | expr e => exact hT.bind ((phrases_paired hT site fuel).2 e) fun v => ih v
    | _ => exact statement

/-- What is kept by the evaluator and the journaling evaluator holds of every program. -/
theorem interpret_paired (fuel : Nat) (p : List (Stmt ρ)) :
    T (interpret site fuel p) (Journal.interpret site fuel p) := by
  refine hT.bind (interpretFrom_paired hT site fuel .nil p) fun v => ?_
  exact hT.before hT.flush fun _ => hT.pure v

end Evaluator

end Lox
