import Lox.Proofs.Lexical.Evaluator
import Lox.Proofs.Parser.Reading

/-!
Loops as one would first write them. A `for` statement is read as a loop of another kind, in up to two
blocks. Here it is run as it stands: its variable lives in a scope of its own, which all rounds share,
and what comes between the rounds is done between them. Under lexical scoping this is the same.
-/

namespace Lox

open Lexical (Scope Locals Ending within)

variable {ρ α : Type}

namespace Lexical

/-- The ending, where `scope` is what is seen behind. -/
def Ending.seenIn (scope : Scope) : Ending ρ → Ending ρ
  | .behind _ => .behind scope
  | ending => ending

theorem Ending.seenIn_seenIn (scope inner : Scope) (ending : Ending ρ) :
    (ending.seenIn inner).seenIn scope = ending.seenIn scope := by
  cases ending <;> rfl

section Within

variable (scope inner : Scope) (p : Run ρ (Ending ρ)) (q : Run ρ α) (k : Ending ρ → Run ρ α)
  (l : α → Run ρ (Ending ρ))

theorem within_eq : within scope p = p >>= fun ending => pure (ending.seenIn scope) := by
  refine bind_congr fun ending => ?_
  cases ending <;> rfl

theorem within_pure (ending : Ending ρ) :
    within scope (pure ending) = (pure (ending.seenIn scope) : Run ρ _) := by
  rw [within_eq, pure_bind]

theorem within_bind : within scope (q >>= l) = q >>= fun a => within scope (l a) := by
  simp only [within_eq, bind_assoc]

theorem bind_within : within scope p >>= k = p >>= fun ending => k (ending.seenIn scope) := by
  simp only [within_eq, bind_assoc, pure_bind]

theorem within_within : within scope (within inner p) = within scope p := by
  simp only [within_eq, bind_assoc, pure_bind, Ending.seenIn_seenIn]

theorem within_ite (b : Prop) [Decidable b] (p' : Run ρ (Ending ρ)) :
    within scope (if b then p else p') = if b then within scope p else within scope p' := by
  split <;> rfl

end Within

theorem execAll_singleton (exec : Scope → Stmt ρ → Run ρ (Ending ρ)) (scope : Scope) (s : Stmt ρ) :
    execAll exec scope [s] = exec scope s := by
  refine Eq.trans (bind_congr fun ending => ?_) (bind_pure (exec scope s))
  cases ending <;> rfl

/-- A statement that declares nothing for what is behind it may be run in a scope of its own. -/
theorem exec_inside (fuel : Nat) {s : Stmt ρ} (tidy : s.Tidy) (plain : s.isDeclaration = false)
    (scope : Scope) : exec fuel scope s = within scope (exec fuel (some scope.locals) s) := by
  induction fuel generalizing s scope with
  | zero => rfl
  | succ fuel ih =>
    simp only [exec]
    cases s with
    | expr | print | «break» =>
      simp only [execStep, within_bind, within_pure]
      rfl
    | block b =>
      rw [execStep, execStep, within_within]
      rfl
    | «return» _ value =>
      cases value with
      | none => rfl
      | some e =>
        simp only [execStep, within_bind, within_pure]
        rfl
    | «if» c y n =>
      simp only [execStep, within_bind]
      refine bind_congr fun v => ?_
      rw [within_ite, within_within]
      cases n with
      | none =>
        rw [ih tidy.2.1 tidy.2.2 scope, within_within]
        rfl
      | some n =>
        simp only [within_within]
        rw [ih tidy.2.1.1 tidy.2.1.2 scope, ih tidy.2.2.1 tidy.2.2.2 scope]
        simp only [within_within]
    | «while» c b =>
      simp only [execStep, within_bind]
      refine bind_congr fun v => ?_
      rw [within_ite, ih tidy.2.1 tidy.2.2 scope, bind_within, within_bind]
      congr 1
      refine bind_congr fun ending => ?_
      cases ending with
      | behind => exact ih tidy plain scope
      | broke | returned => rfl
    | var | function | «class» => exact Bool.noConfusion plain

end Lexical

/-- A `for` statement by its parts. The grammar has no declaration as a body. -/
structure ForLoop (ρ : Type) where
  initial : Option (Stmt ρ)
  condition : Option (Expr ρ)
  increment : Option (Expr ρ)
  body : Stmt ρ
  tidy : (Parser.forLoop initial condition increment body).Tidy
  plain : body.isDeclaration = false

namespace ForLoop

variable (f : ForLoop ρ)

/-- What the statement is read as. -/
def tree : Stmt ρ := Parser.forLoop f.initial f.condition f.increment f.body

/-- What one round is read as. -/
def round : Stmt ρ :=
  match f.increment with
  | some e => .block [f.body, .expr e]
  | none => f.body

/-- What all rounds are read as. -/
def rounds : Stmt ρ := .while (f.condition.getD (.literal (.bool true))) f.round

theorem tree_eq : f.tree = match f.initial with
    | some s => .block [s, f.rounds]
    | none => f.rounds := by
  obtain ⟨_ | s, c, _ | e, b, _, _⟩ := f <;> rfl

/-- The parser reads nothing else behind the word `for`. -/
theorem read {depth : Nat} {s : Parser.State} (hs : s.Genuine)
    (hd : 32 * s.rest.length ≤ depth + 1) :
    Parser.Yields (Parser.forStatement (Parser.parseWithin depth)) s fun t _ =>
      ∃ f : ForLoop RefId, t = f.tree := by
  apply (Parser.forStatement_loop (Parser.parseWithin_yields depth) hs hd).mono
  rintro _ _ _ ⟨reading, initial, condition, increment, body, rfl, plain⟩
  exact ⟨⟨initial, condition, increment, body, reading.tidy.1, plain⟩, rfl⟩

theorem rounds_tidy : f.rounds.Tidy := by
  have tidy : f.tree.Tidy := f.tidy
  rw [tree_eq] at tidy
  cases hi : f.initial with
  | none =>
    rw [hi] at tidy
    exact tidy
  | some s =>
    rw [hi] at tidy
    exact tidy.2.1

theorem body_tidy : f.body.Tidy := by
  have tidy : f.round.Tidy := f.rounds_tidy.2.1
  unfold round at tidy
  cases hn : f.increment with
  | none =>
    rw [hn] at tidy
    exact tidy
  | some e =>
    rw [hn] at tidy
    exact tidy.1

theorem execStep_rounds (exec : Scope → Stmt ρ → Lexical.Run ρ (Ending ρ))
    (eval : Locals → Expr ρ → Lexical.Run ρ (Value ρ Locals)) (scope : Scope) :
    Lexical.execStep exec eval scope f.rounds = (do
      if (← eval scope.locals (f.condition.getD (.literal (.bool true)))).truthy then
        match ← exec scope f.round with
        | .behind _ => exec scope f.rounds
        | .broke => return .behind scope
        | .returned v => return .returned v
      else return .behind scope) := rfl

end ForLoop

/-- The statements that are taken for `for` statements, each by its parts. -/
structure ForLoops (ρ : Type) where
  loop? : Stmt ρ → Option (ForLoop ρ)
  tree : ∀ {s f}, loop? s = some f → s = f.tree

namespace ForLoops

open Classical in
/-- All statements that a `for` statement can be read as. -/
noncomputable def every : ForLoops ρ where
  loop? s := if h : ∃ f : ForLoop ρ, s = f.tree then some h.choose else none
  tree h := by
    split at h
    · next found => exact Option.some.inj h ▸ found.choose_spec
    · cases h

theorem every_takes (f : ForLoop ρ) : (every.loop? f.tree).isSome := by
  have found : ∃ g : ForLoop ρ, f.tree = g.tree := ⟨f, rfl⟩
  dsimp only [every]
  rw [dif_pos found, Option.isSome_some]

section Steps

variable (exec : Scope → Stmt ρ → Lexical.Run ρ (Ending ρ))
  (eval : Locals → Expr ρ → Lexical.Run ρ (Value ρ Locals)) (f : ForLoop ρ)

/-- Whether there is another round. Without a condition there always is. -/
def goesOn (locals : Locals) : Lexical.Run ρ Bool :=
  match f.condition with
  | some c => do return (← eval locals c).truthy
  | none => return true

/-- The body, and then the increment, if the body ends normally. -/
def bodyThen (increment : Expr ρ) (locals : Locals) : Lexical.Run ρ (Ending ρ) := do
  match ← exec (some locals) f.body with
  | .behind _ => exec (some locals) (.expr increment)
  | ending => return ending

/-- One round, where `incremented` is what it is with an increment. -/
def round (incremented : Expr ρ → Locals → Lexical.Run ρ (Ending ρ)) (locals : Locals) :
    Lexical.Run ρ (Ending ρ) :=
  match f.increment with
  | some e => incremented e locals
  | none => exec (some locals) f.body

/-- One round, and the others if it ends normally. A loop that is left by a `break` ends normally. -/
def turn (round again : Lexical.Run ρ (Ending ρ)) (outside : Scope) (locals : Locals) :
    Lexical.Run ρ (Ending ρ) := do
  if ← goesOn eval f locals then
    match ← round with
    | .behind _ => again
    | .broke => return .behind outside
    | .returned v => return .returned v
  else return .behind outside

end Steps

variable (loops : ForLoops ρ)

mutual

/-- Runs a statement. What comes first in a `for` statement is done once, in a scope of its own. Fuel is
counted as in the tree that the statement is read as. -/
def exec : Nat → Scope → Stmt ρ → Lexical.Run ρ (Ending ρ)
  | 0, _, _ => throw .outOfFuel
  | fuel + 1, scope, s =>
    match loops.loop? s with
    | none => Lexical.execStep (exec fuel) (eval fuel) scope s
    | some f =>
      match f.initial with
      | none =>
        turn (eval fuel) f (round (exec fuel) f (incremented fuel f) scope.locals)
          (loop fuel f scope scope.locals) scope scope.locals
      | some s => do
        match ← exec fuel (some scope.locals) s with
        | .behind inside => loop fuel f scope inside.locals
        | ending => return ending

def eval : Nat → Locals → Expr ρ → Lexical.Run ρ (Value ρ Locals)
  | 0, _, _ => throw .outOfFuel
  | fuel + 1, locals, e => Lexical.evalStep (exec fuel) (eval fuel) locals e

/-- The rounds of a `for` statement. All have the same variables. -/
def loop : Nat → ForLoop ρ → Scope → Locals → Lexical.Run ρ (Ending ρ)
  | 0, _, _, _ => throw .outOfFuel
  | fuel + 1, f, outside, locals =>
    turn (eval fuel) f (round (exec fuel) f (incremented fuel f) locals) (loop fuel f outside locals)
      outside locals

def incremented : Nat → ForLoop ρ → Expr ρ → Locals → Lexical.Run ρ (Ending ρ)
  | 0, _, _, _ => throw .outOfFuel
  | fuel + 1, f, increment, locals => bodyThen (exec fuel) f increment locals

end

/-- With this much fuel, `for` statements may be run as the trees that they are read as. -/
structure Direct (fuel : Nat) : Prop where
  exec (scope : Scope) (s : Stmt ρ) : loops.exec fuel scope s = Lexical.exec fuel scope s
  eval (locals : Locals) (e : Expr ρ) : loops.eval fuel locals e = Lexical.eval fuel locals e
  loop (f : ForLoop ρ) (outside inside : Scope) :
    loops.loop fuel f outside inside.locals = within outside (Lexical.exec fuel inside f.rounds)
  incremented (f : ForLoop ρ) (increment : Expr ρ) (inside : Scope) :
    within inside (loops.incremented fuel f increment inside.locals) =
      Lexical.exec fuel inside (.block [f.body, .expr increment])

namespace Direct

open Lexical (within_bind bind_within within_within within_ite exec_inside execAll_singleton)

variable {loops} {fuel : Nat} (h : loops.Direct fuel) (f : ForLoop ρ)

include h

theorem round (inside : Scope) :
    within inside (ForLoops.round (loops.exec fuel) f (loops.incremented fuel f) inside.locals) =
      Lexical.exec fuel inside f.round := by
  unfold ForLoops.round ForLoop.round
  cases hn : f.increment with
  | some e => exact h.incremented f e inside
  | none =>
    rw [h.exec]
    exact (exec_inside fuel f.body_tidy f.plain inside).symm

theorem turn (outside inside : Scope) :
    ForLoops.turn (loops.eval fuel) f
        (ForLoops.round (loops.exec fuel) f (loops.incremented fuel f) inside.locals)
        (loops.loop fuel f outside inside.locals) outside inside.locals =
      within outside (Lexical.execStep (Lexical.exec fuel) (Lexical.eval fuel) inside f.rounds) := by
  have onward : (do
      match ← ForLoops.round (loops.exec fuel) f (loops.incremented fuel f) inside.locals with
      | .behind _ => loops.loop fuel f outside inside.locals
      | .broke => return .behind outside
      | .returned v => return .returned v) = within outside (do
        match ← Lexical.exec fuel inside f.round with
        | .behind _ => Lexical.exec fuel inside f.rounds
        | .broke => return .behind inside
        | .returned v => return .returned v) := by
    rw [← h.round f inside, bind_within, within_bind]
    refine bind_congr fun ending => ?_
    cases ending with
    | behind => exact h.loop f outside inside
    | broke | returned => rfl
  rw [f.execStep_rounds, within_bind, ForLoops.turn, onward, ForLoops.goesOn]
  simp only [within_ite]
  cases f.condition with
  | some c =>
    rw [bind_assoc, h.eval]
    simp only [pure_bind]
    rfl
  | none =>
    -- Without fuel, the one ends at the condition that is put in, the other at the round.
    cases fuel with
    | zero => rfl
    | succ fuel =>
      rw [pure_bind]
      rfl

theorem exec_loop {s : Stmt ρ} (hs : loops.loop? s = some f) (scope : Scope) :
    loops.exec (fuel + 1) scope s = Lexical.exec (fuel + 1) scope s := by
  rw [ForLoops.exec, hs, loops.tree hs, f.tree_eq]
  dsimp only
  cases f.initial with
  | none =>
    have inside := exec_inside (fuel + 1) f.rounds_tidy rfl scope
    dsimp only
    rw [h.turn f scope scope, ← Lexical.exec, inside, within_within]
  | some s =>
    dsimp only
    rw [h.exec, Lexical.exec, Lexical.execStep, Lexical.execAll, within_bind]
    refine bind_congr fun ending => ?_
    cases ending with
    | behind inside =>
      dsimp only
      rw [h.loop, execAll_singleton]
    | broke | returned => rfl

theorem bodyThen (increment : Expr ρ) (inside : Scope) :
    within inside (ForLoops.bodyThen (loops.exec fuel) f increment inside.locals) =
      Lexical.exec (fuel + 1) inside (.block [f.body, .expr increment]) := by
  have body := exec_inside fuel f.body_tidy f.plain (some inside.locals)
  rw [ForLoops.bodyThen, Lexical.exec, Lexical.execStep, Lexical.execAll, h.exec, body, bind_within,
    bind_within]
  refine congrArg (within inside) (bind_congr fun ending => ?_)
  cases ending with
  | behind =>
    dsimp only [Ending.seenIn]
    rw [h.exec, execAll_singleton]
  | broke | returned => rfl

end Direct

theorem direct (fuel : Nat) : loops.Direct fuel := by
  induction fuel with
  | zero => exact ⟨fun _ _ => rfl, fun _ _ => rfl, fun _ _ _ => rfl, fun _ _ _ => rfl⟩
  | succ fuel h =>
    have exec : loops.exec fuel = Lexical.exec fuel := funext₂ h.exec
    have eval : loops.eval fuel = Lexical.eval fuel := funext₂ h.eval
    constructor
    case exec =>
      intro scope s
      cases hs : loops.loop? s with
      | none => rw [ForLoops.exec, hs, Lexical.exec, exec, eval]
      | some f => exact h.exec_loop f hs scope
    case eval =>
      intro locals e
      rw [ForLoops.eval, Lexical.eval, exec, eval]
    case loop => exact fun f outside inside => h.turn f outside inside
    case incremented => exact fun f increment inside => h.bodyThen f increment inside

end ForLoops

end Lox
