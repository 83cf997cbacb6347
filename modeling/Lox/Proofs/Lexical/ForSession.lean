import Lox.Proofs.Lexical.ForLoop
import Lox.Proofs.Lexical.Session

/-!
Sessions in which `for` statements are run as they stand. A run shows the same as the run of the loops
and blocks that they are read as, in the environments and at the places that scoping gives these.
-/

namespace Lox

namespace ForLoops

section Programs

variable {ρ : Type} (loops : ForLoops ρ)

/-- Runs statements outside of all blocks, and answers the value of the last that is an expression. -/
def interpretFrom (fuel : Nat) (last : Value ρ Lexical.Locals) :
    List (Stmt ρ) → Lexical.Run ρ (Value ρ Lexical.Locals)
  | [] => return last
  | .expr e :: ss => do interpretFrom fuel (← loops.eval fuel [] e) ss
  | s :: ss => do
    let _ ← loops.exec fuel none s
    interpretFrom fuel last ss

def interpret (fuel : Nat) (p : List (Stmt ρ)) : Lexical.Run ρ (Value ρ Lexical.Locals) := do
  let v ← loops.interpretFrom fuel .nil p
  Lexical.flush
  return v

theorem interpretFrom_eq (fuel : Nat) (last : Value ρ Lexical.Locals) (p : List (Stmt ρ)) :
    loops.interpretFrom fuel last p = Lexical.interpretFrom fuel last p := by
  induction p generalizing last with
  | nil => rfl
  | cons s ss ih =>
    cases s with
    | expr e =>
      rw [interpretFrom, Lexical.interpretFrom, (loops.direct fuel).eval]
      exact bind_congr fun v => ih v
    | _ =>
      rw [interpretFrom, Lexical.interpretFrom, (loops.direct fuel).exec]
      · exact bind_congr fun _ => ih last
      all_goals exact nofun

theorem interpret_eq (fuel : Nat) (p : List (Stmt ρ)) :
    loops.interpret fuel p = Lexical.interpret fuel p := by
  rw [interpret, interpretFrom_eq]
  rfl

end Programs

variable (loops : ForLoops RefId)

def executing (t : Lexical.Session) (fuel : Nat) (p : Program)
    (reply : Value RefId Lexical.Locals → Reply) : Reply × Lexical.Session :=
  match loops.interpret fuel p t.store with
  | .ok v store => (reply v, { t with store })
  | .error stop store => (.failure (.stopped stop), { t with store })

def perform (t : Lexical.Session) : Step → Reply × Lexical.Session
  | .compile source => t.accept source fun t _ => (.accepted, t)
  | .execute fuel number =>
    match t.programs[number]? with
    | some p => loops.executing t fuel p fun v => .value v.display
    | none => (.nothing, t)
  | .run fuel source =>
    t.accept source fun t p => loops.executing t fuel p fun v => .value v.display
  | .runLine fuel line =>
    t.accept (Session.completed (Text.trimEnd line)) fun t p =>
      loops.executing t fuel p fun v => .line (Lexical.Session.echo (Text.trimEnd line) p v)
  | .takeWarnings => (.nothing, { t with reader := (Session.takeWarnings t.reader).2 })

def performAll (t : Lexical.Session) (steps : List Step) : Lexical.Session :=
  steps.foldl (fun t step => (loops.perform t step).2) t

theorem executing_eq : loops.executing = Lexical.Session.executing := by
  funext t fuel p reply
  rw [executing, interpret_eq]
  rfl

theorem perform_eq : loops.perform = Lexical.Session.perform := by
  funext t step
  cases step with
  | execute fuel number =>
    cases hp : t.programs[number]? with
    | none => simp only [perform, Lexical.Session.perform, hp]
    | some p => simp only [perform, Lexical.Session.perform, hp, executing_eq]
  | compile | run | runLine | takeWarnings =>
    simp only [perform, Lexical.Session.perform, executing_eq]

theorem performAll_eq : loops.performAll = Lexical.Session.performAll := by
  funext t steps
  rw [performAll, perform_eq]
  rfl

end ForLoops

namespace History

/-- A `for` statement does what its words say, whatever its parts and wherever it stands. Whichever of
them are run as they stand, the steps before included, a step shows the same as where they are read as
other loops and blocks: the same value as text or the same error on the same line, and the same output,
files and rest of the input. -/
theorem for_statements_run_directly (loops : ForLoops RefId) (host : Host) (unused : Severity)
    (steps : List Step) (step : Step) :
    let h := (start host unused).performAll steps
    let t := loops.performAll (Lexical.Session.start host unused) steps
    (h.perform step).1.reply = (loops.perform t step).1 ∧
      (h.perform step).2.session.machine.host = (loops.perform t step).2.store.host := by
  intro h t
  have beside : h.Beside t := by
    rw [show t = _ from congrFun₂ loops.performAll_eq _ _]
    exact beside_performAll host unused steps
  have shows := beside.perform step
  rw [loops.perform_eq]
  exact ⟨shows.reply, shows.beside.host⟩

end History

end Lox
