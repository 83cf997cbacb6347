import Lox.Proofs.Parser.Origin
import Lox.Proofs.Raw.Agreement
import Lox.Proofs.Session.Grounded

/-!
Sessions whose programs run as they can panic. Their machine starts with nothing but an empty global
environment, and never does panic.
-/

namespace Lox

namespace Raw

variable {ρ : Type}

/-- Where the run ends, unless it panics. -/
def after {α : Type} : EStateM.Result Halt (Machine ρ) α → Option (Machine ρ)
  | .ok _ m | .error (.stop _) m => some m
  | .error .panic _ => none

/-- Where the run ends. -/
def left {α : Type} : EStateM.Result Stop (Lox.Machine ρ) α → Lox.Machine ρ
  | .ok _ m | .error _ m => m

theorem after_tabled {α : Type} (r : EStateM.Result Stop (Lox.Machine ρ) α) :
    after (tabled r) = some (left r).tabled := by
  cases r <;> rfl

/-- Declares the native functions. -/
def install : List Native → Run ρ Unit
  | [] => return
  | n :: ns => do
    define .global n.name (some (.native n))
    install ns

/-- The machine at the start of a session. -/
def start (host : Host) : Option (Machine ρ) := after (install Native.all { host })

theorem install_tabled (ns : List Native) (m : Lox.Machine ρ) :
    install ns m.tabled = .ok () ({ m with environments := ns.foldl (fun s n =>
      s.define .global n.name (some (.native n))) m.environments } : Lox.Machine ρ).tabled := by
  induction ns generalizing m with
  | nil => rfl
  | cons n ns ih =>
    have first := Agrees.define .global n.name (some (.native n)) m
    simp only [install, Bind.bind, EStateM.bind, first]
    exact ih _

theorem start_eq (host : Host) : start host = some (Lox.Machine.start host : Lox.Machine ρ).tabled := by
  have run := install_tabled Native.all ({ host } : Lox.Machine ρ)
  have empty : ({ host } : Lox.Machine ρ).tabled = { host } := by
    rw [Lox.Machine.tabled, Environments.tables_empty]
  rw [start, ← empty, run]
  rfl

/-- The machine after the program of a text has run, if it is accepted. -/
def running (h : History) (m : Machine RefId) (fuel : Nat) (source : String) :
    Option (Machine RefId) :=
  match Session.compile source h.session with
  | .ok p s => after (interpret s.bindings.find? fuel p m)
  | .error _ _ => some m

/-- The machine after a step of the session, unless a program panics in it. -/
def perform (h : History) (m : Machine RefId) : Step → Option (Machine RefId)
  | .compile _ | .takeWarnings => some m
  | .execute fuel number => match h.programs[number]? with
    | some p => after (interpret h.session.bindings.find? fuel p m)
    | none => some m
  | .run fuel source => running h m fuel source
  | .runLine fuel line => running h m fuel (Session.completed (Text.trimEnd line))

def performAll (h : History) (m : Machine RefId) : List Step → Option (Machine RefId)
  | [] => some m
  | step :: steps => (perform h m step).bind (performAll (h.perform step).2 · steps)

section

variable (h : History) (fuel : Nat)

theorem executing_tabled (p : Program) (answer : Value RefId EnvId → Answer RefId) :
    after (interpret h.session.bindings.find? fuel p h.session.machine.tabled) =
      some (h.executing fuel p answer).2.session.machine.tabled := by
  rw [interpret_agrees, after_tabled, History.snd_executing]
  cases Lox.interpret h.session.bindings.find? fuel p h.session.machine <;> rfl

theorem running_tabled (source : String)
    (answer : Program → Value RefId EnvId → Answer RefId) :
    running h h.session.machine.tabled fuel source =
      some (h.accept source fun h p => h.executing fuel p (answer p)).2.session.machine.tabled := by
  rw [running, History.compile_session, History.accept]
  by_cases hr : Session.rejection h.session.unused source = []
  · rw [if_pos hr, if_pos hr]
    exact executing_tabled (h.accepting source) fuel _ _
  · rw [if_neg hr, if_neg hr]
    rfl

end

/-- A step leaves the tables of the machine that it leaves. -/
theorem perform_tabled (h : History) (step : Step) :
    perform h h.session.machine.tabled step = some (h.perform step).2.session.machine.tabled := by
  rw [History.perform_eq]
  cases step with
  | compile source =>
    simp only [perform, History.accept]
    split <;> rfl
  | execute fuel number =>
    simp only [perform]
    cases h.programs[number]? with
    | none => rfl
    | some p => exact executing_tabled h fuel p _
  | run fuel source =>
    simp only [perform]
    exact running_tabled h fuel source fun _ => .value
  | runLine fuel line =>
    simp only [perform]
    exact running_tabled h fuel _ fun p v => .line (History.echo (Text.trimEnd line) p v)
  | takeWarnings => rfl

theorem performAll_tabled (h : History) (steps : List Step) :
    performAll h h.session.machine.tabled steps =
      some (h.performAll steps).session.machine.tabled := by
  induction steps generalizing h with
  | nil => rfl
  | cons step steps ih =>
    rw [performAll, perform_tabled, Option.bind_some, ih]
    rfl

end Raw

/-- Nothing panics. Every operator of a tree is that of a token of its kind, whatever the tokens are,
and an operator of that kind is there for its operands. From the start of a session, with nothing in
the machine but an empty global environment, its programs run as they can panic to where they run
otherwise, step by step, and so does any program in any machine. -/
theorem nothing_panics :
    (∀ tokens first, Stmt.MadeOfAll (· ∈ tokens) (parse tokens first).statements) ∧
    (∀ host unused steps, ((Raw.start host).bind
        (Raw.performAll (History.start host unused) · steps)) =
      some ((History.start host unused).performAll steps).session.machine.tabled) ∧
    ∀ (site : RefId → Option Binding) fuel p m,
      Raw.interpret site fuel p m.tabled = Raw.tabled (interpret site fuel p m) := by
  refine ⟨?_, ?_, ?_⟩
  · intro tokens first
    exact parse_madeOf first fun t ht => (Token.untilEof_prefix tokens).subset ht
  · intro host unused steps
    rw [Raw.start_eq, Option.bind_some]
    exact Raw.performAll_tabled (History.start host unused) steps
  · intro site fuel p m
    exact Raw.interpret_agrees site fuel p m

end Lox
