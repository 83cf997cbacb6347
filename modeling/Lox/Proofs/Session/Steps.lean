import Lox.Proofs.Relabel.Eval
import Lox.Session

/-!
Sessions step by step. A step asks a session to do something and sees its answer. A program that was
accepted can be executed at any later step, by its number among those that were.
-/

namespace Lox

inductive Step where
  | compile (source : String)
  | execute (fuel number : Nat)
  | run (fuel : Nat) (source : String)
  | runLine (fuel : Nat) (line : String)
  | takeWarnings

/-- The text that a step compiles, if it compiles one. -/
def Step.source? : Step → Option String
  | .compile source | .run _ source => some source
  | .runLine _ line => some (Session.completed (Text.trimEnd line))
  | .execute _ _ | .takeWarnings => none

inductive Answer (ρ : Type) where
  | program (p : List (Stmt ρ))
  | value (v : Value ρ EnvId)
  | line (v : Option (Value ρ EnvId))
  | failure (f : Failure)
  /-- The step asks for nothing that a program does. -/
  | nothing

namespace Answer

variable {ρ σ : Type}

def isRejected : Answer ρ → Bool
  | .failure (.rejected _) => true
  | _ => false

end Answer

/-- A session, and the programs that were accepted in it so far. -/
structure History where
  session : Session
  programs : List Program := []

namespace History

def start (host : Host) (unused : Severity) : History := { session := .start host unused }

/-- The program of a text, if it is accepted. -/
def compiled (source : String) (s : Session) : List Program :=
  match Session.compile source s with
  | .ok p _ => [p]
  | .error _ _ => []

/-- What a step answers, and what it leaves. -/
def finish {α : Type} (programs : List Program) (answer : α → Answer RefId) :
    EStateM.Result Failure Session α → Answer RefId × History
  | .ok a session => (answer a, ⟨session, programs⟩)
  | .error f session => (.failure f, ⟨session, programs⟩)

def perform (h : History) : Step → Answer RefId × History
  | .compile source =>
    finish (h.programs ++ compiled source h.session) .program (Session.compile source h.session)
  | .execute fuel number =>
    match h.programs[number]? with
    | some p => finish h.programs .value (Session.execute fuel p h.session)
    | none => (.nothing, h)
  | .run fuel source =>
    finish (h.programs ++ compiled source h.session) .value (Session.run fuel source h.session)
  | .runLine fuel line =>
    finish (h.programs ++ compiled (Session.completed (Text.trimEnd line)) h.session) .line
      (Session.runLine fuel line h.session)
  | .takeWarnings => (.nothing, { h with session := (Session.takeWarnings h.session).2 })

def performAll (h : History) (steps : List Step) : History :=
  steps.foldl (fun h step => (h.perform step).2) h

/-- What can become of a session. -/
def Reachable (h : History) : Prop :=
  ∃ host unused steps, h = (start host unused).performAll steps

theorem reachable_start (host : Host) (unused : Severity) : (start host unused).Reachable :=
  ⟨host, unused, [], rfl⟩

theorem Reachable.perform {h : History} (hr : h.Reachable) (step : Step) :
    (h.perform step).2.Reachable := by
  obtain ⟨host, unused, steps, rfl⟩ := hr
  refine ⟨host, unused, steps ++ [step], ?_⟩
  simp only [performAll, List.foldl_append, List.foldl_cons, List.foldl_nil]

/-- What holds at the start and is kept by every step holds of every reachable session. -/
theorem Reachable.induction {P : History → Prop} (hs : ∀ host unused, P (start host unused))
    (hp : ∀ h step, P h → P (h.perform step).2) {h : History} (hr : h.Reachable) : P h := by
  obtain ⟨host, unused, steps, rfl⟩ := hr
  generalize start host unused = h, hs host unused = hh
  induction steps generalizing h with
  | nil => exact hh
  | cons step steps ih => exact ih _ (hp h step hh)

end History

end Lox
