import Lox.Proofs.Session.Grounded

/-!
The programs that steps run. A step runs a program that was accepted before, or that of a text which it
compiles, if that is accepted. All else that a step does leaves the machine as it is.
-/

namespace Lox

/-- The value that a step answers, if it answers one. -/
def Answer.value? {ρ : Type} : Answer ρ → Option (Value ρ EnvId)
  | .value v => some v
  | .line v => v
  | _ => none

namespace History

/-- The program of a text that is accepted, with the session in which it runs. -/
def accepted? (h : History) (source : String) : Option (History × Program) :=
  if Session.rejection h.session.unused source = [] then
    some (h.accepting source, Session.program source h.session.nextId)
  else none

/-- The program that a step runs, with the session in which it runs and the fuel for it. -/
def runs? (h : History) : Step → Option ((History × Program) × Nat)
  | .execute fuel number => h.programs[number]?.map fun p => ((h, p), fuel)
  | .run fuel source => (h.accepted? source).map (·, fuel)
  | .runLine fuel line => (h.accepted? (Session.completed (Text.trimEnd line))).map (·, fuel)
  | .compile _ | .takeWarnings => none

theorem accept_of_accepted {h h' : History} {source : String} {p : Program}
    (ha : h.accepted? source = some (h', p)) : h'.session.machine = h.session.machine ∧
      ∀ next : History → Program → Answer RefId × History, h.accept source next = next h' p := by
  unfold accepted? at ha
  split at ha
  · next hr =>
    cases ha
    exact ⟨rfl, fun next => if_pos hr⟩
  · cases ha

theorem accept_of_not_accepted {h : History} {source : String} (ha : h.accepted? source = none)
    (next : History → Program → Answer RefId × History) :
    (h.accept source next).2.session.machine = h.session.machine ∧
      (h.accept source next).1.value? = none := by
  unfold accepted? at ha
  split at ha
  · cases ha
  · next hr =>
    rw [accept, if_neg hr]
    exact ⟨rfl, rfl⟩

theorem value?_echo {line : String} {p : Program} {v w : Value RefId EnvId}
    (h : echo line p v = some w) : w = v := by
  unfold echo at h
  split at h
  · cases h
    rfl
  · cases h

/-- A step executes the program that it runs, and answers its value if it answers one. -/
theorem perform_of_runs {h h' : History} {step : Step} {fuel : Nat} {p : Program}
    (hr : h.runs? step = some ((h', p), fuel)) :
    h'.session.machine = h.session.machine ∧ ∃ answer : Value RefId EnvId → Answer RefId,
      h.perform step = h'.executing fuel p answer ∧ ∀ v w, (answer v).value? = some w → w = v := by
  rw [perform_eq]
  cases step with
  | compile source | takeWarnings => cases hr
  | execute fuel number =>
    rw [runs?] at hr
    obtain ⟨p, hp, same⟩ := Option.map_eq_some_iff.mp hr
    cases same
    dsimp only
    rw [hp]
    exact ⟨rfl, _, rfl, fun v w hw => (Option.some.inj hw).symm⟩
  | run fuel source =>
    rw [runs?] at hr
    obtain ⟨r, ha, same⟩ := Option.map_eq_some_iff.mp hr
    cases same
    obtain ⟨machine, accept⟩ := accept_of_accepted ha
    exact ⟨machine, _, accept _, fun v w hw => (Option.some.inj hw).symm⟩
  | runLine fuel line =>
    rw [runs?] at hr
    obtain ⟨r, ha, same⟩ := Option.map_eq_some_iff.mp hr
    cases same
    obtain ⟨machine, accept⟩ := accept_of_accepted ha
    exact ⟨machine, _, accept _, fun v w hw => value?_echo hw⟩

/-- A step that runs no program leaves the machine as it is, and answers no value. -/
theorem perform_of_runs_none {h : History} {step : Step} (hr : h.runs? step = none) :
    (h.perform step).2.session.machine = h.session.machine ∧ (h.perform step).1.value? = none := by
  rw [perform_eq]
  cases step with
  | compile source =>
    dsimp only [accept]
    split
    · exact ⟨h.machine_accepting source, rfl⟩
    · exact ⟨rfl, rfl⟩
  | execute fuel number =>
    rw [runs?] at hr
    dsimp only
    rw [Option.map_eq_none_iff.mp hr]
    exact ⟨rfl, rfl⟩
  | run fuel source =>
    rw [runs?] at hr
    dsimp only
    exact accept_of_not_accepted (Option.map_eq_none_iff.mp hr) _
  | runLine fuel line =>
    rw [runs?] at hr
    dsimp only
    exact accept_of_not_accepted (Option.map_eq_none_iff.mp hr) _
  | takeWarnings => exact ⟨rfl, rfl⟩

end History

end Lox
