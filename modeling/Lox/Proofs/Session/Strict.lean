import Lox.Proofs.Scoping.Reporting
import Lox.Proofs.Session.Rejection

/-!
Strict and lenient. Whether an unused variable is an error or a warning decides where it is reported and
which texts are accepted, and nothing else: the bindings are the same, the lenient errors and warnings
are the strict errors in two parts, and a session that has been strict with no text rejected could have
been lenient.
-/

namespace Lox

namespace Resolution

variable (r : Resolution)

/-- The lenient errors are the strict ones that are not about unused variables. -/
theorem errors_warning :
    r.errors .warning = (r.errors .error).filter (·.fault != .unusedVariable) := by
  rw [errors, errors, List.filter_filter]
  congr 1
  funext f
  simp [isError]

theorem warnings_warning :
    r.warnings .warning = (r.errors .error).filter (·.fault == .unusedVariable) := by
  rw [warnings, errors, List.filter_filter]
  congr 1
  funext f
  simp [isError, bne]

theorem warnings_error : r.warnings .error = [] := by
  rw [warnings, List.filter_eq_nil_iff]
  intro f _
  simp [isError]

end Resolution

namespace Session

variable {source : String}

theorem noted_error (source : String) : noted .error source = [] := by
  unfold noted
  split
  · exact Resolution.warnings_error _
  · rfl

/-- A text that a strict session accepts is accepted by a lenient one, which has no warnings for it. -/
theorem lenient_of_rejection (h : rejection .error source = []) :
    rejection .warning source = [] ∧ noted .warning source = [] := by
  have none := errors_of_rejection h
  constructor
  · rw [rejection, if_pos (faults_of_rejection h), Resolution.errors_warning, none]
    rfl
  · rw [noted, if_pos (faults_of_rejection h), Resolution.warnings_warning, none]
    rfl

end Session

namespace History

/-- The session, with its severity for unused variables lowered. -/
def lenient (h : History) : History := { h with session := { h.session with unused := .warning } }

/-- A session that has no warnings since unused variables are errors in it. -/
structure Strict (h : History) : Prop where
  unused : h.session.unused = .error
  warnings : h.session.warnings = []

theorem strict_start (host : Host) : (start host .error).Strict := ⟨rfl, rfl⟩

/-- What the strict session does in a step, the lenient one does too. -/
structure Follows (r r' : Answer RefId × History) : Prop where
  strict : r.2.Strict
  same : r' = (r.1, r.2.lenient)

namespace Strict

variable {h : History} (hs : h.Strict)

include hs

theorem accepting {source : String} (ha : Session.rejection .error source = []) :
    (h.accepting source).Strict ∧ h.lenient.accepting source = (h.accepting source).lenient := by
  obtain ⟨-, quiet⟩ := Session.lenient_of_rejection ha
  have own : (h.accepting source).session.warnings = [] := by
    rw [History.accepting, hs.unused, Session.noted_error, List.append_nil, hs.warnings]
  have same : h.session.warnings ++ Session.noted .warning source =
      h.session.warnings ++ Session.noted h.session.unused source := by
    rw [quiet, hs.unused, Session.noted_error]
  refine ⟨⟨hs.unused, own⟩, ?_⟩
  simp only [History.accepting, History.lenient, same]

theorem executing (fuel : Nat) (p : Program) (answer : Value RefId EnvId → Answer RefId) :
    Follows (h.executing fuel p answer) (h.lenient.executing fuel p answer) := by
  simp only [History.executing, History.lenient]
  cases interpret h.session.bindings.find? fuel p h.session.machine with
  | ok v machine => exact ⟨⟨hs.unused, hs.warnings⟩, rfl⟩
  | error stop machine => exact ⟨⟨hs.unused, hs.warnings⟩, rfl⟩

theorem accept {source : String} {next : History → Program → Answer RefId × History}
    (hn : ∀ h p, Strict h → Follows (next h p) (next h.lenient p))
    (ha : (h.accept source next).1.isRejected = false) :
    Follows (h.accept source next) (h.lenient.accept source next) := by
  by_cases hr : Session.rejection h.session.unused source = []
  · have hr' : Session.rejection .error source = [] := hs.unused ▸ hr
    have accepted : Session.rejection h.lenient.session.unused source = [] :=
      (Session.lenient_of_rejection hr').1
    obtain ⟨strict, same⟩ := hs.accepting hr'
    rw [History.accept, History.accept, if_pos hr, if_pos accepted, same]
    exact hn _ _ strict
  · rw [History.accept, if_neg hr] at ha
    cases ha

theorem perform {step : Step} (ha : (h.perform step).1.isRejected = false) :
    Follows (h.perform step) (h.lenient.perform step) := by
  rw [perform_eq] at ha ⊢
  rw [perform_eq]
  cases step with
  | compile source => exact hs.accept (fun h p hs => ⟨hs, rfl⟩) ha
  | execute fuel number =>
    have same : h.lenient.programs = h.programs := rfl
    dsimp only
    rw [same]
    cases h.programs[number]? with
    | none => exact ⟨hs, rfl⟩
    | some p => exact hs.executing fuel p _
  | run fuel source => exact hs.accept (fun h p hs => hs.executing fuel p _) ha
  | runLine fuel line => exact hs.accept (fun h p hs => hs.executing fuel p _) ha
  | takeWarnings => exact ⟨⟨hs.unused, rfl⟩, rfl⟩

theorem observe {step : Step} (ha : (h.perform step).1.isRejected = false) :
    h.lenient.observe step = h.observe step ∧ (h.observe step).noted = [] := by
  have follows := hs.perform ha
  have none : (h.observe step).noted = [] := by
    rw [History.observe, follows.strict.warnings, List.drop_nil]
  refine ⟨?_, none⟩
  have noted : (h.lenient.observe step).noted = (h.observe step).noted := by
    rw [none, History.observe, follows.same]
    change (h.perform step).2.session.warnings.drop _ = []
    rw [follows.strict.warnings, List.drop_nil]
  calc h.lenient.observe step
    _ = ⟨(h.observe step).answer, (h.observe step).machine, (h.lenient.observe step).noted⟩ := by
      rw [History.observe, follows.same]
      rfl
    _ = h.observe step := by rw [noted]

end Strict

theorem observeAll_lenient {h : History} (hs : h.Strict) {steps : List Step}
    (ha : ∀ o ∈ h.observeAll steps, o.answer.isRejected = false) :
    h.lenient.observeAll steps = h.observeAll steps ∧ (∀ o ∈ h.observeAll steps, o.noted = []) ∧
      h.lenient.performAll steps = (h.performAll steps).lenient ∧ (h.performAll steps).Strict := by
  induction steps generalizing h with
  | nil => exact ⟨rfl, fun o ho => (List.not_mem_nil ho).elim, rfl, hs⟩
  | cons step steps ih =>
    have first : (h.perform step).1.isRejected = false := by
      rw [← Answer.isRejected_relabel]
      exact ha _ List.mem_cons_self
    have follows := hs.perform first
    obtain ⟨same, quiet⟩ := hs.observe first
    obtain ⟨rest, quietly, left, strict⟩ :=
      ih follows.strict fun o ho => ha o (List.mem_cons_of_mem _ ho)
    have next : (h.lenient.perform step).2 = (h.perform step).2.lenient :=
      congrArg Prod.snd follows.same
    refine ⟨?_, ?_, ?_, strict⟩
    · rw [observeAll, observeAll, same, next, rest]
    · intro o ho
      obtain rfl | ho := List.mem_cons.mp ho
      · exact quiet
      · exact quietly o ho
    · change (h.lenient.perform step).2.performAll steps = _
      rw [next, left]
      rfl

/-- Strict and lenient differ in severity only. The bindings of a program are the same; its lenient
errors are the strict ones without the unused variables, these are the lenient warnings, both in the
order of the strict errors, and there are no strict warnings. So steps that a strict session rejects
none of have the same answers, output and files in a lenient one, which has no warnings either. -/
theorem severity_only_reports :
    (∀ program : List (Stmt RefId),
      let strict := reportScoping .error program
      let lenient := reportScoping .warning program
      lenient.program = strict.program ∧ lenient.bindings = strict.bindings ∧
      lenient.errors = strict.errors.filter (·.fault != .unusedVariable) ∧
      lenient.warnings = strict.errors.filter (·.fault == .unusedVariable) ∧
      strict.warnings = [] ∧
      ∀ unused, reportScoping unused program =
        ⟨(resolve program).program, (resolve program).errors unused,
          (resolve program).warnings unused⟩) ∧
    ∀ host steps, (∀ o ∈ (start host .error).observeAll steps, o.answer.isRejected = false) →
      (start host .warning).observeAll steps = (start host .error).observeAll steps ∧
      (∀ o ∈ (start host .warning).observeAll steps, o.noted = []) ∧
      (start host .warning).performAll steps = ((start host .error).performAll steps).lenient ∧
      ((start host .warning).performAll steps).session.warnings = [] := by
  constructor
  · intro program
    simp only [reportScoping_eq]
    refine ⟨trivial, rfl, ?_, ?_, ?_, fun _ => trivial⟩
    · exact (resolve program).errors_warning
    · exact (resolve program).warnings_warning
    · exact (resolve program).warnings_error
  · intro host steps ha
    obtain ⟨same, quiet, left, strict⟩ := observeAll_lenient (strict_start host) ha
    refine ⟨same, fun o ho => quiet o (same ▸ ho), left, ?_⟩
    change ((start host .error).lenient.performAll steps).session.warnings = []
    rw [left]
    exact strict.warnings

/-- The same of a local variable that is used, and of a line that is echoed. -/
theorem severity_only_reports_used_local :
    let steps : List Step := [.run 9 "\x7b var a = nil; print a; \x7d", .runLine 9 "nil"]
    (∀ o ∈ (start {} .error).observeAll steps, o.answer.isRejected = false) ∧
      (start {} .warning).observeAll steps = (start {} .error).observeAll steps ∧
      ((start {} .warning).performAll steps).session.warnings = [] := by
  intro steps
  have accepted : ((start {} .error).observeAll steps).all (!·.answer.isRejected) = true := by
    decide +kernel
  have ha : ∀ o ∈ (start {} .error).observeAll steps, o.answer.isRejected = false := fun o ho => by
    simpa using List.all_eq_true.mp accepted o ho
  obtain ⟨same, -, -, quiet⟩ := severity_only_reports.2 {} steps ha
  exact ⟨ha, same, quiet⟩

end History

end Lox
