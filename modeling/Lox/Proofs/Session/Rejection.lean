import Lox.Proofs.Session.Placed

/-!
Rejected texts. A text that is rejected uses up numbers for its references and may leave warnings, and
nothing else: the steps around it are answered as if it had never been there.
-/

namespace Lox

namespace Session

/-- Nothing of the session that a program could see has changed. -/
structure Unmoved (s s' : Session) : Prop where
  machine : s'.machine = s.machine
  bindings : s'.bindings = s.bindings
  unused : s'.unused = s.unused
  nextId : s.nextId ≤ s'.nextId
  warnings : s.warnings <+: s'.warnings

theorem unmoved_of_rejected {s s' : Session} {source : String} {f : Failure}
    (h : compile source s = .error f s') : s.Unmoved s' ∧ ∃ ds, ds ≠ [] ∧ f = .rejected ds := by
  rw [compile_run] at h
  split at h
  · cases h
  · rename_i hr
    injection h with hf hs
    subst hf hs
    exact ⟨⟨rfl, rfl, rfl, Nat.le_add_left _ _, List.prefix_append _ _⟩, _, hr, rfl⟩

/-- A text with a fault in its characters is rejected. -/
theorem exists_error_of_scan {source : String} (h : (scan source).errors ≠ []) (s : Session) :
    ∃ f s', compile source s = .error f s' := by
  have hf : faults source ≠ [] := fun hf => h (faults_eq_nil hf)
  have hr : rejection s.unused source ≠ [] := by rwa [rejection, if_neg hf]
  rw [compile_run, if_neg hr]
  exact ⟨_, _, rfl⟩

theorem run_of_rejected {s s' : Session} {source : String} {f : Failure}
    (h : compile source s = .error f s') (fuel : Nat) : run fuel source s = .error f s' := by
  rw [run_run, h]

theorem runLine_of_rejected {s s' : Session} {line : String} {f : Failure}
    (h : compile (completed (Text.trimEnd line)) s = .error f s') (fuel : Nat) :
    runLine fuel line s = .error f s' := by
  rw [runLine_run, h]

end Session

/-- What can be seen of a step: its answer, the machine after it, with the output, the input that is
left and the files, and the warnings that it noted. References show by their bindings alone. -/
structure Observation where
  answer : Answer (Option Binding)
  machine : Machine (Option Binding)
  noted : List Scoping.Finding

namespace History

/-- The step and what it noted. Warnings that are taken were noted by steps before. -/
def observe (h : History) (step : Step) : Observation where
  answer := (h.perform step).1.relabel (h.perform step).2.places
  machine := (h.perform step).2.session.machine.relabel (h.perform step).2.places
  noted := (h.perform step).2.session.warnings.drop h.session.warnings.length

/-- What can be seen of these steps one after another. -/
def observeAll (h : History) : List Step → List Observation
  | [] => []
  | step :: steps => h.observe step :: (h.perform step).2.observeAll steps

/-- The steps that do not end with a rejection. -/
def accepted (h : History) : List Step → List Step
  | [] => []
  | step :: steps =>
    if (h.perform step).1.isRejected then (h.perform step).2.accepted steps
    else step :: (h.perform step).2.accepted steps

end History

namespace Placed

/-- What can be seen of a step of a session without identities. -/
def observe (s : Placed) (step : Step) : Observation where
  answer := (s.perform step).1
  machine := (s.perform step).2.machine
  noted := (step.source?.map (Session.noted s.unused)).getD []

def observeAll (s : Placed) : List Step → List Observation
  | [] => []
  | step :: steps => s.observe step :: (s.perform step).2.observeAll steps

def accepted (s : Placed) : List Step → List Step
  | [] => []
  | step :: steps =>
    if (s.perform step).1.isRejected then (s.perform step).2.accepted steps
    else step :: (s.perform step).2.accepted steps

theorem observeAll_accepted (s : Placed) (steps : List Step) :
    s.observeAll (s.accepted steps) = (s.observeAll steps).filter (!·.answer.isRejected) := by
  induction steps generalizing s with
  | nil => rfl
  | cons step steps ih =>
    have ha : (s.observe step).answer = (s.perform step).1 := rfl
    cases h : (s.perform step).1.isRejected with
    | true =>
      have hs : (s.perform step).2 = s := perform_of_rejected h
      rw [accepted, if_pos h, hs, ih, observeAll, List.filter_cons, ha, h, hs]
      rfl
    | false =>
      have hn : ¬ (s.perform step).1.isRejected = true := by simp [h]
      rw [accepted, if_neg hn, observeAll, ih, observeAll, List.filter_cons, ha, h]
      rfl

end Placed

namespace History

theorem warnings_executing (h : History) (fuel : Nat) (p : Program)
    (answer : Value RefId EnvId → Answer RefId) :
    (h.executing fuel p answer).2.session.warnings = h.session.warnings := by
  rw [snd_executing]
  cases interpret h.session.bindings.find? fuel p h.session.machine <;> rfl

theorem warnings_accept (h : History) (source : String)
    {next : History → Program → Answer RefId × History}
    (hn : ∀ h p, (next h p).2.session.warnings = h.session.warnings) :
    (h.accept source next).2.session.warnings =
      h.session.warnings ++ Session.noted h.session.unused source := by
  rw [accept]
  split
  · exact hn _ _
  · rfl

/-- Only texts that are compiled leave warnings. -/
theorem noted_observe (h : History) (step : Step) :
    (h.observe step).noted = (step.source?.map (Session.noted h.session.unused)).getD [] := by
  simp only [observe, perform_eq]
  cases step with
  | compile source =>
    dsimp only
    rw [warnings_accept h source fun _ _ => rfl, List.drop_left,
      Step.source?, Option.map_some, Option.getD_some]
  | execute fuel number =>
    dsimp only
    cases h.programs[number]? with
    | none => exact List.drop_length
    | some p =>
      dsimp only
      rw [warnings_executing]
      exact List.drop_length
  | run fuel source =>
    dsimp only
    rw [warnings_accept h source fun h p => warnings_executing h fuel p _, List.drop_left,
      Step.source?, Option.map_some, Option.getD_some]
  | runLine fuel line =>
    dsimp only
    rw [warnings_accept h _ fun h p => warnings_executing h fuel p _, List.drop_left,
      Step.source?, Option.map_some, Option.getD_some]
  | takeWarnings =>
    rw [Step.source?, Option.map_none, Option.getD_none]
    exact List.drop_nil

theorem observe_placed {h : History} (hg : h.Grounded) (step : Step) :
    h.observe step = h.placed.observe step := by
  have seen := perform_placed hg step
  have hm : (h.observe step).machine = (h.placed.observe step).machine :=
    congrArg Placed.machine seen.placed
  have hn : (h.observe step).noted = (h.placed.observe step).noted := noted_observe h step
  have ha : (h.observe step).answer = (h.placed.observe step).answer := seen.answer
  calc h.observe step
    _ = ⟨(h.observe step).answer, (h.observe step).machine, (h.observe step).noted⟩ := rfl
    _ = h.placed.observe step := by rw [ha, hm, hn]

theorem observeAll_placed {h : History} (hg : h.Grounded) (steps : List Step) :
    h.observeAll steps = h.placed.observeAll steps := by
  induction steps generalizing h with
  | nil => rfl
  | cons step steps ih =>
    have seen := perform_placed hg step
    rw [observeAll, Placed.observeAll, observe_placed hg, ih (hg.perform step), seen.placed]

theorem accepted_placed {h : History} (hg : h.Grounded) (steps : List Step) :
    h.accepted steps = h.placed.accepted steps := by
  induction steps generalizing h with
  | nil => rfl
  | cons step steps ih =>
    have seen := perform_placed hg step
    rw [accepted, Placed.accepted, ih (hg.perform step), seen.placed, ← seen.answer,
      Answer.isRejected_relabel]

/-- A rejected text leaves no trace. Compiling or running it changes nothing but the numbers of later
references and the warnings, and steps that are rejected can be left out among any others. -/
theorem rejection_leaves_no_trace {h : History} (hr : h.Reachable) :
    (∀ source f s, Session.compile source h.session = .error f s →
      h.session.Unmoved s ∧ (∃ ds, ds ≠ [] ∧ f = .rejected ds) ∧
      ∀ fuel, Session.run fuel source h.session = .error f s) ∧
    (∀ line f s, Session.compile (Session.completed (Text.trimEnd line)) h.session = .error f s →
      ∀ fuel, Session.runLine fuel line h.session = .error f s) ∧
    ∀ steps, h.observeAll (h.accepted steps) =
      (h.observeAll steps).filter (!·.answer.isRejected) := by
  refine ⟨?_, ?_, ?_⟩
  · intro source f s hs
    obtain ⟨unmoved, rejected⟩ := Session.unmoved_of_rejected hs
    exact ⟨unmoved, rejected, Session.run_of_rejected hs⟩
  · intro line f s hs
    exact Session.runLine_of_rejected hs
  · intro steps
    rw [observeAll_placed hr.grounded, observeAll_placed hr.grounded, accepted_placed hr.grounded]
    exact h.placed.observeAll_accepted steps

/-- The same of a stray character, in a session that has just started. -/
theorem stray_character_leaves_no_trace :
    (start {} .warning).Reachable ∧
    (∃ f s, Session.compile "@;" (start {} .warning).session = .error f s ∧
      (start {} .warning).session.Unmoved s ∧
      ∀ fuel, Session.run fuel "@;" (start {} .warning).session = .error f s ∧
        Session.runLine fuel "@; " (start {} .warning).session = .error f s) ∧
    (start {} .warning).observeAll ((start {} .warning).accepted [.run 9 "@;", .run 9 "1;"]) =
      ((start {} .warning).observeAll [.run 9 "@;", .run 9 "1;"]).filter
        (!·.answer.isRejected) := by
  have hr := reachable_start {} .warning
  obtain ⟨compiled, lines, steps⟩ := rejection_leaves_no_trace hr
  have line : Session.completed (Text.trimEnd "@; ") = "@;" := by decide
  obtain ⟨f, s, hs⟩ := Session.exists_error_of_scan (show (scan "@;").errors ≠ [] by decide)
    (start {} .warning).session
  obtain ⟨unmoved, _, runs⟩ := compiled "@;" f s hs
  refine ⟨hr, ⟨f, s, hs, unmoved, fun fuel => ⟨runs fuel, ?_⟩⟩, steps _⟩
  exact lines "@; " f s (line ▸ hs) fuel

end History

end Lox
