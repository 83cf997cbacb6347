import Lox.Proofs.Session.Compile
import Lox.Proofs.Session.Steps

/-!
What steps do to a session. Every reference in it has an identity that was given out before, so the
bindings of a new text concern no older one.
-/

namespace Lox

namespace History

/-- Every reference in use has an identity that was given out, and so has every binding. -/
structure Grounded (h : History) : Prop where
  machine : h.session.machine.Below h.session.nextId
  programs : ∀ p ∈ h.programs, ∀ id ∈ Stmt.referencesAll p, id < h.session.nextId
  bindings : ∀ id, h.session.nextId ≤ id → h.session.bindings.find? id = none

/-- The session after a text has been accepted. -/
def accepting (h : History) (source : String) : History where
  session :=
    { h.session with
      bindings := h.session.bindings.insertAll
        (Reference.entries (Session.scoping source).references h.session.nextId)
      nextId := (Session.reading source).nextId + h.session.nextId
      warnings := h.session.warnings ++ Session.noted h.session.unused source }
  programs := h.programs ++ [Session.program source h.session.nextId]

/-- The session after a text has been rejected. -/
def rejecting (h : History) (source : String) : History :=
  { h with session :=
    { h.session with
      nextId := (Session.reading source).nextId + h.session.nextId
      warnings := h.session.warnings ++ Session.noted h.session.unused source } }

/-- The session with another machine. -/
def running (h : History) (machine : Machine RefId) : History :=
  { h with session := { h.session with machine } }

theorem compile_session (h : History) (source : String) :
    Session.compile source h.session =
      if Session.rejection h.session.unused source = [] then
        .ok (Session.program source h.session.nextId) (h.accepting source).session
      else .error (.rejected (Session.rejection h.session.unused source))
        (h.rejecting source).session :=
  Session.compile_run source h.session

theorem accepting_of_compile {h : History} {source : String} {p : Program} {s : Session}
    (hc : Session.compile source h.session = .ok p s) :
    Session.rejection h.session.unused source = [] ∧
      p = Session.program source h.session.nextId ∧ s = (h.accepting source).session := by
  rw [compile_session] at hc
  split at hc
  · rename_i hr
    injection hc with hp hs
    exact ⟨hr, hp.symm, hs.symm⟩
  · cases hc

theorem run_accepting {h : History} {source : String}
    (hr : Session.rejection h.session.unused source = []) (fuel : Nat) :
    Session.run fuel source h.session =
      Session.execute fuel (Session.program source h.session.nextId)
        (h.accepting source).session := by
  rw [Session.run_run, compile_session, if_pos hr]

@[simp] theorem machine_accepting (h : History) (source : String) :
    (h.accepting source).session.machine = h.session.machine := rfl

@[simp] theorem programs_accepting (h : History) (source : String) :
    (h.accepting source).programs =
      h.programs ++ [Session.program source h.session.nextId] := rfl

@[simp] theorem unused_accepting (h : History) (source : String) :
    (h.accepting source).session.unused = h.session.unused := rfl

@[simp] theorem bindings_accepting (h : History) (source : String) :
    (h.accepting source).session.bindings = h.session.bindings.insertAll
      (Reference.entries (Session.scoping source).references h.session.nextId) := rfl

@[simp] theorem nextId_accepting (h : History) (source : String) :
    (h.accepting source).session.nextId =
      (Session.reading source).nextId + h.session.nextId := rfl

theorem le_nextId_accepting (h : History) (source : String) :
    h.session.nextId ≤ (h.accepting source).session.nextId := Nat.le_add_left _ _

theorem mem_accepting (h : History) (source : String) :
    Session.program source h.session.nextId ∈ (h.accepting source).programs :=
  List.mem_append_right _ List.mem_cons_self

/-- The bindings of older references stay. -/
theorem find?_accepting (h : History) (source : String) {id : RefId} (hi : id < h.session.nextId) :
    (h.accepting source).session.bindings.find? id = h.session.bindings.find? id :=
  Session.find?_insertAll_of_lt source _ hi

/-- What is left of the execution of a program. -/
def executing (h : History) (fuel : Nat) (p : Program)
    (answer : Value RefId EnvId → Answer RefId) : Answer RefId × History :=
  match interpret h.session.bindings.find? fuel p h.session.machine with
  | .ok v machine => (answer v, h.running machine)
  | .error stop machine => (.failure (.stopped stop), h.running machine)

/-- Goes on with the program of a text, unless the text is rejected. -/
def accept (h : History) (source : String) (next : History → Program → Answer RefId × History) :
    Answer RefId × History :=
  if Session.rejection h.session.unused source = [] then
    next (h.accepting source) (Session.program source h.session.nextId)
  else (.failure (.rejected (Session.rejection h.session.unused source)), h.rejecting source)

/-- What a line from the prompt answers. -/
def echo {ρ : Type} (line : String) (p : List (Stmt ρ)) (v : Value ρ EnvId) :
    Option (Value ρ EnvId) :=
  if !Session.isClosed line && Session.isExpression p then some v else none

theorem finish_execute (h : History) (fuel : Nat) (p : Program)
    (answer : Value RefId EnvId → Answer RefId) :
    finish h.programs answer (Session.execute fuel p h.session) = h.executing fuel p answer := by
  rw [Session.execute_run, executing]
  cases interpret h.session.bindings.find? fuel p h.session.machine <;> rfl

/-- What each step does. -/
theorem perform_eq (h : History) (step : Step) : h.perform step =
    match step with
    | .compile source => h.accept source fun h p => (.program p, h)
    | .execute fuel number =>
      match h.programs[number]? with
      | some p => h.executing fuel p .value
      | none => (.nothing, h)
    | .run fuel source => h.accept source fun h p => h.executing fuel p .value
    | .runLine fuel line => h.accept (Session.completed (Text.trimEnd line)) fun h p =>
      h.executing fuel p fun v => .line (echo (Text.trimEnd line) p v)
    | .takeWarnings => (.nothing, { h with session := { h.session with warnings := [] } }) := by
  cases step with
  | compile source =>
    simp only [perform, compiled, compile_session, accept]
    by_cases hr : Session.rejection h.session.unused source = []
    · rw [if_pos hr, if_pos hr]
      rfl
    · rw [if_neg hr, if_neg hr]
      simp only [finish, List.append_nil]
      rfl
  | execute fuel number =>
    simp only [perform]
    cases h.programs[number]? with
    | none => rfl
    | some p => exact h.finish_execute fuel p .value
  | run fuel source =>
    simp only [perform, compiled, Session.run_run, compile_session, accept]
    by_cases hr : Session.rejection h.session.unused source = []
    · rw [if_pos hr, if_pos hr]
      exact finish_execute (h.accepting source) fuel _ .value
    · rw [if_neg hr, if_neg hr]
      simp only [finish, List.append_nil]
      rfl
  | runLine fuel line =>
    simp only [perform, compiled, Session.runLine_run, compile_session, accept]
    generalize Text.trimEnd line = line
    by_cases hr : Session.rejection h.session.unused (Session.completed line) = []
    · rw [if_pos hr, if_pos hr, ← finish_execute]
      dsimp only
      cases Session.execute fuel (Session.program (Session.completed line) h.session.nextId)
        (h.accepting (Session.completed line)).session <;> rfl
    · rw [if_neg hr, if_neg hr]
      simp only [finish, List.append_nil]
      rfl
  | takeWarnings => rfl

theorem snd_executing (h : History) (fuel : Nat) (p : Program)
    (answer : Value RefId EnvId → Answer RefId) :
    (h.executing fuel p answer).2 =
      match interpret h.session.bindings.find? fuel p h.session.machine with
      | .ok _ machine | .error _ machine => h.running machine := by
  rw [executing]
  cases interpret h.session.bindings.find? fuel p h.session.machine <;> rfl

/-- What accepting, rejecting and executing keep is kept by every step. -/
theorem perform_keeps {P : History → Prop}
    (accepting : ∀ h source, P h → Session.rejection h.session.unused source = [] →
      P (h.accepting source))
    (rejecting : ∀ h source, P h → P (h.rejecting source))
    (executing : ∀ h fuel p answer, P h → p ∈ h.programs → P (h.executing fuel p answer).2)
    (warnings : ∀ h, P h → P { h with session := { h.session with warnings := [] } })
    {h : History} (hh : P h) (step : Step) : P (h.perform step).2 := by
  have accept (source : String) {next : History → Program → Answer RefId × History}
      (hn : P (h.accepting source) →
        P (next (h.accepting source) (Session.program source h.session.nextId)).2) :
      P (h.accept source next).2 := by
    rw [History.accept]
    by_cases hr : Session.rejection h.session.unused source = []
    · rw [if_pos hr]
      exact hn (accepting h source hh hr)
    · rw [if_neg hr]
      exact rejecting h source hh
  rw [perform_eq]
  cases step with
  | compile source => exact accept source id
  | execute fuel number =>
    dsimp only
    cases hp : h.programs[number]? with
    | none => exact hh
    | some p => exact executing h fuel p _ hh (List.mem_of_getElem? hp)
  | run fuel source =>
    exact accept source fun ha => executing _ fuel _ _ ha (h.mem_accepting source)
  | runLine fuel line =>
    exact accept _ fun ha => executing _ fuel _ _ ha (h.mem_accepting _)
  | takeWarnings => exact warnings h hh

namespace Grounded

variable {h : History} (hg : h.Grounded)

include hg

theorem rejecting (source : String) : (h.rejecting source).Grounded where
  machine := hg.machine.mono (Nat.le_add_left _ _)
  programs p hp id hi := Nat.lt_of_lt_of_le (hg.programs p hp id hi) (Nat.le_add_left _ _)
  bindings id hi := hg.bindings id (Nat.le_trans (Nat.le_add_left _ _) hi)

theorem accepting (source : String) : (h.accepting source).Grounded where
  machine := hg.machine.mono (h.le_nextId_accepting source)
  programs p hp id hi := by
    rw [programs_accepting, List.mem_append, List.mem_singleton] at hp
    obtain hp | rfl := hp
    · exact Nat.lt_of_lt_of_le (hg.programs p hp id hi) (h.le_nextId_accepting source)
    · exact (Session.below_program source h.session.nextId id hi).2
  bindings id hi := by
    rw [nextId_accepting] at hi
    rw [bindings_accepting]
    exact Session.find?_insertAll_of_le source hg.bindings hi

theorem running {machine : Machine RefId} (hm : machine.Below h.session.nextId) :
    (h.running machine).Grounded := ⟨hm, hg.programs, hg.bindings⟩

theorem executing {p : Program} (hp : ∀ id ∈ Stmt.referencesAll p, id < h.session.nextId)
    (fuel : Nat) (answer : Value RefId EnvId → Answer RefId) :
    (h.executing fuel p answer).2.Grounded := by
  have below := interpret_below h.session.bindings.find? hg.machine hp fuel
  rw [snd_executing]
  cases hi : interpret h.session.bindings.find? fuel p h.session.machine with
  | ok v machine | error stop machine =>
    rw [hi] at below
    exact hg.running below

/-- What was there before a text is accepted means the same after it. -/
theorem relabel_machine (source : String) {σ : Type} (f : RefId → Option Binding → σ) :
    h.session.machine.relabel
        (.onRefs fun id => f id ((h.accepting source).session.bindings.find? id)) =
      h.session.machine.relabel (.onRefs fun id => f id (h.session.bindings.find? id)) :=
  hg.machine _ _ fun id hi => by rw [h.find?_accepting source hi]

theorem relabel_programs (source : String) {σ : Type} (f : RefId → Option Binding → σ) :
    h.programs.map (List.map (Stmt.relabel
        (.onRefs fun id => f id ((h.accepting source).session.bindings.find? id)))) =
      h.programs.map (List.map (Stmt.relabel
        (.onRefs fun id => f id (h.session.bindings.find? id)))) :=
  List.map_congr_left fun p hp => Stmt.map_relabel_congr fun id hi => by
    rw [h.find?_accepting source (hg.programs p hp id hi)]

end Grounded

theorem grounded_start (host : Host) (unused : Severity) : (start host unused).Grounded where
  machine := Machine.below_start host
  programs p hp := by cases hp
  bindings id _ := by simp [start, Session.start, Bindings.find?]

theorem Grounded.perform {h : History} (hg : h.Grounded) (step : Step) :
    (h.perform step).2.Grounded :=
  perform_keeps (fun _ source hg _ => hg.accepting source) (fun _ source hg => hg.rejecting source)
    (fun _ fuel p answer hg hp => hg.executing (hg.programs p hp) fuel answer)
    (fun _ hg => ⟨hg.machine, hg.programs, hg.bindings⟩) hg step

theorem Reachable.grounded {h : History} (hr : h.Reachable) : h.Grounded :=
  hr.induction grounded_start fun _ step hg => hg.perform step

end History

end Lox
