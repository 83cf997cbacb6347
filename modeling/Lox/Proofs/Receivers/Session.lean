import Lox.Proofs.Receivers.Evaluator

/-!
Sessions in which all values are known. At the start there are the natives. Each step keeps what is known
and lets the machine grow. So a run of an accepted program is as expected, where an expectation may be
about any machine that comes after the run.
-/

namespace Lox

open Run (leaves)

theorem Native.ordinary (n : Native) : Lexeme.Ordinary ⟨n.name, 0⟩ := by
  cases n <;> exact ⟨by decide, by decide⟩

/-- At the start the natives are the only values. -/
theorem Machine.sound_start (host : Host) : (Machine.start host : Machine RefId).Sound [] := by
  have natives (ns : List Native) {environments : Environments (Value RefId EnvId)}
      (hs : Machine.Sound [] ({ environments, host } : Machine RefId)) :
      Machine.Sound [] ({ environments := ns.foldl (fun s n => s.define .global n.name (some (.native n)))
                            environments, host } : Machine RefId) := by
    induction ns generalizing environments with
    | nil => exact hs
    | cons n ns ih =>
      have defined := Receivers.Later.define hs hs.global n.ordinary (a := some (.native n))
        fun v hv => by
          cases hv
          exact .native n
      exact ih defined.sound
  have empty : Machine.Sound [] ({ host } : Machine RefId) := by
    have global {e : EnvId} {env : Environment (Value RefId EnvId)}
        (he : ({ host } : Machine RefId).environments.all[e]? = some env) : env = {} := by
      cases e with
      | zero => exact (Option.some.inj he).symm
      | succ e => cases he
    refine ⟨⟨{}, rfl, rfl, List.not_mem_nil, List.not_mem_nil⟩, fun he => ?_, fun he hx => ?_, nofun⟩
    · rw [global he]
      exact .plain ⟨List.not_mem_nil, List.not_mem_nil⟩
    · rw [global he] at hx
      cases hx
  exact natives Native.all empty

namespace History

/-- All values of the session are known, and it is between two steps. -/
structure Known (h : History) : Prop where
  settled : h.Settled
  scope : h.session.machine.scope = .global
  sound : h.session.machine.Sound h.programs

namespace Known

variable {h : History} (hk : h.Known)

include hk

theorem ready {p : Program} (hp : p ∈ h.programs) :
    hk.settled.setting.Ready p [] h.session.machine (.stmts p) :=
  ⟨hk.sound, hp, hk.scope ▸ .top⟩

/-- A run of an accepted program is as expected. -/
theorem observed {w : Machine RefId → Watch RefId} (hw : hk.settled.setting.Met w) {p : Program}
    (hp : p ∈ h.programs) (stop : Stop) (fuel : Nat) {n : Machine RefId}
    (hn : (leaves (interpret h.session.bindings.find? fuel p) h.session.machine).Grows n) :
    (w n).interpret stop h.session.bindings.find? fuel p h.session.machine =
      interpret h.session.bindings.find? fuel p h.session.machine :=
  (Receivers.interpret_safe hw stop fuel (hk.ready hp)).same hn

theorem later {p : Program} (hp : p ∈ h.programs) (fuel : Nat) :
    Receivers.Later h.programs h.session.machine
      (leaves (interpret h.session.bindings.find? fuel p) h.session.machine) :=
  (Receivers.interpret_safe hk.settled.setting.met_trivial .outOfFuel fuel (hk.ready hp)).ends.leaves

end Known

theorem known_start (host : Host) (unused : Severity) : (start host unused).Known :=
  ⟨settled_start host unused, rfl, Machine.sound_start host⟩

theorem snd_executing_leaves (h : History) (fuel : Nat) (p : Program)
    (answer : Value RefId EnvId → Answer RefId) :
    (h.executing fuel p answer).2 =
      h.running (leaves (interpret h.session.bindings.find? fuel p) h.session.machine) := by
  rw [snd_executing, leaves]
  cases interpret h.session.bindings.find? fuel p h.session.machine <;> rfl

/-- What a session comes to has all values known, and has grown. -/
structure Becomes (h h' : History) : Prop where
  known : h'.Known
  grows : h.session.machine.Grows h'.session.machine

theorem Known.perform {h : History} (hk : h.Known) (step : Step) : h.Becomes (h.perform step).2 := by
  refine perform_keeps (P := h.Becomes) (fun h' source hb hr => ?_) (fun h' source hb => ?_)
    (fun h' fuel p answer hb hp => ?_) (fun h' hb => ?_) ⟨hk, .refl _⟩ step
  · exact ⟨⟨hb.known.settled.accepting hr, hb.known.scope,
      hb.known.sound.withPrograms (List.subset_append_left _ _)⟩, hb.grows⟩
  · exact ⟨⟨hb.known.settled.rejecting source, hb.known.scope, hb.known.sound⟩, hb.grows⟩
  · have settled := hb.known.settled.executing hp fuel answer
    have later := hb.known.later hp fuel
    rw [snd_executing_leaves] at settled ⊢
    exact ⟨⟨settled, later.scope.trans hb.known.scope, later.sound⟩, hb.grows.trans later.grows⟩
  · exact ⟨⟨hb.known.settled.takingWarnings, hb.known.scope, hb.known.sound⟩, hb.grows⟩

theorem Known.performAll {h : History} (hk : h.Known) (steps : List Step) :
    h.Becomes (h.performAll steps) := by
  induction steps generalizing h with
  | nil => exact ⟨hk, .refl _⟩
  | cons step steps ih =>
    have first := hk.perform step
    obtain ⟨known, grows⟩ := ih first.known
    exact ⟨known, first.grows.trans grows⟩

theorem Reachable.known {h : History} (hr : h.Reachable) : h.Known := by
  obtain ⟨host, unused, steps, rfl⟩ := hr
  exact ((known_start host unused).performAll steps).known

/-- The session after a run and further steps. -/
def after (h : History) (fuel : Nat) (p : Program) (steps : List Step) : History :=
  (h.running (leaves (interpret h.session.bindings.find? fuel p) h.session.machine)).performAll steps

/-- What is printed when the first program runs to its end. -/
def printed? (h : History) (fuel : Nat) : Option (List UInt8) :=
  h.programs.head?.bind fun p =>
    (Run.answer? (interpret h.session.bindings.find? fuel p) h.session.machine).map
      (·.2.host.console.output.toList)

theorem exists_of_printed? {h : History} {fuel : Nat} {text : List UInt8}
    (printed : h.printed? fuel = some text) (accepted : h.programs.length = 1) :
    ∃ p v m, h.programs = [p] ∧
      interpret h.session.bindings.find? fuel p h.session.machine = .ok v m ∧
      m.host.console.output.toList = text := by
  obtain ⟨p, hp⟩ := List.length_eq_one_iff.mp accepted
  rw [printed?, hp, List.head?_cons, Option.bind_some] at printed
  obtain ⟨⟨v, m⟩, answered, output⟩ := Option.map_eq_some_iff.mp printed
  exact ⟨p, v, m, hp, Run.of_answer? answered, output⟩

/-- A run of an accepted program is as expected, whatever comes after it. -/
theorem Reachable.observed {h : History} (hr : h.Reachable) {w : Machine RefId → Watch RefId}
    (hw : hr.settled.setting.Met w) {p : Program} (hp : p ∈ h.programs) (stop : Stop) (fuel : Nat)
    (steps : List Step) :
    (w (h.after fuel p steps).session.machine).interpret stop h.session.bindings.find? fuel p
        h.session.machine =
      interpret h.session.bindings.find? fuel p h.session.machine := by
  have known := hr.known
  have settled := known.settled.executing hp fuel .value
  have later := known.later hp fuel
  rw [snd_executing_leaves] at settled
  have run : (h.running (leaves (interpret h.session.bindings.find? fuel p)
      h.session.machine)).Known := ⟨settled, later.scope.trans known.scope, later.sound⟩
  exact known.observed hw hp stop fuel (run.performAll steps).grows

end History

end Lox
