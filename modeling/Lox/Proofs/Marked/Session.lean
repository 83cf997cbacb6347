import Lox.Proofs.Marked.Simulation
import Lox.Proofs.Session.Faultless

/-!
Sessions with marks. Such a session accepts the same texts, and runs their programs in environments whose
unused variables are marked. Whatever is stored under the marked names, and whatever it would stop with
where one of them is read, it answers every step as the session does.
-/

namespace Lox

namespace Marked

/-- A session in which programs run with marks. Another one reads and accepts the texts for it, and runs
none. -/
structure Session where
  reader : Lox.Session
  machine : Machine
  programs : List Program := []

namespace Session

def start (host : Host) (unused : Severity) : Session where
  reader := .start host unused
  machine := { machine := .start host }

def executing (t : Session) (i : Interference) (fuel : Nat) (p : Program)
    (answer : Value RefId EnvId → Answer RefId) : Answer RefId × Session :=
  match interpret i t.reader.bindings.find? fuel p t.machine with
  | .ok v machine => (answer v, { t with machine })
  | .error stop machine => (.failure (.stopped stop), { t with machine })

/-- Goes on with the program of a text, unless the text is rejected. -/
def accept (t : Session) (source : String) (next : Session → Program → Answer RefId × Session) :
    Answer RefId × Session :=
  match Lox.Session.compile source t.reader with
  | .ok p reader => next { t with reader, programs := t.programs ++ [p] } p
  | .error f reader => (.failure f, { t with reader })

def perform (t : Session) (i : Interference) : Step → Answer RefId × Session
  | .compile source => t.accept source fun t p => (.program p, t)
  | .execute fuel number =>
    match t.programs[number]? with
    | some p => t.executing i fuel p .value
    | none => (.nothing, t)
  | .run fuel source => t.accept source fun t p => t.executing i fuel p .value
  | .runLine fuel line =>
    t.accept (Lox.Session.completed (Text.trimEnd line)) fun t p =>
      t.executing i fuel p fun v => .line (History.echo (Text.trimEnd line) p v)
  | .takeWarnings => (.nothing, { t with reader := (Lox.Session.takeWarnings t.reader).2 })

def performAll (t : Session) (i : Interference) (steps : List Step) : Session :=
  steps.foldl (fun t step => (t.perform i step).2) t

end Session

/-- At the start of a session the natives are the only variables, and nothing is marked. -/
theorem sees_start (host : Host) : ∃ O d,
    Sees [] O (.start host) d ∧ ({ machine := .start host } : Machine) = d.over (.start host) := by
  have natives (ns : List Native) {O : Outline} {environments : Environments (Value RefId EnvId)}
      (h : Sees [] O { environments, host } ⟨environments, []⟩) : ∃ P, Sees [] P
        { environments := ns.foldl (fun s n => s.define .global n.name (some (.native n))) environments
          host }
        ⟨ns.foldl (fun s n => s.define .global n.name (some (.native n))) environments, []⟩ := by
    induction ns generalizing O environments with
    | nil => exact ⟨O, h⟩
    | cons n ns ih =>
      have good : (O.declared .global n.name).Good [] (.native n) := trivial
      exact ih (h.define ⟨rfl, fun _ => ⟨rfl, fun v hv => Option.some.inj hv ▸ good⟩⟩)
  have empty : Sees [] [⟨none, [], []⟩] { host } ⟨{}, []⟩ := by
    refine ⟨rfl, rfl, fun e => ?_, ⟨[], rfl⟩, fun {e env env'} he he' => ?_, nofun⟩
    · cases e <;> rfl
    · obtain rfl : env = env' := Option.some.inj (he.symm.trans he')
      cases e with
      | zero =>
        obtain rfl : {} = env := Option.some.inj he
        exact .nil
      | succ e => cases he
  obtain ⟨P, sees⟩ := natives Native.all empty
  exact ⟨P, _, sees, rfl⟩

end Marked

namespace History

open Marked (Interference)

/-- The sessions have come the same way: the same texts were accepted, and both machines have the same
but for marked variables. -/
structure Shadowed (h : History) (t : Marked.Session) : Prop where
  settled : h.Settled
  reader : h.session = { t.reader with machine := h.session.machine }
  programs : t.programs = h.programs
  scope : h.session.machine.scope = .global
  shade : ∃ O d, Marked.Sees h.programs O h.session.machine d ∧ t.machine = d.over h.session.machine

/-- Both sessions answer the same and go on the same way. -/
structure Matches (r : Answer RefId × History) (r' : Answer RefId × Marked.Session) : Prop where
  answer : r.1 = r'.1
  shadowed : r.2.Shadowed r'.2

namespace Shadowed

variable {h : History} {t : Marked.Session} (hs : h.Shadowed t) (i : Interference)

include hs

theorem host : t.machine.machine.host = h.session.machine.host := by
  obtain ⟨O, d, -, machine⟩ := hs.shade
  rw [machine]
  rfl

theorem executing {p : Program} (hp : p ∈ h.programs) (fuel : Nat)
    (answer : Value RefId EnvId → Answer RefId) :
    Matches (h.executing fuel p answer) (t.executing i fuel p answer) := by
  have kept := hs.settled.executing hp fuel answer
  obtain ⟨O, d, sees, machine⟩ := hs.shade
  have bindings : t.reader.bindings.find? = hs.settled.setting.site :=
    (congrArg (fun s : Session => s.bindings.find?) hs.reader).symm
  have agrees : Marked.Agrees _ hs.settled.setting.programs O h.session.machine d _
      (Marked.interpret i hs.settled.setting.site fuel p) (interpret hs.settled.setting.site fuel p) :=
    Marked.interpret_agrees sees hp hs.scope
  have shadowed {P : Marked.Outline} {m' : Machine RefId} {d' : Marked.Shade}
      (later : Marked.Later (some h.session.machine.scope) hs.settled.setting.programs O
        h.session.machine P m' d') (settled : (h.running m').Settled) :
      (h.running m').Shadowed { t with machine := d'.over m' } :=
    ⟨settled, congrArg (fun s : Session => { s with machine := m' }) hs.reader, hs.programs,
      later.scope.trans hs.scope, P, d', later.sees, rfl⟩
  have site : hs.settled.setting.site = h.session.bindings.find? := rfl
  rw [snd_executing] at kept
  rw [History.executing, Marked.Session.executing, bindings, machine]
  rw [Marked.Agrees, site] at agrees
  rw [site]
  generalize interpret h.session.bindings.find? fuel p h.session.machine = r,
    Marked.interpret i h.session.bindings.find? fuel p (d.over h.session.machine) = r' at agrees kept
  cases agrees with
  | ok later _ => exact ⟨rfl, shadowed later kept⟩
  | error stop later => exact ⟨rfl, shadowed later kept⟩

theorem accept (source : String) {next : History → Program → Answer RefId × History}
    {next' : Marked.Session → Program → Answer RefId × Marked.Session}
    (hn : ∀ {h t p}, Shadowed h t → p ∈ h.programs → Matches (next h p) (next' t p)) :
    Matches (h.accept source next) (t.accept source next') := by
  have settled := hs.settled
  obtain ⟨O, d, sees, machine⟩ := hs.shade
  have programs := hs.programs
  have reader := hs.reader
  have scope := hs.scope
  obtain ⟨⟨machine, bindings, unused, nextId, warnings⟩, accepted⟩ := h
  obtain ⟨⟨machine', bindings', unused', nextId', warnings'⟩, shade, accepted'⟩ := t
  obtain ⟨rfl, rfl, rfl, rfl⟩ : bindings = bindings' ∧ unused = unused' ∧ nextId = nextId' ∧
      warnings = warnings' := by
    simpa using reader
  obtain rfl : accepted' = accepted := programs
  rw [History.accept, Marked.Session.accept, Session.compile_run]
  by_cases hr : Session.rejection unused source = []
  · rw [if_pos hr, if_pos hr]
    exact hn ⟨settled.accepting hr, rfl, rfl, scope, O, d,
      sees.mono (List.subset_append_left _ _), machine⟩ (mem_accepting _ source)
  · rw [if_neg hr, if_neg hr]
    exact ⟨rfl, settled.rejecting source, rfl, rfl, scope, O, d, sees, machine⟩

theorem perform (step : Step) : Matches (h.perform step) (t.perform i step) := by
  rw [perform_eq]
  cases step with
  | compile source =>
    rw [Marked.Session.perform]
    refine hs.accept source ?_
    exact fun hs _ => ⟨rfl, hs⟩
  | execute fuel number =>
    rw [Marked.Session.perform, hs.programs]
    dsimp only
    cases hp : h.programs[number]? with
    | none => exact ⟨rfl, hs⟩
    | some p => exact hs.executing i (List.mem_of_getElem? hp) fuel _
  | run fuel source =>
    rw [Marked.Session.perform]
    exact hs.accept source fun hs hp => hs.executing i hp fuel _
  | runLine fuel line =>
    rw [Marked.Session.perform]
    exact hs.accept _ fun hs hp => hs.executing i hp fuel _
  | takeWarnings =>
    exact ⟨rfl, hs.settled.takingWarnings,
      congrArg (fun s : Session => { s with warnings := [] }) hs.reader, hs.programs, hs.scope,
      hs.shade⟩

end Shadowed

theorem shadowed_start (host : Host) (unused : Severity) :
    (start host unused).Shadowed (.start host unused) where
  settled := settled_start host unused
  reader := rfl
  programs := rfl
  scope := rfl
  shade := Marked.sees_start host

theorem shadowed_performAll (i : Interference) (host : Host) (unused : Severity) (steps : List Step) :
    ((start host unused).performAll steps).Shadowed
      ((Marked.Session.start host unused).performAll i steps) := by
  have all {h : History} {t : Marked.Session} (hs : h.Shadowed t) :
      (h.performAll steps).Shadowed (t.performAll i steps) := by
    induction steps generalizing h t with
    | nil => exact hs
    | cons step steps ih => exact ih (hs.perform i step).shadowed
  exact all (shadowed_start host unused)

/-- Unused variables are never read. What is reported of an accepted program are the unused variables of
the scopes of its blocks and routines. The environments that are made for these scopes are marked with
their names; still every step answers the same, and leaves the same output and files, whatever is stored
under the marked names, and whatever a run would stop with that reads one of them. -/
theorem unused_never_read (host : Host) (unused : Severity) (steps : List Step) (step : Step)
    (i : Interference) :
    let h := (start host unused).performAll steps
    let t := (Marked.Session.start host unused).performAll i steps
    (∀ p ∈ h.programs, (resolve p).warnings .warning =
      (Stmt.scopesAll p).flatMap Scoping.Scope.unused) ∧
    (h.perform step).1 = (t.perform i step).1 ∧
    (h.perform step).2.session.machine.host = (t.perform i step).2.machine.machine.host := by
  intro h t
  have shadowed := shadowed_performAll i host unused steps
  have same := shadowed.perform i step
  exact ⟨fun p hp => warnings_resolve (shadowed.settled.faultless p hp).tidy, same.answer,
    same.shadowed.host.symm⟩

end History

end Lox
