import Lox.Proofs.Session.Faultless

/-!
Sessions under lexical scoping. Such a session accepts the same texts, and each run in it prints the
same, answers the same and fails in the same way as the run by the evaluator, which finds variables
where scoping says they are.
-/

namespace Lox

/-- What a step shows. Values are seen as text. -/
inductive Reply where
  | accepted
  | value (text : String)
  | line (text : Option String)
  | failure (f : Failure)
  | nothing

def Answer.reply {ρ : Type} : Answer ρ → Reply
  | .program _ => .accepted
  | .value v => .value v.display
  | .line v => .line (v.map Value.display)
  | .failure f => .failure f
  | .nothing => .nothing

namespace Lexical

/-- A session in which programs run under lexical scoping. Another one reads and accepts the texts for
it, and runs none. -/
structure Session where
  reader : Lox.Session
  store : Store RefId
  programs : List Program := []

namespace Session

def start (host : Host) (unused : Severity) : Session where
  reader := .start host unused
  store := .start host

def executing (t : Session) (fuel : Nat) (p : Program) (reply : Value RefId Locals → Reply) :
    Reply × Session :=
  match interpret fuel p t.store with
  | .ok v store => (reply v, { t with store })
  | .error stop store => (.failure (.stopped stop), { t with store })

/-- Goes on with the program of a text, unless the text is rejected. -/
def accept (t : Session) (source : String) (next : Session → Program → Reply × Session) :
    Reply × Session :=
  match Lox.Session.compile source t.reader with
  | .ok p reader => next { t with reader, programs := t.programs ++ [p] } p
  | .error f reader => (.failure f, { t with reader })

/-- What a line from the prompt shows. -/
def echo (line : String) (p : Program) (v : Value RefId Locals) : Option String :=
  if !Lox.Session.isClosed line && Lox.Session.isExpression p then some v.display else none

def perform (t : Session) : Step → Reply × Session
  | .compile source => t.accept source fun t _ => (.accepted, t)
  | .execute fuel number =>
    match t.programs[number]? with
    | some p => t.executing fuel p fun v => .value v.display
    | none => (.nothing, t)
  | .run fuel source => t.accept source fun t p => t.executing fuel p fun v => .value v.display
  | .runLine fuel line =>
    t.accept (Lox.Session.completed (Text.trimEnd line)) fun t p =>
      t.executing fuel p fun v => .line (echo (Text.trimEnd line) p v)
  | .takeWarnings => (.nothing, { t with reader := (Lox.Session.takeWarnings t.reader).2 })

def performAll (t : Session) (steps : List Step) : Session :=
  steps.foldl (fun t step => (t.perform step).2) t

end Session

end Lexical

namespace World

/-- Programs are added. -/
theorem Sees.withPrograms {W : World} {m : Machine RefId} {s : Lexical.Store RefId} (h : W.Sees m s)
    (ps : List Program) : World.Sees { W with programs := W.programs ++ ps } m s := by
  have grows : W.Extends { W with programs := W.programs ++ ps } :=
    ⟨fun he => ⟨[], by rw [List.append_nil, he]⟩, List.prefix_rfl, List.subset_append_left _ _⟩
  obtain ⟨env, he, hl, hs⟩ := h.globals
  exact ⟨h.outline, ⟨env, he, hl, hs.imp fun _ _ => .extend grows⟩, h.cells, h.places,
    fun hp => (h.held hp).extend grows, h.objects.imp fun _ _ hf => hf.imp fun _ _ => .extend grows,
    h.host⟩

/-- At the start of a session there are no cells, and the natives are the globals on both sides. -/
theorem sees_start (host : Host) :
    ∃ W : World, W.programs = [] ∧ W.Sees (.start host) (.start host) := by
  have natives (ns : List Native) {W : World} {environments : Environments (Value RefId EnvId)}
      {globals : Environment (Value RefId Lexical.Locals)} (hp : W.programs = [])
      (h : W.Sees { environments, host } { globals, host }) :
      ∃ V : World, V.programs = [] ∧ V.Sees
        { environments := ns.foldl (fun s n => s.define .global n.name (some (.native n))) environments
          host }
        { globals := ns.foldl (fun s n => s.define n.name (some (.native n))) globals, host } := by
    induction ns generalizing W environments globals with
    | nil => exact ⟨W, hp, h⟩
    | cons n ns ih =>
      have value : Option.Rel W.Values (some (.native n)) (some (.native n)) := .some (.native n)
      have programs : (W.declared .global n.name).programs = [] := hp
      exact ih programs (h.defineGlobal n.name value)
  have empty : World.Sees ⟨[(none, [])], [], []⟩ { host } { host } :=
    ⟨rfl, ⟨{}, rfl, rfl, .nil⟩, rfl, .nil, nofun, .nil, rfl⟩
  exact natives Native.all rfl empty

end World

namespace History

/-- The sessions have come the same way: the same texts were accepted, and a world sees the same in
what their programs have left. -/
structure Beside (h : History) (t : Lexical.Session) : Prop where
  settled : h.Settled
  reader : h.session = { t.reader with machine := h.session.machine }
  programs : t.programs = h.programs
  scope : h.session.machine.scope = .global
  world : ∃ W : World, W.programs = h.programs ∧ W.Sees h.session.machine t.store

/-- Both sessions show the same and go on beside each other. -/
structure Shows (r : Answer RefId × History) (r' : Reply × Lexical.Session) : Prop where
  reply : r.1.reply = r'.1
  beside : r.2.Beside r'.2

namespace Beside

variable {h : History} {t : Lexical.Session} (hb : h.Beside t)

include hb

theorem host : h.session.machine.host = t.store.host := by
  obtain ⟨W, _, sees⟩ := hb.world
  exact sees.host.symm

theorem executing {p : Program} (hp : p ∈ h.programs) (fuel : Nat)
    {answer : Value RefId EnvId → Answer RefId} {reply : Value RefId Lexical.Locals → Reply}
    (ha : ∀ v v', v'.display = v.display → (answer v).reply = reply v') :
    Shows (h.executing fuel p answer) (t.executing fuel p reply) := by
  have kept := hb.settled.executing hp fuel answer
  obtain ⟨W, programs, sees⟩ := hb.world
  have before : hb.settled.setting.Before W p [] h.session.machine t.store [] :=
    ⟨sees, programs, hp, hb.scope ▸ .top⟩
  have fulfilled : hb.settled.setting.Fulfilled {} :=
    ⟨fun _ _ => trivial, fun _ _ => trivial, fun _ _ => trivial, fun _ _ => trivial, trivial⟩
  have agrees : World.Agrees _ _ _ _ World.Values
      (Watch.interpret {} .outOfFuel hb.settled.setting.site fuel p) _ _ :=
    World.interpret_agrees fulfilled before
  have ends := agrees.ends
  have site : hb.settled.setting.site = h.session.bindings.find? := rfl
  have beside {V : World} {machine : Machine RefId} {store : Lexical.Store RefId}
      (later : World.Later (some h.session.machine.scope) W h.session.machine V machine store)
      (settled : (h.running machine).Settled) : (h.running machine).Beside { t with store } :=
    ⟨settled, congrArg (fun s : Session => { s with machine }) hb.reader, hb.programs,
      later.scope.trans hb.scope, V, later.grows.same.trans programs, later.sees⟩
  rw [site] at ends
  rw [snd_executing] at kept
  rw [History.executing, Lexical.Session.executing]
  generalize interpret h.session.bindings.find? fuel p h.session.machine = r,
    Lexical.interpret fuel p t.store = r' at ends kept
  cases ends with
  | ok later hv => exact ⟨ha _ _ hv.display, beside later kept⟩
  | error stop later => exact ⟨rfl, beside later kept⟩

theorem accept (source : String) {next : History → Program → Answer RefId × History}
    {next' : Lexical.Session → Program → Reply × Lexical.Session}
    (hn : ∀ {h t p}, Beside h t → p ∈ h.programs → Shows (next h p) (next' t p)) :
    Shows (h.accept source next) (t.accept source next') := by
  have settled := hb.settled
  obtain ⟨W, programs, sees⟩ := hb.world
  obtain ⟨⟨machine, bindings, unused, nextId, warnings⟩, accepted⟩ := h
  obtain ⟨⟨machine', bindings', unused', nextId', warnings'⟩, store, accepted'⟩ := t
  obtain ⟨rfl, rfl, rfl, rfl⟩ : bindings = bindings' ∧ unused = unused' ∧ nextId = nextId' ∧
      warnings = warnings' := by
    simpa using hb.reader
  obtain rfl : accepted' = accepted := hb.programs
  rw [History.accept, Lexical.Session.accept, Session.compile_run]
  by_cases hr : Session.rejection unused source = []
  · rw [if_pos hr, if_pos hr]
    refine hn ⟨settled.accepting hr, rfl, rfl, hb.scope, _, ?_, sees.withPrograms
      [Session.program source nextId]⟩ (mem_accepting _ source)
    rw [programs]
    rfl
  · rw [if_neg hr, if_neg hr]
    exact ⟨rfl, settled.rejecting source, rfl, rfl, hb.scope, W, programs, sees⟩

theorem perform (step : Step) : Shows (h.perform step) (t.perform step) := by
  rw [perform_eq]
  cases step with
  | compile source =>
    rw [Lexical.Session.perform]
    refine hb.accept source ?_
    exact fun hb _ => ⟨rfl, hb⟩
  | execute fuel number =>
    rw [Lexical.Session.perform, hb.programs]
    dsimp only
    cases hp : h.programs[number]? with
    | none => exact ⟨rfl, hb⟩
    | some p =>
      refine hb.executing (List.mem_of_getElem? hp) fuel ?_
      exact fun v v' hd => congrArg Reply.value hd.symm
  | run fuel source =>
    rw [Lexical.Session.perform]
    refine hb.accept source fun hb hp => hb.executing hp fuel ?_
    exact fun v v' hd => congrArg Reply.value hd.symm
  | runLine fuel line =>
    rw [Lexical.Session.perform]
    refine hb.accept _ fun hb hp => hb.executing hp fuel ?_
    intro v v' hd
    refine congrArg Reply.line ?_
    simp only [History.echo, Lexical.Session.echo]
    split
    · exact congrArg some hd.symm
    · rfl
  | takeWarnings =>
    exact ⟨rfl, hb.settled.takingWarnings,
      congrArg (fun s : Session => { s with warnings := [] }) hb.reader, hb.programs, hb.scope,
      hb.world⟩

end Beside

theorem beside_start (host : Host) (unused : Severity) :
    (start host unused).Beside (.start host unused) where
  settled := settled_start host unused
  reader := rfl
  programs := rfl
  scope := rfl
  world := World.sees_start host

theorem beside_performAll (host : Host) (unused : Severity) (steps : List Step) :
    ((start host unused).performAll steps).Beside
      ((Lexical.Session.start host unused).performAll steps) := by
  have all {h : History} {t : Lexical.Session} (hb : h.Beside t) :
      (h.performAll steps).Beside (t.performAll steps) := by
    induction steps generalizing h t with
    | nil => exact hb
    | cons step steps ih => exact ih (hb.perform step).beside
  exact all (beside_start host unused)

theorem Reachable.beside {h : History} (hr : h.Reachable) : ∃ t, h.Beside t := by
  obtain ⟨host, unused, steps, rfl⟩ := hr
  exact ⟨_, beside_performAll host unused steps⟩

/-- A watched run of an accepted program is the run itself, if what is expected holds wherever phrases
of such programs run. -/
theorem Reachable.watched {h : History} (hr : h.Reachable) {w : Watch RefId}
    (hw : hr.settled.setting.Fulfilled w) {p : Program} (hp : p ∈ h.programs) (stop : Stop)
    (fuel : Nat) :
    w.interpret stop h.session.bindings.find? fuel p h.session.machine =
      interpret h.session.bindings.find? fuel p h.session.machine := by
  obtain ⟨t, hb⟩ := hr.beside
  obtain ⟨W, programs, sees⟩ := hb.world
  have before : hr.settled.setting.Before W p [] h.session.machine t.store [] :=
    ⟨sees, programs, hp, hb.scope ▸ .top⟩
  exact (World.interpret_agrees hw before).same

/-- Lexical scoping. Whatever the steps before, a step shows the same where its program finds variables
through environments, at the distances and slots of scoping, as where every place sees a list of names
and cells and declarations are new cells in it: the same value as text or the same error on the same
line, and the same output, files and rest of the input. -/
theorem runs_under_lexical_scoping (host : Host) (unused : Severity) (steps : List Step) (step : Step) :
    let h := (start host unused).performAll steps
    let t := (Lexical.Session.start host unused).performAll steps
    (h.perform step).1.reply = (t.perform step).1 ∧
      (h.perform step).2.session.machine.host = (t.perform step).2.store.host := by
  intro h t
  have shows := (beside_performAll host unused steps).perform step
  exact ⟨shows.reply, shows.beside.host⟩

end History

end Lox
