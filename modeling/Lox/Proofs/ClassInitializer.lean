import Lox.Proofs.Receivers.Session

/-!
Class methods that have the name of initializers. No property of a class leads to one, as looking for it
is an error. A method above can be one, so a class method that calls for it there gets at it; this is the
only way.
-/

namespace Lox

open Run Scoping

/-- The value is a class method, bound to its class, under the name of initializers. -/
def Machine.ClassInitializer (m : Machine RefId) (v : Value RefId EnvId) : Prop :=
  ∃ id f k up, v = .function id f ∧ f.name = initializerName ∧
    m.Receiver f.closure.scope (.class k) up

/-- Does the value have a class in the environment around it, and the name of initializers? -/
def Machine.isClassInitializer (m : Machine RefId) (v : Value RefId EnvId) : Bool :=
  match v with
  | .function _ f => f.name == initializerName && match m.environments.all[f.closure.scope]? with
    | some ⟨[(name, some (.class _))], some _⟩ => name == "this"
    | _ => false
  | _ => false

theorem Machine.of_isClassInitializer {m : Machine RefId} {v : Value RefId EnvId}
    (h : m.isClassInitializer v = true) : m.ClassInitializer v := by
  cases v with
  | function id f =>
    simp only [isClassInitializer, Bool.and_eq_true, beq_iff_eq] at h
    obtain ⟨named, receiver⟩ := h
    split at receiver
    · next name k up around =>
      rw [beq_iff_eq.mp receiver] at around
      exact ⟨id, f, k, up, rfl, named, around⟩
    · cases receiver
  | _ => cases h

/-- A class method under this name comes from a class method that calls for it above. -/
theorem Machine.Trusts.namesInitializerAbove {ps : List Program} {m : Machine RefId}
    {v : Value RefId EnvId} (hs : m.Sound ps) (hv : m.Trusts ps v) (h : m.ClassInitializer v) :
    NamesInitializerAbove ps := by
  obtain ⟨id, f, k, up, rfl, named, receiver⟩ := h
  cases hv with
  | function f made ordinary owned =>
    obtain ⟨p, member, context, Γ, kind, stands, lodged⟩ := owned
    obtain ⟨link, plain⟩ := lodged.plain hs.global
    exact absurd plain receiver.not_plain
  | @method id g e r c made bound above =>
    exact above k (bound.receiver.unique receiver) named

/-- Looking for this name in a class is an error. -/
theorem Value.getProperty_initializer {ρ : Type} (c : Class ρ EnvId) {name : Lexeme}
    (named : name.text = initializerName) (m : Machine ρ) :
    (Value.class c).getProperty name m = .error (.error ⟨.initOnClass, some name.line⟩) m := by
  rw [Value.getProperty, if_pos named]
  rfl

namespace History

/-- What is expected of class methods under the name of initializers: no expression answers one, unless
a class method of an accepted program calls for one above; and a property of a class with this name is an
error at it. -/
def classInitializers (h : History) : Watch RefId where
  expr e m :=
    (∀ fuel v m', eval h.session.bindings.find? fuel e m = .ok v m' → m'.ClassInitializer v →
      NamesInitializerAbove h.programs) ∧
    match e with
    | .get object name => name.text = initializerName → ∀ fuel k m',
      eval h.session.bindings.find? fuel object m = .ok (.class k) m' →
        eval h.session.bindings.find? (fuel + 1) (.get object name) m =
          .error (.error ⟨.initOnClass, some name.line⟩) m'
    | _ => True

variable {h : History}

theorem Settled.classInitializers_met (hs : h.Settled) :
    hs.setting.Met fun _ => h.classInitializers where
  stmt _ _ _ := trivial
  expr {p c Γ m n e} hb stands grows := by
    refine ⟨fun fuel v m' ran initializer => ?_, ?_⟩
    · obtain ⟨later, hv⟩ := hb.eval_ok stands ran
      exact hv.namesInitializerAbove later.sound initializer
    · cases e with
      | get object name =>
        intro named fuel k m' ran
        exact (bind_of_ok ran).trans (Value.getProperty_initializer k named m')
      | _ => trivial
  access _ _ _ := trivial
  body _ _ _ := trivial
  top _ _ := trivial

/-- In every run of an accepted program, whatever the steps before and however much fuel it has: where
no class method of the accepted programs has a call for a method above under the name of initializers
inside, no expression answers a class method of that name, so none is called. And looking for one in a
class, its own or one below, is always an error. -/
theorem class_initializers_unreachable (hr : h.Reachable) {p : Program} (hp : p ∈ h.programs)
    (stop : Stop) (fuel : Nat) :
    h.classInitializers.interpret stop h.session.bindings.find? fuel p h.session.machine =
      interpret h.session.bindings.find? fuel p h.session.machine :=
  hr.observed hr.settled.classInitializers_met hp stop fuel []

/-- The same where a class method looks for one in its own class, which has it from the class above. -/
theorem class_initializers_unreachable_below :
    ∃ h p e m, h = ((start {} .warning).perform (.compile
        "class A { class init() { print true; } }
         class B < A { class make() { B.init(); } }
         B.make();")).2 ∧
      h.Reachable ∧ h.programs = [p] ∧
      interpret h.session.bindings.find? 30 p h.session.machine = .error (.error e) m ∧
      e.message = "'init' not allowed on classes.\n[line 2]" ∧
      ∀ stop fuel, h.classInitializers.interpret stop h.session.bindings.find? fuel p h.session.machine =
        interpret h.session.bindings.find? fuel p h.session.machine := by
  obtain ⟨h, hh⟩ : ∃ h, h = ((start {} .warning).perform (.compile
    "class A { class init() { print true; } }
         class B < A { class make() { B.init(); } }
         B.make();")).2 := ⟨_, rfl⟩
  have hr : h.Reachable := hh ▸ (reachable_start {} .warning).perform _
  have ⟨accepted, message⟩ : h.programs.length = 1 ∧ (h.programs.head?.bind fun p =>
      (Run.failure? (interpret h.session.bindings.find? 30 p) h.session.machine).map (·.1.message)) =
        some "'init' not allowed on classes.\n[line 2]" := by
    rw [hh]
    decide +kernel
  obtain ⟨p, hp⟩ := List.length_eq_one_iff.mp accepted
  rw [hp, List.head?_cons, Option.bind_some] at message
  obtain ⟨⟨e, m⟩, failure, message⟩ := Option.map_eq_some_iff.mp message
  exact ⟨h, p, e, m, hh, hr, hp, Run.of_failure? failure, message,
    class_initializers_unreachable hr (hp ▸ List.mem_singleton_self p)⟩

/-- A class method above of this name is found, and runs. -/
theorem class_initializer_runs_above :
    ∃ h p v m, h = ((start {} .warning).perform (.compile
        "class A { class init() { print true; } }
         class B < A { class make() { super.init(); return super.init; } }
         B.make();")).2 ∧
      h.Reachable ∧ h.programs = [p] ∧
      interpret h.session.bindings.find? 30 p h.session.machine = .ok v m ∧
      m.host.console.output.toList = Text.Utf8.encode "true\n" ∧ m.ClassInitializer v := by
  obtain ⟨h, hh⟩ : ∃ h, h = ((start {} .warning).perform (.compile
    "class A { class init() { print true; } }
         class B < A { class make() { super.init(); return super.init; } }
         B.make();")).2 := ⟨_, rfl⟩
  have hr : h.Reachable := hh ▸ (reachable_start {} .warning).perform _
  have ⟨accepted, printed, answered⟩ : h.programs.length = 1 ∧
      h.printed? 30 = some (Text.Utf8.encode "true\n") ∧
      (h.programs.head?.bind fun p =>
        (Run.answer? (interpret h.session.bindings.find? 30 p) h.session.machine).map fun x =>
          x.2.isClassInitializer x.1) = some true := by
    rw [hh]
    decide +kernel
  obtain ⟨p, v, m, hp, ran, output⟩ := exists_of_printed? printed accepted
  rw [hp, List.head?_cons, Option.bind_some, Run.answer?, ran] at answered
  exact ⟨h, p, v, m, hh, hr, hp, ran, output,
    Machine.of_isClassInitializer (Option.some.inj answered)⟩

end History

end Lox
