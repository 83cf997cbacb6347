import Lox.Proofs.Receivers.Dispatch
import Lox.Proofs.Receivers.Session

/-!
Receivers. A method that is bound has its receiver in an environment of its own, which never changes. So
`this` is that receiver wherever code of the method runs, an initializer answers it, and what a class
answers is a new instance.
-/

namespace Lox

open Run Scoping

/-! What exists. -/

/-- The identity of the object that a value is, if it is one. -/
def Value.identity? {ρ κ : Type} : Value ρ κ → Option ObjectId
  | .function id _ | .lambda id _ _ | .instance id _ => some id
  | .class c => some c.id
  | _ => none

namespace Machine

variable {ps : List Program} {m n : Machine RefId} {v w : Value RefId EnvId}

/-- The value is there: it is no object, or one that has been made. -/
def Has (m : Machine RefId) (v : Value RefId EnvId) : Prop :=
  ∀ id, v.identity? = some id → id < m.objects.size

/-- What variables and fields have is there. -/
structure Filled (m : Machine RefId) : Prop where
  values : ∀ {e : EnvId} {env : Environment (Value RefId EnvId)} {x : String}
    {v : Value RefId EnvId}, m.environments.all[e]? = some env → (x, some v) ∈ env.entries → m.Has v
  fields : ∀ {id : ObjectId} {fields : Fields RefId EnvId} {x : String} {v : Value RefId EnvId},
    m.objects[id]? = some fields → (x, v) ∈ fields → m.Has v

/-- Environments with `this` have it as their only variable. They are the same in the second machine, and
no other environment gets it there. -/
structure Fixes (m n : Machine RefId) : Prop where
  alone : ∀ {e : EnvId} {env : Environment (Value RefId EnvId)},
    m.environments.all[e]? = some env → "this" ∈ env.names → ∃ r up, m.Receiver e r up
  kept : ∀ {e up : EnvId} {r : Value RefId EnvId}, m.Receiver e r up → n.Receiver e r up
  apart : ∀ {e : EnvId} {env : Environment (Value RefId EnvId)},
    m.environments.all[e]? = some env → "this" ∉ env.names →
      ∃ env', n.environments.all[e]? = some env' ∧ "this" ∉ env'.names

theorem Trusts.has (h : m.Trusts ps v) : m.Has v := by
  intro id hi
  cases h with
  | function f made | method made | lambda line made | «instance» made =>
    cases hi
    exact made
  | «class» rooted =>
    cases hi
    exact (rooted _ (.refl _)).2
  | _ => cases hi

theorem Sound.filled (h : m.Sound ps) : m.Filled :=
  ⟨fun he hx => (h.values he hx).has, fun hf hx => (h.fields hf hx).has⟩

theorem Sound.fixes (h : m.Sound ps) (grows : m.Grows n) : m.Fixes n where
  alone {e env} he this := by
    cases h.known he with
    | plain plain => exact absurd this plain.1
    | receiver r up => exact ⟨r, up, he⟩
    | above k up =>
      have same : "this" = "super" := List.mem_singleton.mp this
      exact absurd same (by decide)
  kept receiver := receiver.grow grows
  apart {e env} he other := by
    obtain ⟨env', he', _, rfl | ⟨_, plain⟩⟩ := grows.environments he
    · exact ⟨_, he', other⟩
    · exact ⟨env', he', plain.1⟩

/-- A new instance is none of the values that were there. -/
theorem Has.equals_new (h : m.Has v) (c : Class RefId EnvId) :
    (Value.instance m.objects.size c).equals v = false := by
  cases v with
  | «instance» id k =>
    have old := h id rfl
    exact beq_eq_false_iff_ne.mpr (Nat.ne_of_gt old)
  | _ => rfl

end Machine

/-! Calls that end well. -/

section Calls

variable {ρ α : Type} {m m' : Machine ρ} {line : Nat}

theorem Run.onLine_ok {p : Run ρ α} {a : α} (h : Run.onLine line p m = .ok a m') : p m = .ok a m' := by
  rw [Run.onLine] at h
  cases hp : p m with
  | ok b m₁ =>
    rw [hp] at h
    exact h
  | error stop m₁ =>
    rw [hp] at h
    cases stop <;> cases h

theorem checkArity_ok {expected : Nat} {vs : List (Value ρ EnvId)} {p : Run ρ α} {a : α}
    (h : (do checkArity expected vs line; p) m = .ok a m') : vs.length = expected ∧ p m = .ok a m' := by
  rw [checkArity] at h
  split at h
  · exact ⟨‹_›, h⟩
  · cases h

variable {exec : Stmt ρ → Run ρ (Outcome ρ EnvId)} {vs : List (Value ρ EnvId)} {w : Value ρ EnvId}

theorem defineAll_ok (e : EnvId) (names : List Lexeme) (vs : List (Value ρ EnvId)) (m : Machine ρ) :
    ∃ m', defineAll e names vs m = .ok () m' := by
  induction names generalizing vs m with
  | nil => exact ⟨m, rfl⟩
  | cons name names ih =>
    cases vs with
    | nil => exact ⟨m, rfl⟩
    | cons v vs => exact ih vs _

/-- What a class answers is the first object that is made. -/
theorem Class.instantiate_ok {c : Class ρ EnvId} (h : c.instantiate exec vs m = .ok w m') :
    w = .instance m.objects.size c := by
  obtain ⟨id, m₁, made, h⟩ := bind_ok h
  cases made
  cases hi : c.initializer? with
  | none =>
    simp only [hi] at h
    cases h
    rfl
  | some f =>
    simp only [hi] at h
    obtain ⟨g, m₂, _, h⟩ := bind_ok h
    obtain ⟨_, m₃, _, h⟩ := bind_ok h
    cases h
    rfl

theorem Class.call_ok {c : Class ρ EnvId} (h : (Value.class c).call exec vs line m = .ok w m') :
    vs.length = c.arity ∧ w = .instance m.objects.size c := by
  obtain ⟨arity, h⟩ := checkArity_ok h
  exact ⟨arity, instantiate_ok (onLine_ok h)⟩

end Calls

/-- The body of the routine begins in an environment where `this` has the value. -/
def Closure.Begins (k : Closure RefId EnvId) (arguments : List (Value RefId EnvId)) (m : Machine RefId)
    (r : Value RefId EnvId) : Prop :=
  ∃ e m₁ m₂, Run.nestIn k.scope m = .ok e m₁ ∧ defineAll e k.routine.params arguments m₁ = .ok () m₂ ∧
    m₂.This e k.scope r

namespace Machine

variable {ps : List Program} {m m' : Machine RefId} {r : Value RefId EnvId}

/-- A method that is called begins with its receiver. -/
theorem Trusts.begins {S : Setting} {id : ObjectId} {f : Function RefId EnvId} {up : EnvId}
    {vs : List (Value RefId EnvId)} (hf : m.Trusts S.programs (.function id f))
    (hs : m.Sound S.programs) (hv : ∀ v ∈ vs, m.Trusts S.programs v)
    (hr : m.Receiver f.closure.scope r up) : f.closure.Begins vs m r := by
  obtain ⟨p, member, context, Γ, kind, stands, _⟩ := hf.callable S.faultless hs
  have ordinary := (stands.params (S.faultless p member)).2
  have nested : Run.nestIn f.closure.scope m = .ok m.environments.fresh
    { m with environments := m.environments.nest f.closure.scope } := rfl
  obtain ⟨later₁, plain⟩ := (Receivers.nestIn_safe hs f.closure.scope).ok nested
  obtain ⟨m₂, defined⟩ := defineAll_ok m.environments.fresh f.closure.routine.params vs
    { m with environments := m.environments.nest f.closure.scope }
  obtain ⟨later₂, _⟩ := (Receivers.defineAll_safe later₁.sound plain ordinary
    (later₁.trustsAll hv)).ok defined
  exact ⟨_, _, _, nested, defined, .outside (plain.grow later₂.grows)
    (.here (hr.grow (later₁.grows.trans later₂.grows)))⟩

/-- The method of an instance that has the name of initializers is one. -/
theorem Rooted.initializer {c : Class RefId EnvId} (h : m.Rooted ps c) {f : Function RefId EnvId}
    (hf : c.initializer? = some f) : f.initializer = true := by
  obtain ⟨k, descends, mem, named⟩ := Class.findMethod?_some hf
  rw [(h k descends).1.initializer_of_method mem, named]
  exact beq_self_eq_true _

/-- An initializer is bound to an instance. -/
theorem Trusts.receiver {id : ObjectId} {f : Function RefId EnvId} (h : m.Trusts ps (.function id f))
    (hs : m.Sound ps) (hi : f.initializer = true) :
    ∃ i k up, m.Receiver f.closure.scope (.instance i k) up := by
  cases h with
  | function f made ordinary => exact nomatch hi.symm.trans ordinary
  | method made bound =>
    obtain ⟨i, k, rfl⟩ := bound.instance_of_initializer hs hi
    exact ⟨i, k, _, bound.receiver⟩

/-- An initializer answers its receiver. -/
theorem Receiver.initialized {S : Setting} {fuel line : Nat} {id : ObjectId} {f : Function RefId EnvId}
    {up : EnvId} {vs : List (Value RefId EnvId)} {w : Value RefId EnvId}
    (hr : m.Receiver f.closure.scope r up) (hs : m.Sound S.programs)
    (hf : m.Trusts S.programs (.function id f)) (hv : ∀ v ∈ vs, m.Trusts S.programs v)
    (hi : f.initializer = true)
    (h : (Value.function id f).call (exec S.site fuel) vs line m = .ok w m') : w = r := by
  obtain ⟨_, h⟩ := checkArity_ok h
  obtain ⟨v, m₁, body, h⟩ := bind_ok (onLine_ok h)
  have hx : S.ExecSafe (fun _ => {}) .outOfFuel fuel := (S.phrases_safe S.met_trivial _ fuel).1
  have callable := hf.callable S.faultless hs
  have later := ((Receivers.callClosure_safe S.met_trivial hx hs callable hv true).ok body).1
  have found := (hr.grow later.grows).getSlot
  rw [if_pos hi, get_bind] at h
  simp only [found] at h
  cases h
  rfl

end Machine

namespace History

/-- A call of a class ends with an error, or it answers a new instance of just this class, which is none
of the values that were there when the call began. -/
def Constructs (h : History) (callee : Expr RefId) (arguments : List (Expr RefId)) (line : Nat)
    (m : Machine RefId) : Prop :=
  ∀ fuel c m₁ w m', eval h.session.bindings.find? fuel callee m = .ok (.class c) m₁ →
    eval h.session.bindings.find? (fuel + 1) (.call callee arguments line) m = .ok w m' →
      ∃ vs m₂, evalAll (eval h.session.bindings.find? fuel) arguments m₁ = .ok vs m₂ ∧
        vs.length = c.arity ∧ w = .instance m₂.objects.size c ∧ m₂.Filled ∧
          (∀ v ∈ Value.class c :: vs, m₂.Has v) ∧ ∀ v, m₂.Has v → w.equals v = false

/-- A call of an initializer ends with an error, or it answers the instance that is its receiver. -/
def Initializes (h : History) (callee : Expr RefId) (arguments : List (Expr RefId)) (line : Nat)
    (m : Machine RefId) : Prop :=
  ∀ fuel id f m₁ w m', eval h.session.bindings.find? fuel callee m = .ok (.function id f) m₁ →
    f.initializer = true →
    eval h.session.bindings.find? (fuel + 1) (.call callee arguments line) m = .ok w m' →
      ∃ i k up, m₁.Receiver f.closure.scope (.instance i k) up ∧ w = .instance i k

/-- A call of a method begins where `this` is the receiver that the method has been bound to. -/
def Activates (h : History) (callee : Expr RefId) (arguments : List (Expr RefId))
    (m : Machine RefId) : Prop :=
  ∀ fuel id f m₁ vs m₂ r up, eval h.session.bindings.find? fuel callee m = .ok (.function id f) m₁ →
    evalAll (eval h.session.bindings.find? fuel) arguments m₁ = .ok vs m₂ →
    m₁.Receiver f.closure.scope r up → f.closure.Begins vs m₂ r

/-- The initializer of an instance, called under its name, answers the instance, if no field hides the
name. -/
def Reinitializes (h : History) (object : Expr RefId) (name : Lexeme)
    (arguments : List (Expr RefId)) (line : Nat) (m : Machine RefId) : Prop :=
  name.text = initializerName → ∀ fuel i k m₁ w m',
    eval h.session.bindings.find? fuel object m = .ok (.instance i k) m₁ →
    m₁.field? i name.text = none →
    eval h.session.bindings.find? (fuel + 2) (.call (.get object name) arguments line) m = .ok w m' →
      w = .instance i k

/-- What is found under a name is a field, or a method that is bound to the object. -/
def Attaches (h : History) (object : Expr RefId) (name : Lexeme) (m : Machine RefId) : Prop :=
  ∀ fuel v m₁ w m', eval h.session.bindings.find? fuel object m = .ok v m₁ →
    eval h.session.bindings.find? (fuel + 1) (.get object name) m = .ok w m' →
      (∃ id, v.fieldsOf? = some id ∧ m₁.field? id name.text = some w ∧ m' = m₁) ∨
        ∃ c, ((∃ id, v = .instance id c) ∨ v = .class c) ∧ c.Dispatches v name m₁ (.ok w m')

/-- What is expected of receivers, which stay the same up to the second machine. -/
def fixedReceivers (h : History) (n : Machine RefId) : Watch RefId where
  stmt _ m := m.Fixes n
  expr e m := m.Fixes n ∧
    (∀ fuel v m', eval h.session.bindings.find? fuel e m = .ok v m' →
      m.objects.size ≤ m'.objects.size ∧ m'.Has v) ∧
    match e with
    | .call callee arguments line => h.Activates callee arguments m ∧
      h.Constructs callee arguments line m ∧ h.Initializes callee arguments line m ∧
      ∀ object name, callee = .get object name → h.Reinitializes object name arguments line m
    | .get object name => h.Attaches object name m
    | _ => True
  access e m := match e with
    | .this id keyword => ∃ found r c f kind, m.This m.scope found r ∧ m.Binds found r c f ∧
      (Phrase.routine kind f.closure.routine).Encloses (.expr e) ∧
        Run.read (h.session.bindings.find? id) keyword m = .ok r m
    | _ => True

end History

theorem History.attaches (h : History) (object : Expr RefId) (name : Lexeme) (m : Machine RefId) :
    h.Attaches object name m := by
  intro fuel v m₁ w m' found ran
  obtain ⟨_, _, found', ran⟩ := bind_ok ran
  cases found'.symm.trans found
  exact getProperty_ok ran

namespace History.Settled

variable {h : History} (hs : h.Settled) {p : Program} {c : Context} {Γ : Names} {m : Machine RefId}

include hs

theorem activates {callee : Expr RefId} {arguments : List (Expr RefId)} {line : Nat}
    (hb : hs.setting.Ready p Γ m (.expr (.call callee arguments line)))
    (stands : Stands p c Γ (.expr (.call callee arguments line))) : h.Activates callee arguments m := by
  intro fuel id f m₁ vs m₂ r up called given receiver
  obtain ⟨later₁, hf, later₂, hvs⟩ := hb.callee_ok stands called given
  exact (later₂.trusts hf).begins later₂.sound hvs (receiver.grow later₂.grows)

theorem constructs {callee : Expr RefId} {arguments : List (Expr RefId)} {line : Nat}
    (hb : hs.setting.Ready p Γ m (.expr (.call callee arguments line)))
    (stands : Stands p c Γ (.expr (.call callee arguments line))) :
    h.Constructs callee arguments line m := by
  intro fuel k m₁ w m' called ran
  obtain ⟨v, _, vs, m₂, called', given, ran⟩ := Setting.call_ok ran
  cases called'.symm.trans called
  obtain ⟨_, hv, later, hvs⟩ := hb.callee_ok stands called given
  obtain ⟨arity, rfl⟩ := Class.call_ok ran
  refine ⟨vs, m₂, given, arity, rfl, later.sound.filled, ?_, fun v there => there.equals_new k⟩
  exact List.forall_mem_cons.mpr ⟨(later.trusts hv).has, fun v hm => (hvs v hm).has⟩

theorem initializes {callee : Expr RefId} {arguments : List (Expr RefId)} {line : Nat}
    (hb : hs.setting.Ready p Γ m (.expr (.call callee arguments line)))
    (stands : Stands p c Γ (.expr (.call callee arguments line))) :
    h.Initializes callee arguments line m := by
  intro fuel id f m₁ w m' called hi ran
  obtain ⟨v, _, vs, m₂, called', given, ran⟩ := Setting.call_ok ran
  cases called'.symm.trans called
  obtain ⟨later₁, hv, later, hvs⟩ := hb.callee_ok stands called given
  obtain ⟨i, k, up, receiver⟩ := hv.receiver later₁.sound hi
  exact ⟨i, k, up, receiver,
    (receiver.grow later.grows).initialized later.sound (later.trusts hv) hvs hi ran⟩

theorem reinitializes {object : Expr RefId} {name : Lexeme} {arguments : List (Expr RefId)}
    {line : Nat} (hb : hs.setting.Ready p Γ m (.expr (.call (.get object name) arguments line)))
    (stands : Stands p c Γ (.expr (.call (.get object name) arguments line))) :
    h.Reinitializes object name arguments line m := by
  intro named fuel i k m₁ w m' found unset ran
  obtain ⟨v, m₂, vs, m₃, called, given, ran⟩ := Setting.call_ok ran
  obtain ⟨_, hv, later, hvs⟩ := hb.callee_ok stands called given
  have hb' := hb.enter ⟨rfl, _, _, _, _, .callee {} {} (.get object name) arguments line⟩
  have stands' := (stands.call hb.faultless).1
  obtain ⟨later₁, instance_known⟩ := (hb'.enter ⟨rfl, _, _, _, _, .object {} {} object name⟩).eval_ok
    (stands'.get hb.faultless) found
  obtain ⟨_, _, found', called'⟩ := bind_ok called
  cases found'.symm.trans found
  obtain ⟨_, hi, set, _⟩ | ⟨l, ⟨_, same⟩ | same, dispatched⟩ := getProperty_ok called'
  · cases hi
    cases set.symm.trans unset
  · cases same
    cases dispatched with
    | @found f _ nearest receiver =>
      cases instance_known with
      | «instance» made rooted =>
        have initializer : f.initializer = true := by
          refine rooted.initializer ?_
          rw [Class.initializer?, Class.findMethod?_eq, ← named]
          exact nearest
        exact (receiver.grow later.grows).initialized later.sound (later.trusts hv) hvs initializer ran
  · cases same

theorem fixedReceivers_met : hs.setting.Met h.fixedReceivers where
  stmt hb _ grows := hb.sound.fixes grows
  expr {p c Γ m n e} hb stands grows := by
    refine ⟨hb.sound.fixes grows, fun fuel v m' ran => ?_, ?_⟩
    · obtain ⟨later, hv⟩ := hb.eval_ok stands ran
      exact ⟨later.grows.objects, hv.has⟩
    · cases e with
      | call callee arguments line =>
        refine ⟨hs.activates hb stands, hs.constructs hb stands, hs.initializes hb stands,
          fun object name same => ?_⟩
        subst same
        exact hs.reinitializes hb stands
      | get object name => exact h.attaches object name m
      | _ => trivial
  access {p c Γ m n e} hb stands grows := by
    cases e with
    | this id keyword => exact hb.this stands
    | _ => trivial
  body _ _ _ := trivial
  top _ _ := trivial

end History.Settled

/-- A method gets its receiver in a new environment. -/
theorem Function.bind_ok (f : Function RefId EnvId) (r : Value RefId EnvId) (m : Machine RefId) :
    ∃ m', f.bind r m = .ok (f.within m.environments.fresh) m' ∧
      m.environments.all[m.environments.fresh]? = none ∧
        m'.Receiver m.environments.fresh r f.closure.scope := by
  have environments := Environments.define_nest m.environments f.closure.scope "this" (some r)
  refine ⟨_, rfl, Array.getElem?_eq_none (Nat.le_refl _), ?_⟩
  exact (congrArg (·.all[m.environments.fresh]?) environments).trans Array.getElem?_push_size

namespace History

/-- Receivers are fixed. A method is bound in a new environment that has the receiver as its only
variable. In every run of an accepted program, whatever the steps before and after and however much fuel
it has: before each statement and each expression, the environments with `this` are of this kind, and
are the same to the end of the run and of all further steps. So `this` is the receiver of the method that
the code is in, at any depth; a method that is called begins with the receiver that it has been bound to;
a class answers a new instance of its own, or fails; and an initializer answers its receiver, or fails. -/
theorem receivers_fixed {h : History} (hr : h.Reachable) {p : Program} (hp : p ∈ h.programs) :
    (∀ (f : Function RefId EnvId) (r : Value RefId EnvId) (m : Machine RefId),
      ∃ m', f.bind r m = .ok (f.within m.environments.fresh) m' ∧
        m.environments.all[m.environments.fresh]? = none ∧
          m'.Receiver m.environments.fresh r f.closure.scope) ∧
    ∀ stop fuel steps,
      (h.fixedReceivers (h.after fuel p steps).session.machine).interpret stop
          h.session.bindings.find? fuel p h.session.machine =
        interpret h.session.bindings.find? fuel p h.session.machine :=
  ⟨Function.bind_ok, fun stop fuel steps =>
    hr.observed hr.settled.fixedReceivers_met hp stop fuel steps⟩

/-- The same where an initializer from a class above returns out of a loop and is called again, and a
function in it is kept in a field. -/
theorem receivers_fixed_in_initializer :
    ∃ h p m v, h = ((start {} .warning).perform (.compile
        "class A { init(x) { fun f() { return this; } this.f = f; while (true) { this.x = x; return; } } }
         class B < A {} var b = B(true); print b.init(false) == b; print b.f() == b; print b.x;")).2 ∧
      h.Reachable ∧ h.programs = [p] ∧
      interpret h.session.bindings.find? 30 p h.session.machine = .ok v m ∧
      m.host.console.output.toList = Text.Utf8.encode "true\ntrue\nfalse\n" ∧
      ∀ stop fuel steps,
        (h.fixedReceivers (h.after fuel p steps).session.machine).interpret stop
            h.session.bindings.find? fuel p h.session.machine =
          interpret h.session.bindings.find? fuel p h.session.machine := by
  obtain ⟨h, hh⟩ : ∃ h, h = ((start {} .warning).perform (.compile
    "class A { init(x) { fun f() { return this; } this.f = f; while (true) { this.x = x; return; } } }
         class B < A {} var b = B(true); print b.init(false) == b; print b.f() == b; print b.x;")).2 :=
    ⟨_, rfl⟩
  have hr : h.Reachable := hh ▸ (reachable_start {} .warning).perform _
  have ⟨accepted, printed⟩ :
      h.programs.length = 1 ∧ h.printed? 30 = some (Text.Utf8.encode "true\ntrue\nfalse\n") := by
    rw [hh]
    decide +kernel
  obtain ⟨p, v, m, hp, ran, output⟩ := exists_of_printed? printed accepted
  exact ⟨h, p, m, v, hh, hr, hp, ran, output, (receivers_fixed hr (hp ▸ List.mem_singleton_self p)).2⟩

end History

end Lox
