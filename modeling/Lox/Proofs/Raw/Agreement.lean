import Lox.Proofs.Raw.Evaluator

/-!
No run panics. The evaluator as it can panic does on the tables of environments what the evaluator does
on environments: it ends in the same way and leaves their tables. So it never panics.
-/

namespace Lox

variable {ρ α β : Type}

/-- The machine with the tables of its environments. -/
def Machine.tabled (m : Machine ρ) : Raw.Machine ρ :=
  ⟨m.environments.tables, m.scope, m.objects, m.host⟩

namespace Environments

variable {s : Environments α} {e : EnvId}

theorem length_le_of_not_hasSlot {slot : Nat} {env : Environment α}
    (h : ¬ s.hasSlot e slot = true) (he : s.all[e]? = some env) : env.entries.length ≤ slot := by
  rw [hasSlot, he] at h
  exact Nat.le_of_not_lt fun hl => h (decide_eq_true hl)

theorem getSlot_of_not_hasSlot {slot : Nat} (h : ¬ s.hasSlot e slot = true) :
    s.getSlot e slot = .missing := by
  rw [getSlot]
  cases he : s.all[e]? with
  | none => rfl
  | some env =>
    change env.getSlot slot = .missing
    rw [Environment.getSlot, List.getElem?_eq_none (length_le_of_not_hasSlot h he)]

theorem put_of_not_hasSlot {slot : Nat} (h : ¬ s.hasSlot e slot = true) (a : α) :
    s.put e slot a = s := by
  suffices h : (s.put e slot a).all = s.all from congrArg Environments.mk h
  apply Array.ext_getElem?
  intro i
  rw [all_put]
  split
  · rename_i hi
    subst hi
    cases he : s.all[e]? with
    | none => rfl
    | some env =>
      rw [Option.map_some, Environment.putSlot,
        List.modify_eq_self (length_le_of_not_hasSlot h he)]
  · rfl

theorem tables_ancestor? (m : Machine ρ) (e : EnvId) (distance : Nat) :
    m.tabled.ancestor? e distance = m.environments.ancestor? e distance := by
  induction distance generalizing e with
  | zero => rfl
  | succ distance ih =>
    have up : m.tabled.environments[e]?.bind (·.enclosing) =
        m.environments.all[e]?.bind (·.enclosing) := by
      rw [show m.tabled.environments[e]? = _ from m.environments.getElem?_tables e]
      cases m.environments.all[e]? <;> rfl
    rw [Raw.Machine.ancestor?, ancestor?, up]
    exact congrArg _ (funext ih)

end Environments

namespace Raw

/-- How a run ends, seen with the tables of environments. -/
def tabled : EStateM.Result Stop (Lox.Machine ρ) α → EStateM.Result Halt (Machine ρ) α
  | .ok a m => .ok a m.tabled
  | .error s m => .error (.stop s) m.tabled

/-- The second one does on tables what the first one does on environments. -/
def Agrees (p : Lox.Run ρ α) (q : Run ρ α) : Prop := ∀ m, q m.tabled = tabled (p m)

namespace Agrees

variable {p : Lox.Run ρ α} {q : Run ρ α} {k : α → Lox.Run ρ β} {l : α → Run ρ β}

theorem pure (a : α) : Agrees (ρ := ρ) (Pure.pure a) (Pure.pure a) := fun _ => rfl

theorem bind (hp : Agrees p q) (hk : ∀ a, Agrees (k a) (l a)) : Agrees (p >>= k) (q >>= l) := by
  intro m
  simp only [Bind.bind, EStateM.bind, hp m]
  cases p m with
  | ok a m' => exact hk a m'
  | error s m' => rfl

theorem map (f : α → β) (hp : Agrees p q) : Agrees (f <$> p) (f <$> q) := by
  intro m
  simp only [Functor.map, EStateM.map, hp m]
  cases p m <;> rfl

theorem get {k : Lox.Machine ρ → Lox.Run ρ β} {l : Machine ρ → Run ρ β}
    (hk : ∀ m, Agrees (k m) (l m.tabled)) : Agrees (MonadState.get >>= k) (MonadState.get >>= l) :=
  fun m => hk m m

theorem raise (fault : RuntimeFault) (line : Nat) :
    Agrees (Lox.Run.raise fault line : Lox.Run ρ α) (Raw.raise fault line) := fun _ => rfl

theorem ofExcept (x : Except RuntimeError α) :
    Agrees (ρ := ρ) (Lox.Run.ofExcept x) (ofExcept? (some x)) := by
  cases x <;> exact fun _ => rfl

theorem newObject : Agrees (ρ := ρ) Lox.Run.newObject Raw.newObject := fun _ => rfl

theorem setField (id : ObjectId) (name : String) (v : Value ρ EnvId) :
    Agrees (Lox.Run.setField id name v) (Raw.setField id name v) := fun _ => rfl

theorem write (text : String) : Agrees (ρ := ρ) (Lox.Run.write text) (Raw.write text) := by
  rintro ⟨environments, scope, objects, ⟨console, files, clock, explored⟩⟩
  simp only [Raw.write, apart, Machine.tabled, Lox.Run.write]
  rcases console.write (Text.Utf8.encode text) with ⟨_ | _, console⟩ <;> rfl

theorem flush : Agrees (ρ := ρ) Lox.Run.flush Raw.flush := by
  intro m
  have run (m : Lox.Machine ρ) : Lox.Run.flush m = if m.host.console.flushFails then
      .error (.error ⟨.output .flushFailed, none⟩) m else .ok () m := by
    change (if m.host.console.flushFails then throw _ else Pure.pure () : Lox.Run ρ Unit) m = _
    split <;> rfl
  simp only [Raw.flush, apart, Machine.tabled, run]
  cases m.host.console.flushFails <;> rfl

theorem inScope (e : EnvId) (hp : Agrees p q) :
    Agrees (Lox.Run.inScope e p) (Raw.inScope e q) := by
  intro m
  have h : q { m.tabled with scope := e } = tabled (p { m with scope := e }) :=
    hp { m with scope := e }
  simp only [Raw.inScope, Lox.Run.inScope, h]
  cases p { m with scope := e } <;> rfl

theorem onLine (line : Nat) (hp : Agrees p q) :
    Agrees (Lox.Run.onLine line p) (Raw.onLine line q) := by
  intro m
  simp only [Raw.onLine, Lox.Run.onLine, hp m]
  cases p m with
  | ok a m' => rfl
  | error s m' => cases s <;> rfl

theorem nestIn (e : EnvId) : Agrees (ρ := ρ) (Lox.Run.nestIn e) (Raw.nestIn e) := by
  intro m
  have fresh : m.environments.tables.size = m.environments.fresh := Array.size_map
  change EStateM.Result.ok m.environments.tables.size
    (⟨m.environments.tables.push { enclosing := some e }, _, _, _⟩ : Machine ρ) = _
  rw [fresh, ← m.environments.tables_nest]
  rfl

theorem nest : Agrees (ρ := ρ) Lox.Run.nest Raw.nest := get fun m => nestIn m.scope

section Tables

variable {m : Lox.Machine ρ} {e : EnvId} {default : α}
  {f : Tables (Value ρ EnvId) → Option (α × Tables (Value ρ EnvId))}

theorem onTables_of_none (h : m.environments.all[e]? = none) :
    onTables e default f m.tabled = .ok default m.tabled := by
  have tables : m.tabled.environments[e]? = none := by
    rw [show m.tabled.environments[e]? = _ from m.environments.getElem?_tables e, h]
    rfl
  rw [onTables, tables]

theorem onTables_of_some {env : Environment (Value ρ EnvId)} {a : α}
    {t : Tables (Value ρ EnvId)} (h : m.environments.all[e]? = some env)
    (hf : f env.tables = some (a, t)) :
    onTables e default f m.tabled =
      .ok a { m.tabled with environments := m.environments.tables.setIfInBounds e t } := by
  have tables : m.tabled.environments[e]? = some env.tables := by
    rw [show m.tabled.environments[e]? = _ from m.environments.getElem?_tables e, h]
    rfl
  rw [onTables, tables]
  simp only [hf]
  rfl

end Tables

/-- A declaration answers the slot of the name. -/
theorem declareIn_tabled (e : EnvId) (name : String) (v : Option (Value ρ EnvId))
    (m : Lox.Machine ρ) : declareIn e name v m.tabled =
      .ok (m.environments.slotFor e name)
        ({ m with environments := m.environments.define e name v } : Lox.Machine ρ).tabled := by
  cases h : m.environments.all[e]? with
  | none =>
    rw [declareIn, onTables_of_none h, Machine.tabled, Machine.tabled, Environments.define,
      Environments.tables_modify_of_none h, Environments.slotFor, h]
    rfl
  | some env =>
    rw [declareIn, onTables_of_some h (env.define?_tables name v), Machine.tabled, Machine.tabled,
      Environments.define, Environments.tables_modify h, Environments.slotFor, h]
    rfl

theorem define (e : EnvId) (name : String) (v : Option (Value ρ EnvId)) :
    Agrees (Lox.Run.define e name v) (Raw.define e name v) := by
  intro m
  have run := declareIn_tabled e name v m
  simp only [Raw.define, Bind.bind, EStateM.bind, run]
  rfl

theorem declare (name : String) :
    Agrees (ρ := ρ) (Lox.Run.declare name) (Raw.declare name) :=
  fun m => declareIn_tabled m.scope name none m

/-- A value is stored in a slot that is there, and in no other. -/
theorem put_tabled (e : EnvId) (slot : Nat) (v : Value ρ EnvId) (m : Lox.Machine ρ) :
    Raw.put e slot v m.tabled = if m.environments.hasSlot e slot then
        .ok true ({ m with environments := m.environments.put e slot v } : Lox.Machine ρ).tabled
      else .ok false m.tabled := by
  cases h : m.environments.all[e]? with
  | none =>
    rw [Raw.put, onTables_of_none h, Environments.hasSlot, h]
    rfl
  | some env =>
    have slots : m.environments.hasSlot e slot = env.hasSlot slot := by
      rw [Environments.hasSlot, h]
      rfl
    rw [slots]
    have set := env.setSlot_tables slot v
    by_cases hs : env.hasSlot slot
    · rw [if_pos hs] at set
      rw [if_pos hs, Raw.put, onTables_of_some h (congrArg some set), Machine.tabled,
        Machine.tabled, Environments.put, Environments.tables_modify h]
    · rw [if_neg hs] at set
      rw [if_neg hs, Raw.put, onTables_of_some h (congrArg some set),
        Environments.setIfInBounds_tables h]
      rfl

theorem getSlot_tabled (m : Lox.Machine ρ) (e : EnvId) (slot : Nat) :
    m.tabled.getSlot e slot = m.environments.getSlot e slot := by
  rw [Raw.Machine.getSlot, show m.tabled.environments[e]? = _ from m.environments.getElem?_tables e,
    Environments.getSlot]
  cases m.environments.all[e]? with
  | none => rfl
  | some env => exact env.getSlot_tables slot

theorem getAt_tabled (m : Lox.Machine ρ) (e : EnvId) (distance slot : Nat) :
    m.tabled.getAt e distance slot = m.environments.getAt e distance slot := by
  rw [Raw.Machine.getAt, Environments.tables_ancestor?, Environments.getAt]
  cases m.environments.ancestor? e distance with
  | none => rfl
  | some e => exact getSlot_tabled m e slot

/-- What is known of a variable is what is known of its place. -/
theorem find_tabled (m : Lox.Machine ρ) (site : Option Binding) (name : String) :
    m.tabled.find site name = match m.place? site name with
      | some (e, slot) => m.environments.getSlot e slot
      | none => .missing := by
  cases site with
  | some b =>
    rw [Raw.Machine.find, show m.tabled.scope = m.scope from rfl, getAt_tabled,
      Environments.getAt, Lox.Machine.place?]
    cases m.environments.ancestor? m.scope b.distance with
    | none => rfl
    | some e =>
      dsimp only [Option.bind_some]
      by_cases h : m.environments.hasSlot e b.slot
      · rw [if_pos h]
      · rw [if_neg h]
        exact Environments.getSlot_of_not_hasSlot h
  | none =>
    rw [Raw.Machine.find, show m.tabled.environments[EnvId.global]? = _ from
      m.environments.getElem?_tables EnvId.global, Lox.Machine.place?, Environments.slot?]
    cases h : m.environments.all[EnvId.global]? with
    | none => rfl
    | some env =>
      change env.tables.get name = _
      rw [env.get_tables, Environment.get, Option.bind_some]
      cases env.slot? name with
      | none => rfl
      | some slot =>
        change _ = m.environments.getSlot EnvId.global slot
        rw [Environments.getSlot, h]
        rfl

theorem read (site : Option Binding) (name : Lexeme) :
    Agrees (ρ := ρ) (Lox.Run.read site name) (Raw.read site name) := by
  apply get
  intro m
  rw [find_tabled]
  cases m.place? site name.text with
  | none => exact raise _ _
  | some place =>
    dsimp only
    cases m.environments.getSlot place.1 place.2 with
    | found v => exact pure v
    | unassigned | missing => exact raise _ _

/-- An assignment finds the place of the variable, or answers that there is none. -/
theorem assigned_tabled (site : Option Binding) (name : String) (v : Value ρ EnvId)
    (m : Lox.Machine ρ) : assigned site name v m.tabled = match m.place? site name with
      | some (e, slot) =>
        .ok true ({ m with environments := m.environments.put e slot v } : Lox.Machine ρ).tabled
      | none => .ok false m.tabled := by
  cases site with
  | some b =>
    have entered {α : Type} (k : Raw.Machine ρ → Run ρ α) (t : Raw.Machine ρ) :
        (MonadState.get >>= k) t = k t t := rfl
    have scope : m.tabled.scope = m.scope := rfl
    rw [assigned, entered, entered, Environments.tables_ancestor?, Lox.Machine.place?, scope]
    cases m.environments.ancestor? m.scope b.distance with
    | none => rfl
    | some e =>
      dsimp only [Option.bind_some]
      rw [put_tabled]
      split <;> rfl
  | none =>
    change Raw.onTables EnvId.global false (·.assign? name v) m.tabled = _
    rw [Lox.Machine.place?, Environments.slot?]
    cases h : m.environments.all[EnvId.global]? with
    | none => exact onTables_of_none h
    | some env =>
      rw [Option.bind_some]
      have answer := env.assign?_tables name v
      cases hs : env.slot? name with
      | none =>
        rw [hs] at answer
        rw [onTables_of_some h answer, Environments.setIfInBounds_tables h]
        rfl
      | some slot =>
        rw [hs] at answer
        rw [onTables_of_some h answer, ← Environments.tables_modify h (·.putSlot slot (some v))]
        rfl

theorem assign (site : Option Binding) (name : Lexeme) (v : Value ρ EnvId) :
    Agrees (Lox.Run.assign site name v) (Raw.assign site name v) := by
  intro m
  have run := assigned_tabled site name.text v m
  have plain : Lox.Run.assign site name v m = (match m.place? site name.text with
      | some (e, slot) => Lox.Run.put e slot v
      | none => Lox.Run.raise (.undefinedVariable name.text) name.line : Lox.Run ρ Unit) m := rfl
  simp only [Raw.assign, Bind.bind, EStateM.bind, run, plain]
  cases m.place? site name.text <;> rfl

theorem action?_eq (n : Native) (arguments : List (Value ρ EnvId))
    (h : arguments.length = n.arity) : action? n arguments = some (n.run arguments h) := by
  cases n with
  | clock | input =>
    obtain rfl : arguments = [] := List.length_eq_zero_iff.mp h
    rfl
  | fileExists | fileReadText | fileClose | fileRead | fileReadLine | seekStart | seekEnd =>
    obtain ⟨v, rfl⟩ := List.length_eq_one_iff.mp h
    rfl
  | fileWriteText | fileOpen | fileWrite | fileWriteLine =>
    obtain ⟨v, w, rfl⟩ := List.length_eq_two.mp h
    rfl

theorem native (n : Native) (arguments : List (Value ρ EnvId)) (h : arguments.length = n.arity) :
    Agrees (Lox.Run.native n arguments h) (Raw.native n arguments) := by
  rintro ⟨environments, scope, objects, host⟩
  rw [Raw.native, action?_eq n arguments h]
  simp only [Machine.tabled, Lox.Run.native]
  cases n.run arguments h host <;> rfl

end Agrees

/-! Objects. -/

theorem bind_agrees (f : Function ρ EnvId) (receiver : Value ρ EnvId) :
    Agrees (f.bind receiver) (Raw.bind f receiver) :=
  (Agrees.nestIn f.closure.scope).bind fun e =>
    (Agrees.define e "this" (some receiver)).bind fun _ => .pure (f.within e)

theorem bindMethod_agrees (method : Option (Function ρ EnvId)) (receiver : Value ρ EnvId)
    (name : Lexeme) :
    Agrees (Lox.bindMethod method receiver name) (Raw.bindMethod method receiver name) := by
  cases method with
  | none => exact .raise _ _
  | some f =>
    exact (bind_agrees f receiver).bind fun f => Agrees.newObject.bind fun id => .pure _

theorem field?_tabled (m : Lox.Machine ρ) (id : ObjectId) (name : String) :
    m.tabled.field? id name = m.field? id name :=
  rfl

theorem getProperty_agrees (object : Value ρ EnvId) (name : Lexeme) :
    Agrees (object.getProperty name) (Raw.getProperty object name) := by
  cases object with
  | «instance» id c =>
    apply Agrees.get
    intro m
    rw [field?_tabled]
    cases m.field? id name.text with
    | some v => exact .pure v
    | none => exact bindMethod_agrees _ _ name
  | «class» c =>
    simp only [Value.getProperty, Raw.getProperty]
    split
    · exact .raise _ _
    · apply Agrees.get
      intro m
      rw [field?_tabled]
      cases m.field? c.id name.text with
      | some v => exact .pure v
      | none => exact bindMethod_agrees _ _ name
  | _ => exact .raise _ _

theorem getSuper_agrees (site : Option Binding) (keyword method : Lexeme) :
    Agrees (ρ := ρ) (Lox.getSuper site keyword method) (Raw.getSuper site keyword method) := by
  apply Agrees.get
  intro m
  have missing : Agrees (ρ := ρ)
      (Lox.Run.raise (.undefinedVariable keyword.text) keyword.line :
        Lox.Run ρ (Value ρ EnvId))
      (Raw.raise (.undefinedVariable keyword.text) keyword.line) := .raise _ _
  obtain _ | ⟨_ | distance, slot⟩ := site
  · exact missing
  · exact missing
  · simp only [Agrees.getAt_tabled]
    rw [show m.tabled.scope = m.scope from rfl]
    cases m.environments.getAt m.scope (distance + 1) slot with
    | missing | unassigned => exact missing
    | found superclass =>
      cases superclass with
      | «class» c =>
        cases m.environments.getAt m.scope distance 0 with
        | missing | unassigned => exact missing
        | found receiver =>
          cases receiver with
          | «instance» id k => exact bindMethod_agrees (c.findMethod? method.text) _ method
          | «class» k => exact bindMethod_agrees (c.findClassMethod? method.text) _ method
          | _ => exact missing
      | _ => exact missing

theorem methodScope_agrees (parent : Option (Class ρ EnvId)) :
    Agrees (Lox.methodScope parent) (Raw.methodScope parent) := by
  cases parent with
  | none => exact Agrees.get fun m => .pure m.scope
  | some c =>
    exact Agrees.nest.bind fun e => (Agrees.define e "super" _).bind fun _ => .pure e

theorem defineAll_agrees (e : EnvId) (names : List Lexeme) (vs : List (Value ρ EnvId)) :
    Agrees (Lox.defineAll e names vs) (Raw.defineAll e names vs) := by
  induction names generalizing vs with
  | nil => exact .pure ()
  | cons name names ih =>
    cases vs with
    | nil => exact .pure ()
    | cons v vs => exact (Agrees.define e name.text _).bind fun _ => ih vs

theorem checkArity_agrees (expected : Nat) (as : List (Value ρ EnvId)) (line : Nat) :
    Agrees (Lox.checkArity expected as line) (Raw.checkArity expected as line) := by
  unfold Raw.checkArity Lox.checkArity
  split <;> exact fun _ => rfl

section Steps

variable {site : ρ → Option Binding} {exec : Stmt ρ → Lox.Run ρ (Outcome ρ EnvId)}
  {eval : Expr ρ → Lox.Run ρ (Value ρ EnvId)} {exec' : Stmt ρ → Run ρ (Outcome ρ EnvId)}
  {eval' : Expr ρ → Run ρ (Value ρ EnvId)}

theorem readSuperclass_agrees (superclass : Option (ρ × Lexeme)) :
    Agrees (Lox.readSuperclass site superclass) (Raw.readSuperclass site superclass) := by
  cases superclass with
  | none => exact .pure none
  | some s =>
    apply (Agrees.read (site s.1) s.2).bind
    intro v
    cases v with
    | «class» c => exact .pure (some c)
    | _ => exact .raise _ _

theorem put_agrees (e : EnvId) (slot : Nat) (v : Value ρ EnvId) :
    Agrees (Lox.Run.put e slot v) (do let _ ← Raw.put e slot v) := by
  intro m
  have run := Agrees.put_tabled e slot v m
  simp only [Bind.bind, EStateM.bind, run]
  by_cases h : m.environments.hasSlot e slot
  · rw [if_pos h]
    rfl
  · rw [if_neg h]
    change _ = EStateM.Result.ok () (⟨(m.environments.put e slot v).tables, _, _, _⟩ : Machine ρ)
    rw [Environments.put_of_not_hasSlot h]
    rfl

theorem defineClass_agrees (name : Lexeme) (superclass : Option (ρ × Lexeme))
    (methods classMethods : List (Definition ρ)) :
    Agrees (Lox.defineClass site name superclass methods classMethods)
      (Raw.defineClass site name superclass methods classMethods) := by
  apply (readSuperclass_agrees superclass).bind
  intro parent
  apply (Agrees.declare name.text).bind
  intro slot
  apply (methodScope_agrees parent).bind
  intro scope
  apply Agrees.newObject.bind
  intro id
  exact Agrees.get fun m => put_agrees m.scope slot _

variable (hx : ∀ s, Agrees (exec s) (exec' s)) (hu : ∀ e, Agrees (eval e) (eval' e))

include hx in
theorem execAll_agrees (ss : List (Stmt ρ)) :
    Agrees (Lox.execAll exec ss) (Raw.execAll exec' ss) := by
  induction ss with
  | nil => exact .pure _
  | cons s ss ih =>
    apply (hx s).bind
    intro o
    cases o with
    | normal => exact ih
    | broke | returned v => exact .pure _

include hu in
theorem evalAll_agrees (es : List (Expr ρ)) :
    Agrees (Lox.evalAll eval es) (Raw.evalAll eval' es) := by
  induction es with
  | nil => exact .pure []
  | cons e es ih => exact (hu e).bind fun v => ih.bind fun vs => .pure (v :: vs)

include hx

theorem callClosure_agrees (c : Closure ρ EnvId) (as : List (Value ρ EnvId)) :
    Agrees (c.call exec as) (Raw.callClosure exec' c as) := by
  apply (Agrees.nestIn c.scope).bind
  intro e
  apply (defineAll_agrees e _ as).bind
  intro _
  apply (Agrees.inScope e (execAll_agrees hx _)).bind
  intro o
  cases o with
  | returned v => exact .pure v
  | normal | broke => exact .pure _

theorem callFunction_agrees (f : Function ρ EnvId) (as : List (Value ρ EnvId)) :
    Agrees (f.call exec as) (Raw.callFunction exec' f as) := by
  apply (callClosure_agrees hx f.closure as).bind
  intro v
  split
  · apply Agrees.get
    intro m
    rw [Agrees.getSlot_tabled]
    cases m.environments.getSlot f.closure.scope 0 with
    | found receiver => exact .pure receiver
    | unassigned | missing => exact .pure _
  · exact .pure v

theorem instantiate_agrees (c : Class ρ EnvId) (as : List (Value ρ EnvId)) :
    Agrees (c.instantiate exec as) (Raw.instantiate exec' c as) := by
  apply Agrees.newObject.bind
  intro id
  cases c.initializer? with
  | none => exact .pure _
  | some f =>
    exact (bind_agrees f _).bind fun f => (callFunction_agrees hx f as).bind fun _ => .pure _

/-- A native function is only run with as many arguments as it takes. -/
theorem call_agrees (callee : Value ρ EnvId) (as : List (Value ρ EnvId)) (line : Nat) :
    Agrees (callee.call exec as line) (Raw.call exec' callee as line) := by
  cases callee with
  | function id f =>
    exact (checkArity_agrees _ as line).bind fun _ => .onLine line (callFunction_agrees hx f as)
  | lambda id _ c =>
    exact (checkArity_agrees _ as line).bind fun _ => .onLine line (callClosure_agrees hx c as)
  | «class» c =>
    exact (checkArity_agrees _ as line).bind fun _ => .onLine line (instantiate_agrees hx c as)
  | native n =>
    have check := checkArity_agrees n.arity as line
    by_cases h : as.length = n.arity
    · rw [Lox.checkArity, if_pos h] at check
      rw [Value.call, dif_pos h]
      exact check.bind fun _ => .onLine line (.native n as h)
    · rw [Lox.checkArity, if_neg h] at check
      rw [Value.call, dif_neg h]
      intro m
      simp only [Raw.call, Bind.bind, EStateM.bind, check m]
      rfl
  | _ => exact .raise _ _

omit hx

include hu in
theorem defineVariable_agrees (name : Lexeme) (initial : Option (Expr ρ)) :
    Agrees (Lox.defineVariable eval name initial) (Raw.defineVariable eval' name initial) := by
  apply Agrees.get
  intro m
  rw [show m.tabled.scope = m.scope from rfl]
  by_cases h : m.scope = EnvId.global
  · simp only [if_pos h]
    cases initial with
    | none => exact Agrees.define m.scope name.text none
    | some i => exact ((hu i).map some).bind fun v => Agrees.define m.scope name.text v
  · simp only [if_neg h]
    apply (Agrees.declare name.text).bind
    intro slot
    cases initial with
    | none => exact .pure ()
    | some i => exact (hu i).bind fun v => put_agrees m.scope slot v

include hx hu

theorem evalStep_agrees (e : Expr ρ) :
    Agrees (Lox.evalStep site exec eval e) (Raw.evalStep site exec' eval' e) := by
  cases e with
  | literal l => exact .pure _
  | «variable» r name | this r name => exact .read _ name
  | assign r name e =>
    exact (hu e).bind fun v => (Agrees.assign _ name v).bind fun _ => .pure v
  | super r keyword method => exact getSuper_agrees _ keyword method
  | unary op sign e =>
    apply (hu e).bind
    intro v
    rw [op.applyUnary_kind]
    exact .ofExcept _
  | binary op sign l r =>
    apply (hu l).bind
    intro left
    apply (hu r).bind
    intro right
    rw [op.applyBinary?_kind]
    exact .ofExcept _
  | logical op sign l r =>
    apply (hu l).bind
    intro v
    rw [op.decides_kind]
    split
    · exact .pure v
    · exact hu r
  | ternary c y n =>
    apply (hu c).bind
    intro v
    split
    · exact hu y
    · exact hu n
  | group e => exact hu e
  | call c as line =>
    exact (hu c).bind fun v => (evalAll_agrees hu as).bind fun vs => call_agrees hx v vs line
  | get o name => exact (hu o).bind fun v => getProperty_agrees v name
  | set o name e =>
    apply (hu o).bind
    intro v
    cases v.fieldsOf? with
    | none => exact .raise _ _
    | some id =>
      exact (hu e).bind fun w => (Agrees.setField id name.text w).bind fun _ => .pure w
  | lambda line r => exact Agrees.get fun m => Agrees.newObject.bind fun id => .pure _

theorem execStep_agrees (s : Stmt ρ) :
    Agrees (Lox.execStep site exec eval s) (Raw.execStep site exec' eval' s) := by
  cases s with
  | expr e => exact (hu e).bind fun _ => .pure _
  | print e => exact (hu e).bind fun v => (Agrees.write _).bind fun _ => .pure _
  | var name initial => exact (defineVariable_agrees hu name initial).bind fun _ => .pure _
  | block b => exact Agrees.nest.bind fun e => .inScope e (execAll_agrees hx b)
  | «if» c y n =>
    apply (hu c).bind
    intro v
    split
    · exact hx y
    · cases n with
      | none => exact .pure _
      | some n => exact hx n
  | «while» c b =>
    apply (hu c).bind
    intro v
    split
    · apply (hx b).bind
      intro o
      cases o with
      | normal => exact hx _
      | broke | returned v => exact .pure _
    · exact .pure _
  | «break» keyword => exact .pure _
  | «return» keyword value =>
    cases value with
    | none => exact .pure _
    | some e => exact (hu e).bind fun v => .pure _
  | function f =>
    exact Agrees.get fun m => Agrees.newObject.bind fun id =>
      (Agrees.define m.scope f.name.text _).bind fun _ => .pure _
  | «class» name superclass ms cs =>
    exact (defineClass_agrees name superclass ms cs).bind fun _ => .pure _

end Steps

theorem exec_eval_agree (site : ρ → Option Binding) (fuel : Nat) :
    (∀ s, Agrees (Lox.exec site fuel s) (Raw.exec site fuel s)) ∧
      ∀ e, Agrees (Lox.eval site fuel e) (Raw.eval site fuel e) := by
  induction fuel with
  | zero => exact ⟨fun _ _ => rfl, fun _ _ => rfl⟩
  | succ fuel ih =>
    exact ⟨fun s => execStep_agrees ih.1 ih.2 s, fun e => evalStep_agrees ih.1 ih.2 e⟩

theorem interpretFrom_agrees (site : ρ → Option Binding) (fuel : Nat) (last : Value ρ EnvId)
    (p : List (Stmt ρ)) :
    Agrees (Lox.interpretFrom site fuel last p) (Raw.interpretFrom site fuel last p) := by
  obtain ⟨hx, hu⟩ := exec_eval_agree site fuel
  induction p generalizing last with
  | nil => exact .pure last
  | cons s ss ih =>
    cases s with
    | expr e => exact (hu e).bind fun v => ih v
    | _ => exact (hx _).bind fun _ => ih last

theorem interpret_agrees (site : ρ → Option Binding) (fuel : Nat) (p : List (Stmt ρ)) :
    Agrees (Lox.interpret site fuel p) (Raw.interpret site fuel p) :=
  (interpretFrom_agrees site fuel .nil p).bind fun v => Agrees.flush.bind fun _ => .pure v

end Raw

end Lox
