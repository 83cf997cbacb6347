import Lox.Proofs.Surroundings

/-!
Steps that stay inside of the machine: they do what they do in whatever surroundings, and leave the
surroundings as they are. Steps that write no output do what they do whatever the limit of the output
is, and leave the output as it is.
-/

namespace Lox

variable {ρ κ α β : Type}

/-- The result, with its state seen as another one. -/
def onState {ε σ τ : Type} (f : σ → τ) : EStateM.Result ε σ α → EStateM.Result ε τ α
  | .ok a s => .ok a (f s)
  | .error e s => .error e (f s)

/-- The state that a result leaves. -/
def ending {ε σ : Type} : EStateM.Result ε σ α → σ
  | .ok _ s | .error _ s => s

@[simp] theorem ending_onState {ε σ τ : Type} (f : σ → τ) (r : EStateM.Result ε σ α) :
    ending (onState f r) = f (ending r) := by
  cases r <;> rfl

@[simp] theorem onState_onState {ε σ τ υ : Type} (g : τ → υ) (f : σ → τ) (r : EStateM.Result ε σ α) :
    onState g (onState f r) = onState (fun s => g (f s)) r := by
  cases r <;> rfl

def Host.takes (limit : Option Nat) (host : Host) : Host :=
  { host with console := { host.console with limit } }

namespace Machine

/-- The machine with another limit of its output. -/
def takes (limit : Option Nat) (m : Machine ρ) : Machine ρ := { m with host := m.host.takes limit }

def output (m : Machine ρ) : Text.Bytes := m.host.console.output.toList

variable (limit : Option Nat) (m : Machine ρ)

@[simp] theorem output_takes : (m.takes limit).output = m.output := rfl

@[simp] theorem limit_takes : (m.takes limit).host.console.limit = limit := rfl

@[simp] theorem takes_takes (limit' : Option Nat) : (m.takes limit').takes limit = m.takes limit := rfl

theorem takes_of_limit {limit : Option Nat} {m : Machine ρ} (h : m.host.console.limit = limit) :
    m.takes limit = m := by
  subst h
  rfl

end Machine

theorem Console.readLine_limit (c : Console) (limit : Option Nat) :
    ({ c with limit } : Console).readLine = (c.readLine.1, { c.readLine.2 with limit }) := by
  by_cases pending : (!c.ended && decide ((cutLine c.input).1.getLast? ≠ some 10)) = true
  · simp only [readLine, if_pos pending]
  · by_cases empty : (cutLine c.input).1.isEmpty = true
    · simp only [readLine, if_neg pending, if_pos empty]
    · simp only [readLine, if_neg pending, if_neg empty]
      cases Text.Utf8.decode (cutLine c.input).1 <;> rfl

theorem Console.output_readLine (c : Console) : c.readLine.2.output = c.output := by
  simp only [readLine]
  split
  · rfl
  · split
    · rfl
    · split <;> rfl

namespace Native.Action

/-- The action does not see the change of the surroundings. -/
def Commutes (f : Host → Host) (p : Action α) : Prop := ∀ host, p (f host) = onState f (p host)

theorem Commutes.bind {f : Host → Host} {p : Action α} {k : α → Action β} (hp : Commutes f p)
    (hk : ∀ a, Commutes f (k a)) : Commutes f (p >>= k) := by
  intro host
  simp only [Bind.bind, EStateM.bind, hp host]
  cases p host with
  | ok a host' => exact hk a host'
  | error fault host' => rfl

/-- The action does not see the limit of the output. -/
def Blind (p : Action α) : Prop := ∀ limit, Commutes (Host.takes limit) p

namespace Blind

variable {p : Action α} {k : α → Action β}

theorem pure (a : α) : Blind (Pure.pure a) := fun _ _ => rfl

theorem throw (fault : Fault) : Blind (throw fault : Action α) := fun _ _ => rfl

theorem bind (hp : Blind p) (hk : ∀ a, Blind (k a)) : Blind (p >>= k) :=
  fun limit => (hp limit).bind fun a => hk a limit

theorem get {k : Host → Action β} (hk : ∀ host, Blind (k host))
    (same : ∀ limit host, k (host.takes limit) = k host) : Blind (MonadState.get >>= k) := by
  intro limit host
  change k (host.takes limit) (host.takes limit) = _
  rw [same]
  exact hk host limit host

theorem files : Blind files := fun _ _ => rfl

theorem setFiles (fs : FileSystem) : Blind (setFiles fs) := fun _ _ => rfl

theorem modifyFiles (f : FileSystem → FileSystem) : Blind (modifyFiles f) := fun _ _ => rfl

theorem allowed (x : Except FileSystem.Fault α) : Blind (allowed x) := by
  cases x with
  | ok a => exact pure a
  | error fault => exact throw _

theorem string (argument : String) (v : Value ρ κ) : Blind (string argument v) := by
  cases v with
  | string s => exact pure s
  | _ => exact throw _

theorem number (argument : String) (v : Value ρ κ) : Blind (number argument v) := by
  cases v with
  | number x => exact pure x
  | _ => exact throw _

theorem «unless» {c : Prop} [Decidable c] {fault : Fault} (hp : Blind p) :
    Blind (if c then MonadExcept.throw fault else p) := by
  split
  · exact throw fault
  · exact hp

theorem know (path : String) : Blind (know path) :=
  get (fun _ => .unless (pure _)) fun _ _ => rfl

theorem stream (v : Value ρ κ) : Blind (stream v) := by
  cases v with
  | file id =>
    refine files.bind fun fs => ?_
    cases fs.handle? id with
    | some h => exact pure (id, h)
    | none => exact throw _
  | _ => exact throw _

theorem openStream (v : Value ρ κ) : Blind (openStream v) :=
  (stream v).bind fun (id, h) => .unless (pure (id, h))

theorem readable (v : Value ρ κ) : Blind (readable v) :=
  (openStream v).bind fun (id, h) => .unless (pure (id, h))

theorem input : Blind (input : Action (Value ρ κ)) := by
  intro limit host
  have read := host.console.readLine_limit limit
  simp only [Action.input, Bind.bind, EStateM.bind, MonadState.get, getThe, MonadStateOf.get,
    modify, modifyGet, MonadStateOf.modifyGet]
  unfold EStateM.get EStateM.modifyGet
  simp only [Host.takes, read]
  generalize host.console.readLine = r
  obtain ⟨reading, console⟩ := r
  cases reading with
  | line s =>
    dsimp only
    cases Numeral.read? (Text.trim (Text.dropLineEnd s)) <;> rfl
  | malformed | «end» | pending => rfl

theorem fileExists (path : Value ρ κ) : Blind (fileExists path) :=
  (string _ path).bind fun path => (know path).bind fun _ => files.bind fun _ => pure _

theorem fileReadText (path : Value ρ κ) : Blind (fileReadText path) := by
  refine (string _ path).bind fun path => (know path).bind fun _ => files.bind fun fs => .unless ?_
  refine (allowed _).bind fun bytes => ?_
  cases Text.Utf8.decode bytes with
  | ok s => exact pure _
  | error fault => exact throw _

theorem fileWriteText (path text : Value ρ κ) : Blind (fileWriteText path text) :=
  (string _ path).bind fun path => (know path).bind fun _ => files.bind fun _ =>
    (allowed _).bind fun fs => (setFiles fs).bind fun _ => pure _

theorem fileOpen (path mode : Value ρ κ) : Blind (fileOpen path mode) := by
  refine (string _ path).bind fun path => (number _ mode).bind fun mode => ?_
  cases access? mode with
  | none => exact throw _
  | some access =>
    exact (know path).bind fun _ => files.bind fun _ => (allowed _).bind fun r =>
      (setFiles r.2).bind fun _ => pure _

theorem fileClose (v : Value ρ κ) : Blind (fileClose v) :=
  (stream v).bind fun _ => (modifyFiles _).bind fun _ => pure _

theorem fileWrite (v : Value ρ κ) (text : String) : Blind (fileWrite v text) :=
  (openStream v).bind fun _ => (modifyFiles _).bind fun _ => pure _

theorem fileRead (v : Value ρ κ) : Blind (fileRead v) := by
  refine (readable v).bind fun (id, h) => files.bind fun fs => ?_
  dsimp only
  cases fs.ahead h with
  | nil => exact pure _
  | cons b bs =>
    refine (modifyFiles _).bind fun _ => .unless ?_
    cases Text.Utf8.decode ((b :: bs).take (width b)) with
    | ok s => exact pure _
    | error fault => exact throw _

theorem fileReadLine (v : Value ρ κ) : Blind (fileReadLine v) := by
  refine (readable v).bind fun (id, h) => files.bind fun fs => ?_
  obtain ⟨_ | ⟨b, bs⟩, _⟩ := Console.cutLine (fs.ahead h)
  · exact pure _
  · refine (modifyFiles _).bind fun _ => ?_
    cases Text.Utf8.decode ((b :: bs).filter fun b => b != 10 && b != 13) with
    | ok s => exact pure _
    | error fault => exact throw _

theorem seekStart (v : Value ρ κ) : Blind (seekStart v) :=
  (openStream v).bind fun _ => (modifyFiles _).bind fun _ => pure _

theorem seekEnd (v : Value ρ κ) : Blind (seekEnd v) :=
  (openStream v).bind fun _ => (modifyFiles _).bind fun _ => pure _

end Blind

end Native.Action

open Native.Action (Blind) in
theorem Native.run_blind (n : Native) (arguments : List (Value ρ κ)) (h : arguments.length = n.arity) :
    Blind (n.run arguments h) := by
  cases n with
  | clock =>
    obtain rfl : arguments = [] := List.length_eq_zero_iff.mp h
    simp only [run]
    exact .get (fun _ => .pure _) fun _ _ => rfl
  | input =>
    obtain rfl : arguments = [] := List.length_eq_zero_iff.mp h
    simpa only [run] using Blind.input
  | fileExists =>
    obtain ⟨v, rfl⟩ := List.length_eq_one_iff.mp h
    simpa only [run] using Blind.fileExists v
  | fileReadText =>
    obtain ⟨v, rfl⟩ := List.length_eq_one_iff.mp h
    simpa only [run] using Blind.fileReadText v
  | fileClose =>
    obtain ⟨v, rfl⟩ := List.length_eq_one_iff.mp h
    simpa only [run] using Blind.fileClose v
  | fileRead =>
    obtain ⟨v, rfl⟩ := List.length_eq_one_iff.mp h
    simpa only [run] using Blind.fileRead v
  | fileReadLine =>
    obtain ⟨v, rfl⟩ := List.length_eq_one_iff.mp h
    simpa only [run] using Blind.fileReadLine v
  | seekStart =>
    obtain ⟨v, rfl⟩ := List.length_eq_one_iff.mp h
    simpa only [run] using Blind.seekStart v
  | seekEnd =>
    obtain ⟨v, rfl⟩ := List.length_eq_one_iff.mp h
    simpa only [run] using Blind.seekEnd v
  | fileWriteText =>
    obtain ⟨v, w, rfl⟩ := List.length_eq_two.mp h
    simpa only [run] using Blind.fileWriteText v w
  | fileOpen =>
    obtain ⟨v, w, rfl⟩ := List.length_eq_two.mp h
    simpa only [run] using Blind.fileOpen v w
  | fileWrite | fileWriteLine =>
    obtain ⟨v, w, rfl⟩ := List.length_eq_two.mp h
    simpa only [run] using Blind.fileWrite v _

namespace Machine

/-- The machine in other surroundings. -/
def within (host : Host) (m : Machine ρ) : Machine ρ := { m with host }

end Machine

namespace Run

/-- The phrase neither sees nor touches the surroundings. -/
def Enclosed (p : Run ρ α) : Prop :=
  ∀ m host, p (m.within host) = onState (Machine.within host) (p m)

namespace Enclosed

variable {p : Run ρ α} {k : α → Run ρ β}

theorem host (hp : Enclosed p) (m : Machine ρ) : (ending (p m)).host = m.host := by
  have same : p m = onState (Machine.within m.host) (p m) := hp m m.host
  rw [same, ending_onState]
  rfl

theorem pure (a : α) : Enclosed (Pure.pure a : Run ρ α) := fun _ _ => rfl

theorem throw (stop : Stop) : Enclosed (throw stop : Run ρ α) := fun _ _ => rfl

theorem raise (fault : RuntimeFault) (line : Nat) : Enclosed (raise fault line : Run ρ α) := throw _

theorem ofExcept (x : Except RuntimeError α) : Enclosed (ofExcept x : Run ρ α) := by
  cases x with
  | ok a => exact pure a
  | error e => exact throw _

theorem bind (hp : Enclosed p) (hk : ∀ a, Enclosed (k a)) : Enclosed (p >>= k) := by
  intro m host
  simp only [Bind.bind, EStateM.bind, hp m host]
  cases p m with
  | ok a m' => exact hk a m' host
  | error stop m' => rfl

/-- What follows the reading of the machine must not depend on the surroundings. -/
theorem get {k : Machine ρ → Run ρ β} (hk : ∀ m, Enclosed (k m))
    (same : ∀ host m, k (m.within host) = k m) : Enclosed (MonadState.get >>= k) := by
  intro m host
  change k (m.within host) (m.within host) = _
  rw [same]
  exact hk m m host

theorem nestIn (e : EnvId) : Enclosed (nestIn e : Run ρ EnvId) := fun _ _ => rfl

theorem nest : Enclosed (nest : Run ρ EnvId) := get (fun m => nestIn m.scope) fun _ _ => rfl

theorem define (e : EnvId) (name : String) (v : Option (Value ρ EnvId)) :
    Enclosed (define e name v) := fun _ _ => rfl

theorem put (e : EnvId) (slot : Nat) (v : Value ρ EnvId) : Enclosed (put e slot v) := fun _ _ => rfl

theorem declare (name : String) : Enclosed (declare name : Run ρ Nat) :=
  get (fun m => (define m.scope name none).bind fun _ => pure _) fun _ _ => rfl

theorem newObject : Enclosed (newObject : Run ρ ObjectId) := fun _ _ => rfl

theorem setField (id : ObjectId) (name : String) (v : Value ρ EnvId) :
    Enclosed (setField id name v) := fun _ _ => rfl

theorem read (site : Option Binding) (name : Lexeme) : Enclosed (read site name : Run ρ _) := by
  refine get (fun m => ?_) fun _ _ => rfl
  cases m.place? site name.text with
  | none => exact raise _ _
  | some place =>
    dsimp only
    cases m.environments.getSlot place.1 place.2 with
    | found v => exact pure v
    | unassigned | missing => exact raise _ _

theorem assign (site : Option Binding) (name : Lexeme) (v : Value ρ EnvId) :
    Enclosed (assign site name v) := by
  refine get (fun m => ?_) fun _ _ => rfl
  cases m.place? site name.text with
  | none => exact raise _ _
  | some place => exact put _ _ v

end Enclosed

/-- The step does not see the limit of the output, and writes nothing. -/
def Quiet (p : Run ρ α) : Prop :=
  ∀ m, (∀ limit, p (m.takes limit) = onState (Machine.takes limit) (p m)) ∧
    (ending (p m)).output = m.output

theorem Enclosed.quiet {p : Run ρ α} (hp : Enclosed p) : Quiet p := by
  intro m
  constructor
  · intro limit
    have host := hp.host m
    have takes : p (m.takes limit) = onState (Machine.within (m.host.takes limit)) (p m) :=
      hp m (m.host.takes limit)
    rw [takes]
    cases h : p m with
    | ok a m' | error stop m' =>
      rw [h] at host
      change m'.host = m.host at host
      rw [← host]
      rfl
  · exact congrArg (fun host : Host => host.console.output.toList) (hp.host m)

theorem flush_run (m : Machine ρ) : flush m = if m.host.console.flushFails then
    .error (.error ⟨.output .flushFailed, none⟩) m else .ok () m := by
  change (if m.host.console.flushFails then throw _ else Pure.pure () : Run ρ Unit) m = _
  split <;> rfl

namespace Quiet

theorem native (n : Native) (arguments : List (Value ρ EnvId)) (h : arguments.length = n.arity) :
    Quiet (native n arguments h) := by
  have held : Native.Action.Steady fun host host' : Host =>
      host'.console.output = host.console.output :=
    ⟨fun _ => rfl, fun h h' => h'.trans h, fun _ _ => rfl, fun host => host.console.output_readLine⟩
  rintro ⟨environments, scope, objects, host⟩
  have blind := n.run_blind arguments h
  have silent := n.run_keeps held arguments h host
  constructor
  · intro limit
    simp only [Run.native, Machine.takes, blind limit host]
    cases n.run arguments h host <;> rfl
  · simp only [Run.native]
    cases hr : n.run arguments h host with
    | ok v host' | error fault host' =>
      rw [hr] at silent
      exact congrArg Array.toList silent

theorem flush : Quiet (flush : Run ρ Unit) := by
  intro m
  rw [flush_run]
  refine ⟨fun limit => ?_, ?_⟩
  · rw [flush_run]
    change (if m.host.console.flushFails then _ else _) = _
    split <;> rfl
  · split <;> rfl

end Quiet

end Run

open Run

section Steps

variable {site : ρ → Option Binding}

theorem Function.bind_enclosed (f : Function ρ EnvId) (receiver : Value ρ EnvId) :
    Enclosed (f.bind receiver) :=
  (Enclosed.nestIn f.closure.scope).bind fun e => (Enclosed.define e "this" (some receiver)).bind fun _ =>
    .pure _

theorem bindMethod_enclosed (method : Option (Function ρ EnvId)) (receiver : Value ρ EnvId)
    (name : Lexeme) : Enclosed (bindMethod method receiver name) := by
  cases method with
  | none => exact .raise _ _
  | some f => exact (f.bind_enclosed receiver).bind fun f => Enclosed.newObject.bind fun _ => .pure _

theorem Value.getProperty_enclosed (object : Value ρ EnvId) (name : Lexeme) :
    Enclosed (object.getProperty name) := by
  cases object with
  | «instance» id c =>
    refine .get (fun m => ?_) fun _ _ => rfl
    cases m.field? id name.text with
    | some v => exact .pure v
    | none => exact bindMethod_enclosed _ _ name
  | «class» c =>
    simp only [Value.getProperty]
    split
    · exact .raise _ _
    · refine .get (fun m => ?_) fun _ _ => rfl
      cases m.field? c.id name.text with
      | some v => exact .pure v
      | none => exact bindMethod_enclosed _ _ name
  | _ => exact .raise _ _

theorem getSuper_enclosed (site : Option Binding) (keyword method : Lexeme) :
    Enclosed (getSuper site keyword method : Run ρ _) := by
  refine .get (fun m => ?_) fun _ _ => rfl
  have missing : Enclosed (raise (.undefinedVariable keyword.text) keyword.line :
    Run ρ (Value ρ EnvId)) := .raise _ _
  obtain _ | ⟨_ | distance, slot⟩ := site
  · exact missing
  · exact missing
  · dsimp only
    split
    · exact bindMethod_enclosed _ _ method
    · exact bindMethod_enclosed _ _ method
    · exact missing

theorem methodScope_enclosed (parent : Option (Class ρ EnvId)) : Enclosed (methodScope parent) := by
  cases parent with
  | none => exact .get (fun m => .pure m.scope) fun _ _ => rfl
  | some c => exact Enclosed.nest.bind fun e => (Enclosed.define e "super" _).bind fun _ => .pure e

theorem defineAll_enclosed (e : EnvId) (names : List Lexeme) (vs : List (Value ρ EnvId)) :
    Enclosed (defineAll e names vs) := by
  induction names generalizing vs with
  | nil => exact .pure ()
  | cons name names ih =>
    cases vs with
    | nil => exact .pure ()
    | cons v vs => exact (Enclosed.define e name.text _).bind fun _ => ih vs

theorem checkArity_enclosed (expected : Nat) (as : List (Value ρ EnvId)) (line : Nat) :
    Enclosed (checkArity expected as line) := by
  unfold checkArity
  split
  · exact .pure ()
  · exact .raise _ _

theorem readSuperclass_enclosed (superclass : Option (ρ × Lexeme)) :
    Enclosed (readSuperclass site superclass) := by
  cases superclass with
  | none => exact .pure none
  | some s =>
    refine (Enclosed.read _ _).bind fun v => ?_
    cases v with
    | «class» c => exact .pure (some c)
    | _ => exact .raise _ _

theorem defineClass_enclosed (name : Lexeme) (superclass : Option (ρ × Lexeme))
    (methods classMethods : List (Definition ρ)) :
    Enclosed (defineClass site name superclass methods classMethods) := by
  refine (readSuperclass_enclosed superclass).bind fun parent => ?_
  refine (Enclosed.declare name.text).bind fun slot => ?_
  refine (methodScope_enclosed parent).bind fun scope => Enclosed.newObject.bind fun id => ?_
  exact .get (fun m => .put m.scope slot _) fun _ _ => rfl

end Steps

end Lox
