import Lox.Eval
import Lox.Proofs.Native
import Lox.Proofs.Relabel.Value

/-!
Relabelled programs run alike. A phrase follows another one if in every relabelled machine it answers
as the other does in the machine itself, relabelled. The steps of the evaluator follow each other, and
by induction on the fuel so does the evaluator, wherever both find the same binding for a reference.
-/

namespace Lox

variable {ρ σ κ α β γ δ : Type}

def Stop.relabel (φ : Relabeling ρ σ) : Stop → Stop
  | .error e => .error (e.relabel φ)
  | .outOfFuel => .outOfFuel

def Fields.relabel (φ : Relabeling ρ σ) (fs : Fields ρ κ) : Fields σ κ :=
  fs.map fun (n, v) => (n, v.relabel φ)

def Machine.relabel (φ : Relabeling ρ σ) (m : Machine ρ) : Machine σ where
  environments := m.environments.map (Value.relabel φ)
  scope := m.scope
  objects := m.objects.map (Fields.relabel φ)
  host := m.host

def Outcome.relabel (φ : Relabeling ρ σ) : Outcome ρ κ → Outcome σ κ
  | .normal => .normal
  | .broke => .broke
  | .returned v => .returned (v.relabel φ)

@[simp] theorem Stop.relabel_onRefs (f : ρ → σ) (s : Stop) : s.relabel (.onRefs f) = s := by
  cases s with
  | error e => simp only [Stop.relabel, RuntimeError.relabel, Relabeling.line_onRefs, Option.map_id, id]
  | outOfFuel => rfl

namespace Fields

@[simp] theorem lookup_relabel (φ : Relabeling ρ σ) (name : String) (fs : Fields ρ κ) :
    (fs.relabel φ).lookup name = (fs.lookup name).map (Value.relabel φ) := by
  induction fs with
  | nil => rfl
  | cons field fs ih =>
    obtain ⟨n, v⟩ := field
    simp only [relabel, List.map_cons, List.lookup_cons] at ih ⊢
    cases name == n with
    | true => rfl
    | false => exact ih

theorem relabel_insert (φ : Relabeling ρ σ) (name : String) (v : Value ρ κ) (fs : Fields ρ κ) :
    (fs.insert name v).relabel φ = (fs.relabel φ).insert name (v.relabel φ) := by
  induction fs with
  | nil => rfl
  | cons field fs ih =>
    obtain ⟨n, w⟩ := field
    simp only [relabel, insert, List.map_cons] at ih ⊢
    split
    · rfl
    · rw [List.map_cons, ih]

end Fields

namespace Machine

variable (φ : Relabeling ρ σ) (m : Machine ρ)

@[simp] theorem environments_relabel :
    (m.relabel φ).environments = m.environments.map (Value.relabel φ) := rfl

@[simp] theorem scope_relabel : (m.relabel φ).scope = m.scope := rfl

@[simp] theorem host_relabel : (m.relabel φ).host = m.host := rfl

@[simp] theorem place?_relabel (site : Option Binding) (name : String) :
    (m.relabel φ).place? site name = m.place? site name := by
  cases site with
  | none => simp only [place?, environments_relabel, Environments.slot?_map]
  | some b =>
    simp only [place?, environments_relabel, scope_relabel, Environments.ancestor?_map,
      Environments.hasSlot_map]

@[simp] theorem field?_relabel (id : ObjectId) (name : String) :
    (m.relabel φ).field? id name = (m.field? id name).map (Value.relabel φ) := by
  simp only [field?, relabel, Array.getElem?_map]
  cases m.objects[id]? with
  | none => rfl
  | some fs => exact fs.lookup_relabel φ name

end Machine

namespace Run

/-- What a phrase answers, relabelled. -/
def relabelResult (φ : Relabeling ρ σ) (f : α → β) :
    EStateM.Result Stop (Machine ρ) α → EStateM.Result Stop (Machine σ) β
  | .ok a m => .ok (f a) (m.relabel φ)
  | .error s m => .error (s.relabel φ) (m.relabel φ)

/-- In the machine, the second phrase follows the first. -/
def Follows (φ : Relabeling ρ σ) (f : α → β) (p : Run ρ α) (q : Run σ β) (m : Machine ρ) : Prop :=
  q (m.relabel φ) = relabelResult φ f (p m)

namespace Follows

variable {φ : Relabeling ρ σ} {f : α → β} {g : γ → δ} {p : Run ρ α} {q : Run σ β}
  {k : α → Run ρ γ} {l : β → Run σ δ} {m : Machine ρ}

theorem pure (a : α) : Follows φ f (Pure.pure a) (Pure.pure (f a)) m := rfl

theorem throw (s : Stop) : Follows φ f (throw s) (throw (s.relabel φ)) m := rfl

theorem raise (fault : RuntimeFault) (line : Nat) :
    Follows φ f (raise fault line) (Run.raise fault (φ.line line)) m := rfl

theorem bind (h : Follows φ f p q m) (hk : ∀ a m, Follows φ g (k a) (l (f a)) m) :
    Follows φ g (p >>= k) (q >>= l) m := by
  unfold Follows at *
  simp only [Bind.bind, EStateM.bind, h]
  cases p m with
  | ok a m' => exact hk a m'
  | error s m' => rfl

/-- What follows the reading of the machine sees it relabelled. -/
theorem get {k : Machine ρ → Run ρ γ} {l : Machine σ → Run σ δ}
    (h : Follows φ g (k m) (l (m.relabel φ)) m) :
    Follows φ g (MonadState.get >>= k) (MonadState.get >>= l) m := h

theorem map (h : Follows φ f p q m) (g : β → γ) (g' : α → δ) (f' : δ → γ)
    (hg : ∀ a, g (f a) = f' (g' a)) : Follows φ f' (g' <$> p) (g <$> q) m := by
  unfold Follows at *
  simp only [Functor.map, EStateM.map, h]
  cases p m with
  | ok a m' => exact congrArg (EStateM.Result.ok · (m'.relabel φ)) (hg a)
  | error s m' => rfl

theorem ofExcept {x : Except RuntimeError (Value ρ EnvId)} :
    Follows φ (Value.relabel φ) (ofExcept x) (Run.ofExcept (relabelExcept φ x)) m := by
  cases x <;> rfl

theorem inScope (e : EnvId) (h : Follows φ f p q { m with scope := e }) :
    Follows φ f (inScope e p) (Run.inScope e q) m := by
  unfold Follows at *
  change q { m.relabel φ with scope := e } = _ at h
  simp only [Run.inScope, h]
  cases p { m with scope := e } <;> rfl

theorem onLine (line : Nat) (h : Follows φ f p q m) :
    Follows φ f (onLine line p) (Run.onLine (φ.line line) q) m := by
  unfold Follows at *
  simp only [Run.onLine, h]
  cases p m with
  | ok a m' => rfl
  | error s m' =>
    cases s with
    | error e => simp only [relabelResult, Stop.relabel, RuntimeError.relabel_withLine]
    | outOfFuel => rfl

/-- A change of the machine. -/
theorem modifyGet {t : Machine ρ → α × Machine ρ} {u : Machine σ → β × Machine σ}
    (h : u (m.relabel φ) = (f (t m).1, (t m).2.relabel φ)) :
    Follows φ f (MonadStateOf.modifyGet t) (MonadStateOf.modifyGet u) m := by
  change EStateM.Result.ok _ _ = EStateM.Result.ok _ _
  rw [h]

theorem nestIn (e : EnvId) : Follows φ id (nestIn e) (Run.nestIn e) m := by
  apply modifyGet
  simp only [Machine.relabel, Environments.fresh_map, Environments.map_nest, id]

theorem nest : Follows φ id nest Run.nest m := get (nestIn m.scope)

theorem define (e : EnvId) (name : String) (v : Option (Value ρ EnvId)) :
    Follows φ id (define e name v) (Run.define e name (v.map (Value.relabel φ))) m := by
  apply modifyGet
  simp only [Machine.relabel, Environments.map_define, id]

theorem put (e : EnvId) (slot : Nat) (v : Value ρ EnvId) :
    Follows φ id (put e slot v) (Run.put e slot (v.relabel φ)) m := by
  apply modifyGet
  simp only [Machine.relabel, Environments.map_put, id]

theorem declare (name : String) : Follows φ id (declare name) (Run.declare name) m := by
  apply get
  simp only [Machine.environments_relabel, Machine.scope_relabel, Environments.slotFor_map]
  exact (define m.scope name none).bind fun _ _ => pure (f := id) _

theorem read (site : Option Binding) (name : Lexeme) :
    Follows φ (Value.relabel φ) (read site name) (Run.read site (name.relabel φ)) m := by
  apply get
  simp only [Machine.place?_relabel, Lexeme.text_relabel, Lexeme.line_relabel,
    Machine.environments_relabel]
  cases m.place? site name.text with
  | none => exact raise _ _
  | some place =>
    simp only [Environments.getSlot_map]
    cases m.environments.getSlot place.1 place.2 with
    | found v => exact pure v
    | unassigned | missing => exact raise _ _

theorem assign (site : Option Binding) (name : Lexeme) (v : Value ρ EnvId) :
    Follows φ id (assign site name v) (Run.assign site (name.relabel φ) (v.relabel φ)) m := by
  apply get
  simp only [Machine.place?_relabel, Lexeme.text_relabel, Lexeme.line_relabel]
  cases m.place? site name.text with
  | none => exact raise _ _
  | some place => exact put _ _ v

theorem newObject : Follows φ id newObject Run.newObject m := by
  apply modifyGet
  simp only [Machine.relabel, Array.size_map, Array.map_push]
  rfl

theorem setField (id : ObjectId) (name : String) (v : Value ρ EnvId) :
    Follows φ (fun u => u) (setField id name v) (Run.setField id name (v.relabel φ)) m := by
  apply modifyGet
  simp only [Machine.relabel]
  congr 2
  apply Array.ext_getElem?
  intro i
  simp only [Array.getElem?_map, Array.getElem?_modify]
  by_cases h : id = i
  · rw [if_pos h, if_pos h]
    cases m.objects[i]? with
    | none => rfl
    | some fs => exact congrArg some (fs.relabel_insert φ name v).symm
  · rw [if_neg h, if_neg h]

theorem write (text : String) : Follows φ id (write text) (Run.write text) m := by
  unfold Follows Run.write Machine.relabel
  obtain ⟨environments, scope, objects, ⟨console, files, clock, explored⟩⟩ := m
  dsimp only
  obtain ⟨_ | _, console⟩ := console.write (Text.Utf8.encode text) <;> rfl

theorem flush : Follows φ id flush Run.flush m := by
  apply get
  rw [Machine.host_relabel]
  split
  · exact throw _
  · exact pure _

theorem native (n : Native) (as : List (Value ρ EnvId)) (h : as.length = n.arity)
    (h' : (as.map (Value.relabel φ)).length = n.arity) :
    Follows φ (Value.relabel φ) (native n as h) (Run.native n (as.map (Value.relabel φ)) h') m := by
  have hb : (Value.bare ∘ Value.relabel φ : Value ρ EnvId → Value Unit Unit) = Value.bare := by
    funext v
    cases v <;> simp only [Function.comp, Value.relabel, Value.bare, Class.id_relabel,
      Class.name_relabel, Function.relabel]
  have ha : as.map Value.bare = (as.map (Value.relabel φ)).map Value.bare := by
    rw [List.map_map, hb]
  obtain ⟨w, hw, hw'⟩ := n.run_alike ha h h'
  unfold Follows Run.native Machine.relabel
  obtain ⟨environments, scope, objects, host⟩ := m
  simp only [hw, hw', Functor.map, EStateM.map]
  cases w host with
  | ok v host => cases v <;> rfl
  | error fault host => rfl

end Follows

end Run

open Run

section Steps

variable {φ : Relabeling ρ σ} {m : Machine ρ}

theorem Function.bind_follows (f : Function ρ EnvId) (receiver : Value ρ EnvId) :
    Follows φ (Function.relabel φ) (f.bind receiver)
      ((f.relabel φ).bind (receiver.relabel φ)) m := by
  apply (Follows.nestIn f.closure.scope).bind
  intro e m
  exact (Follows.define e "this" (some receiver)).bind fun _ _ => Follows.pure (f.within e)

theorem bindMethod_follows (method : Option (Function ρ EnvId)) (receiver : Value ρ EnvId)
    (name : Lexeme) :
    Follows φ (Value.relabel φ) (bindMethod method receiver name)
      (bindMethod (method.map (Function.relabel φ)) (receiver.relabel φ) (name.relabel φ)) m := by
  cases method with
  | none => exact Follows.raise _ _
  | some f =>
    apply (f.bind_follows receiver).bind
    intro f m
    exact Follows.newObject.bind fun id _ => Follows.pure (Value.function id f)

theorem Value.getProperty_follows (object : Value ρ EnvId) (name : Lexeme) :
    Follows φ (Value.relabel φ) (object.getProperty name)
      ((object.relabel φ).getProperty (name.relabel φ)) m := by
  cases object with
  | «instance» id c =>
    apply Follows.get
    simp only [Machine.field?_relabel, Lexeme.text_relabel, Class.findMethod?_relabel]
    cases m.field? id name.text with
    | some v => exact Follows.pure v
    | none => exact bindMethod_follows _ (.instance id c) name
  | «class» c =>
    by_cases h : name.text = Scoping.initializerName
    · have h' : (name.relabel φ).text = Scoping.initializerName := h
      simp only [Value.relabel, Value.getProperty, if_pos h, if_pos h']
      exact Follows.raise _ _
    · have h' : (name.relabel φ).text ≠ Scoping.initializerName := h
      simp only [Value.relabel, Value.getProperty, if_neg h, if_neg h']
      apply Follows.get
      simp only [Machine.field?_relabel, Lexeme.text_relabel, Class.id_relabel, Class.findClassMethod?_relabel]
      cases m.field? c.id name.text with
      | some v => exact Follows.pure v
      | none => exact bindMethod_follows _ (.class c) name
  | _ => exact Follows.raise _ _

theorem getSuper_follows (site : Option Binding) (keyword method : Lexeme) :
    Follows φ (Value.relabel φ) (getSuper site keyword method)
      (getSuper site (keyword.relabel φ) (method.relabel φ)) m := by
  apply Follows.get
  obtain _ | ⟨_ | distance, slot⟩ := site
  · exact Follows.raise _ _
  · exact Follows.raise _ _
  · simp only [Machine.environments_relabel, Machine.scope_relabel, Environments.getAt_map]
    cases m.environments.getAt m.scope (distance + 1) slot with
    | missing | unassigned => exact Follows.raise _ _
    | found superclass =>
      cases superclass with
      | «class» c =>
        cases m.environments.getAt m.scope distance 0 with
        | missing | unassigned => exact Follows.raise _ _
        | found receiver =>
          cases receiver with
          | «instance» id k =>
            have h := bindMethod_follows (φ := φ) (m := m) (c.findMethod? method.text)
              (.instance id k) method
            rw [← Class.findMethod?_relabel] at h
            exact h
          | «class» k =>
            have h := bindMethod_follows (φ := φ) (m := m) (c.findClassMethod? method.text)
              (.class k) method
            rw [← Class.findClassMethod?_relabel] at h
            exact h
          | _ => exact Follows.raise _ _
      | _ => exact Follows.raise _ _

theorem Value.fieldsOf?_relabel (v : Value ρ κ) : (v.relabel φ).fieldsOf? = v.fieldsOf? := by
  cases v <;> simp only [Value.relabel, Value.fieldsOf?, Class.id_relabel]

theorem methodTable_relabel (scope : κ) (initializer : Lexeme → Bool)
    (h : ∀ l, initializer (l.relabel φ) = initializer l) (ds : List (Definition ρ)) :
    methodTable scope initializer (ds.map (Definition.relabel φ)) =
      (methodTable scope initializer ds).map (Function.relabel φ) := by
  simp only [methodTable, List.map_map, List.map_reverse]
  congr 2
  funext d
  cases d
  simp only [Function.comp, Definition.relabel, Function.relabel, Closure.relabel, h,
    Lexeme.text_relabel]

theorem methodScope_follows (parent : Option (Class ρ EnvId)) :
    Follows φ id (methodScope parent) (methodScope (parent.map (Class.relabel φ))) m := by
  cases parent with
  | none => exact Follows.get (Follows.pure (f := id) m.scope)
  | some c =>
    apply Follows.nest.bind
    intro e m
    exact (Follows.define e "super" (some (.class c))).bind fun _ _ => Follows.pure (f := id) e

theorem defineAll_follows (e : EnvId) (names : List Lexeme) (vs : List (Value ρ EnvId)) :
    Follows φ id (defineAll e names vs)
      (defineAll e (names.map (Lexeme.relabel φ)) (vs.map (Value.relabel φ))) m := by
  induction names generalizing vs m with
  | nil => exact Follows.pure (f := id) ()
  | cons name names ih =>
    cases vs with
    | nil => exact Follows.pure (f := id) ()
    | cons v vs => exact (Follows.define e name.text (some v)).bind fun _ _ => ih vs

theorem checkArity_follows (expected : Nat) (as : List (Value ρ EnvId)) (line : Nat) :
    Follows φ id (checkArity expected as line)
      (checkArity expected (as.map (Value.relabel φ)) (φ.line line)) m := by
  simp only [checkArity, List.length_map]
  split
  · exact Follows.pure (f := id) ()
  · exact Follows.raise _ _

variable {site : ρ → Option Binding} {site' : σ → Option Binding}
  {x : Stmt ρ → Run ρ (Outcome ρ EnvId)} {y : Stmt σ → Run σ (Outcome σ EnvId)}
  {u : Expr ρ → Run ρ (Value ρ EnvId)} {v : Expr σ → Run σ (Value σ EnvId)}
  (hs : ∀ r, site' (φ.ref r) = site r)
  (hx : ∀ s m, Follows φ (Outcome.relabel φ) (x s) (y (s.relabel φ)) m)
  (hu : ∀ e m, Follows φ (Value.relabel φ) (u e) (v (e.relabel φ)) m)

include hs in
theorem readSuperclass_follows (superclass : Option (ρ × Lexeme)) :
    Follows φ (Option.map (Class.relabel φ)) (readSuperclass site superclass)
      (readSuperclass site' (superclass.map fun (r, l) => (φ.ref r, l.relabel φ))) m := by
  obtain _ | ⟨r, name⟩ := superclass
  · exact Follows.pure (f := Option.map (Class.relabel φ)) none
  · simp only [readSuperclass, Option.map_some, hs]
    apply (Follows.read (site r) name).bind
    intro v m
    cases v with
    | «class» c => exact Follows.pure (f := Option.map (Class.relabel φ)) (some c)
    | _ => exact Follows.raise _ _

include hs in
theorem defineClass_follows (name : Lexeme) (superclass : Option (ρ × Lexeme)) (methods classMethods : List (Definition ρ)) :
    Follows φ id (defineClass site name superclass methods classMethods)
      (defineClass site' (name.relabel φ) (superclass.map fun (r, l) => (φ.ref r, l.relabel φ))
        (methods.map (Definition.relabel φ)) (classMethods.map (Definition.relabel φ))) m := by
  apply (readSuperclass_follows hs superclass).bind
  intro parent m
  apply (Follows.declare name.text).bind
  intro slot m
  apply (methodScope_follows parent).bind
  intro scope m
  apply Follows.newObject.bind
  intro id m
  apply Follows.get
  have h := Follows.put (φ := φ) (m := m) m.scope slot
    (.class ⟨id, name.text, parent, methodTable scope (·.text == Scoping.initializerName) methods,
      methodTable scope (fun _ => false) classMethods⟩)
  change Follows φ _ _ (put m.scope slot (.class ⟨id, name.text, parent.map (Class.relabel φ),
    methodTable scope (·.text == Scoping.initializerName) (methods.map (Definition.relabel φ)),
    methodTable scope (fun _ => false) (classMethods.map (Definition.relabel φ))⟩)) m
  rw [methodTable_relabel scope _ fun _ => rfl, methodTable_relabel scope _ fun _ => rfl]
  cases parent <;> exact h

include hx in
theorem execAll_follows (ss : List (Stmt ρ)) :
    Follows φ (Outcome.relabel φ) (execAll x ss) (execAll y (ss.map (Stmt.relabel φ))) m := by
  induction ss generalizing m with
  | nil => exact Follows.pure (f := Outcome.relabel φ) .normal
  | cons s ss ih =>
    apply (hx s m).bind
    intro o m
    cases o with
    | normal => exact ih
    | broke => exact Follows.pure (f := Outcome.relabel φ) .broke
    | returned v => exact Follows.pure (f := Outcome.relabel φ) (.returned v)

include hu in
theorem evalAll_follows (es : List (Expr ρ)) :
    Follows φ (List.map (Value.relabel φ)) (evalAll u es) (evalAll v (es.map (Expr.relabel φ))) m := by
  induction es generalizing m with
  | nil => exact Follows.pure (f := List.map (Value.relabel φ)) []
  | cons e es ih =>
    apply (hu e m).bind
    intro v m
    exact ih.bind fun vs _ => Follows.pure (f := List.map (Value.relabel φ)) (v :: vs)

include hx in
theorem Closure.call_follows (c : Closure ρ EnvId) (as : List (Value ρ EnvId)) :
    Follows φ (Value.relabel φ) (c.call x as)
      ((c.relabel φ).call y (as.map (Value.relabel φ))) m := by
  apply (Follows.nestIn c.scope).bind
  intro e m
  simp only [Closure.relabel, Routine.params_relabel, Routine.body_relabel]
  apply (defineAll_follows e c.routine.params as).bind
  intro _ m
  apply (Follows.inScope e (execAll_follows hx c.routine.body)).bind
  intro o m
  cases o with
  | returned v => exact Follows.pure v
  | normal | broke => exact Follows.pure (f := Value.relabel φ) .nil

include hx in
theorem Function.call_follows (f : Function ρ EnvId) (as : List (Value ρ EnvId)) :
    Follows φ (Value.relabel φ) (f.call x as)
      ((f.relabel φ).call y (as.map (Value.relabel φ))) m := by
  apply (f.closure.call_follows hx as).bind
  intro v m
  by_cases hi : f.initializer = true
  · have hi' : (f.relabel φ).initializer = true := hi
    rw [if_pos hi, if_pos hi']
    apply Follows.get
    simp only [Function.relabel, Closure.relabel, Machine.environments_relabel, Environments.getSlot_map]
    cases m.environments.getSlot f.closure.scope 0 with
    | found receiver => exact Follows.pure receiver
    | missing | unassigned => exact Follows.pure (f := Value.relabel φ) .nil
  · have hi' : (f.relabel φ).initializer ≠ true := hi
    rw [if_neg hi, if_neg hi']
    exact Follows.pure v

include hx in
theorem Class.instantiate_follows (c : Class ρ EnvId) (as : List (Value ρ EnvId)) :
    Follows φ (Value.relabel φ) (c.instantiate x as)
      ((c.relabel φ).instantiate y (as.map (Value.relabel φ))) m := by
  apply Follows.newObject.bind
  intro id m
  simp only [Class.initializer?_relabel]
  cases c.initializer? with
  | none => exact Follows.pure (f := Value.relabel φ) (.instance id c)
  | some f =>
    apply (f.bind_follows (.instance id c)).bind
    intro f m
    apply (f.call_follows hx as).bind
    intro _ m
    exact Follows.pure (f := Value.relabel φ) (.instance id c)

include hx in
theorem Value.call_follows (callee : Value ρ EnvId) (as : List (Value ρ EnvId)) (line : Nat) :
    Follows φ (Value.relabel φ) (callee.call x as line)
      ((callee.relabel φ).call y (as.map (Value.relabel φ)) (φ.line line)) m := by
  cases callee with
  | function id f =>
    simp only [Value.relabel, Value.call, Function.arity_relabel]
    exact (checkArity_follows f.arity as line).bind fun _ _ => (f.call_follows hx as).onLine line
  | lambda id l c =>
    simp only [Value.relabel, Value.call, Closure.relabel, Routine.params_relabel, List.length_map]
    exact (checkArity_follows _ as line).bind fun _ _ => (c.call_follows hx as).onLine line
  | «class» c =>
    simp only [Value.relabel, Value.call, Class.arity_relabel]
    exact (checkArity_follows c.arity as line).bind fun _ _ =>
      (c.instantiate_follows hx as).onLine line
  | native n =>
    simp only [Value.relabel, Value.call, List.length_map]
    split
    · exact (Follows.native n as _ _).onLine line
    · exact Follows.raise _ _
  | _ => exact Follows.raise _ _

include hu in
theorem defineVariable_follows (name : Lexeme) (initial : Option (Expr ρ)) :
    Follows φ id (defineVariable u name initial)
      (defineVariable v (name.relabel φ) (initial.map (Expr.relabel φ))) m := by
  cases initial with
  | none =>
    apply Follows.get
    by_cases h : m.scope = EnvId.global
    · have h' : (m.relabel φ).scope = EnvId.global := h
      rw [if_pos h, if_pos h']
      exact Follows.define m.scope name.text none
    · have h' : (m.relabel φ).scope ≠ EnvId.global := h
      rw [if_neg h, if_neg h']
      exact (Follows.declare name.text).bind fun _ _ => Follows.pure (f := id) ()
  | some i =>
    apply Follows.get
    by_cases h : m.scope = EnvId.global
    · have h' : (m.relabel φ).scope = EnvId.global := h
      rw [if_pos h, if_pos h']
      apply ((hu i m).map some some (Option.map (Value.relabel φ)) fun _ => rfl).bind
      intro w m'
      exact Follows.define m.scope name.text w
    · have h' : (m.relabel φ).scope ≠ EnvId.global := h
      rw [if_neg h, if_neg h']
      apply (Follows.declare name.text).bind
      intro slot m'
      apply (hu i m').bind
      intro w m'
      exact Follows.put m.scope slot w

include hs hx hu in
theorem evalStep_follows (e : Expr ρ) :
    Follows φ (Value.relabel φ) (evalStep site x u e) (evalStep site' y v (e.relabel φ)) m := by
  cases e with
  | literal l => cases l <;> exact Follows.pure (f := Value.relabel φ) _
  | «variable» r name | this r name =>
    simp only [evalStep, Expr.relabel, hs]
    exact Follows.read _ _
  | assign r name e =>
    simp only [evalStep, Expr.relabel, hs]
    apply (hu e m).bind
    intro w m
    exact (Follows.assign _ _ w).bind fun _ _ => Follows.pure w
  | super r keyword method =>
    simp only [evalStep, Expr.relabel, hs]
    exact getSuper_follows _ _ _
  | unary op sign e =>
    apply (hu e m).bind
    intro w m
    rw [Lexeme.line_relabel, UnaryOp.apply_relabel]
    exact Follows.ofExcept
  | binary op sign l r =>
    apply (hu l m).bind
    intro w m
    apply (hu r m).bind
    intro w' m
    rw [Lexeme.line_relabel, BinaryOp.apply_relabel]
    exact Follows.ofExcept
  | logical op sign l r =>
    apply (hu l m).bind
    intro w m
    rw [LogicalOp.decides_relabel]
    split
    · exact Follows.pure w
    · exact hu r m
  | ternary c yes no =>
    apply (hu c m).bind
    intro w m
    rw [Value.truthy_relabel]
    split
    · exact hu yes m
    · exact hu no m
  | group e => exact hu e m
  | call c as line =>
    simp only [evalStep, Expr.relabel, Expr.relabelAll_eq_map]
    apply (hu c m).bind
    intro w m
    apply (evalAll_follows hu as).bind
    intro ws m
    exact w.call_follows hx ws line
  | get o name =>
    apply (hu o m).bind
    intro w m
    exact w.getProperty_follows name
  | set o name e =>
    apply (hu o m).bind
    intro w m
    rw [Value.fieldsOf?_relabel]
    cases w.fieldsOf? with
    | none => exact Follows.raise _ _
    | some id =>
      apply (hu e m).bind
      intro w m
      exact (Follows.setField id name.text w).bind fun _ _ => Follows.pure w
  | lambda line r =>
    apply Follows.get
    apply Follows.newObject.bind
    intro id m'
    exact Follows.pure (f := Value.relabel φ) (.lambda id line ⟨r, m.scope⟩)

include hs hx hu in
theorem execStep_follows (s : Stmt ρ) :
    Follows φ (Outcome.relabel φ) (execStep site x u s) (execStep site' y v (s.relabel φ)) m := by
  have normal (m : Machine ρ) : Follows φ (Outcome.relabel (κ := EnvId) φ) (Pure.pure .normal)
      (Pure.pure .normal) m := Follows.pure (f := Outcome.relabel φ) .normal
  cases s with
  | expr e => exact (hu e m).bind fun _ m => normal m
  | print e =>
    apply (hu e m).bind
    intro w m
    rw [Value.display_relabel]
    apply (Follows.write (w.display ++ "\n")).bind
    exact fun _ m => normal m
  | var name initial =>
    have h : Follows φ (Outcome.relabel φ) (execStep site x u (.var name initial))
        (execStep site' y v (.var (name.relabel φ) (initial.map (Expr.relabel φ)))) m :=
      (defineVariable_follows hu name initial).bind fun _ m => normal m
    cases initial <;> exact h
  | block b =>
    simp only [execStep, Stmt.relabel, Stmt.relabelAll_eq_map]
    apply Follows.nest.bind
    intro e m
    exact Follows.inScope e (execAll_follows hx b)
  | «if» c yes no =>
    have h : Follows φ (Outcome.relabel φ) (execStep site x u (.if c yes no))
        (execStep site' y v (.if (c.relabel φ) (yes.relabel φ) (no.map (Stmt.relabel φ)))) m := by
      apply (hu c m).bind
      intro w m
      rw [Value.truthy_relabel]
      split
      · exact hx yes m
      · cases no with
        | none => exact normal m
        | some no => exact hx no m
    cases no <;> exact h
  | «while» c b =>
    apply (hu c m).bind
    intro w m
    rw [Value.truthy_relabel]
    split
    · apply (hx b m).bind
      intro o m
      cases o with
      | normal => exact hx (.while c b) m
      | broke => exact normal m
      | returned w => exact Follows.pure (f := Outcome.relabel φ) (.returned w)
    · exact normal m
  | «break» keyword => exact Follows.pure (f := Outcome.relabel φ) .broke
  | «return» keyword value =>
    cases value with
    | none => exact Follows.pure (f := Outcome.relabel φ) (.returned .nil)
    | some e => exact (hu e m).bind fun w _ => Follows.pure (f := Outcome.relabel φ) (.returned w)
  | function d =>
    obtain ⟨name, r⟩ := d
    apply Follows.get
    apply Follows.newObject.bind
    intro id m'
    apply (Follows.define m.scope name.text
      (some (.function id ⟨name.text, ⟨r, m.scope⟩, false⟩))).bind
    exact fun _ m => normal m
  | «class» name superclass methods classMethods =>
    simp only [execStep, Stmt.relabel, Definition.relabelAll_eq_map]
    exact (defineClass_follows hs name superclass methods classMethods).bind fun _ m => normal m

end Steps

section Evaluator

variable {φ : Relabeling ρ σ} {site : ρ → Option Binding} {site' : σ → Option Binding}
  (hs : ∀ r, site' (φ.ref r) = site r)

include hs

theorem exec_eval_follow (fuel : Nat) :
    (∀ s m, Follows φ (Outcome.relabel φ) (exec site fuel s) (exec site' fuel (s.relabel φ)) m) ∧
    (∀ e m, Follows φ (Value.relabel φ) (eval site fuel e) (eval site' fuel (e.relabel φ)) m) := by
  induction fuel with
  | zero =>
    constructor
    · intro s m
      simp only [exec]
      exact Follows.throw .outOfFuel
    · intro e m
      simp only [eval]
      exact Follows.throw .outOfFuel
  | succ fuel ih =>
    constructor
    · intro s m
      simpa only [exec] using execStep_follows hs ih.1 ih.2 s
    · intro e m
      simpa only [eval] using evalStep_follows hs ih.1 ih.2 e

theorem interpretFrom_follows (fuel : Nat) (last : Value ρ EnvId) (ss : List (Stmt ρ))
    (m : Machine ρ) :
    Follows φ (Value.relabel φ) (interpretFrom site fuel last ss)
      (interpretFrom site' fuel (last.relabel φ) (ss.map (Stmt.relabel φ))) m := by
  have hx := (exec_eval_follow hs fuel).1
  have hu := (exec_eval_follow hs fuel).2
  induction ss generalizing last m with
  | nil => exact Follows.pure last
  | cons s ss ih =>
    cases s with
    | expr e => exact (hu e m).bind fun v m => ih v m
    | var name initial => cases initial <;> exact (hx _ m).bind fun _ m => ih last m
    | «if» c yes no => cases no <;> exact (hx _ m).bind fun _ m => ih last m
    | «return» keyword value => cases value <;> exact (hx _ m).bind fun _ m => ih last m
    | _ => exact (hx _ m).bind fun _ m => ih last m

/-- A relabelled program answers as the program does, relabelled. -/
theorem interpret_follows (fuel : Nat) (p : List (Stmt ρ)) (m : Machine ρ) :
    Follows φ (Value.relabel φ) (interpret site fuel p)
      (interpret site' fuel (p.map (Stmt.relabel φ))) m := by
  apply (interpretFrom_follows hs fuel .nil p m).bind
  intro v m
  exact Follows.flush.bind fun _ _ => Follows.pure v

end Evaluator

end Lox
