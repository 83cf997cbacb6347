import Lox.Proofs.Environment
import Lox.Proofs.Session.Grounded
import Lox.Proofs.Steady

/-!
The current environment. A phrase may run in other environments on its way, but it leaves the machine
in the one that it found, whether it ends or fails. So between its statements a program is always in
the global environment, after whatever errors there were before, and what it declares there is global.
-/

namespace Lox

open Run

variable {ρ α β : Type}

namespace Run

/-- The machine that a phrase leaves, however it ends. -/
def leaves (p : Run ρ α) (m : Machine ρ) : Machine ρ :=
  match p m with
  | .ok _ m' | .error _ m' => m'

theorem leaves_ok {p : Run ρ α} {m m' : Machine ρ} {a : α} (h : p m = .ok a m') :
    leaves p m = m' := by
  rw [leaves, h]

theorem leaves_error {p : Run ρ α} {m m' : Machine ρ} {stop : Stop} (h : p m = .error stop m') :
    leaves p m = m' := by
  rw [leaves, h]

/-- What a phrase answers, and the machine that it leaves, if it ends well. -/
def answer? (p : Run ρ α) (m : Machine ρ) : Option (α × Machine ρ) :=
  match p m with
  | .ok a m' => some (a, m')
  | .error _ _ => none

theorem of_answer? {p : Run ρ α} {m m' : Machine ρ} {a : α} (h : answer? p m = some (a, m')) :
    p m = .ok a m' := by
  rw [answer?] at h
  cases hp : p m with
  | ok b m₁ =>
    rw [hp] at h
    cases h
    rfl
  | error stop m₁ =>
    rw [hp] at h
    cases h

/-- The error that a phrase ends with, and the machine that it leaves, if it fails. -/
def failure? (p : Run ρ α) (m : Machine ρ) : Option (RuntimeError × Machine ρ) :=
  match p m with
  | .ok _ _ => none
  | .error stop m' => match stop with
    | .error e => some (e, m')
    | .outOfFuel => none

theorem of_failure? {p : Run ρ α} {m m' : Machine ρ} {e : RuntimeError}
    (h : failure? p m = some (e, m')) : p m = .error (.error e) m' := by
  rw [failure?] at h
  cases hp : p m with
  | ok b m₁ =>
    rw [hp] at h
    cases h
  | error stop m₁ =>
    rw [hp] at h
    cases stop with
    | error e' =>
      cases h
      rfl
    | outOfFuel => cases h

theorem Keeps.leaves {R : Machine ρ → Machine ρ → Prop} {p : Run ρ α} (hp : Keeps R p)
    (m : Machine ρ) : R m (leaves p m) := by
  have h := hp m
  unfold Run.leaves
  cases hm : p m with
  | ok a m' | error stop m' =>
    rw [hm] at h
    exact h

theorem steady_scope : Steady fun (m m' : Machine ρ) => m'.scope = m.scope where
  refl _ := rfl
  trans h h' := h'.trans h
  enter _ _ := rfl
  nestIn _ _ := rfl
  define _ _ _ _ := rfl
  put _ _ _ _ := rfl
  newObject _ := rfl
  setField _ _ _ _ := rfl
  write text m := by
    simp only [Run.write]
    cases m.host.console.write (Text.Utf8.encode text) with
    | mk fits console => cases fits <;> rfl
  native n as h m := by
    simp only [Run.native]
    cases n.run as h m.host <;> rfl

/-- No environment is ever taken away. -/
theorem steady_size :
    Steady fun (m m' : Machine ρ) => m.environments.all.size ≤ m'.environments.all.size where
  refl _ := Nat.le_refl _
  trans := Nat.le_trans
  enter _ h := h
  nestIn e m := by
    change m.environments.all.size ≤ (m.environments.nest e).all.size
    rw [Environments.size_nest]
    exact Nat.le_succ _
  define e name v m := Nat.le_of_eq (m.environments.size_modify e _).symm
  put e slot v m := Nat.le_of_eq (m.environments.size_modify e _).symm
  newObject _ := Nat.le_refl _
  setField _ _ _ _ := Nat.le_refl _
  write text m := by
    simp only [Run.write]
    cases m.host.console.write (Text.Utf8.encode text) with
    | mk fits console => cases fits <;> exact Nat.le_refl _
  native n as h m := by
    simp only [Run.native]
    cases n.run as h m.host <;> exact Nat.le_refl _

end Run

/-- The machine is in the global environment, which is there. -/
structure Machine.AtTop (m : Machine ρ) : Prop where
  scope : m.scope = .global
  size : EnvId.global < m.environments.all.size

theorem Machine.AtTop.leaves {m : Machine ρ} (hm : m.AtTop) {p : Run ρ α}
    (hs : Keeps (fun m m' => m'.scope = m.scope) p)
    (hn : Keeps (fun m m' => m.environments.all.size ≤ m'.environments.all.size) p) :
    (leaves p m).AtTop :=
  ⟨(hs.leaves m).trans hm.scope, Nat.lt_of_lt_of_le hm.size (hn.leaves m)⟩

theorem Machine.atTop_start (host : Host) : (start host : Machine ρ).AtTop := by
  have natives (ns : List Native) (s : Environments (Value ρ EnvId)) (h : 0 < s.all.size) :
      0 < (ns.foldl (fun s n => s.define .global n.name (some (.native n))) s).all.size := by
    induction ns generalizing s with
    | nil => exact h
    | cons n ns ih => exact ih _ (Nat.lt_of_lt_of_eq h (s.size_modify _ _).symm)
  exact ⟨rfl, natives Native.all {} Nat.one_pos⟩

/-- Every step of a session starts in the global environment. -/
theorem History.Reachable.atTop {h : History} (hr : h.Reachable) : h.session.machine.AtTop := by
  refine hr.induction (P := fun h => h.session.machine.AtTop)
    (fun host _ => Machine.atTop_start host) fun h step hh => ?_
  refine perform_keeps (P := fun h => h.session.machine.AtTop) (fun _ _ hh _ => hh)
    (fun _ _ hh => hh) ?_ (fun _ hh => hh) hh step
  intro h fuel p answer hh _
  have left := hh.leaves (interpret_keeps steady_scope h.session.bindings.find? fuel p)
    (interpret_keeps steady_size h.session.bindings.find? fuel p)
  rw [snd_executing]
  cases hi : interpret h.session.bindings.find? fuel p h.session.machine with
  | ok v m =>
    rw [leaves_ok hi] at left
    exact left
  | error stop m =>
    rw [leaves_error hi] at left
    exact left

/-! Declarations outside of all scopes. -/

/-- The name that a statement declares, if it is a declaration. -/
def Stmt.declared? : Stmt ρ → Option Lexeme
  | .var name _ | .class name _ _ _ | .function ⟨name, _⟩ => some name
  | _ => none

/-- What a declaration gives its name, and the machine in which that is known. -/
inductive Stmt.Gives (site : ρ → Option Binding) (fuel : Nat) (m : Machine ρ) :
    Stmt ρ → Option (Value ρ EnvId) → Machine ρ → Prop where
  | unassigned (name : Lexeme) : Gives site fuel m (.var name none) none m
  | initial (name : Lexeme) {e : Expr ρ} {v : Value ρ EnvId} {m₁ : Machine ρ}
      (h : eval site fuel e m = .ok v m₁) : Gives site fuel m (.var name (some e)) (some v) m₁
  | function (name : Lexeme) (r : Routine ρ) (id : ObjectId) :
      Gives site fuel m (.function ⟨name, r⟩)
        (some (.function id ⟨name.text, ⟨r, .global⟩, false⟩)) m
  | class (name : Lexeme) (superclass : Option (ρ × Lexeme)) (ms cs : List (Definition ρ))
      (c : Class ρ EnvId) (h : c.name = name.text) :
      Gives site fuel m (.class name superclass ms cs) (some (.class c)) m

/-- A declaration fails only with what it has to know first. -/
def Stmt.FailsFirst (site : ρ → Option Binding) (fuel : Nat) (m : Machine ρ) (stop : Stop)
    (m' : Machine ρ) : Stmt ρ → Prop
  | .var _ (some e) => eval site fuel e m = .error stop m'
  | .class _ superclass _ _ => readSuperclass site superclass m = .error stop m'
  | _ => False

/-- The second machine has a global of that name and value, and of the local variables of the first
one the same. -/
structure Machine.Globalizes (m m' : Machine ρ) (name : String) (v : Option (Value ρ EnvId)) :
    Prop where
  global : m'.environments.get .global name = .ofOption v
  locals : ∀ e, e ≠ EnvId.global → e < m.environments.all.size →
    m'.environments.all[e]? = m.environments.all[e]?

theorem Machine.AtTop.globalizes {m : Machine ρ} (hm : m.AtTop) (name : String)
    (v : Option (Value ρ EnvId)) {scope : EnvId} {objects : Array (Fields ρ EnvId)} {host : Host} :
    m.Globalizes ⟨m.environments.define m.scope name v, scope, objects, host⟩ name v where
  global := by
    rw [hm.scope]
    exact Environments.get_define hm.size name v
  locals e he _ := by rw [hm.scope, Environments.all_define, if_neg (Ne.symm he)]

/-- A class gets its value in the slot that its declaration took, while other environments may be
new. -/
theorem Machine.AtTop.globalizes_put {m : Machine ρ} (hm : m.AtTop) {name : String}
    {environments : Environments (Value ρ EnvId)}
    (kept : ∀ e, e < m.environments.all.size →
      environments.all[e]? = (m.environments.define .global name none).all[e]?)
    (v : Value ρ EnvId) {scope : EnvId} {objects : Array (Fields ρ EnvId)} {host : Host} :
    m.Globalizes ⟨environments.put m.scope (m.environments.slotFor m.scope name) v, scope, objects,
      host⟩ name (some v) where
  global := by
    have hg : environments.all[EnvId.global]? =
        (m.environments.all[EnvId.global]?).map (·.define name none) := by
      rw [kept _ hm.size, Environments.all_define, if_pos rfl]
    rw [Array.getElem?_eq_getElem hm.size] at hg
    rw [hm.scope, Environments.get, Environments.all_put, if_pos rfl, hg,
      Environments.slotFor_eq hm.size]
    exact Environment.get_putSlot (Environment.slot?_define _ name none) (some v)
  locals e hne hlt := by
    rw [hm.scope, Environments.all_put, if_neg (Ne.symm hne), kept e hlt, Environments.all_define,
      if_neg (Ne.symm hne)]

section Declarations

variable {site : ρ → Option Binding} {fuel : Nat} {m m' : Machine ρ}

theorem methodScope_run (parent : Option (Class ρ EnvId)) (m : Machine ρ) :
    ∃ scope environments, methodScope parent m = .ok scope { m with environments } ∧
      m.environments.all.size ≤ environments.all.size ∧
      ∀ e, e < m.environments.all.size → environments.all[e]? = m.environments.all[e]? := by
  cases parent with
  | none => exact ⟨m.scope, m.environments, rfl, Nat.le_refl _, fun _ _ => rfl⟩
  | some c =>
    refine ⟨m.environments.fresh, (m.environments.nest m.scope).define m.environments.fresh
      "super" (some (.class c)), rfl, ?_, fun e he => ?_⟩
    · rw [Environments.define, Environments.size_modify, Environments.size_nest]
      exact Nat.le_succ _
    · have hne : e ≠ m.environments.fresh := Nat.ne_of_lt he
      rw [Environments.all_define, if_neg (Ne.symm hne), Environments.all_nest, if_neg hne]

theorem read_ok {b : Option Binding} {name : Lexeme} {v : Value ρ EnvId}
    (h : read b name m = .ok v m') : m' = m := by
  obtain ⟨m₁, _, hm, h⟩ := bind_ok h
  cases hm
  cases hp : m.place? b name.text with
  | none =>
    simp only [hp] at h
    cases h
  | some place =>
    simp only [hp] at h
    cases hg : m.environments.getSlot place.1 place.2 with
    | found w =>
      simp only [hg] at h
      cases h
      rfl
    | unassigned | missing =>
      simp only [hg] at h
      cases h

theorem readSuperclass_ok {superclass : Option (ρ × Lexeme)} {c : Option (Class ρ EnvId)}
    (h : readSuperclass site superclass m = .ok c m') : m' = m := by
  cases superclass with
  | none =>
    cases h
    rfl
  | some s =>
    obtain ⟨v, m₁, hr, h⟩ := bind_ok h
    cases v with
    | «class» c =>
      cases h
      exact read_ok hr
    | _ => cases h

theorem defineVariable_atTop {eval : Expr ρ → Run ρ (Value ρ EnvId)} (hm : m.scope = .global)
    (name : Lexeme) (e : Expr ρ) :
    defineVariable eval name (some e) m = match eval e m with
      | .ok v m₁ => define .global name.text (some v) m₁
      | .error stop m₁ => .error stop m₁ := by
  change (if m.scope = EnvId.global then _ else _ : Run ρ Unit) m = _
  rw [if_pos hm, hm]
  change (EStateM.bind (EStateM.map some (eval e)) _ : Run ρ Unit) m = _
  simp only [EStateM.bind, EStateM.map]
  cases eval e m <;> rfl

theorem defineVariable_none_atTop {eval : Expr ρ → Run ρ (Value ρ EnvId)} (hm : m.scope = .global)
    (name : Lexeme) :
    defineVariable eval name none m = define m.scope name.text none m := by
  change (if m.scope = EnvId.global then _ else _ : Run ρ Unit) m = _
  rw [if_pos hm]
  rfl

theorem defineClass_run (site : ρ → Option Binding) (hm : m.AtTop) (name : Lexeme)
    (superclass : Option (ρ × Lexeme)) (ms cs : List (Definition ρ)) :
    match defineClass site name superclass ms cs m with
    | .ok _ m' => ∃ c : Class ρ EnvId, c.name = name.text ∧
      m.Globalizes m' name.text (some (.class c))
    | .error stop m' => readSuperclass site superclass m = .error stop m' := by
  unfold defineClass
  simp only [bind, EStateM.bind]
  cases hr : readSuperclass site superclass m with
  | error stop m₁ => rfl
  | ok parent m₁ =>
    cases readSuperclass_ok hr
    have declared : declare name.text m = .ok (m.environments.slotFor m.scope name.text)
      { m with environments := m.environments.define m.scope name.text none } := rfl
    obtain ⟨scope, environments, hs, hl, he⟩ := methodScope_run parent
      { m with environments := m.environments.define m.scope name.text none }
    simp only [declared, hs]
    let c : Class ρ EnvId := ⟨m.objects.size, name.text, parent,
      methodTable scope (fun l => l.text == Scoping.initializerName) ms,
      methodTable scope (fun _ => false) cs⟩
    have size := m.environments.size_modify m.scope (·.define name.text none)
    have kept (e : EnvId) (hlt : e < m.environments.all.size) :
        environments.all[e]? = (m.environments.define .global name.text none).all[e]? :=
      hm.scope ▸ he e (size ▸ hlt)
    exact ⟨c, rfl, hm.globalizes_put kept (.class c)⟩

/-- How a declaration outside of all scopes ends: it makes a global, or fails before that. -/
structure Stmt.MakesGlobal (site : ρ → Option Binding) (fuel : Nat) (m : Machine ρ) (s : Stmt ρ)
    (name : String) : Prop where
  made : ∀ o m', exec site (fuel + 1) s m = .ok o m' →
    o = .normal ∧ ∃ v m₁, s.Gives site fuel m v m₁ ∧ m₁.Globalizes m' name v
  failed : ∀ stop m', exec site (fuel + 1) s m = .error stop m' → s.FailsFirst site fuel m stop m'

theorem Stmt.makesGlobal_of_error {s : Stmt ρ} {name : String} {stop : Stop}
    (hx : exec site (fuel + 1) s m = .error stop m') (hf : s.FailsFirst site fuel m stop m') :
    s.MakesGlobal site fuel m name where
  made o m'' h := by
    rw [hx] at h
    cases h
  failed stop' m'' h := by
    rw [hx] at h
    cases h
    exact hf

theorem Stmt.makesGlobal_of_ok {s : Stmt ρ} {name : String} {v : Option (Value ρ EnvId)}
    {m₁ : Machine ρ} (hx : exec site (fuel + 1) s m = .ok .normal m')
    (hv : s.Gives site fuel m v m₁) (hg : m₁.Globalizes m' name v) :
    s.MakesGlobal site fuel m name where
  made o m'' h := by
    rw [hx] at h
    cases h
    exact ⟨rfl, v, m₁, hv, hg⟩
  failed stop m'' h := by
    rw [hx] at h
    cases h

theorem Machine.AtTop.makesGlobal (hm : m.AtTop) {s : Stmt ρ} {name : Lexeme}
    (hs : s.declared? = some name) : s.MakesGlobal site fuel m name.text := by
  cases s with
  | var x initial =>
    cases hs
    cases initial with
    | none =>
      have hx : exec site (fuel + 1) (.var name none) m = .ok .normal
          { m with environments := m.environments.define m.scope name.text none } := by
        simp only [exec, execStep, bind, EStateM.bind, defineVariable_none_atTop hm.scope]
        rfl
      exact Stmt.makesGlobal_of_ok hx (.unassigned name) (hm.globalizes name.text none)
    | some e =>
      have top := hm.leaves ((exec_eval_keep steady_scope site fuel).2 e)
        ((exec_eval_keep steady_size site fuel).2 e)
      cases he : eval site fuel e m with
      | error stop m₁ =>
        refine Stmt.makesGlobal_of_error ?_ he
        simp only [exec, execStep, bind, EStateM.bind, defineVariable_atTop hm.scope, he]
      | ok v m₁ =>
        rw [leaves_ok he] at top
        have hx : exec site (fuel + 1) (.var name (some e)) m = .ok .normal
            { m₁ with environments := m₁.environments.define m₁.scope name.text (some v) } := by
          simp only [exec, execStep, bind, EStateM.bind, defineVariable_atTop hm.scope, he]
          rw [← top.scope]
          rfl
        exact Stmt.makesGlobal_of_ok hx (.initial name he) (top.globalizes name.text (some v))
  | function d =>
    obtain ⟨name, r⟩ := d
    cases hs
    refine Stmt.makesGlobal_of_ok rfl (.function name r m.objects.size) ?_
    rw [← hm.scope]
    exact hm.globalizes name.text _
  | «class» x superclass ms cs =>
    cases hs
    have run := defineClass_run site hm name superclass ms cs
    cases hd : defineClass site name superclass ms cs m with
    | error stop m₁ =>
      rw [hd] at run
      refine Stmt.makesGlobal_of_error ?_ run
      simp only [exec, execStep, bind, EStateM.bind, hd]
    | ok u m₁ =>
      rw [hd] at run
      obtain ⟨c, hc, hg⟩ := run
      refine Stmt.makesGlobal_of_ok ?_ (.class name superclass ms cs c hc) hg
      simp only [exec, execStep, bind, EStateM.bind, hd]
      rfl
  | _ => cases hs

end Declarations

/-- However a phrase ends, it leaves the current environment as it was. So every step of a session
starts in the global environment, and so does each of its statements; a declaration there makes a
global, or fails with its initial value or its superclass. -/
theorem scope_restored :
    (∀ {ρ : Type} (site : ρ → Option Binding) (fuel : Nat) (m : Machine ρ),
      (∀ s, (leaves (exec site fuel s) m).scope = m.scope) ∧
        ∀ e, (leaves (eval site fuel e) m).scope = m.scope) ∧
    ∀ h : History, h.Reachable → h.session.machine.scope = .global ∧
      ∀ site fuel last ss w m,
        interpretFrom site (fuel + 1) last ss h.session.machine = .ok w m → m.scope = .global ∧
          ∀ s name, Stmt.declared? s = some name → s.MakesGlobal site fuel m name.text := by
  constructor
  · intro ρ site fuel m
    obtain ⟨hx, hu⟩ := exec_eval_keep steady_scope site fuel
    exact ⟨fun s => (hx s).leaves m, fun e => (hu e).leaves m⟩
  · intro h hr
    refine ⟨hr.atTop.scope, ?_⟩
    intro site fuel last ss w m hi
    have top := hr.atTop.leaves (interpretFrom_keeps steady_scope site (fuel + 1) last ss)
      (interpretFrom_keeps steady_size site (fuel + 1) last ss)
    rw [leaves_ok hi] at top
    exact ⟨top.scope, fun s name hs => top.makesGlobal hs⟩

/-- The same behind a step that failed inside a block: the next declaration is of a global. -/
theorem scope_restored_behind_failure :
    (match ((History.start {} .warning).perform (.run 20 "{ nil(); }")).1 with
      | .failure (.stopped (.error e)) => e.line == some 1
      | _ => false) = true ∧
    ∃ h : History, h = ((History.start {} .warning).perform (.run 20 "{ nil(); }")).2 ∧
      h.session.machine.scope = .global ∧
      Stmt.MakesGlobal (fun _ => none) 0 h.session.machine (.var ⟨"x", 1⟩ none) "x" := by
  have hr : ((History.start {} .warning).perform (.run 20 "{ nil(); }")).2.Reachable :=
    (History.reachable_start {} .warning).perform _
  refine ⟨by decide +kernel, ?_⟩
  generalize ((History.start {} .warning).perform (.run 20 "{ nil(); }")).2 = h at hr
  obtain ⟨hs, later⟩ := scope_restored.2 h hr
  have hd : Stmt.MakesGlobal (fun _ => none) 0 h.session.machine (.var ⟨"x", 1⟩ none) "x" :=
    (later (fun _ => none) 0 .nil [] .nil h.session.machine rfl).2 (.var ⟨"x", 1⟩ none) _ rfl
  exact ⟨h, rfl, hs, hd⟩

end Lox
