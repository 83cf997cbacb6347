import Lox.Proofs.Inheritance.Evaluator
import Lox.Proofs.Session.Running

/-!
Inheritance in sessions. One ledger goes through all steps of a session: it has the class of each
identity that is ever given to one. So no class value becomes another one, however often a name is
declared again or the variable of a superclass assigned, and no class comes to be above itself.
-/

namespace Lox

open Inheritance

variable {ρ : Type}

/-- A stored value that is a class, or an instance of one, belongs to a class that has been made before,
which is the one in the ledger. -/
def Machine.Shows (m : Machine ρ) (made : Ledger ρ) : Prop :=
  ∀ v, m.Stores v → ∀ c, v.class? = some c → c.id < m.objects.size ∧ made.Has c

theorem Machine.Fits.shows {m : Machine ρ} {made all : Ledger ρ} (h : m.Fits made)
    (le : made <+: all) : m.Shows all := by
  intro v hv c hc
  have there := h.values hv c hc
  exact ⟨h.size ▸ there.lt, there.grow le⟩

/-- What is expected of a run: that memory shows the classes of the ledger, that a class statement makes
one of them, and that no other class is returned or answered, but for those made meanwhile. -/
def Ledger.inheriting (made : Ledger ρ) (site : ρ → Option Binding) : Watch ρ where
  stmt a m := m.Shows made ∧ made.Defines site m a
  expr e m := m.Shows made ∧ ∀ fuel v m', eval site fuel e m = .ok v m' →
    ∀ c, v.class? = some c → c.id < m.objects.size → made.Has c
  access _ m := m.Shows made
  body _ outcome := made.Returns outcome

theorem Ledger.inheriting_met (site : ρ → Option Binding) : Met site (·.inheriting site) where
  stmt fits le defines := ⟨fits.shows le, defines⟩
  expr {made all m} e fits le := by
    refine ⟨fits.shows le, fun fuel v m' ran c hc old => ?_⟩
    obtain ⟨made', le', known⟩ := eval_ok fits ran
    exact ((known c hc).of_lt le' (fits.size ▸ old)).grow le
  access _ fits le := fits.shows le
  body _ returned le v hv := (returned v hv).grow le
  top _ _ := trivial

/-- At the start the natives are the only values. -/
theorem Machine.fits_start (host : Host) : (Machine.start host : Machine RefId).Fits [] := by
  have natives (ns : List Native) {environments : Environments (Value RefId EnvId)}
      (h : Machine.Fits ({ environments, host } : Machine RefId) []) :
      Machine.Fits ({ environments := ns.foldl (fun s n => s.define .global n.name (some (.native n)))
                        environments, host } : Machine RefId) [] := by
    induction ns generalizing environments with
    | nil => exact h
    | cons n ns ih =>
      refine ih (h.define .global n.name fun v hv => ?_)
      cases hv
      exact .of_none rfl
  refine natives Native.all ⟨.nil, rfl, fun hv => ?_⟩
  cases hv with
  | @«variable» e env _ he hx =>
    cases e with
    | zero =>
      cases he
      cases hx
    | succ e => cases he
  | field hi hx => cases hi

namespace History

/-- What the step runs is as expected of classes in the ledger, and so is what it answers. -/
structure Inherits (h : History) (made : Ledger RefId) (step : Step) : Prop where
  run : ∀ {h' p fuel}, h.runs? step = some ((h', p), fuel) → ∀ stop,
    (made.inheriting h'.session.bindings.find?).interpret stop h'.session.bindings.find? fuel p
        h'.session.machine =
      interpret h'.session.bindings.find? fuel p h'.session.machine
  answer : ∀ v, (h.perform step).1.value? = some v → made.Knows v

theorem perform_inherits {h : History} {made : Ledger RefId} (fits : h.session.machine.Fits made)
    (step : Step) : ∃ made' : Ledger RefId, made <+: made' ∧
      (h.perform step).2.session.machine.Fits made' ∧ ∀ all, made' <+: all → h.Inherits all step := by
  cases hr : h.runs? step with
  | none =>
    obtain ⟨machine, value⟩ := perform_of_runs_none hr
    refine ⟨made, List.prefix_refl _, machine ▸ fits, fun all _ => ⟨fun ran => ?_, fun v hv => ?_⟩⟩
    · cases hr.symm.trans ran
    · cases value.symm.trans hv
  | some r =>
    obtain ⟨⟨h', p⟩, fuel⟩ := r
    obtain ⟨machine, answer, performed, value⟩ := perform_of_runs hr
    rw [← machine] at fits
    obtain ⟨made', le, ends, same⟩ :=
      interpret_enters (Ledger.inheriting_met h'.session.bindings.find?) fuel p fits
    have run {all : Ledger RefId} (le' : made' <+: all) {h'' : History} {p' : Program} {fuel' : Nat}
        (ran : h.runs? step = some ((h'', p'), fuel')) (stop : Stop) :
        (all.inheriting h''.session.bindings.find?).interpret stop h''.session.bindings.find? fuel'
            p' h''.session.machine =
          interpret h''.session.bindings.find? fuel' p' h''.session.machine := by
      cases hr.symm.trans ran
      exact same stop le'
    rw [performed, executing]
    cases hi : interpret h'.session.bindings.find? fuel p h'.session.machine with
    | ok v m =>
      rw [hi] at ends
      cases ends with
      | ok fits hv =>
        refine ⟨made', le, fits, fun all le' => ⟨run le', fun w hw => ?_⟩⟩
        rw [performed, executing, hi] at hw
        obtain rfl := value v w hw
        exact hv.grow le'
    | error stop m =>
      rw [hi] at ends
      cases ends with
      | error _ fits =>
        refine ⟨made', le, fits, fun all le' => ⟨run le', fun w hw => ?_⟩⟩
        rw [performed, executing, hi] at hw
        cases hw

/-- What all steps enter, one after another. -/
theorem performAll_inherits {h : History} {made : Ledger RefId}
    (fits : h.session.machine.Fits made) (steps : List Step) :
    ∃ all : Ledger RefId, made <+: all ∧ all.Kept ∧ ∀ before, before <+: steps →
      (h.performAll before).session.machine.Shows all ∧
        ∀ step, before ++ [step] <+: steps → (h.performAll before).Inherits all step := by
  induction steps generalizing h made with
  | nil =>
    refine ⟨made, List.prefix_refl _, fits.kept, fun before hb => ?_⟩
    obtain rfl := List.prefix_nil.mp hb
    exact ⟨fits.shows (List.prefix_refl _), fun step hs => by simp at hs⟩
  | cons step steps ih =>
    obtain ⟨made', le, fits', inherits⟩ := perform_inherits fits step
    obtain ⟨all, le', kept, later⟩ := ih fits'
    refine ⟨all, le.trans le', kept, fun before hb => ?_⟩
    obtain rfl | ⟨rest, rfl, behind⟩ := List.prefix_cons_iff.mp hb
    · refine ⟨fits.shows (le.trans le'), fun step' hs => ?_⟩
      obtain rfl := (List.cons_prefix_cons.mp hs).1
      exact inherits all le'
    · obtain ⟨shows, next⟩ := later rest behind
      exact ⟨shows, fun step' hs => next step' (List.cons_prefix_cons.mp hs).2⟩

/-- Inheritance is well-founded. For every session there is a ledger with one class for each identity
that is given to a class in it, in which every class has an older one above it, if any. All class values
are those of the ledger: between the steps, before every statement and every expression of each run, and
in what is returned and answered. So a class value stays what it is, the way up from a class ends without
coming back, and a search for a method comes to the nearest class that declares it, where it finds what
was declared last. -/
theorem inheritance_wellFounded (host : Host) (unused : Severity) (steps : List Step) :
    ∃ made : Ledger RefId,
      (∀ c k, made.Has c → made.Has k → c.id = k.id → c = k) ∧
      (∀ c, made.Has c → made.Inherits c) ∧
      ∀ before, before <+: steps →
        ((start host unused).performAll before).session.machine.Shows made ∧
        ∀ step, before ++ [step] <+: steps →
          ((start host unused).performAll before).Inherits made step := by
  obtain ⟨made, _, kept, inherits⟩ :=
    performAll_inherits (h := start host unused) (Machine.fits_start host) steps
  exact ⟨made, fun c k hc hk => hc.unique hk, fun c hc => kept.inherits hc, inherits⟩

end History

end Lox
