import Lox.Proofs.CurrentScope
import Lox.Proofs.Scoping.Written
import Lox.Proofs.Traced.Agreement

/-!
The lines of runtime errors. An error has the line of the word that it is raised at. One that has no
word gets the line of the innermost call in progress, and keeps it however many calls it passes on its
way out.
-/

namespace Lox

open Scoping

/-- What goes wrong outside of the program. -/
def RuntimeFault.isOutside : RuntimeFault → Bool
  | .output _ | .native _ _ => true
  | _ => false

/-- What the line of an error says about where it comes from. -/
structure Origin.Accounts (G : Token → Prop) (o : Origin RefId) (e : RuntimeError) : Prop where
  final : e = o.final
  /-- The calls in progress are on lines of closing parentheses. -/
  calls : ∀ line ∈ o.calls, 1 ≤ line ∧ Closing G line
  /-- A line that is set stays. -/
  kept : ∀ line, o.error.line = some line → e.line = some line
  /-- The error of a native has the line of the call that runs it. -/
  native : ∀ n fault, e.fault = .native n fault → ∃ callee as line outer,
    o.raiser = .expr (.call callee as line) ∧ o.calls = line :: outer ∧ e.line = some line
  /-- The error of the output has the line of the innermost call, if there is one. -/
  output : ∀ fault, e.fault = .output fault →
    e.line = o.calls.head? ∧ (e.lineNumber = 0 ↔ o.calls = [])
  /-- Every other error has the line of a word of the phrase that raises it. -/
  word : e.fault.isOutside = false →
    ∃ t, G t ∧ o.raiser.Blames e.fault t.kind t.line ∧ 1 ≤ t.line ∧ e.line = some t.line

theorem Raiser.Blames.inside {raiser : Raiser RefId} {fault : RuntimeFault} {kind : Token.Kind}
    {line : Nat} (h : raiser.Blames fault kind line) : fault.isOutside = false := by
  cases raiser with
  | expr e => cases h <;> rfl
  | stmt s => cases h <;> rfl
  | ending => exact h.elim

theorem Origin.Known.accounts {G : Token → Prop} {o : Origin RefId} (h : o.Known G)
    (positive : ∀ t, G t → 1 ≤ t.line) : o.Accounts G o.final where
  final := rfl
  calls line hl := by
    obtain ⟨t, written, kind, rfl⟩ := h.calls line hl
    exact ⟨positive t written, t, written, kind, rfl⟩
  kept line hl := by simp [final, RuntimeError.leaving, hl]
  native n fault hf := by
    cases h.explained with
    | token calls written blamed => cases (congrArg RuntimeFault.isOutside hf).symm.trans blamed.inside
    | native n' fault' callee as line calls => exact ⟨callee, as, line, calls, rfl, rfl, rfl⟩
    | print fault' e calls => cases hf
    | ending fault' => cases hf
  output fault hf := by
    have head (calls : List Nat) (hc : ∀ line ∈ calls, 1 ≤ line) :
        calls.head?.getD 0 = 0 ↔ calls = [] := by
      cases calls with
      | nil => simp
      | cons line calls =>
        have first := hc line List.mem_cons_self
        simp only [List.head?_cons, Option.getD_some, reduceCtorEq, iff_false]
        omega
    have lines : ∀ line ∈ o.calls, 1 ≤ line := fun line hl => by
      obtain ⟨t, written, _, rfl⟩ := h.calls line hl
      exact positive t written
    cases h.explained with
    | token calls written blamed => cases (congrArg RuntimeFault.isOutside hf).symm.trans blamed.inside
    | native => cases hf
    | print fault' e calls => exact ⟨rfl, head calls lines⟩
    | ending fault' => exact ⟨rfl, head [] lines⟩
  word inside := by
    cases h.explained with
    | @token raiser fault t calls written blamed => exact ⟨t, written, blamed, positive t written, rfl⟩
    | native | print | ending => cases inside

namespace History

theorem Settled.madeOf_fulfilled {h : History} (hs : h.Settled) (hr : h.Reachable) :
    hs.setting.Fulfilled (.madeOf h.Wrote) where
  stmt hb stands := stands.madeOf (hr.madeOf hb.member)
  expr hb stands := stands.madeOf (hr.madeOf hb.member)
  access _ _ := trivial
  body _ _ := trivial
  top := trivial

/-- A run of an accepted program that ends with an error, whatever the steps before, has an origin of
it, which accounts for its line. -/
theorem errors_accounted {h : History} (hr : h.Reachable) {p : Program} (hp : p ∈ h.programs)
    (fuel : Nat) {e : RuntimeError} {m : Machine RefId}
    (failed : interpret h.session.bindings.find? fuel p h.session.machine = .error (.error e) m) :
    ∃ o, Traced.interpret h.session.bindings.find? fuel p h.session.machine = .error (.error o) m ∧
      o.Accounts h.Wrote e := by
  have same := hr.watched (hr.settled.madeOf_fulfilled hr) hp .outOfFuel fuel
  have follows := interpret_traced (G := h.Wrote) h.session.bindings.find? fuel p h.session.machine
  rw [same, failed] at follows
  generalize Traced.interpret h.session.bindings.find? fuel p h.session.machine = r at follows ⊢
  cases follows with
  | @error e o m final known =>
    refine ⟨o, rfl, ?_⟩
    have eq : e = o.final := e.leaving_nil.symm.trans final
    exact eq ▸ known.accounts fun t ht => ht.line_pos

/-- The same of a native in a function, called by an initializer, which a class runs. -/
theorem errors_accounted_in_initializer :
    ∃ h p e m o, h = ((start {} .warning).perform (.compile
        "fun f() {
          seek_bof(1);
        }
        class A { init() { f(); } }
        A();")).2 ∧
      h.Reachable ∧ h.programs = [p] ∧
      interpret h.session.bindings.find? 20 p h.session.machine = .error (.error e) m ∧
      Traced.interpret h.session.bindings.find? 20 p h.session.machine = .error (.error o) m ∧
      o.Accounts h.Wrote e ∧ o.calls = [2, 4, 5] ∧ e.line = some 2 := by
  obtain ⟨h, hh⟩ : ∃ h, h = ((start {} .warning).perform (.compile
    "fun f() {
          seek_bof(1);
        }
        class A { init() { f(); } }
        A();")).2 := ⟨_, rfl⟩
  have hr : h.Reachable := hh ▸ (reachable_start {} .warning).perform _
  have ⟨accepted, line, calls⟩ : h.programs.length = 1 ∧
      (h.programs.head?.bind fun p =>
        (Run.failure? (interpret h.session.bindings.find? 20 p) h.session.machine).bind (·.1.line)) =
          some 2 ∧
      (h.programs.head?.bind fun p =>
        (Traced.failure? (Traced.interpret h.session.bindings.find? 20 p) h.session.machine).map
          (·.calls)) = some [2, 4, 5] := by
    rw [hh]
    decide +kernel
  obtain ⟨p, hp⟩ := List.length_eq_one_iff.mp accepted
  rw [hp, List.head?_cons, Option.bind_some] at line calls
  obtain ⟨⟨e, m⟩, failure, line⟩ := Option.bind_eq_some_iff.mp line
  have failed := Run.of_failure? failure
  obtain ⟨o, traced, accounts⟩ := errors_accounted hr (hp ▸ List.mem_singleton_self p) 20 failed
  rw [Traced.failure?, traced] at calls
  exact ⟨h, p, e, m, o, hh, hr, hp, failed, traced, accounts, Option.some.inj calls, line⟩

end History

end Lox
