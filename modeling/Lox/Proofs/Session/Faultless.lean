import Lox.Proofs.Lexical.Simulation
import Lox.Proofs.Session.Identities
import Mathlib.Data.List.Pairwise

/-!
Accepted programs. What a session accepts is without faults, and the table has the bindings that
scoping found, whatever was accepted later.
-/

namespace Lox

namespace Session

theorem faultless_program {unused : Severity} {source : String} (h : rejection unused source = [])
    (first : RefId) : Faultless (program source first) where
  tidy := by
    have tidy := parse_tidy (genuine_tokens source) first
    rw [parse_tokens] at tidy
    exact tidy
  clean := by
    rw [resolve_program]
    exact .of_errors (errors_of_rejection h)

end Session

namespace History

/-- The programs of the session are without faults, share no identities, and its table is right about
them. -/
structure Settled (h : History) : Prop where
  grounded : h.Grounded
  distinct : (identities h.programs).Nodup
  faultless : ∀ p ∈ h.programs, Faultless p
  bound : ∀ p ∈ h.programs, ∀ r ∈ (resolve p).references,
    h.session.bindings.find? r.id = r.binding

namespace Settled

variable {h : History} (hs : h.Settled)

/-- What programs of the session run in. -/
def setting : Setting := ⟨h.programs, h.session.bindings.find?, hs.faultless, hs.bound⟩

include hs

theorem accepting {source : String} (hr : Session.rejection h.session.unused source = []) :
    (h.accepting source).Settled where
  grounded := hs.grounded.accepting source
  distinct := by
    rw [programs_accepting, identities, List.flatMap_append, List.flatMap_singleton]
    refine List.nodup_append.mpr ⟨hs.distinct, Session.nodup_references_program source _, ?_⟩
    intro i hi j hj
    obtain ⟨p, hp, hi⟩ := List.mem_flatMap.mp hi
    exact Nat.ne_of_lt (Nat.lt_of_lt_of_le (hs.grounded.programs p hp i hi)
      (Session.below_program source _ j hj).1)
  faultless p hp := by
    rw [programs_accepting, List.mem_append, List.mem_singleton] at hp
    obtain hp | rfl := hp
    · exact hs.faultless p hp
    · exact Session.faultless_program hr _
  bound p hp r hr' := by
    rw [programs_accepting, List.mem_append, List.mem_singleton] at hp
    obtain hp | rfl := hp
    · have listed : r.id ∈ Stmt.referencesAll p := references_resolve p ▸ List.mem_map_of_mem hr'
      rw [h.find?_accepting source (hs.grounded.programs p hp _ listed)]
      exact hs.bound p hp r hr'
    · have compiled : Session.compile source h.session =
          .ok (Session.program source h.session.nextId) (h.accepting source).session := by
        rw [compile_session, if_pos hr]
      exact hs.grounded.find?_entered compiled hr'

theorem rejecting (source : String) : (h.rejecting source).Settled :=
  ⟨hs.grounded.rejecting source, hs.distinct, hs.faultless, hs.bound⟩

theorem takingWarnings : Settled { h with session := { h.session with warnings := [] } } :=
  ⟨⟨hs.grounded.machine, hs.grounded.programs, hs.grounded.bindings⟩, hs.distinct, hs.faultless,
    hs.bound⟩

theorem executing {p : Program} (hp : p ∈ h.programs) (fuel : Nat)
    (answer : Value RefId EnvId → Answer RefId) : (h.executing fuel p answer).2.Settled := by
  have grounded := hs.grounded.executing (hs.grounded.programs p hp) fuel answer
  rw [snd_executing] at grounded ⊢
  cases hi : interpret h.session.bindings.find? fuel p h.session.machine with
  | ok v machine | error stop machine =>
    rw [hi] at grounded
    exact ⟨grounded, hs.distinct, hs.faultless, hs.bound⟩

theorem perform (step : Step) : (h.perform step).2.Settled :=
  perform_keeps (fun _ _ hs hr => hs.accepting hr) (fun _ source hs => hs.rejecting source)
    (fun _ fuel _ answer hs hp => hs.executing hp fuel answer)
    (fun _ hs => hs.takingWarnings) hs step

/-- A reference is one of one program, which has it once. -/
theorem eq_of_shared {p q : Program} (hp : p ∈ h.programs) (hq : q ∈ h.programs) {r : RefId}
    (hr : r ∈ Stmt.referencesAll p) (hr' : r ∈ Stmt.referencesAll q) :
    p = q ∧ (Stmt.referencesAll p).Nodup := by
  obtain ⟨once, apart⟩ := List.nodup_flatMap.mp hs.distinct
  refine ⟨?_, once p hp⟩
  by_contra hne
  have symmetric : Std.Symm (Function.onFun List.Disjoint (Stmt.referencesAll : Program → List RefId)) :=
    ⟨fun _ _ h _ hp hq => h hq hp⟩
  exact apart.forall hp hq hne hr hr'

end Settled

theorem settled_start (host : Host) (unused : Severity) : (start host unused).Settled where
  grounded := grounded_start host unused
  distinct := List.nodup_nil
  faultless p hp := by cases hp
  bound p hp := by cases hp

theorem Reachable.settled {h : History} (hr : h.Reachable) : h.Settled :=
  hr.induction settled_start fun _ step hs => hs.perform step

end History

end Lox
