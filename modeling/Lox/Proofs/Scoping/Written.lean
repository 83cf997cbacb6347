import Lox.Proofs.Lexical.Session
import Lox.Proofs.Parser.Origin

/-!
What phrases are written with. A phrase of an accepted program is made of tokens of the text of that
program, wherever scoping comes to it.
-/

namespace Lox

open Scoping

section Phrases

variable {G : Token → Prop}

/-- Operators, names, keywords and lines of the phrase are those of such tokens. -/
def Scoping.Phrase.MadeOf (G : Token → Prop) : Phrase → Prop
  | .expr e => e.MadeOf G
  | .exprs es => Expr.MadeOfAll G es
  | .stmt s => s.MadeOf G
  | .stmts ss => Stmt.MadeOfAll G ss
  | .routine _ r => r.MadeOf G
  | .methods ms | .classMethods ms => Definition.MadeOfAll G ms

theorem Scoping.Visit.Enters.madeOf {v w : Visit} (h : v.Enters w) (hv : v.phrase.MadeOf G) :
    w.phrase.MadeOf G := by
  cases h with
  | first | callee | head => exact hv.1
  | method | classMethod => exact hv.1.2
  | rest | assigned | operand | object | lambda | tail | initial | answer | function
  | laterMethods | laterClassMethods | statements => exact hv.2
  | left | either | target | arguments => exact hv.2.1
  | right | other | value => exact hv.2.2
  | condition => exact hv.1
  | yes => exact hv.2.1
  | no => exact hv.2.2
  | inner | expr | print | block => exact hv
  | test c s e y n => cases n <;> exact hv.1
  | consequent c s e y n =>
    cases n with
    | none => exact hv.2
    | some n => exact hv.2.1
  | alternative => exact hv.2.2
  | guard => exact hv.1
  | body => exact hv.2
  | methods | derivedMethods => exact hv.2.2.1
  | classMethods | derivedClassMethods => exact hv.2.2.2

theorem Stands.madeOf {p : Program} {c : Context} {Γ : Names} {phrase : Phrase}
    (h : Stands p c Γ phrase) (hp : Stmt.MadeOfAll G p) : phrase.MadeOf G := by
  obtain ⟨s, _, hv⟩ := h
  have reached {v : Visit} (hv : Visited p v) : v.phrase.MadeOf G := by
    induction hv with
    | refl => exact hp
    | tail _ enters ih => exact enters.madeOf ih
  exact reached hv

end Phrases

namespace History

/-- The token is one of a text whose program was accepted. -/
def Wrote (h : History) (t : Token) : Prop :=
  ∃ source first, Session.program source first ∈ h.programs ∧ t ∈ lexemes source

theorem Wrote.line_pos {h : History} {t : Token} (ht : h.Wrote t) : 1 ≤ t.line := by
  obtain ⟨source, _, _, hm⟩ := ht
  exact line_lexemes source t hm

theorem Reachable.program_eq {h : History} (hr : h.Reachable) :
    ∀ p ∈ h.programs, ∃ source first, p = Session.program source first := by
  refine hr.induction (P := fun h => ∀ p ∈ h.programs, ∃ source first, p = Session.program source first)
    (fun _ _ => nofun) fun h step hh => ?_
  refine perform_keeps
    (P := fun h => ∀ p ∈ h.programs, ∃ source first, p = Session.program source first)
    (fun h source hh _ p hp => ?_) (fun _ _ hh => hh) (fun h fuel p answer hh _ => ?_)
    (fun _ hh => hh) hh step
  · rw [programs_accepting, List.mem_append, List.mem_singleton] at hp
    obtain hp | rfl := hp
    · exact hh p hp
    · exact ⟨source, _, rfl⟩
  · rw [snd_executing]
    cases interpret h.session.bindings.find? fuel p h.session.machine <;> exact hh

theorem Reachable.madeOf {h : History} (hr : h.Reachable) {p : Program} (hp : p ∈ h.programs) :
    Stmt.MadeOfAll h.Wrote p := by
  obtain ⟨source, first, rfl⟩ := hr.program_eq p hp
  have made : Stmt.MadeOfAll h.Wrote (parse (scan source).tokens first).statements := by
    refine parse_madeOf first fun t ht => ⟨source, first, hp, ?_⟩
    rwa [untilEof_scan] at ht
  rwa [Session.parse_tokens] at made

end History

end Lox
