import Lox.Proofs.Journal.Limited
import Lox.Proofs.Journal.Paired

/-!
A program stops at once where the output is full. Every phrase of the journaling evaluator does what the
evaluator does, and both end at the first text that does not fit.
-/

namespace Lox

open Event (printed)
open Journal (Limited)

variable {ρ : Type}

namespace Journal.Limited

theorem paired : Journal.Paired (fun {α} => Limited (ρ := ρ) (α := α)) where
  pure := .pure
  outOfFuel := .outOfFuel
  lift h := .lift h.quiet
  bind := .bind
  get h same same' := .get h (fun limit m => same (m.host.takes limit) m)
    fun limit m => same' (m.host.takes limit) m
  inScope := .inScope
  onLine := .onLine
  noted := by
    intro α p j e inner h
    cases e with
    | statement | expression | call | memory => exact .noted h rfl
    | native | print | flush => exact inner.elim
  native n vs h := .noted (.lift (.native n vs h)) rfl
  mismatch line _ := .noted (.lift (Run.Enclosed.raise _ line).quiet) rfl
  print := .print
  flush := .noted (.lift .flush) rfl

end Journal.Limited

variable (site : ρ → Option Binding)

theorem interpret_limited (fuel : Nat) (p : List (Stmt ρ)) :
    Limited (interpret site fuel p) (Journal.interpret site fuel p) :=
  interpret_paired Limited.paired site fuel p

/-- Where the output takes only so many more bytes, a program writes just the first of what it writes
without the limit. If that is all of it, nothing else is different. If not, the program fails at the
text that does not fit: of all that happens without the limit, nothing behind that happens. -/
theorem output_cut_off (fuel : Nat) (p : List (Stmt ρ)) (m : Machine ρ) (n : Nat) :
    ∃ journal : List (Event ρ),
      let limit := some (m.output.length + n)
      let free := interpret site fuel p (m.takes none)
      let limited := interpret site fuel p (m.takes limit)
      Journal.interpret site fuel p ⟨m.takes none, []⟩ = onState (⟨·, journal⟩) free ∧
      (ending free).output = m.output ++ printed journal ∧
      (ending limited).output = m.output ++ (printed journal).take n ∧
      ((printed journal).length ≤ n → limited = onState (·.takes limit) free ∧
        Journal.interpret site fuel p ⟨m.takes limit, []⟩ = onState (⟨·, journal⟩) limited) ∧
      (n < (printed journal).length → ∃ before text after line m',
        journal = before ++ .print text :: after ∧ (printed before).length ≤ n ∧
        n < (printed (before ++ [.print text])).length ∧ limited = .error (.full line) m' ∧
        Journal.interpret site fuel p ⟨m.takes limit, []⟩ =
          onState (⟨·, before ++ [.print text]⟩) limited) := by
  have ends := interpret_limited site fuel p (m.takes none) [] (m.output.length + n) rfl
    (Nat.le_add_right _ _)
  simp only [Machine.takes_takes, Machine.output_takes] at ends
  dsimp only
  generalize interpret site fuel p (m.takes none) = r,
    Journal.interpret site fuel p ⟨m.takes none, []⟩ = s,
    interpret site fuel p (m.takes (some (m.output.length + n))) = r',
    Journal.interpret site fuel p ⟨m.takes (some (m.output.length + n)), []⟩ = s' at ends ⊢
  cases ends with
  | @fits new unlimited written fits =>
    rw [List.length_append] at fits
    have all : (printed new).length ≤ n := by omega
    refine ⟨new, rfl, written, ?_, fun _ => ⟨rfl, ?_⟩, fun crosses => absurd all (by omega)⟩
    · rw [ending_onState, Machine.output_takes, written, List.take_of_length_le all]
    · rw [onState_onState]
      rfl
  | @full before after text line m' unlimited written fits crosses filled =>
    rw [List.length_append] at fits crosses
    have first : printed (before ++ .print text :: after) =
        printed (before ++ [.print text]) ++ printed after := by
      rw [← Event.printed_append, List.append_assoc, List.singleton_append]
    have longer : n < (printed (before ++ .print text :: after)).length := by
      rw [first, List.length_append]
      omega
    refine ⟨before ++ .print text :: after, rfl, written, ?_, fun all => absurd all (by omega),
      fun _ => ⟨before, text, after, line, m', rfl, by omega, by omega, rfl, rfl⟩⟩
    change m'.output = _
    rw [filled, first, List.take_append, List.take_append_of_le_length (by omega),
      List.take_of_length_le (Nat.le_add_right _ _), Nat.add_sub_cancel_left]

example :
    (ending (interpret (fun _ : RefId => none) 3
      [.print (.literal .nil), .print (.literal (.bool true)), .print (.literal .nil)]
      (Machine.takes (some 6) {}))).output = Text.Utf8.encode "nil\ntr" := by
  decide +kernel

end Lox
