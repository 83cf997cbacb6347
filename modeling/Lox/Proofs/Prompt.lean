import Lox.CommandLine
import Lox.Proofs.Relabel.Text
import Lox.Proofs.Session.Line

/-!
The tree that the prompt prints. A line is printed as it was typed and run as it was completed, so
the last statement is missed in print where its semicolon was missed in the line.
-/

namespace Lox

/-- What is read does not depend on the line of the end mark. -/
theorem statements_parse_congr {tokens tokens' : List Token}
    (h : (Token.untilEof tokens).1 = (Token.untilEof tokens').1) (first : RefId) :
    (parse tokens first).statements = (parse tokens' first).statements := by
  rw [parse_of_untilEof rfl, parse_of_untilEof rfl, h]
  split <;> rfl

namespace Session

theorem isTerminated_of_completed {line : String} (h : (scan (completed line)).errors = []) :
    ∀ p ∈ Source.pieces line.toList, p.kind.isTerminated := by
  unfold completed at h
  split at h
  · exact isTerminated_of_errors_scan h
  · exact isTerminated_of_semicolon_behind h

/-- The statements that are read in a line as it was typed. -/
theorem statements_of_line {line : String} (h : faults (completed (Text.trimEnd line)) = []) :
    (parse (scan line).tokens 0).statements =
      if takesSemicolon (Text.trimEnd line) then
        (reading (completed (Text.trimEnd line))).statements.dropLast
      else (reading (completed (Text.trimEnd line))).statements := by
  have hscan := faults_eq_nil h
  have hread := errors_reading h
  rw [reading] at hread
  rw [reading]
  split
  · rename_i ht
    obtain ⟨-, he⟩ := takesSemicolon_iff.mp ht
    rw [completed_of_takesSemicolon ht] at hscan hread ⊢
    have hline := errors_scan_of_semicolon_behind hscan he
    have behind : (Token.untilEof (scan (Text.trimEnd line ++ ";")).tokens).1 =
        (Token.untilEof (scan line).tokens).1 ++
          [Token.semicolon (lineCount (Text.trimEnd line))] := by
      rw [untilEof_scan, untilEof_scan, (scan_semicolon_behind hline he).1,
        lexemes_trimEnd (isTerminated_of_errors_scan hline)]
    exact (parse_unfinished (genuine_tokens _) rfl behind hread).2
  · rename_i ht
    rw [Bool.not_eq_true] at ht
    refine statements_parse_congr ?_ 0
    rw [untilEof_scan, untilEof_scan, lexemes_completed (isTerminated_of_completed hscan) ht]

/-- What an accepted line shows of its program: all but a last statement that lacks its semicolon. -/
def shown (line : String) (p : Program) : Program :=
  if takesSemicolon (Text.trimEnd line) then p.dropLast else p

theorem programText_shown {line : String} {s s' : Session} {p : Program}
    (h : compile (completed (Text.trimEnd line)) s = .ok p s') :
    programText (parse (scan line).tokens 0).statements = programText (shown line p) := by
  obtain ⟨hr, rfl⟩ := rejection_of_compile h
  rw [statements_of_line (faults_of_rejection hr), shown]
  split
  · rw [program, ← List.map_dropLast, programText_relabel]
  · exact (programText_relabel _ _).symm

end Session

namespace CommandLine

open Session (completed isClosed isExpression shown takesSemicolon)

variable {options : Options} {line : String} {st : State} {p : Program} {s : Session}

/-- A line is printed first and run then. -/
theorem runPromptLine_printed (ho : options.printTree) (hl : Text.trim line ∉ ["", "exit", "?"])
    (fuel : Nat) (st : State) :
    runPromptLine fuel options line st =
      runPromptLine fuel { options with printTree := false } line
        (print (programText (parse (scan line).tokens 0).statements ++ "\n") st).2 := by
  simp only [List.mem_cons, List.not_mem_nil, or_false, not_or] at hl
  obtain ⟨blank, leave, help⟩ := hl
  simp only [runPromptLine, ho, if_true, Bool.false_eq_true, if_false]
  generalize Session.runLine fuel line = action
  generalize programText (parse (scan line).tokens 0).statements ++ "\n" = text
  rfl

/-- What has been printed does not matter to what is compiled. -/
theorem compile_printed {source : String} (text : String)
    (h : Session.compile source st.session = .ok p s) :
    ∃ s', Session.compile source (print text st).2.session = .ok p s' := by
  obtain ⟨hr, rfl⟩ := Session.rejection_of_compile h
  exact Session.exists_program hr

/-- A line that is accepted is printed and then its program is run. All of the program is printed,
except its last statement if the line lacks the semicolon of that. -/
theorem line_printed_as_typed (ho : options.printTree) (hl : Text.trim line ∉ ["", "exit", "?"])
    (h : Session.compile (completed (Text.trimEnd line)) st.session = .ok p s) :
    ∃ printed, printed = (print (programText (shown line p) ++ "\n") st).2 ∧
      (∀ fuel, runPromptLine fuel options line st =
        runPromptLine fuel { options with printTree := false } line printed) ∧
      ∃ s', Session.compile (completed (Text.trimEnd line)) printed.session = .ok p s' ∧
        ∀ fuel, Session.runLine fuel line printed.session = match Session.execute fuel p s' with
          | .ok v t =>
            .ok (if !isClosed (Text.trimEnd line) && isExpression p then some v else none) t
          | .error f t => .error f t := by
  obtain ⟨s', compiled⟩ := compile_printed (programText (shown line p) ++ "\n") h
  refine ⟨_, rfl, fun fuel => ?_, s', compiled, fun fuel => ?_⟩
  · rw [runPromptLine_printed ho hl, Session.programText_shown h]
  · cases hx : Session.execute fuel p s' <;> simp only [Session.runLine_run, compiled, hx]

/-- The same of a constant with its semicolon. -/
theorem constant_printed_as_typed :
    ∃ p s, Session.compile "nil;" (.start {} .warning) = .ok p s ∧
      ∃ printed, printed = (print (programText p ++ "\n") ⟨.start {} .warning, ""⟩).2 ∧
        (∀ fuel, runPromptLine fuel { printTree := true } "nil;" ⟨.start {} .warning, ""⟩ =
          runPromptLine fuel {} "nil;" printed) ∧
        ∃ s', Session.compile "nil;" printed.session = .ok p s' ∧
          ∀ fuel, Session.runLine fuel "nil;" printed.session = match Session.execute fuel p s' with
            | .ok _ t => .ok none t
            | .error f t => .error f t := by
  have accepted : (Session.rejection .warning "nil;").isEmpty = true := by decide +kernel
  obtain ⟨s, hc⟩ := Session.exists_program (s := .start {} .warning) (List.isEmpty_iff.mp accepted)
  refine ⟨_, s, hc, ?_⟩
  generalize Session.program "nil;" _ = p at hc ⊢
  have trimmed : Text.trimEnd "nil;" = "nil;" := by decide
  have closed : isClosed "nil;" = true := by decide
  have whole : shown "nil;" p = p := by rw [shown, trimmed, takesSemicolon, closed]; rfl
  have complete : completed "nil;" = "nil;" := by rw [completed, closed, if_pos rfl]
  have ho : (Options.mk none true .warning).printTree := rfl
  have hl : Text.trim "nil;" ∉ ["", "exit", "?"] := by decide
  have compiled : Session.compile (completed (Text.trimEnd "nil;"))
      (State.mk (.start {} .warning) "").session = .ok p s := by
    rw [trimmed, complete]
    exact hc
  simpa only [trimmed, complete, whole, closed, Bool.not_true, Bool.false_and, Bool.false_eq_true,
    if_false] using line_printed_as_typed ho hl compiled

/-- A constant without its semicolon is run, but an empty line is printed for it. -/
theorem constant_missed_in_print :
    (∃ p s, Session.compile (completed "nil") (.start {} .warning) = .ok p s ∧
      programText p = "(; nil)") ∧
    ∀ fuel, runPromptLine fuel { printTree := true } "nil" ⟨.start {} .warning, ""⟩ =
      runPromptLine fuel {} "nil" (print "\n" ⟨.start {} .warning, ""⟩).2 := by
  have accepted : (Session.rejection .warning (completed "nil")).isEmpty = true := by decide +kernel
  obtain ⟨s, hc⟩ := Session.exists_program (s := .start {} .warning) (List.isEmpty_iff.mp accepted)
  have missed : programText (parse (scan "nil").tokens 0).statements = "" := by decide +kernel
  refine ⟨⟨_, s, hc, by decide +kernel⟩, fun fuel => ?_⟩
  rw [runPromptLine_printed rfl (by decide), missed]
  rfl

end CommandLine

end Lox
