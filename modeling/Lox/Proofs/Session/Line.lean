import Lox.Proofs.Grammar.Semicolon
import Lox.Proofs.Grammar.Unfinished
import Lox.Proofs.Session.Rejection
import Lox.Proofs.Source.Ending

/-!
Lines of the prompt. A line that lacks its last semicolon is run as if the semicolon stood below it,
unless the line ends in a brace or a comment: then it is read as it is, and rejected.
-/

namespace Lox

namespace Session

/-- Whether a semicolon is put behind the line, and not into a comment there. -/
def takesSemicolon (line : String) : Bool := !isClosed line && !endsInComment line

theorem takesSemicolon_iff {line : String} :
    takesSemicolon line ↔ isClosed line = false ∧ endsInComment line = false := by
  simp only [takesSemicolon, Bool.and_eq_true, Bool.not_eq_true']

theorem completed_of_takesSemicolon {line : String} (h : takesSemicolon line) :
    completed line = line ++ ";" := by
  rw [completed, (takesSemicolon_iff.mp h).1, if_neg nofun]

/-- A line that takes no semicolon is completed to a text of the same tokens. -/
theorem lexemes_completed {line : String}
    (h : ∀ p ∈ Source.pieces (Text.trimEnd line).toList, p.kind.isTerminated)
    (ht : takesSemicolon (Text.trimEnd line) = false) :
    lexemes (completed (Text.trimEnd line)) = lexemes line := by
  rw [← lexemes_trimEnd h, completed]
  split
  · rfl
  · rename_i ho
    have he : endsInComment (Text.trimEnd line) := by simpa [takesSemicolon, ho] using ht
    exact lexemes_semicolon_absorbed h he

/-- Texts that are read alike without a fault are compiled alike. -/
theorem compile_congr {source source' : String} (h : faults source = []) (h' : faults source' = [])
    (hr : reading source = reading source') (s : Session) :
    compile source s = compile source' s := by
  have same : scoping source = scoping source' := by rw [scoping, scoping, hr]
  have rejected : rejection s.unused source = rejection s.unused source' := by
    rw [rejection, rejection, if_pos h, if_pos h', same]
  have noted : noted s.unused source = noted s.unused source' := by
    rw [Session.noted, Session.noted, if_pos h, if_pos h', same]
  simp only [compile_run, program, hr, same, rejected, noted]

theorem exists_program {source : String} {s : Session} (h : rejection s.unused source = []) :
    ∃ s', compile source s = .ok (program source s.nextId) s' := by
  rw [compile_run, if_pos h]
  exact ⟨_, rfl⟩

/-- A semicolon on the one line as it would be on the other. -/
def moving (below behind : Nat) (t : Token) : Token :=
  if t.kind = .semicolon ∧ t.line = below then Token.semicolon behind else t

theorem movesSemicolons_moving (below behind : Nat) :
    Grammar.MovesSemicolons (moving below behind) where
  kind t := by
    unfold moving
    split
    · rename_i h
      exact h.1.symm
    · rfl
  others t ht := if_neg fun h => ht h.1

section Below

variable {line : String} (h : faults (line ++ "\n;") = [])

include h

/-- The semicolon behind the line is as good as the one below it. -/
theorem reading_behind (he : endsInComment (Text.trimEnd line) = false) :
    faults (Text.trimEnd line ++ ";") = [] ∧
      reading (Text.trimEnd line ++ ";") = reading (line ++ "\n;") := by
  have hline := errors_scan_of_below (faults_eq_nil h)
  obtain ⟨tokens, errors⟩ := scan_semicolon_behind (errors_scan_trimEnd hline he) he
  have below := errors_reading h
  have kept : (lexemes line).map (moving (lineCount line + 1) (lineCount (Text.trimEnd line))) =
      lexemes line := by
    refine (List.map_congr_left fun t ht => ?_).trans (List.map_id _)
    have above := lexemes_line_le line t ht
    exact if_neg fun hn => by omega
  have moved : (Token.untilEof (scan (Text.trimEnd line ++ ";")).tokens).1 =
      (Token.untilEof (scan (line ++ "\n;")).tokens).1.map
        (moving (lineCount line + 1) (lineCount (Text.trimEnd line))) := by
    rw [untilEof_scan, untilEof_scan, tokens, lexemes_semicolon_below hline, List.map_append, kept,
      lexemes_trimEnd (isTerminated_trimEnd hline), List.map_singleton, moving, if_pos ⟨rfl, rfl⟩]
  have same : reading (Text.trimEnd line ++ ";") = reading (line ++ "\n;") := by
    rw [reading] at below
    rw [reading, reading]
    exact parse_moved (genuine_tokens _) (movesSemicolons_moving _ _) moved below
  refine ⟨?_, same⟩
  rw [faults, errors, same, below]
  rfl

/-- Without a semicolon the line is no program. -/
theorem errors_reading_completed (ht : takesSemicolon (Text.trimEnd line) = false) :
    (reading (completed (Text.trimEnd line))).errors ≠ [] := by
  have hline := errors_scan_of_below (faults_eq_nil h)
  have below := errors_reading h
  have tokens := lexemes_completed (isTerminated_trimEnd hline) ht
  have behind : (Token.untilEof (scan (line ++ "\n;")).tokens).1 =
      (Token.untilEof (scan (completed (Text.trimEnd line))).tokens).1 ++
        [Token.semicolon (lineCount line + 1)] := by
    rw [untilEof_scan, untilEof_scan, tokens, lexemes_semicolon_below hline]
  intro hn
  rw [reading] at hn below
  exact (parse_unfinished (genuine_tokens _) rfl behind below).1 hn

end Below

/-- What is known of a text that is accepted. -/
theorem rejection_of_compile {source : String} {s s' : Session} {p : Program}
    (h : compile source s = .ok p s') :
    rejection s.unused source = [] ∧ p = program source s.nextId := by
  rw [compile_run] at h
  split at h
  · rename_i hr
    cases h
    exact ⟨hr, rfl⟩
  · cases h

section Run

variable {s s' : Session} {line : String} {p : Program}
  (h : compile (line ++ "\n;") s = .ok p s')

include h

theorem compile_completed (ht : takesSemicolon (Text.trimEnd line)) :
    compile (completed (Text.trimEnd line)) s = .ok p s' := by
  have hf := faults_of_rejection (rejection_of_compile h).1
  obtain ⟨faultless, same⟩ := reading_behind hf (takesSemicolon_iff.mp ht).2
  rw [completed_of_takesSemicolon ht, compile_congr faultless hf same, h]

theorem runLine_of_takesSemicolon (ht : takesSemicolon (Text.trimEnd line)) (fuel : Nat) :
    runLine fuel line s = match run fuel (line ++ "\n;") s with
      | .ok v t => .ok (if isExpression p then some v else none) t
      | .error f t => .error f t := by
  obtain ⟨ho, -⟩ := takesSemicolon_iff.mp ht
  cases hx : execute fuel p s' <;>
    simp only [runLine_run, run_run, compile_completed h ht, h, hx, ho, Bool.not_false, Bool.true_and]

theorem exists_rejected_of_not_takesSemicolon (ht : takesSemicolon (Text.trimEnd line) = false) :
    ∃ ds t, ds ≠ [] ∧ s.Unmoved t ∧ ∀ fuel, runLine fuel line s = .error (.rejected ds) t := by
  have hn := errors_reading_completed (faults_of_rejection (rejection_of_compile h).1) ht
  have hr : rejection s.unused (completed (Text.trimEnd line)) ≠ [] := fun hr =>
    hn (errors_reading (faults_of_rejection hr))
  have hc := compile_run (completed (Text.trimEnd line)) s
  rw [if_neg hr] at hc
  exact ⟨_, _, hr, (unmoved_of_rejected hc).1, runLine_of_rejected hc⟩

/-- A line that lacks only its semicolon is run as if the semicolon stood below it: it is compiled to
the same program, ends in the same way and in the same session, and answers its value if it is an
expression. But if it ends in a brace or a comment then it is rejected. -/
theorem line_as_with_semicolon_below :
    (takesSemicolon (Text.trimEnd line) →
      compile (completed (Text.trimEnd line)) s = .ok p s' ∧
      ∀ fuel, runLine fuel line s = match run fuel (line ++ "\n;") s with
        | .ok v t => .ok (if isExpression p then some v else none) t
        | .error f t => .error f t) ∧
    (takesSemicolon (Text.trimEnd line) = false →
      ∃ ds t, ds ≠ [] ∧ s.Unmoved t ∧ ∀ fuel, runLine fuel line s = .error (.rejected ds) t) :=
  ⟨fun ht => ⟨compile_completed h ht, runLine_of_takesSemicolon h ht⟩,
    exists_rejected_of_not_takesSemicolon h⟩

end Run

/-- The same of a constant with a blank behind it. -/
theorem constant_as_with_semicolon_below :
    ∃ p s', compile ("nil " ++ "\n;") (start {} .warning) = .ok p s' ∧
      compile "nil;" (start {} .warning) = .ok p s' ∧
      ∀ fuel, runLine fuel "nil " (start {} .warning) =
        match run fuel ("nil " ++ "\n;") (start {} .warning) with
        | .ok v t => .ok (if isExpression p then some v else none) t
        | .error f t => .error f t := by
  have accepted : (rejection .warning ("nil " ++ "\n;")).isEmpty = true := by decide +kernel
  obtain ⟨s', hc⟩ := exists_program (s := start {} .warning) (List.isEmpty_iff.mp accepted)
  have trimmed : Text.trimEnd "nil " = "nil" := by decide
  obtain ⟨taken, -⟩ := line_as_with_semicolon_below hc
  rw [trimmed] at taken
  exact ⟨_, s', hc, taken (by decide)⟩

/-- A comment takes up the semicolon that is put behind it. So this line, an expression without its
semicolon, is rejected. -/
theorem comment_takes_semicolon_up :
    (∃ p s', compile ("nil // done" ++ "\n;") (start {} .warning) = .ok p s' ∧ isExpression p) ∧
      ∀ fuel, ∃ ds t, runLine fuel "nil // done" (start {} .warning) = .error (.rejected ds) t := by
  have accepted : (rejection .warning ("nil // done" ++ "\n;")).isEmpty = true := by decide +kernel
  obtain ⟨s', hc⟩ := exists_program (s := start {} .warning) (List.isEmpty_iff.mp accepted)
  have untaken : takesSemicolon (Text.trimEnd "nil // done") = false := by decide
  obtain ⟨ds, t, -, -, rejected⟩ := exists_rejected_of_not_takesSemicolon hc untaken
  exact ⟨⟨_, s', hc, by decide +kernel⟩, fun fuel => ⟨ds, t, rejected fuel⟩⟩

end Session

end Lox
