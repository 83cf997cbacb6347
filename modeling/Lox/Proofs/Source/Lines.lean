import Lox.Proofs.Source.Partition

/-!
Lines. A token is on the line that its text starts on, counted by the newlines in front of it, and so is
an error, unless it is about something that is still open at the end of the text. Where nothing is left
open, a newline cuts a text in two that are scanned by themselves.
-/

namespace Lox

namespace Source

/-- The pieces of a text, each with the text in front of it. -/
def placed (front : List Char) : List Piece → List (List Char × Piece)
  | [] => []
  | p :: ps => (front, p) :: placed (front ++ p.text) ps

/-- The line that a text behind this one starts on. -/
def lineBehind (front : List Char) : Nat := 1 + front.count '\n'

theorem lineBehind_append (front : List Char) (p : Piece) :
    lineBehind (front ++ p.text) = lineBehind front + p.newlines := by
  rw [lineBehind, List.count_append, lineBehind, Piece.newlines, Nat.add_assoc]

theorem placed_prefix {front rest : List Char} {ps : List Piece} (h : Partition rest ps) :
    ∀ place ∈ placed front ps, place.1 ++ place.2.text <+: front ++ rest := by
  induction h generalizing front with
  | nil => exact nofun
  | @cons p rest ps _ _ ih =>
    rw [← List.append_assoc]
    rintro place (_ | ⟨_, hp⟩)
    · exact List.prefix_append _ _
    · exact ih place hp

theorem lineBehind_flatten (front : List Char) (ps : List Piece) :
    lineBehind (front ++ (ps.map Piece.text).flatten) = lineBehind front + newlinesIn ps := by
  induction ps generalizing front with
  | nil => rw [List.map_nil, List.flatten_nil, List.append_nil, newlinesIn, Nat.add_zero]
  | cons p ps ih =>
    rw [List.map_cons, List.flatten_cons, ← List.append_assoc, ih, lineBehind_append, newlinesIn,
      Nat.add_assoc]

/-- Only strings go on over the end of a line. -/
theorem IsLexeme.newline_notMem {kind : Token.Kind} {text : List Char} (h : IsLexeme kind text)
    (hk : kind ≠ .string) : '\n' ∉ text := by
  have digits {cs : List Char} (h : IsDigits cs) : '\n' ∉ cs := fun hm => nomatch h.2 _ hm
  have word {cs : List Char} (h : IsWord cs) : '\n' ∉ cs := by
    cases cs with
    | nil => exact h.elim
    | cons c cs =>
      rintro (_ | ⟨_, hm⟩)
      · exact nomatch h.1
      · exact nomatch h.2 _ hm
  cases h with
  | operator h =>
    have operator : ∀ e ∈ operators, '\n' ∉ e.1 := by decide
    exact operator _ h
  | string => exact absurd rfl hk
  | whole h => exact digits h
  | fraction h hb =>
    intro hm
    obtain hm | hm := List.mem_append.mp hm
    · exact digits h hm
    · exact digits hb (List.mem_of_ne_of_mem (by decide) hm)
  | keyword h | identifier h => exact word h

/-- The token is that of the piece, and is on the line that the piece starts on. Unless it is a string,
the piece also ends on that line. -/
structure Piece.Stamps (front : List Char) (p : Piece) (t : Token) : Prop extends p.Spells t where
  line : t.line = lineBehind front
  ends : t.kind ≠ .string → t.line = lineBehind (front ++ p.text)

/-- The error is about the fault of the piece. What a text leaves open is missed at the end of it. -/
structure Piece.Blames (source front : List Char) (p : Piece) (e : Error) : Prop where
  fault : p.Faults e.fault
  line : e.line = lineBehind (if e.fault.leavesOpen then source else front)

theorem stamps_lexemesFrom {rest : List Char} {ps : List Piece} (h : Partition rest ps)
    (front : List Char) :
    List.Forall₂ (fun place t => Piece.Stamps place.1 place.2 t)
      ((placed front ps).filter (·.2.kind.isLexeme)) (lexemesFrom (lineBehind front) ps) := by
  induction h generalizing front with
  | nil => exact .nil
  | @cons p rest ps begins _ ih =>
    have ih := ih (front ++ p.text)
    rw [lineBehind_append] at ih
    cases begins with
    | @lexeme kind text hl =>
      refine .cons ⟨hl.spells _, rfl, fun hk => ?_⟩ ih
      have none : Piece.newlines ⟨.lexeme kind, text⟩ = 0 :=
        List.count_eq_zero.mpr (hl.newline_notMem hk)
      rw [lineBehind_append, none]
      rfl
    | _ => exact ih

theorem blames_errorsFrom {rest : List Char} {ps : List Piece} (h : Partition rest ps)
    (front : List Char) :
    List.Forall₂ (fun place e => Piece.Blames (front ++ rest) place.1 place.2 e)
      ((placed front ps).filter (·.2.kind.isFaulty)) (errorsFrom (lineBehind front) ps) := by
  induction h generalizing front with
  | nil => exact .nil
  | @cons p rest ps begins _ ih =>
    have ih := ih (front ++ p.text)
    rw [lineBehind_append, List.append_assoc] at ih
    cases begins with
    | unexpected => exact .cons ⟨.unexpected _, rfl⟩ ih
    | unterminatedString _ last | unterminatedComment _ last =>
      subst last
      refine .cons ⟨by constructor, ?_⟩ ih
      rw [List.append_nil]
      exact (lineBehind_append _ _).symm
    | _ => exact ih

end Source

theorem lineCount_eq (source : String) : lineCount source = Source.lineBehind source.toList := by
  have whole := Source.lineBehind_flatten [] (Source.pieces source.toList)
  rw [List.nil_append, (Source.partition_pieces source.toList).flatten_text] at whole
  rw [whole, lineCount, Nat.add_comm]
  rfl

/-- Every token is on the line that its text starts on, and ends there unless it is a string. An
unexpected character is on its own line, and what is left open is missed on the last line, which the
end mark is on. -/
theorem scan_lines (source : String) : ∃ ps lexemes,
    (∀ qs, Source.Partition source.toList qs ↔ qs = ps) ∧
    (∀ place ∈ Source.placed [] ps, place.1 ++ place.2.text <+: source.toList) ∧
    (scan source).tokens = lexemes ++ [Token.eof (Source.lineBehind source.toList)] ∧
    List.Forall₂ (fun place t => Source.Piece.Stamps place.1 place.2 t)
      ((Source.placed [] ps).filter (·.2.kind.isLexeme)) lexemes ∧
    List.Forall₂ (fun place e => Source.Piece.Blames source.toList place.1 place.2 e)
      ((Source.placed [] ps).filter (·.2.kind.isFaulty)) (scan source).errors := by
  have h := Source.partition_pieces source.toList
  refine ⟨_, lexemes source, fun qs => ⟨fun hq => hq.eq_pieces, fun he => he ▸ h⟩,
    Source.placed_prefix h, ?_, Source.stamps_lexemesFrom h [], Source.blames_errorsFrom h []⟩
  rw [tokens_scan, lineCount_eq]

/-- A text that leaves nothing open and a text on the lines below are scanned as they are by themselves,
the second one that many lines further down. -/
theorem scan_lines_below {first : String}
    (h : ∀ e ∈ (scan first).errors, e.fault ≠ .unterminatedString ∧ e.fault ≠ .unterminatedComment)
    (second : String) :
    let below := (· + (first.toList.count '\n' + 1))
    (scan (first ++ "\n" ++ second)).tokens =
        (scan first).tokens.dropLast ++ (scan second).tokens.map (Token.onLine below) ∧
      (scan (first ++ "\n" ++ second)).errors =
        (scan first).errors ++ (scan second).errors.map (Source.Error.onLine below) := by
  have nothing : ∀ e ∈ (scan first).errors, e.fault.leavesOpen = false := by
    intro e he
    obtain ⟨string, comment⟩ := h e he
    cases hf : e.fault with
    | unexpectedCharacter => rfl
    | unterminatedString => exact absurd hf string
    | unterminatedComment => exact absurd hf comment
  have terminated := Source.isTerminated_of_errorsFrom nothing
  have lines : first.toList.count '\n' + 1 = lineCount first := by
    rw [lineCount_eq, Source.lineBehind, Nat.add_comm]
  intro below
  have same : below = (· + lineCount first) := funext fun _ => congrArg (_ + ·) lines
  rw [same]
  refine ⟨?_, errors_scan_append terminated second⟩
  simp only [tokens_scan, List.dropLast_concat, List.map_append, lexemes_append terminated,
    lineCount_append terminated, List.append_assoc]
  rfl

/-- An unexpected character, a point without digits and half an operator on the first line, and a string
that is left open on the second one. -/
theorem scan_lines_below_slash :
    (scan "@ 7. /").errors = [⟨1, .unexpectedCharacter '@'⟩] ∧
      (scan ("@ 7. /" ++ "\n" ++ "/5 \"")).tokens =
        (scan "@ 7. /").tokens.dropLast ++ (scan "/5 \"").tokens.map (Token.onLine (· + 1)) ∧
      (scan ("@ 7. /" ++ "\n" ++ "/5 \"")).errors =
        (scan "@ 7. /").errors ++ (scan "/5 \"").errors.map (Source.Error.onLine (· + 1)) := by
  have errors : (scan "@ 7. /").errors = [⟨1, .unexpectedCharacter '@'⟩] := by decide
  refine ⟨errors, scan_lines_below ?_ "/5 \""⟩
  rw [errors]
  decide

end Lox
