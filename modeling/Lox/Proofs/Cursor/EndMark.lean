import Lox.Proofs.Cursor.Progress
import Lox.Proofs.Parser.Append

/-!
Reading ends at the first end mark. What stands behind the mark does not matter, and neither does
whether there is one at all: without it reading is as with a mark on the line of the last token. The
cursor comes to a stand in front of the mark, however many tokens follow.
-/

namespace Lox

/-- Programs are read alike if they have the same tokens in front of the first end mark and end on the
same line. -/
theorem parse_congr {tokens tokens' : List Token} (h : Token.untilEof tokens = Token.untilEof tokens')
    (first : RefId) : parse tokens first = parse tokens' first := by
  rw [parse_of_untilEof rfl, parse_of_untilEof rfl, h]

namespace Cursor

/-- However many more nested calls are allowed than it takes, the reader with the cursor gives just
this of the tokens, and leaves the cursor at this place. -/
def ComesTo (tokens : List Token) (first : RefId) (place : Nat) (read : Parsed) : Prop :=
  ∀ more, ∃ s : State,
    readWithin (Parser.depthFor tokens.length + more) (.sequence false) (.start tokens first) =
      .ok read.statements s ∧
    s.errors = read.errors ∧ s.nextId = read.nextId ∧ s.position = place

theorem comesTo_mark (tokens : List Token) (first : RefId) :
    ComesTo tokens first (Token.untilEof tokens).1.length (parse tokens first) := by
  intro more
  obtain ⟨T, closed, until_, within⟩ := exists_tape tokens
  have st : Stands T (.start tokens first) ⟨T.body, first, []⟩ :=
    ⟨closed.symm, Nat.zero_le _, rfl, rfl, rfl⟩
  have enough : Parser.depthFor T.body.length ≤ Parser.depthFor tokens.length + more := by
    unfold Parser.depthFor
    omega
  have agrees := readWithin_agreeing enough (.sequence false) _ _ st nofun
    (Parser.le_depthFor T.body.length)
  have reports := Parser.sequence_reports (Parser.depthFor T.body.length) false ⟨T.body, first, []⟩
  rw [parse_of_untilEof until_, until_]
  generalize readWithin _ (.sequence false) (.start tokens first) = r at agrees
  generalize run : Parser.parseWithin (Parser.depthFor T.body.length) (.sequence false)
    ⟨T.body, first, []⟩ = r' at agrees reports
  cases agrees with
  | fault stands taken proceeds => exact absurd rfl (reports _ _)
  | answer stands taken proceeds =>
    -- Declarations are read up to the end, so nothing is left in front of the mark.
    have length := stands.length
    rw [Parser.rest_sequence run, List.length_nil, Nat.zero_add] at length
    exact ⟨_, rfl, stands.errors, stands.nextId.symm, length⟩

/-- Only the tokens in front of the first end mark matter, and a missing mark stands on the line of the
last token. Both readers give the same, and the one with the cursor never goes on behind the mark. -/
theorem reading_ends_at_mark {ts : List Token} (proper : ∀ t ∈ ts, t.kind ≠ .eof) {mark : Token}
    (isMark : mark.kind = .eof) (beyond : List Token) (first : RefId) :
    (∃ read, parse (ts ++ mark :: beyond) first = read ∧ parse (ts ++ [mark]) first = read ∧
      ComesTo (ts ++ mark :: beyond) first ts.length read ∧
      ComesTo (ts ++ [mark]) first ts.length read) ∧
    ∀ h : ts ≠ [], ∃ read, parse ts first = read ∧
      parse (ts ++ [.eof (ts.getLast h).line]) first = read ∧
      ComesTo ts first ts.length read ∧
      ComesTo (ts ++ [.eof (ts.getLast h).line]) first ts.length read := by
  have comes {tokens : List Token} {line : Nat} {read : Parsed}
      (ht : Token.untilEof tokens = (ts, line)) (same : parse tokens first = read) :
      ComesTo tokens first ts.length read := by
    have comes := comesTo_mark tokens first
    rwa [ht, same] at comes
  have marked (mark : Token) (isMark : mark.kind = .eof) (beyond : List Token) :=
    Token.untilEof_append_mark proper isMark beyond
  constructor
  · have same : parse (ts ++ mark :: beyond) first = parse (ts ++ [mark]) first :=
      parse_congr ((marked mark isMark beyond).trans (marked mark isMark []).symm) first
    exact ⟨_, same, rfl, comes (marked mark isMark beyond) same, comes (marked mark isMark []) rfl⟩
  · intro h
    have bare := Token.untilEof_of_proper proper h
    have closed := marked (.eof (ts.getLast h).line) rfl []
    have same : parse ts first = parse (ts ++ [.eof (ts.getLast h).line]) first :=
      parse_congr (bare.trans closed.symm) first
    exact ⟨_, same, rfl, comes bare same, comes closed rfl⟩

/-- The same of a group that is left open, and closed behind the mark only. -/
theorem reading_ends_at_mark_in_group :
    let ts : List Token := [⟨.print, "print", 1, none⟩, ⟨.leftParen, "(", 2, none⟩]
    let beyond : List Token :=
      [⟨.nil, "nil", 3, none⟩, ⟨.rightParen, ")", 3, none⟩, ⟨.semicolon, ";", 3, none⟩]
    ∃ read bare,
      (parse (ts ++ .eof 3 :: beyond) 0 = read ∧ parse (ts ++ [.eof 3]) 0 = read ∧
        ComesTo (ts ++ .eof 3 :: beyond) 0 2 read ∧ ComesTo (ts ++ [.eof 3]) 0 2 read) ∧
      (parse ts 0 = bare ∧ parse (ts ++ [.eof 2]) 0 = bare ∧ ComesTo ts 0 2 bare ∧
        ComesTo (ts ++ [.eof 2]) 0 2 bare) ∧
      read.errors.map (·.message) = ["[line 3] Error at end: Expect expression."] ∧
      bare.errors.map (·.message) = ["[line 2] Error at end: Expect expression."] := by
  intro ts beyond
  have proper : ∀ t ∈ ts, t.kind ≠ .eof := by decide
  have isMark : (Token.eof 3).kind = .eof := rfl
  obtain ⟨⟨read, h⟩, missing⟩ := reading_ends_at_mark proper isMark beyond 0
  obtain ⟨bare, h'⟩ := missing (List.cons_ne_nil _ _)
  refine ⟨read, bare, h, h', ?_, ?_⟩
  · rw [← h.2.1]
    decide +kernel
  · rw [← h'.2.1]
    decide +kernel

end Cursor

end Lox
