import Lox.Proofs.Grammar.Derived
import Lox.Proofs.Parser.Append
import Lox.Proofs.Source

/-!
Reading is exact. A text is read without a fault just if its tokens are a program of the grammar, and
then its tree is that of the one best derivation.
-/

namespace Lox

open Grammar

section

variable {tokens body : List Token} {line : Nat} (ht : Token.untilEof tokens = (body, line))
  (ho : ∀ t ∈ body, t.Genuine) {first : RefId}

include ht ho

/-- What has a best derivation is read as its tree, without a fault. -/
theorem parse_of_derives {o : Bool} {ss : List (Stmt RefId)} {next : RefId}
    (h : Derives true .declarations o body first ss next) :
    parse tokens first = ⟨ss, [], next⟩ := by
  obtain ⟨s, hs, he, hn, -⟩ := parse_run ht ho first
  have answers := h.completes false [] rfl [] (Parser.depthFor body.length)
  rw [List.append_nil] at answers
  obtain hok | ⟨t, hdeep⟩ := answers
  · injection hs.symm.trans hok with hss hstate
    subst hstate
    calc parse tokens first
      _ = ⟨(parse tokens first).statements, (parse tokens first).errors,
            (parse tokens first).nextId⟩ := rfl
      _ = ⟨ss, [], next⟩ := by rw [hss, he, hn, List.map_nil]
  · cases hs.symm.trans hdeep

/-- What is read without a fault has a best derivation of the tree. -/
theorem derives_of_parse (h : (parse tokens first).errors = []) :
    ∃ o, Derives true .declarations o body first (parse tokens first).statements
      (parse tokens first).nextId := by
  obtain ⟨s, hs, he, hn, -⟩ := parse_run ht ho first
  have hf : s.faults = [] := List.map_eq_nil_iff.mp (he.symm.trans h)
  have shows := parseWithin_shows (Parser.depthFor body.length) (.sequence false) ⟨body, first, []⟩
  unfold Parser.Faultless at shows
  rw [hs] at shows
  obtain ⟨ts, o, hts, derives, -⟩ := shows.2 hf
  rw [Parser.rest_sequence hs, List.append_nil] at hts
  rw [hn, show body = ts from hts]
  exact ⟨o, derives⟩

end

/-- The tokens in front of the end mark are read without a fault just if they are a program of the
grammar; and then the tree that is read is the one with a best derivation over just these tokens. -/
theorem parse_exact (source : String) : ∃ tokens line,
    (scan source).tokens = tokens ++ [Token.eof line] ∧ ∀ first,
      ((parse (scan source).tokens first).errors = [] ↔
        ∃ ss next o, Derives false .declarations o tokens first ss next) ∧
      ∀ ss next, (∃ o, Derives true .declarations o tokens first ss next) ↔
        parse (scan source).tokens first = ⟨ss, [], next⟩ := by
  refine ⟨lexemes source, lineCount source, tokens_scan source, fun first => ?_⟩
  have ht := untilEof_scan source
  have ho : ∀ t ∈ lexemes source, t.Genuine := fun t h => (genuine_lexemes source t h).2
  refine ⟨⟨fun h => ?_, fun ⟨ss, next, o, h⟩ => ?_⟩, fun ss next => ⟨fun ⟨o, h⟩ => ?_, fun h => ?_⟩⟩
  · obtain ⟨o, derives⟩ := derives_of_parse ht ho h
    exact ⟨_, _, o, derives.of_best⟩
  · obtain ⟨ss, o, best⟩ := h.exists_best
    rw [parse_of_derives ht ho best]
  · exact parse_of_derives ht ho h
  · have faultless : (parse (scan source).tokens first).errors = [] := by rw [h]
    have derives := derives_of_parse ht ho faultless
    rwa [h] at derives

end Lox
