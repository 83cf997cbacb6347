import Lox.Proofs.Parser.Append
import Lox.Proofs.Scoping.Names
import Lox.Proofs.Session.Compile

/-!
Texts joined by a line break. The whole is read as the first text and behind it the second one, on
lines further down and with later identities for its references, and it is scoped likewise.
-/

namespace Lox

open Scoping

section Resolve

variable {p : List (Stmt RefId)}

theorem Stmt.resolveAll_append (context : Context) (p q : List (Stmt RefId)) (s : Scoping.State) :
    Stmt.resolveAll context (p ++ q) s =
      ((Stmt.resolveAll context p s).1 ++
          (Stmt.resolveAll context q (Stmt.resolveAll context p s).2).1,
        (Stmt.resolveAll context q (Stmt.resolveAll context p s).2).2) := by
  induction p generalizing s with
  | nil => rfl
  | cons t p ih =>
    have h := ih (t.resolve context s).2
    change ((t.resolve context s).1 :: (resolveAll context (p ++ q) (t.resolve context s).2).1,
      (resolveAll context (p ++ q) (t.resolve context s).2).2) = _
    rw [h]
    rfl

/-- Nothing that a program declares outside all scopes is kept there. -/
theorem scopes_resolveAll (hp : Stmt.TidyAll p) : (Stmt.resolveAll {} p {}).2.scopes = [] := by
  have h := (Stmt.resolveAll_moves {} hp).names {}
  exact List.map_eq_nil_iff.mp (h.trans (Stmt.afterAll_nil p))

/-- Programs one behind the other are scoped apart. -/
theorem resolve_append (hp : Stmt.TidyAll p) {φ : Relabeling RefId RefId} (h₀ : φ.line 0 = 0)
    (q : List (Stmt RefId)) :
    resolve (p ++ q.map (Stmt.relabel φ)) =
      ⟨(resolve p).program ++ (resolve q).program.map (Stmt.relabel φ.bound),
        (resolve p).findings ++ (resolve q).findings.map (Finding.relabel φ)⟩ := by
  have hs : (Stmt.resolveAll {} p {}).2 = State.relabel φ (resolve p).findings {} := by
    have hf : (resolve p).findings = (Stmt.resolveAll {} p {}).2.findings := rfl
    have hn := scopes_resolveAll hp
    rw [hf, State.relabel, List.map_nil, List.map_nil, List.append_nil]
    generalize (Stmt.resolveAll {} p {}).2 = s at hn
    rw [← hn]
  have tracks : Tracks φ (resolve p).findings _ _ _ := Stmt.resolveAll_tracks h₀ {} q
  have h := tracks {}
  rw [← hs, Stmt.relabelAll_eq_map, Stmt.relabelAll_eq_map] at h
  have whole := Stmt.resolveAll_append {} p (q.map (Stmt.relabel φ)) {}
  rw [h] at whole
  simp only [resolve, StateT.run] at whole ⊢
  rw [whole]
  rfl

end Resolve

/-- A line of a text so far below. What the language itself declares is on line zero, and stays. -/
def linesBelow (n line : Nat) : Nat := if line = 0 then 0 else line + n

namespace Session

/-- What becomes of a text behind the first one. -/
def behind (first : String) : Relabeling RefId RefId :=
  shifting (reading first).nextId (linesBelow (lineCount first))

variable {first second : String} (h₁ : faults first = []) (h₂ : faults second = [])

include h₁ h₂

theorem reading_append : reading (first ++ "\n" ++ second) =
    ⟨(reading first).statements ++ (reading second).statements.map (Stmt.relabel (behind first)), [],
      (reading second).nextId + (reading first).nextId⟩ := by
  have hl : (lexemes second).map (Token.onLine (· + lineCount first)) =
      (lexemes second).map (Token.onLine (linesBelow (lineCount first))) := by
    refine List.map_congr_left fun t ht => ?_
    have h := line_lexemes second t ht
    rw [Token.onLine, Token.onLine, linesBelow, if_neg (by omega)]
  have terminated := isTerminated_of_errors_scan (faults_eq_nil h₁)
  have hg : ∀ t ∈ lexemes (first ++ "\n" ++ second), t.kind ≠ .eof := fun t ht =>
    (genuine_lexemes _ t ht).1
  rw [lexemes_append terminated, hl] at hg
  -- the second text by itself, on the lines that it has in the whole
  have last : (Token.eof 0).kind = .eof := rfl
  have ht₂ := Token.untilEof_append_mark (fun t ht => hg t (List.mem_append_right _ ht)) last []
  generalize hts : (lexemes second).map (Token.onLine (linesBelow (lineCount first))) ++
    [Token.eof 0] = tokens₂ at ht₂
  have ht : (Token.untilEof (scan (first ++ "\n" ++ second)).tokens).1 =
      (Token.untilEof (scan first).tokens).1 ++ (Token.untilEof tokens₂).1 := by
    rw [untilEof_scan, untilEof_scan, ht₂, lexemes_append terminated, hl]
  have hb : (Token.untilEof tokens₂).1 =
      (Token.untilEof (scan second).tokens).1.map (Token.onLine (linesBelow (lineCount first))) := by
    rw [untilEof_scan, ht₂]
  obtain ⟨statements, nextId, errors⟩ := parse_onLine hb 0 (reading first).nextId
  have he₁ := errors_reading h₁
  have he₂ := errors_reading h₂
  rw [Nat.zero_add] at statements nextId errors
  unfold reading at he₁ he₂ statements nextId errors ⊢
  rw [parse_append ht (genuine_tokens _) he₁ (errors he₂), statements, nextId, behind]
  unfold reading
  rfl

theorem faults_append : faults (first ++ "\n" ++ second) = [] := by
  rw [faults, reading_append h₁ h₂,
    errors_scan_append (isTerminated_of_errors_scan (faults_eq_nil h₁)), faults_eq_nil h₁,
    faults_eq_nil h₂]
  rfl

theorem scoping_append : scoping (first ++ "\n" ++ second) =
    ⟨(scoping first).program ++ (scoping second).program.map (Stmt.relabel (behind first).bound),
      (scoping first).findings ++ (scoping second).findings.map (Finding.relabel (behind first))⟩ := by
  have h := resolve_append (tidy_reading first) (φ := behind first) rfl (reading second).statements
  unfold scoping
  rw [reading_append h₁ h₂, h]

end Session

end Lox
