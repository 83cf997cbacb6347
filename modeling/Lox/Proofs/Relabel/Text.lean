import Lox.Proofs.Relabel.Syntax
import Lox.Syntax.Printer

/-!
Relabelings and the text of trees. The text shows neither what references carry nor lines.
-/

namespace Lox

variable {ρ σ : Type} (φ : Relabeling ρ σ)

@[simp] theorem Lexeme.toSexp_relabel (l : Lexeme) : (l.relabel φ).toSexp = l.toSexp := rfl

mutual

theorem Expr.toSexp_relabel : ∀ e : Expr ρ, (e.relabel φ).toSexp = e.toSexp
  | .literal _ | .variable _ _ | .this _ _ | .super _ _ _ => rfl
  | .assign _ _ e | .unary _ _ e | .group e | .get e _ => by
    simp only [Expr.relabel, Expr.toSexp, Expr.toSexp_relabel e, Lexeme.toSexp_relabel,
      Lexeme.text_relabel]
  | .binary _ _ l r | .logical _ _ l r | .set l _ r => by
    simp only [Expr.relabel, Expr.toSexp, Expr.toSexp_relabel l, Expr.toSexp_relabel r,
      Lexeme.toSexp_relabel, Lexeme.text_relabel]
  | .ternary c y n => by
    simp only [Expr.relabel, Expr.toSexp, Expr.toSexp_relabel c, Expr.toSexp_relabel y,
      Expr.toSexp_relabel n]
  | .call c as _ => by
    simp only [Expr.relabel, Expr.toSexp, Expr.toSexp_relabel c, Expr.toSexps_relabel as]
  | .lambda _ r => by simp only [Expr.relabel, Expr.toSexp, Routine.toSexps_relabel r]

theorem Expr.toSexps_relabel :
    ∀ es : List (Expr ρ), Expr.toSexps (Expr.relabelAll φ es) = Expr.toSexps es
  | [] => rfl
  | e :: es => by
    simp only [Expr.relabelAll, Expr.toSexps, Expr.toSexp_relabel e, Expr.toSexps_relabel es]

theorem Stmt.toSexp_relabel : ∀ s : Stmt ρ, (s.relabel φ).toSexp = s.toSexp
  | .var _ none | .break _ | .return _ none => rfl
  | .expr e | .print e | .var _ (some e) | .return _ (some e) => by
    simp only [Stmt.relabel, Stmt.toSexp, Expr.toSexp_relabel e, Lexeme.toSexp_relabel]
  | .block b => by simp only [Stmt.relabel, Stmt.toSexp, Stmt.toSexps_relabel b]
  | .if c y none => by
    simp only [Stmt.relabel, Stmt.toSexp, Expr.toSexp_relabel c, Stmt.toSexp_relabel y]
  | .if c y (some n) => by
    simp only [Stmt.relabel, Stmt.toSexp, Expr.toSexp_relabel c, Stmt.toSexp_relabel y,
      Stmt.toSexp_relabel n]
  | .while c b => by
    simp only [Stmt.relabel, Stmt.toSexp, Expr.toSexp_relabel c, Stmt.toSexp_relabel b]
  | .function d => by simp only [Stmt.relabel, Stmt.toSexp, Definition.toSexp_relabel _ d]
  | .class _ none ms cs | .class _ (some _) ms cs => by
    simp only [Stmt.relabel, Stmt.toSexp, Option.map_none, Option.map_some,
      Definition.toSexps_relabel _ ms, Definition.toSexps_relabel _ cs, Lexeme.toSexp_relabel]

theorem Stmt.toSexps_relabel :
    ∀ ss : List (Stmt ρ), Stmt.toSexps (Stmt.relabelAll φ ss) = Stmt.toSexps ss
  | [] => rfl
  | s :: ss => by
    simp only [Stmt.relabelAll, Stmt.toSexps, Stmt.toSexp_relabel s, Stmt.toSexps_relabel ss]

theorem Routine.toSexps_relabel : ∀ r : Routine ρ, (r.relabel φ).toSexps = r.toSexps
  | ⟨ps, b⟩ => by
    have names : (ps.map (Lexeme.relabel φ)).map Lexeme.toSexp = ps.map Lexeme.toSexp := by
      rw [List.map_map]
      rfl
    simp only [Routine.relabel, Routine.toSexps, names, Stmt.toSexps_relabel b]

theorem Definition.toSexp_relabel (keyword : String) :
    ∀ d : Definition ρ, (d.relabel φ).toSexp keyword = d.toSexp keyword
  | ⟨_, r⟩ => by
    simp only [Definition.relabel, Definition.toSexp, Routine.toSexps_relabel r,
      Lexeme.toSexp_relabel]

theorem Definition.toSexps_relabel (keyword : String) : ∀ ds : List (Definition ρ),
    Definition.toSexps keyword (Definition.relabelAll φ ds) = Definition.toSexps keyword ds
  | [] => rfl
  | d :: ds => by
    simp only [Definition.relabelAll, Definition.toSexps, Definition.toSexp_relabel keyword d,
      Definition.toSexps_relabel keyword ds]

end

theorem programText_relabel (p : List (Stmt ρ)) :
    programText (p.map (Stmt.relabel φ)) = programText p := by
  rw [programText, programText, List.map_map]
  refine congrArg _ (List.map_congr_left fun s _ => ?_)
  exact congrArg Sexp.render (s.toSexp_relabel φ)

end Lox
