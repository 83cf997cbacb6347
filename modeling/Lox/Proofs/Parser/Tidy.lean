import Lox.Syntax
import Mathlib.Data.List.Basic

/-!
What the grammar alone says of a tree: no branch and no loop body is a declaration, no variable has a
name that the language keeps for itself, and those names are written as they are.
-/

namespace Lox

variable {ρ : Type}

def Lexeme.Ordinary (l : Lexeme) : Prop := l.text ≠ "this" ∧ l.text ≠ "super"

namespace Token

/-- The words that a variable can be found under. -/
def Kind.findsVariable : Kind → Bool
  | .identifier | .this | .super => Bool.true
  | _ => Bool.false

/-- The token is of the kind that its word has. -/
def Genuine (t : Token) : Prop := t.kind.findsVariable → Kind.ofWord t.lexeme = t.kind

theorem Kind.text_of_ofWord {s word : String} {kind : Kind} (h : ofWord s = kind)
    (hk : kind ≠ .identifier) (hw : ∀ entry ∈ keywords, entry.2 = kind → entry.1 = word) :
    s = word := by
  unfold ofWord at h
  cases hl : keywords.lookup s with
  | none =>
    rw [hl] at h
    exact absurd h.symm hk
  | some found =>
    rw [hl] at h
    obtain ⟨before, after, he, _⟩ := List.lookup_eq_some_iff.mp hl
    exact hw (s, found) (he ▸ List.mem_append_right before List.mem_cons_self) h

variable {t : Token} (h : t.Genuine)

include h

theorem Genuine.ordinary (hk : t.kind = .identifier) : t.mark.Ordinary := by
  have hw := h (by rw [hk]; rfl)
  rw [hk] at hw
  constructor
  · intro ht
    rw [show t.lexeme = "this" from ht] at hw
    revert hw
    decide
  · intro ht
    rw [show t.lexeme = "super" from ht] at hw
    revert hw
    decide

theorem Genuine.text_this (hk : t.kind = .this) : t.lexeme = "this" := by
  have hw := h (by rw [hk]; rfl)
  rw [hk] at hw
  exact Kind.text_of_ofWord hw (by decide) (by decide)

theorem Genuine.text_super (hk : t.kind = .super) : t.lexeme = "super" := by
  have hw := h (by rw [hk]; rfl)
  rw [hk] at hw
  exact Kind.text_of_ofWord hw (by decide) (by decide)

end Token

def Stmt.isDeclaration : Stmt ρ → Bool
  | .var _ _ | .function _ | .class _ _ _ _ => true
  | _ => false

mutual

def Expr.Tidy : Expr ρ → Prop
  | .literal _ => True
  | .variable _ name => name.Ordinary
  | .assign _ name e => name.Ordinary ∧ e.Tidy
  | .this _ keyword => keyword.text = "this"
  | .super _ keyword _ => keyword.text = "super"
  | .unary _ _ e | .group e | .get e _ => e.Tidy
  | .binary _ _ l r | .logical _ _ l r | .set l _ r => l.Tidy ∧ r.Tidy
  | .ternary c y n => c.Tidy ∧ y.Tidy ∧ n.Tidy
  | .call c as _ => c.Tidy ∧ Expr.TidyAll as
  | .lambda _ r => r.Tidy

def Expr.TidyAll : List (Expr ρ) → Prop
  | [] => True
  | e :: es => e.Tidy ∧ Expr.TidyAll es

def Stmt.Tidy : Stmt ρ → Prop
  | .expr e | .print e => e.Tidy
  | .var name none => name.Ordinary
  | .var name (some e) => name.Ordinary ∧ e.Tidy
  | .block b => Stmt.TidyAll b
  | .if c y none => c.Tidy ∧ y.Tidy ∧ y.isDeclaration = false
  | .if c y (some n) =>
    c.Tidy ∧ (y.Tidy ∧ y.isDeclaration = false) ∧ n.Tidy ∧ n.isDeclaration = false
  | .while c b => c.Tidy ∧ b.Tidy ∧ b.isDeclaration = false
  | .break _ | .return _ none => True
  | .return _ (some e) => e.Tidy
  | .function d => d.Tidy
  | .class name _ ms cs => name.Ordinary ∧ Definition.TidyAll ms ∧ Definition.TidyAll cs

def Stmt.TidyAll : List (Stmt ρ) → Prop
  | [] => True
  | s :: ss => s.Tidy ∧ Stmt.TidyAll ss

def Routine.Tidy : Routine ρ → Prop
  | ⟨params, body⟩ => (∀ p ∈ params, p.Ordinary) ∧ Stmt.TidyAll body

def Definition.Tidy : Definition ρ → Prop
  | ⟨name, r⟩ => name.Ordinary ∧ r.Tidy

def Definition.TidyAll : List (Definition ρ) → Prop
  | [] => True
  | d :: ds => d.Tidy ∧ Definition.TidyAll ds

end

theorem Stmt.referencesAll_append (ss ts : List (Stmt ρ)) :
    Stmt.referencesAll (ss ++ ts) = Stmt.referencesAll ss ++ Stmt.referencesAll ts := by
  induction ss with
  | nil => rfl
  | cons s ss ih => rw [List.cons_append, Stmt.referencesAll, Stmt.referencesAll, ih, List.append_assoc]

theorem Stmt.tidyAll_append {ss ts : List (Stmt ρ)} (hs : Stmt.TidyAll ss) (ht : Stmt.TidyAll ts) :
    Stmt.TidyAll (ss ++ ts) := by
  induction ss with
  | nil => exact ht
  | cons s ss ih => exact ⟨hs.1, ih hs.2⟩

theorem Definition.tidyAll_filter {ms : List (Bool × Definition ρ)}
    (h : Definition.TidyAll (ms.map (·.2))) (keep : Bool × Definition ρ → Bool) :
    Definition.TidyAll ((ms.filter keep).map (·.2)) := by
  induction ms with
  | nil => trivial
  | cons m ms ih =>
    rw [List.filter_cons]
    split
    · exact ⟨h.1, ih h.2⟩
    · exact ih h.2

/-- The two kinds of methods of a class together have the references of all. -/
theorem Definition.count_referencesAll_filter [BEq ρ] (ms : List (Bool × Definition ρ)) (r : ρ) :
    (Definition.referencesAll (ms.map (·.2))).count r =
      (Definition.referencesAll ((ms.filter (·.1 == false)).map (·.2))).count r +
        (Definition.referencesAll ((ms.filter (·.1 == true)).map (·.2))).count r := by
  induction ms with
  | nil => rfl
  | cons m ms ih =>
    obtain ⟨_ | _, d⟩ := m
    all_goals
      simp only [List.filter_cons, BEq.rfl, reduceCtorEq, beq_iff_eq, if_true, if_false,
        List.map_cons, Definition.referencesAll, List.count_append, ih]
      omega

end Lox
