import Lox.Proofs.Scoping.Visits

/-!
Places. Scoping comes to a phrase with references in it once: no two references of a program have the
same identity, so a phrase that has one stands in one place.
-/

namespace Lox

namespace Scoping

namespace Phrase

def references : Phrase → List RefId
  | .expr e => e.references
  | .exprs es => Expr.referencesAll es
  | .stmt s => s.references
  | .stmts ss => Stmt.referencesAll ss
  | .routine _ r => r.references
  | .methods ms | .classMethods ms => Definition.referencesAll ms

/-- Phrases inside of a phrase are smaller. -/
noncomputable def size : Phrase → Nat
  | .expr e => sizeOf e
  | .exprs es => sizeOf es
  | .stmt s => sizeOf s
  | .stmts ss => sizeOf ss
  | .routine _ r => sizeOf r
  | .methods ms | .classMethods ms => sizeOf ms

end Phrase

theorem references_if (c : Expr RefId) (y : Stmt RefId) (n : Option (Stmt RefId)) :
    (Stmt.if c y n).references =
      c.references ++ (y.references ++ (n.map Stmt.references).getD []) := by
  cases n <;> simp [Stmt.references]

namespace Visit.Enters

variable {u v w : Visit}

theorem size (h : u.Enters v) : v.phrase.size < u.phrase.size := by
  cases h <;> simp [Phrase.size] <;> omega

theorem references (h : u.Enters v) : v.phrase.references.Sublist u.phrase.references := by
  cases h <;> simp [Phrase.references, Expr.references, references_if, Stmt.references,
    Expr.referencesAll, Stmt.referencesAll, Definition.referencesAll, Definition.references,
    Routine.references]

/-- Different phrases in a phrase have different references of it. -/
theorem apart (h : u.Enters v) (h' : u.Enters w) : v = w ∨
    (v.phrase.references ++ w.phrase.references).Sublist u.phrase.references ∨
    (w.phrase.references ++ v.phrase.references).Sublist u.phrase.references := by
  cases h <;> cases h' <;> simp [Phrase.references, Expr.references, references_if, Stmt.references,
    Expr.referencesAll, Stmt.referencesAll, Definition.referencesAll, Definition.references]

theorem unique (h : u.Enters v) (h' : u.Enters w) (distinct : u.phrase.references.Nodup) {r : RefId}
    (hv : r ∈ v.phrase.references) (hw : r ∈ w.phrase.references) : v = w := by
  obtain same | sublist | sublist := h.apart h'
  · exact same
  · exact absurd rfl ((List.nodup_append.mp (distinct.sublist sublist)).2.2 r hv r hw)
  · exact absurd rfl ((List.nodup_append.mp (distinct.sublist sublist)).2.2 r hw r hv)

end Visit.Enters

namespace Visit

variable {u v w : Visit}

/-- Scoping comes from one visit to the other. -/
abbrev Reaches : Visit → Visit → Prop := Relation.ReflTransGen Enters

theorem Reaches.size (h : u.Reaches v) : v.phrase.size ≤ u.phrase.size := by
  induction h with
  | refl => exact Nat.le_refl _
  | tail _ enters ih => exact Nat.le_trans (Nat.le_of_lt enters.size) ih

theorem Reaches.references (h : u.Reaches v) : v.phrase.references.Sublist u.phrase.references := by
  induction h with
  | refl => exact List.Sublist.refl _
  | tail _ enters ih => exact enters.references.trans ih

/-- A phrase is not inside of itself. -/
theorem Reaches.eq_of_phrase (h : u.Reaches v) (same : v.phrase = u.phrase) : v = u := by
  obtain rfl | ⟨w, enters, rest⟩ := Relation.ReflTransGen.cases_head h
  · rfl
  · exact absurd (same ▸ Reaches.size rest) (Nat.not_le.mpr enters.size)

/-- Two visits to a phrase that has a reference are one. -/
theorem Reaches.unique (hv : u.Reaches v) (hw : u.Reaches w) (distinct : u.phrase.references.Nodup)
    (same : w.phrase = v.phrase) {r : RefId} (hr : r ∈ v.phrase.references) : w = v := by
  induction hv using Relation.ReflTransGen.head_induction_on with
  | refl => exact hw.eq_of_phrase same
  | @head u v' enters rest ih =>
    obtain rfl | ⟨w', enters', rest'⟩ := Relation.ReflTransGen.cases_head hw
    · exact (Reaches.eq_of_phrase (.head enters rest) same.symm).symm
    · have shared : w' = v' :=
        enters'.unique enters distinct ((Reaches.references rest').subset (same ▸ hr))
          ((Reaches.references rest).subset hr)
      subst shared
      exact ih rest' (distinct.sublist enters.references)

end Visit

end Scoping

end Lox
