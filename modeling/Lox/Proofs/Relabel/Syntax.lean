import Lox.Syntax
import Mathlib.Data.List.Basic

/-!
Relabelings of syntax trees: another annotation on each reference and another number for each line.
What a program does depends on neither, apart from the lines that its errors name.
-/

namespace Lox

variable {ρ σ τ : Type}

structure Relabeling (ρ σ : Type) where
  ref : ρ → σ
  line : Nat → Nat

namespace Relabeling

def comp (ψ : Relabeling σ τ) (φ : Relabeling ρ σ) : Relabeling ρ τ :=
  ⟨ψ.ref ∘ φ.ref, ψ.line ∘ φ.line⟩

/-- Another annotation on each reference; all lines stay. -/
def onRefs (f : ρ → σ) : Relabeling ρ σ := ⟨f, id⟩

@[simp] theorem line_onRefs (f : ρ → σ) : (onRefs f).line = id := rfl

@[simp] theorem ref_onRefs (f : ρ → σ) : (onRefs f).ref = f := rfl

end Relabeling

def Lexeme.relabel (φ : Relabeling ρ σ) (l : Lexeme) : Lexeme := ⟨l.text, φ.line l.line⟩

@[simp] theorem Lexeme.text_relabel (φ : Relabeling ρ σ) (l : Lexeme) :
    (l.relabel φ).text = l.text := rfl

@[simp] theorem Lexeme.line_relabel (φ : Relabeling ρ σ) (l : Lexeme) :
    (l.relabel φ).line = φ.line l.line := rfl

mutual

def Expr.relabel (φ : Relabeling ρ σ) : Expr ρ → Expr σ
  | .literal v => .literal v
  | .variable r n => .variable (φ.ref r) (n.relabel φ)
  | .assign r n e => .assign (φ.ref r) (n.relabel φ) (e.relabel φ)
  | .this r k => .this (φ.ref r) (k.relabel φ)
  | .super r k m => .super (φ.ref r) (k.relabel φ) (m.relabel φ)
  | .unary op s e => .unary op (s.relabel φ) (e.relabel φ)
  | .binary op s l r => .binary op (s.relabel φ) (l.relabel φ) (r.relabel φ)
  | .logical op s l r => .logical op (s.relabel φ) (l.relabel φ) (r.relabel φ)
  | .ternary c y n => .ternary (c.relabel φ) (y.relabel φ) (n.relabel φ)
  | .group e => .group (e.relabel φ)
  | .call c as line => .call (c.relabel φ) (Expr.relabelAll φ as) (φ.line line)
  | .get o n => .get (o.relabel φ) (n.relabel φ)
  | .set o n e => .set (o.relabel φ) (n.relabel φ) (e.relabel φ)
  | .lambda line r => .lambda (φ.line line) (r.relabel φ)

def Expr.relabelAll (φ : Relabeling ρ σ) : List (Expr ρ) → List (Expr σ)
  | [] => []
  | e :: es => e.relabel φ :: Expr.relabelAll φ es

def Stmt.relabel (φ : Relabeling ρ σ) : Stmt ρ → Stmt σ
  | .expr e => .expr (e.relabel φ)
  | .print e => .print (e.relabel φ)
  | .var n none => .var (n.relabel φ) none
  | .var n (some e) => .var (n.relabel φ) (some (e.relabel φ))
  | .block b => .block (Stmt.relabelAll φ b)
  | .if c y none => .if (c.relabel φ) (y.relabel φ) none
  | .if c y (some n) => .if (c.relabel φ) (y.relabel φ) (some (n.relabel φ))
  | .while c b => .while (c.relabel φ) (b.relabel φ)
  | .break k => .break (k.relabel φ)
  | .return k none => .return (k.relabel φ) none
  | .return k (some e) => .return (k.relabel φ) (some (e.relabel φ))
  | .function d => .function (d.relabel φ)
  | .class n s ms cs =>
    .class (n.relabel φ) (s.map fun (r, l) => (φ.ref r, l.relabel φ))
      (Definition.relabelAll φ ms) (Definition.relabelAll φ cs)

def Stmt.relabelAll (φ : Relabeling ρ σ) : List (Stmt ρ) → List (Stmt σ)
  | [] => []
  | s :: ss => s.relabel φ :: Stmt.relabelAll φ ss

def Routine.relabel (φ : Relabeling ρ σ) : Routine ρ → Routine σ
  | ⟨ps, b⟩ => ⟨ps.map (Lexeme.relabel φ), Stmt.relabelAll φ b⟩

def Definition.relabel (φ : Relabeling ρ σ) : Definition ρ → Definition σ
  | ⟨n, r⟩ => ⟨n.relabel φ, r.relabel φ⟩

def Definition.relabelAll (φ : Relabeling ρ σ) : List (Definition ρ) → List (Definition σ)
  | [] => []
  | d :: ds => d.relabel φ :: Definition.relabelAll φ ds

end

theorem Expr.relabelAll_eq_map (φ : Relabeling ρ σ) (es : List (Expr ρ)) :
    Expr.relabelAll φ es = es.map (Expr.relabel φ) := by
  induction es with
  | nil => rfl
  | cons e es ih => rw [Expr.relabelAll, List.map_cons, ih]

theorem Stmt.relabelAll_eq_map (φ : Relabeling ρ σ) (ss : List (Stmt ρ)) :
    Stmt.relabelAll φ ss = ss.map (Stmt.relabel φ) := by
  induction ss with
  | nil => rfl
  | cons s ss ih => rw [Stmt.relabelAll, List.map_cons, ih]

theorem Definition.relabelAll_eq_map (φ : Relabeling ρ σ) (ds : List (Definition ρ)) :
    Definition.relabelAll φ ds = ds.map (Definition.relabel φ) := by
  induction ds with
  | nil => rfl
  | cons d ds ih => rw [Definition.relabelAll, List.map_cons, ih]

/-! Composition. -/

theorem Lexeme.relabel_relabel (φ : Relabeling ρ σ) (ψ : Relabeling σ τ) (l : Lexeme) :
    (l.relabel φ).relabel ψ = l.relabel (ψ.comp φ) := rfl

mutual

theorem Expr.relabel_relabel (φ : Relabeling ρ σ) (ψ : Relabeling σ τ) :
    ∀ e : Expr ρ, (e.relabel φ).relabel ψ = e.relabel (ψ.comp φ)
  | .literal _ | .variable _ _ | .this _ _ | .super _ _ _ => rfl
  | .assign _ _ e => by
    simp only [Expr.relabel, Expr.relabel_relabel φ ψ e]
    rfl
  | .unary _ _ e | .group e | .get e _ => by
    simp only [Expr.relabel, Expr.relabel_relabel φ ψ e, Lexeme.relabel_relabel]
  | .binary _ _ l r | .logical _ _ l r | .set l _ r => by
    simp only [Expr.relabel, Expr.relabel_relabel φ ψ l, Expr.relabel_relabel φ ψ r,
      Lexeme.relabel_relabel]
  | .ternary c y n => by
    simp only [Expr.relabel, Expr.relabel_relabel φ ψ c, Expr.relabel_relabel φ ψ y,
      Expr.relabel_relabel φ ψ n]
  | .call c as _ => by
    simp only [Expr.relabel, Expr.relabel_relabel φ ψ c, Expr.relabelAll_relabelAll φ ψ as]
    rfl
  | .lambda _ r => by
    simp only [Expr.relabel, Routine.relabel_relabel φ ψ r]
    rfl

theorem Expr.relabelAll_relabelAll (φ : Relabeling ρ σ) (ψ : Relabeling σ τ) :
    ∀ es : List (Expr ρ), Expr.relabelAll ψ (Expr.relabelAll φ es) = Expr.relabelAll (ψ.comp φ) es
  | [] => rfl
  | e :: es => by
    simp only [Expr.relabelAll, Expr.relabel_relabel φ ψ e, Expr.relabelAll_relabelAll φ ψ es]

theorem Stmt.relabel_relabel (φ : Relabeling ρ σ) (ψ : Relabeling σ τ) :
    ∀ s : Stmt ρ, (s.relabel φ).relabel ψ = s.relabel (ψ.comp φ)
  | .var _ none | .break _ | .return _ none => rfl
  | .expr e | .print e | .var _ (some e) | .return _ (some e) => by
    simp only [Stmt.relabel, Expr.relabel_relabel φ ψ e, Lexeme.relabel_relabel]
  | .block b => by simp only [Stmt.relabel, Stmt.relabelAll_relabelAll φ ψ b]
  | .if c y none | .while c y => by
    simp only [Stmt.relabel, Expr.relabel_relabel φ ψ c, Stmt.relabel_relabel φ ψ y]
  | .if c y (some n) => by
    simp only [Stmt.relabel, Expr.relabel_relabel φ ψ c, Stmt.relabel_relabel φ ψ y,
      Stmt.relabel_relabel φ ψ n]
  | .function d => by simp only [Stmt.relabel, Definition.relabel_relabel φ ψ d]
  | .class _ s ms cs => by
    simp only [Stmt.relabel, Definition.relabelAll_relabelAll φ ψ ms,
      Definition.relabelAll_relabelAll φ ψ cs, Option.map_map, Lexeme.relabel_relabel]
    rfl

theorem Stmt.relabelAll_relabelAll (φ : Relabeling ρ σ) (ψ : Relabeling σ τ) :
    ∀ ss : List (Stmt ρ), Stmt.relabelAll ψ (Stmt.relabelAll φ ss) = Stmt.relabelAll (ψ.comp φ) ss
  | [] => rfl
  | s :: ss => by
    simp only [Stmt.relabelAll, Stmt.relabel_relabel φ ψ s, Stmt.relabelAll_relabelAll φ ψ ss]

theorem Routine.relabel_relabel (φ : Relabeling ρ σ) (ψ : Relabeling σ τ) :
    ∀ r : Routine ρ, (r.relabel φ).relabel ψ = r.relabel (ψ.comp φ)
  | ⟨ps, b⟩ => by
    simp only [Routine.relabel, Stmt.relabelAll_relabelAll φ ψ b, List.map_map]
    rfl

theorem Definition.relabel_relabel (φ : Relabeling ρ σ) (ψ : Relabeling σ τ) :
    ∀ d : Definition ρ, (d.relabel φ).relabel ψ = d.relabel (ψ.comp φ)
  | ⟨_, r⟩ => by
    simp only [Definition.relabel, Routine.relabel_relabel φ ψ r, Lexeme.relabel_relabel]

theorem Definition.relabelAll_relabelAll (φ : Relabeling ρ σ) (ψ : Relabeling σ τ) :
    ∀ ds : List (Definition ρ),
      Definition.relabelAll ψ (Definition.relabelAll φ ds) = Definition.relabelAll (ψ.comp φ) ds
  | [] => rfl
  | d :: ds => by
    simp only [Definition.relabelAll, Definition.relabel_relabel φ ψ d,
      Definition.relabelAll_relabelAll φ ψ ds]

end

/-! The relabeling that changes nothing. -/

@[simp] theorem Lexeme.relabel_id (l : Lexeme) : l.relabel (.onRefs (id : ρ → ρ)) = l := rfl

theorem Lexeme.map_relabel_id (ls : List Lexeme) :
    ls.map (Lexeme.relabel (.onRefs (id : ρ → ρ))) = ls := List.map_id ls

mutual

theorem Expr.relabel_id : ∀ e : Expr ρ, e.relabel (.onRefs id) = e
  | .literal _ | .variable _ _ | .this _ _ | .super _ _ _ => rfl
  | .assign _ _ e => by
    simp only [Expr.relabel, Expr.relabel_id e]
    rfl
  | .unary _ _ e | .group e | .get e _ => by
    simp only [Expr.relabel, Expr.relabel_id e, Lexeme.relabel_id]
  | .binary _ _ l r | .logical _ _ l r | .set l _ r => by
    simp only [Expr.relabel, Expr.relabel_id l, Expr.relabel_id r, Lexeme.relabel_id]
  | .ternary c y n => by
    simp only [Expr.relabel, Expr.relabel_id c, Expr.relabel_id y, Expr.relabel_id n]
  | .call c as _ => by
    simp only [Expr.relabel, Expr.relabel_id c, Expr.relabelAll_id as]
    rfl
  | .lambda _ r => by
    simp only [Expr.relabel, Routine.relabel_id r]
    rfl

theorem Expr.relabelAll_id : ∀ es : List (Expr ρ), Expr.relabelAll (.onRefs id) es = es
  | [] => rfl
  | e :: es => by simp only [Expr.relabelAll, Expr.relabel_id e, Expr.relabelAll_id es]

theorem Stmt.relabel_id : ∀ s : Stmt ρ, s.relabel (.onRefs id) = s
  | .var _ none | .break _ | .return _ none => rfl
  | .expr e | .print e | .var _ (some e) | .return _ (some e) => by
    simp only [Stmt.relabel, Expr.relabel_id e, Lexeme.relabel_id]
  | .block b => by simp only [Stmt.relabel, Stmt.relabelAll_id b]
  | .if c y none | .while c y => by
    simp only [Stmt.relabel, Expr.relabel_id c, Stmt.relabel_id y]
  | .if c y (some n) => by
    simp only [Stmt.relabel, Expr.relabel_id c, Stmt.relabel_id y, Stmt.relabel_id n]
  | .function d => by simp only [Stmt.relabel, Definition.relabel_id d]
  | .class _ s ms cs => by
    simp only [Stmt.relabel, Definition.relabelAll_id ms, Definition.relabelAll_id cs,
      Lexeme.relabel_id, Relabeling.ref_onRefs, id, Option.map_id']

theorem Stmt.relabelAll_id : ∀ ss : List (Stmt ρ), Stmt.relabelAll (.onRefs id) ss = ss
  | [] => rfl
  | s :: ss => by simp only [Stmt.relabelAll, Stmt.relabel_id s, Stmt.relabelAll_id ss]

theorem Routine.relabel_id : ∀ r : Routine ρ, r.relabel (.onRefs id) = r
  | ⟨ps, b⟩ => by simp only [Routine.relabel, Stmt.relabelAll_id b, Lexeme.map_relabel_id]

theorem Definition.relabel_id : ∀ d : Definition ρ, d.relabel (.onRefs id) = d
  | ⟨_, r⟩ => by simp only [Definition.relabel, Routine.relabel_id r, Lexeme.relabel_id]

theorem Definition.relabelAll_id :
    ∀ ds : List (Definition ρ), Definition.relabelAll (.onRefs id) ds = ds
  | [] => rfl
  | d :: ds => by
    simp only [Definition.relabelAll, Definition.relabel_id d, Definition.relabelAll_id ds]

end

/-! The references of a relabelled tree. -/

mutual

theorem Expr.references_relabel (φ : Relabeling ρ σ) :
    ∀ e : Expr ρ, (e.relabel φ).references = e.references.map φ.ref
  | .literal _ | .variable _ _ | .this _ _ | .super _ _ _ => rfl
  | .assign _ _ e | .unary _ _ e | .group e | .get e _ => by
    simp only [Expr.relabel, Expr.references, Expr.references_relabel φ e, List.map_cons]
  | .binary _ _ l r | .logical _ _ l r | .set l _ r => by
    simp only [Expr.relabel, Expr.references, Expr.references_relabel φ l,
      Expr.references_relabel φ r, List.map_append]
  | .ternary c y n => by
    simp only [Expr.relabel, Expr.references, Expr.references_relabel φ c,
      Expr.references_relabel φ y, Expr.references_relabel φ n, List.map_append]
  | .call c as _ => by
    simp only [Expr.relabel, Expr.references, Expr.references_relabel φ c,
      Expr.referencesAll_relabelAll φ as, List.map_append]
  | .lambda _ r => by simp only [Expr.relabel, Expr.references, Routine.references_relabel φ r]

theorem Expr.referencesAll_relabelAll (φ : Relabeling ρ σ) :
    ∀ es : List (Expr ρ),
      Expr.referencesAll (Expr.relabelAll φ es) = (Expr.referencesAll es).map φ.ref
  | [] => rfl
  | e :: es => by
    simp only [Expr.relabelAll, Expr.referencesAll, Expr.references_relabel φ e,
      Expr.referencesAll_relabelAll φ es, List.map_append]

theorem Stmt.references_relabel (φ : Relabeling ρ σ) :
    ∀ s : Stmt ρ, (s.relabel φ).references = s.references.map φ.ref
  | .var _ none | .break _ | .return _ none => rfl
  | .expr e | .print e | .var _ (some e) | .return _ (some e) => by
    simp only [Stmt.relabel, Stmt.references, Expr.references_relabel φ e]
  | .block b => by simp only [Stmt.relabel, Stmt.references, Stmt.referencesAll_relabelAll φ b]
  | .if c y none | .while c y => by
    simp only [Stmt.relabel, Stmt.references, Expr.references_relabel φ c,
      Stmt.references_relabel φ y, List.map_append]
  | .if c y (some n) => by
    simp only [Stmt.relabel, Stmt.references, Expr.references_relabel φ c,
      Stmt.references_relabel φ y, Stmt.references_relabel φ n, List.map_append]
  | .function d => by simp only [Stmt.relabel, Stmt.references, Definition.references_relabel φ d]
  | .class _ s ms cs => by
    simp only [Stmt.relabel, Stmt.references, Definition.referencesAll_relabelAll φ ms,
      Definition.referencesAll_relabelAll φ cs, List.map_append]
    cases s <;> rfl

theorem Stmt.referencesAll_relabelAll (φ : Relabeling ρ σ) :
    ∀ ss : List (Stmt ρ),
      Stmt.referencesAll (Stmt.relabelAll φ ss) = (Stmt.referencesAll ss).map φ.ref
  | [] => rfl
  | s :: ss => by
    simp only [Stmt.relabelAll, Stmt.referencesAll, Stmt.references_relabel φ s,
      Stmt.referencesAll_relabelAll φ ss, List.map_append]

theorem Routine.references_relabel (φ : Relabeling ρ σ) :
    ∀ r : Routine ρ, (r.relabel φ).references = r.references.map φ.ref
  | ⟨_, b⟩ => by
    simp only [Routine.relabel, Routine.references, Stmt.referencesAll_relabelAll φ b]

theorem Definition.references_relabel (φ : Relabeling ρ σ) :
    ∀ d : Definition ρ, (d.relabel φ).references = d.references.map φ.ref
  | ⟨_, r⟩ => by
    simp only [Definition.relabel, Definition.references, Routine.references_relabel φ r]

theorem Definition.referencesAll_relabelAll (φ : Relabeling ρ σ) :
    ∀ ds : List (Definition ρ),
      Definition.referencesAll (Definition.relabelAll φ ds) =
        (Definition.referencesAll ds).map φ.ref
  | [] => rfl
  | d :: ds => by
    simp only [Definition.relabelAll, Definition.referencesAll, Definition.references_relabel φ d,
      Definition.referencesAll_relabelAll φ ds, List.map_append]

end

/-! Relabelings that agree on the references of a tree. -/

section Congruence

set_option linter.unusedSectionVars false

variable {φ ψ : Relabeling ρ σ} (hl : φ.line = ψ.line)

include hl

theorem Lexeme.relabel_congr (l : Lexeme) : l.relabel φ = l.relabel ψ := by
  rw [Lexeme.relabel, Lexeme.relabel, hl]

mutual

theorem Expr.relabel_congr : ∀ e : Expr ρ, (∀ r ∈ e.references, φ.ref r = ψ.ref r) →
    e.relabel φ = e.relabel ψ
  | .literal _, _ => rfl
  | .variable r n, h | .this r n, h => by
    simp only [Expr.relabel, h r List.mem_cons_self, Lexeme.relabel_congr hl n]
  | .super r k m, h => by
    simp only [Expr.relabel, h r List.mem_cons_self, Lexeme.relabel_congr hl k,
      Lexeme.relabel_congr hl m]
  | .assign r n e, h => by
    simp only [Expr.relabel, h r List.mem_cons_self, Lexeme.relabel_congr hl n,
      Expr.relabel_congr e fun r hr => h r (List.mem_cons_of_mem _ hr)]
  | .unary _ n e, h | .get e n, h => by
    simp only [Expr.relabel, Lexeme.relabel_congr hl n, Expr.relabel_congr e h]
  | .group e, h => by simp only [Expr.relabel, Expr.relabel_congr e h]
  | .binary _ n l r, h | .logical _ n l r, h | .set l n r, h => by
    simp only [Expr.relabel, Lexeme.relabel_congr hl n,
      Expr.relabel_congr l fun x hx => h x (List.mem_append_left _ hx),
      Expr.relabel_congr r fun x hx => h x (List.mem_append_right _ hx)]
  | .ternary c y n, h => by
    simp only [Expr.relabel,
      Expr.relabel_congr c fun x hx => h x (List.mem_append_left _ (List.mem_append_left _ hx)),
      Expr.relabel_congr y fun x hx => h x (List.mem_append_left _ (List.mem_append_right _ hx)),
      Expr.relabel_congr n fun x hx => h x (List.mem_append_right _ hx)]
  | .call c as _, h => by
    simp only [Expr.relabel, hl,
      Expr.relabel_congr c fun x hx => h x (List.mem_append_left _ hx),
      Expr.relabelAll_congr as fun x hx => h x (List.mem_append_right _ hx)]
  | .lambda _ r, h => by simp only [Expr.relabel, hl, Routine.relabel_congr r h]

theorem Expr.relabelAll_congr : ∀ es : List (Expr ρ),
    (∀ r ∈ Expr.referencesAll es, φ.ref r = ψ.ref r) →
      Expr.relabelAll φ es = Expr.relabelAll ψ es
  | [], _ => rfl
  | e :: es, h => by
    simp only [Expr.relabelAll,
      Expr.relabel_congr e fun x hx => h x (List.mem_append_left _ hx),
      Expr.relabelAll_congr es fun x hx => h x (List.mem_append_right _ hx)]

theorem Stmt.relabel_congr : ∀ s : Stmt ρ, (∀ r ∈ s.references, φ.ref r = ψ.ref r) →
    s.relabel φ = s.relabel ψ
  | .expr e, h | .print e, h => by simp only [Stmt.relabel, Expr.relabel_congr e h]
  | .var n none, _ | .break n, _ | .return n none, _ => by
    simp only [Stmt.relabel, Lexeme.relabel_congr hl n]
  | .var n (some e), h | .return n (some e), h => by
    simp only [Stmt.relabel, Lexeme.relabel_congr hl n, Expr.relabel_congr e h]
  | .block b, h => by simp only [Stmt.relabel, Stmt.relabelAll_congr b h]
  | .if c y none, h | .while c y, h => by
    simp only [Stmt.relabel,
      Expr.relabel_congr c fun x hx => h x (List.mem_append_left _ hx),
      Stmt.relabel_congr y fun x hx => h x (List.mem_append_right _ hx)]
  | .if c y (some n), h => by
    simp only [Stmt.relabel,
      Expr.relabel_congr c fun x hx => h x (List.mem_append_left _ (List.mem_append_left _ hx)),
      Stmt.relabel_congr y fun x hx => h x (List.mem_append_left _ (List.mem_append_right _ hx)),
      Stmt.relabel_congr n fun x hx => h x (List.mem_append_right _ hx)]
  | .function d, h => by simp only [Stmt.relabel, Definition.relabel_congr d h]
  | .class n s ms cs, h => by
    have hs : (s.map fun (r, l) => (φ.ref r, l.relabel φ)) =
        s.map fun (r, l) => (ψ.ref r, l.relabel ψ) := by
      obtain _ | ⟨r, l⟩ := s
      · rfl
      · have hr := h r (List.mem_append_left _ (List.mem_append_left _ List.mem_cons_self))
        simp only [Option.map_some, hr, Lexeme.relabel_congr hl l]
    simp only [Stmt.relabel, Lexeme.relabel_congr hl n, hs,
      Definition.relabelAll_congr ms fun x hx =>
        h x (List.mem_append_left _ (List.mem_append_right _ hx)),
      Definition.relabelAll_congr cs fun x hx => h x (List.mem_append_right _ hx)]

theorem Stmt.relabelAll_congr : ∀ ss : List (Stmt ρ),
    (∀ r ∈ Stmt.referencesAll ss, φ.ref r = ψ.ref r) →
      Stmt.relabelAll φ ss = Stmt.relabelAll ψ ss
  | [], _ => rfl
  | s :: ss, h => by
    simp only [Stmt.relabelAll,
      Stmt.relabel_congr s fun x hx => h x (List.mem_append_left _ hx),
      Stmt.relabelAll_congr ss fun x hx => h x (List.mem_append_right _ hx)]

theorem Routine.relabel_congr : ∀ r : Routine ρ, (∀ x ∈ r.references, φ.ref x = ψ.ref x) →
    r.relabel φ = r.relabel ψ
  | ⟨_, b⟩, h => by
    have hn : Lexeme.relabel φ = Lexeme.relabel ψ := funext (Lexeme.relabel_congr hl)
    simp only [Routine.relabel, hn, Stmt.relabelAll_congr b h]

theorem Definition.relabel_congr : ∀ d : Definition ρ, (∀ x ∈ d.references, φ.ref x = ψ.ref x) →
    d.relabel φ = d.relabel ψ
  | ⟨n, r⟩, h => by
    simp only [Definition.relabel, Lexeme.relabel_congr hl n, Routine.relabel_congr r h]

theorem Definition.relabelAll_congr : ∀ ds : List (Definition ρ),
    (∀ r ∈ Definition.referencesAll ds, φ.ref r = ψ.ref r) →
      Definition.relabelAll φ ds = Definition.relabelAll ψ ds
  | [], _ => rfl
  | d :: ds, h => by
    simp only [Definition.relabelAll,
      Definition.relabel_congr d fun x hx => h x (List.mem_append_left _ hx),
      Definition.relabelAll_congr ds fun x hx => h x (List.mem_append_right _ hx)]

end

end Congruence

end Lox
