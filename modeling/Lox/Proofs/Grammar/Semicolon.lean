import Lox.Proofs.Grammar

/-!
The lines of semicolons. A semicolon leaves no mark in a tree, so it does not matter on which line it
stands.
-/

namespace Lox

namespace Grammar

open Lox.Parser (Level Infix)

/-- Semicolons may become other ones, and nothing else changes. -/
structure MovesSemicolons (f : Token → Token) : Prop where
  kind : ∀ t, (f t).kind = t.kind
  others : ∀ t, t.kind ≠ .semicolon → f t = t

section Move

variable {f : Token → Token} (hf : MovesSemicolons f)

include hf

theorem MovesSemicolons.of_kind {t : Token} {k : Token.Kind} (h : t.kind = k)
    (hk : k ≠ .semicolon) : f t = t := hf.others t (h ▸ hk)

theorem MovesSemicolons.kind_eq {t : Token} {k : Token.Kind} (h : t.kind = k) : (f t).kind = k :=
  (hf.kind t).trans h

omit hf in
theorem ne_semicolon_of_operator {level : Level} {k : Token.Kind} {op : Infix}
    (h : (k, op) ∈ operators level) : k ≠ .semicolon := by
  have all : ∀ p ∈ operators level, p.1 ≠ .semicolon := by
    cases level <;> decide
  exact all _ h

omit hf in
theorem ne_semicolon_of_unaryOperator {k : Token.Kind} {op : UnaryOp}
    (h : (k, op) ∈ unaryOperators) : k ≠ .semicolon := by
  have all : ∀ p ∈ unaryOperators, p.1 ≠ .semicolon := by decide
  exact all _ h

omit hf in
theorem ne_semicolon_of_constant {k : Token.Kind} {v : Literal} (h : (k, v) ∈ constants) :
    k ≠ .semicolon := by
  have all : ∀ p ∈ constants.map Prod.fst, p ≠ .semicolon := by decide
  exact all _ (List.mem_map_of_mem h)

/-- It does not matter for a tree where the semicolons are. -/
theorem Derives.moved {best : Bool} {n : Symbol} {o : Bool} {ts : List Token} {i j : RefId}
    {a : n.Tree} (h : Derives best n o ts i a j) : Derives best n o (ts.map f) i a j := by
  induction h with
  | noDeclaration i => exact .noDeclaration i
  | declarations _ _ ih ih' =>
    rw [List.map_append]
    exact .declarations ih ih'
  | classDeclaration hword hname _ hopening _ hclosing ih ih' =>
    simp only [List.map_append, List.map_cons, List.map_nil, hf.of_kind hname nofun]
    exact .classDeclaration (hf.kind_eq hword) hname ih (hf.kind_eq hopening) ih'
      (hf.kind_eq hclosing)
  | functionDeclaration hword _ ih => exact .functionDeclaration (hf.kind_eq hword) ih
  | variableDeclaration _ ih => exact .variableDeclaration ih
  | statement _ ih => exact .statement ih
  | noSuperclass i => exact .noSuperclass i
  | superclass i hsign hname =>
    simp only [List.map_cons, List.map_nil, hf.of_kind hname nofun]
    exact .superclass i (hf.kind_eq hsign) hname
  | noMember i => exact .noMember i
  | method _ _ ih ih' =>
    rw [List.map_append]
    exact .method ih ih'
  | classMethod hword _ _ ih ih' =>
    simp only [List.map_append, List.map_cons]
    exact .classMethod (hf.kind_eq hword) ih ih'
  | function hname _ ih =>
    simp only [List.map_cons, hf.of_kind hname nofun]
    exact .function hname ih
  | routine hleft hcount _ hright hopening _ hclosing ih ih' =>
    simp only [List.map_append, List.map_cons, List.map_nil]
    exact .routine (hf.kind_eq hleft) hcount ih (hf.kind_eq hright) (hf.kind_eq hopening) ih'
      (hf.kind_eq hclosing)
  | noParameter i => exact .noParameter i
  | parameter i hname =>
    simp only [List.map_cons, List.map_nil, hf.of_kind hname nofun]
    exact .parameter i hname
  | parameters hname hsign _ ih =>
    simp only [List.map_cons, hf.of_kind hname nofun]
    exact .parameters hname (hf.kind_eq hsign) ih
  | unassigned i hword hname hsign =>
    simp only [List.map_cons, List.map_nil, hf.of_kind hname nofun]
    exact .unassigned i (hf.kind_eq hword) hname (hf.kind_eq hsign)
  | assigned hword hname hequal _ hsign ih =>
    simp only [List.map_append, List.map_cons, List.map_nil, hf.of_kind hname nofun]
    exact .assigned (hf.kind_eq hword) hname (hf.kind_eq hequal) ih (hf.kind_eq hsign)
  | expression _ ih => exact .expression ih
  | forLoop hword hleft _ _ hsign _ hright _ ih ih' ih₁ ih₂ =>
    simp only [List.map_append, List.map_cons]
    exact .forLoop (hf.kind_eq hword) (hf.kind_eq hleft) ih ih' (hf.kind_eq hsign) ih₁
      (hf.kind_eq hright) ih₂
  | ifOnly hword hleft _ hright _ ih ih' =>
    simp only [List.map_append, List.map_cons]
    exact .ifOnly (hf.kind_eq hword) (hf.kind_eq hleft) ih (hf.kind_eq hright) ih'
  | ifElse hword hleft _ hright _ nearest hother _ ih ih' ih₁ =>
    simp only [List.map_append, List.map_cons]
    exact .ifElse (hf.kind_eq hword) (hf.kind_eq hleft) ih (hf.kind_eq hright) ih' nearest
      (hf.kind_eq hother) ih₁
  | print hword _ hsign ih =>
    simp only [List.map_append, List.map_cons, List.map_nil]
    exact .print (hf.kind_eq hword) ih (hf.kind_eq hsign)
  | answer hword _ hsign ih =>
    simp only [List.map_append, List.map_cons, List.map_nil, hf.of_kind hword nofun]
    exact .answer hword ih (hf.kind_eq hsign)
  | leave i hword hsign =>
    simp only [List.map_cons, List.map_nil, hf.of_kind hword nofun]
    exact .leave i hword (hf.kind_eq hsign)
  | whileLoop hword hleft _ hright _ ih ih' =>
    simp only [List.map_append, List.map_cons]
    exact .whileLoop (hf.kind_eq hword) (hf.kind_eq hleft) ih (hf.kind_eq hright) ih'
  | block hopening _ hclosing ih =>
    simp only [List.map_append, List.map_cons, List.map_nil]
    exact .block (hf.kind_eq hopening) ih (hf.kind_eq hclosing)
  | expressionStatement _ hsign ih =>
    simp only [List.map_append, List.map_cons, List.map_nil]
    exact .expressionStatement ih (hf.kind_eq hsign)
  | noInitializer i hsign => exact .noInitializer i (hf.kind_eq hsign)
  | variableInitializer _ ih => exact .variableInitializer ih
  | expressionInitializer _ ih => exact .expressionInitializer ih
  | noExpression i => exact .noExpression i
  | someExpression _ ih => exact .someExpression ih
  | operand _ ih => exact .operand ih
  | operation _ farthest hsign _ ih ih' =>
    simp only [List.map_append, List.map_cons, hf.others _ (ne_semicolon_of_operator hsign)]
    exact .operation ih farthest hsign ih'
  | logic _ ih => exact .logic ih
  | assign hname hequal _ ih =>
    simp only [List.map_cons, hf.of_kind hname nofun]
    exact .assign hname (hf.kind_eq hequal) ih
  | set _ hdot hname hequal _ ih ih' =>
    simp only [List.map_append, List.map_cons, hf.of_kind hname nofun]
    exact .set ih (hf.kind_eq hdot) hname (hf.kind_eq hequal) ih'
  | equality _ ih => exact .equality ih
  | ternary _ hquestion _ hcolon _ ih ih' ih₁ =>
    simp only [List.map_append, List.map_cons]
    exact .ternary ih (hf.kind_eq hquestion) ih' (hf.kind_eq hcolon) ih₁
  | call _ ih => exact .call ih
  | unary hsign _ ih =>
    simp only [List.map_cons, hf.others _ (ne_semicolon_of_unaryOperator hsign)]
    exact .unary hsign ih
  | primary _ ih => exact .primary ih
  | lambda hword _ ih =>
    simp only [List.map_cons, hf.of_kind hword nofun]
    exact .lambda hword ih
  | apply _ hleft hcount _ hright ih ih' =>
    simp only [List.map_append, List.map_cons, List.map_nil, hf.of_kind hright nofun]
    exact .apply ih (hf.kind_eq hleft) hcount ih' hright
  | get _ hdot hname ih =>
    simp only [List.map_append, List.map_cons, List.map_nil, hf.of_kind hname nofun]
    exact .get ih (hf.kind_eq hdot) hname
  | noArgument i => exact .noArgument i
  | argument _ ih => exact .argument ih
  | arguments _ hsign _ ih ih' =>
    simp only [List.map_append, List.map_cons]
    exact .arguments ih (hf.kind_eq hsign) ih'
  | constant i h =>
    rw [List.map_singleton, hf.others _ (ne_semicolon_of_constant h)]
    exact .constant i h
  | @literal t i h =>
    have hne : t.kind ≠ .semicolon := by
      rcases h with h | h <;> rw [h] <;> exact nofun
    rw [List.map_singleton, hf.others t hne]
    exact .literal i h
  | this i h =>
    rw [List.map_singleton, hf.of_kind h nofun]
    exact .this i h
  | identifier i h =>
    rw [List.map_singleton, hf.of_kind h nofun]
    exact .identifier i h
  | super i h hdot hname =>
    simp only [List.map_cons, List.map_nil, hf.of_kind h nofun, hf.of_kind hname nofun]
    exact .super i h (hf.kind_eq hdot) hname
  | group hleft _ hright ih =>
    simp only [List.map_append, List.map_cons, List.map_nil]
    exact .group (hf.kind_eq hleft) ih (hf.kind_eq hright)

theorem MovesSemicolons.genuine {t : Token} (h : t.Genuine) : (f t).Genuine := by
  by_cases hk : t.kind = .semicolon
  · intro hv
    rw [hf.kind_eq hk] at hv
    cases hv
  · rwa [hf.others t hk]

end Move

end Grammar

open Grammar

/-- A program is read alike wherever its semicolons are. -/
theorem parse_moved {tokens tokens' : List Token} {f : Token → Token}
    (ho : ∀ t ∈ (Token.untilEof tokens).1, t.Genuine) (hf : MovesSemicolons f)
    (ht : (Token.untilEof tokens').1 = (Token.untilEof tokens).1.map f) {first : RefId}
    (h : (parse tokens first).errors = []) : parse tokens' first = parse tokens first := by
  obtain ⟨o, derives⟩ := derives_of_parse rfl ho h
  have ho' : ∀ t ∈ (Token.untilEof tokens').1, t.Genuine := by
    intro t hm
    rw [ht] at hm
    obtain ⟨u, hu, rfl⟩ := List.mem_map.mp hm
    exact hf.genuine (ho u hu)
  have moved := derives.moved hf
  rw [← ht] at moved
  rw [parse_of_derives rfl ho' moved, ← h]

end Lox
