import Lox.Proofs.Grammar
import Lox.Proofs.Numeral.Reading
import Lox.Proofs.Operator
import Lox.Proofs.Source.Partition

/-!
The texts in a tree. What a program is read as holds the texts of its tokens: each name is that of an
identifier, each operator and keyword is written as such, and each constant is one that can be written
in a program.
-/

namespace Lox

open Source (IsLexeme)

variable {ρ : Type}

/-- The operators and the reserved words, with the kinds that have no other text. -/
def Token.Kind.words : List (String × Token.Kind) :=
  Source.operators.map (fun e => (String.ofList e.1, e.2)) ++ Token.Kind.keywords

theorem Source.IsLexeme.eq_word {kind : Token.Kind} {text : List Char} {word : String}
    (h : IsLexeme kind text) (hw : (word, kind) ∈ Token.Kind.words) : String.ofList text = word := by
  have once : (Token.Kind.words.map Prod.snd).Nodup := by decide
  have same {s : String} (hs : (s, kind) ∈ Token.Kind.words) : s = word :=
    congrArg Prod.fst (List.inj_on_of_nodup_map once hs hw rfl)
  have kinds : kind ∈ Token.Kind.words.map Prod.snd := List.mem_map_of_mem hw
  cases h with
  | operator h => exact same (List.mem_append_left _ (List.mem_map_of_mem h))
  | keyword _ hk => exact same (List.mem_append_right _ hk)
  | string | whole | fraction | identifier => exact absurd kinds (by decide)

/-- The text is a lexeme of this kind. -/
def Lexeme.Is (kind : Token.Kind) (l : Lexeme) : Prop := IsLexeme kind l.text.toList

theorem Lexeme.Is.eq_word {l : Lexeme} {kind : Token.Kind} {word : String} (h : l.Is kind)
    (hw : (word, kind) ∈ Token.Kind.words) : l.text = word :=
  String.ofList_toList.symm.trans (Source.IsLexeme.eq_word h hw)

/-- The constant can be written in a program: a number without a sign, a string without quotes. -/
def Literal.Legible : Literal → Prop
  | .nil | .bool _ => True
  | .number x => Numeral.rank x ≤ Numeral.infiniteRank
  | .string s => '"' ∉ s.toList

mutual

/-- Every text in the tree is of the kind that its place asks for. -/
def Expr.Legible : Expr ρ → Prop
  | .literal v => v.Legible
  | .variable _ n => n.Is .identifier
  | .assign _ n e | .get e n => n.Is .identifier ∧ e.Legible
  | .this _ k => k.Is .this
  | .super _ k m => k.Is .super ∧ m.Is .identifier
  | .unary op s e => s.Is op.kind ∧ e.Legible
  | .binary op s l r => s.Is op.kind ∧ l.Legible ∧ r.Legible
  | .logical op s l r => s.Is op.kind ∧ l.Legible ∧ r.Legible
  | .ternary c y n => c.Legible ∧ y.Legible ∧ n.Legible
  | .group e => e.Legible
  | .call c as _ => c.Legible ∧ Expr.LegibleAll as
  | .set o n e => n.Is .identifier ∧ o.Legible ∧ e.Legible
  | .lambda _ r => r.Legible

def Expr.LegibleAll : List (Expr ρ) → Prop
  | [] => True
  | e :: es => e.Legible ∧ Expr.LegibleAll es

def Stmt.Legible : Stmt ρ → Prop
  | .expr e | .print e => e.Legible
  | .var n none => n.Is .identifier
  | .var n (some e) => n.Is .identifier ∧ e.Legible
  | .block b => Stmt.LegibleAll b
  | .if c y none => c.Legible ∧ y.Legible
  | .if c y (some n) => c.Legible ∧ y.Legible ∧ n.Legible
  | .while c b => c.Legible ∧ b.Legible
  | .break k => k.Is .break
  | .return k none => k.Is .return
  | .return k (some e) => k.Is .return ∧ e.Legible
  | .function d => d.Legible
  | .class n s ms cs =>
    n.Is .identifier ∧ (∀ p ∈ s, p.2.Is .identifier) ∧ Definition.LegibleAll ms ∧
      Definition.LegibleAll cs

def Stmt.LegibleAll : List (Stmt ρ) → Prop
  | [] => True
  | s :: ss => s.Legible ∧ Stmt.LegibleAll ss

def Routine.Legible : Routine ρ → Prop
  | ⟨ps, b⟩ => (∀ p ∈ ps, p.Is .identifier) ∧ Stmt.LegibleAll b

def Definition.Legible : Definition ρ → Prop
  | ⟨n, r⟩ => n.Is .identifier ∧ r.Legible

def Definition.LegibleAll : List (Definition ρ) → Prop
  | [] => True
  | d :: ds => d.Legible ∧ Definition.LegibleAll ds

end

/-- The token is written like one of its kind, and carries a constant that can be written. -/
structure Token.Legible (t : Token) : Prop where
  text : IsLexeme t.kind t.lexeme.toList
  constant : ∀ v ∈ t.literal, v.Legible

theorem Source.legible_lexemesFrom {cs : List Char} {ps : List Piece} (h : Partition cs ps)
    (line : Nat) : ∀ t ∈ lexemesFrom line ps, t.Legible := by
  induction h generalizing line with
  | nil => exact List.forall_mem_nil _
  | @cons p rest ps begins _ ih =>
    have ih := ih (line + p.newlines)
    cases begins with
    | @lexeme kind text hl =>
      refine List.forall_mem_cons.mpr ⟨⟨(String.toList_ofList (l := text)).symm ▸ hl, ?_⟩, ih⟩
      intro v hv
      change v ∈ Piece.literal? kind text at hv
      unfold Piece.literal? at hv
      split at hv
      · obtain ⟨inside, rfl⟩ := hl.exists_inside
        obtain ⟨-, inside', same, free⟩ := hl.of_quote
        cases hv
        simpa [Literal.Legible, List.append_cancel_right same] using free
      · cases hv
        exact Numeral.rank_nearest_le _ _
      · cases hv
    | _ => exact ih

theorem legible_lexemes (source : String) : ∀ t ∈ lexemes source, t.Legible :=
  Source.legible_lexemesFrom (Source.partition_pieces source.toList) 1

namespace Grammar

open Lox.Parser (Level Infix)

/-- Every text in what is read is of the kind that its place asks for. -/
def Symbol.Legible : (n : Symbol) → n.Tree → Prop
  | .declarations, ss => Stmt.LegibleAll ss
  | .declaration, s | .variableDeclaration, s | .statement, s | .expressionStatement, s => s.Legible
  | .superclass, s => ∀ p ∈ s, p.2.Is .identifier
  | .members, (ms, cs) => Definition.LegibleAll ms ∧ Definition.LegibleAll cs
  | .function, d => d.Legible
  | .routine, r => r.Legible
  | .parameters _, ps => ∀ p ∈ ps, p.Is .identifier
  | .initializer, s => ∀ x ∈ s, x.Legible
  | .optionalExpression, e => ∀ x ∈ e, x.Legible
  | .expr _, e => e.Legible
  | .arguments _, as => Expr.LegibleAll as

theorem is_mark {t : Token} {kind : Token.Kind} (h : t.Legible) (hk : t.kind = kind) :
    t.mark.Is kind := hk ▸ h.text

theorem legible_apply {level : Level} {sign : Token} {op : Infix} {l r : Expr RefId}
    (h : (sign.kind, op) ∈ operators level) (hs : sign.Legible) (hl : l.Legible) (hr : r.Legible) :
    (op.apply sign.mark l r).Legible := by
  have sign : sign.mark.Is op.kind :=
    is_mark hs (Level.kind_of_operator? (operator?_eq_some.mpr h)).symm
  cases op with
  | binary op => exact ⟨sign, hl, hr⟩
  | logical op => exact ⟨sign, hl, hr⟩

theorem legible_forTree {initial : Option (Stmt RefId)} {condition increment : Option (Expr RefId)}
    {body : Stmt RefId} (hi : ∀ s ∈ initial, s.Legible) (hc : ∀ e ∈ condition, e.Legible)
    (hn : ∀ e ∈ increment, e.Legible) (hb : body.Legible) :
    (forTree initial condition increment body).Legible := by
  have condition : (condition.getD (.literal (.bool true))).Legible := by
    cases condition with
    | none => trivial
    | some e => exact hc e rfl
  cases increment with
  | none =>
    cases initial with
    | none => exact ⟨condition, hb⟩
    | some s => exact ⟨hi s rfl, ⟨condition, hb⟩, trivial⟩
  | some e =>
    have round : (Stmt.block [body, .expr e]).Legible := ⟨hb, hn e rfl, trivial⟩
    cases initial with
    | none => exact ⟨condition, round⟩
    | some s => exact ⟨hi s rfl, ⟨condition, round⟩, trivial⟩

theorem Derives.legible {best : Bool} {n : Symbol} {o : Bool} {ts : List Token} {i j : RefId}
    {a : n.Tree} (h : Derives best n o ts i a j) (ht : ∀ t ∈ ts, t.Legible) : n.Legible a := by
  induction h with try simp only [List.forall_mem_cons, List.forall_mem_append] at ht
  | noDeclaration | noMember | noArgument => trivial
  | noSuperclass | noParameter | noInitializer | noExpression =>
    intro _ h
    cases h
  | variableDeclaration _ ih | statement _ ih | expression _ ih | operand _ ih | logic _ ih
  | equality _ ih | call _ ih | primary _ ih => exact ih ht
  | declarations _ _ first others => exact ⟨first ht.1, others ht.2⟩
  | classDeclaration _ hname _ _ _ _ superclass members =>
    obtain ⟨-, name, above, -, within, -⟩ := ht
    exact ⟨is_mark name hname, superclass above, members within⟩
  | functionDeclaration _ _ function => exact function ht.2
  | superclass i _ hname =>
    rintro _ ⟨⟩
    exact is_mark ht.2.1 hname
  | method _ _ method others =>
    obtain ⟨ms, cs⟩ := others ht.2
    exact ⟨⟨method ht.1, ms⟩, cs⟩
  | classMethod _ _ _ method others =>
    obtain ⟨ms, cs⟩ := others ht.2.2
    exact ⟨ms, method ht.2.1, cs⟩
  | function hname _ routine => exact ⟨is_mark ht.1 hname, routine ht.2⟩
  | routine _ _ _ _ _ _ _ parameters statements =>
    obtain ⟨-, ps, -, -, body, -⟩ := ht
    exact ⟨parameters ps, statements body⟩
  | parameter i hname =>
    rintro _ (_ | ⟨_, _, ⟨⟩⟩)
    exact is_mark ht.1 hname
  | parameters hname _ _ others =>
    exact List.forall_mem_cons.mpr ⟨is_mark ht.1 hname, others ht.2.2⟩
  | unassigned i _ hname => exact is_mark ht.2.1 hname
  | assigned _ hname _ _ _ initial =>
    obtain ⟨-, name, -, value, -⟩ := ht
    exact ⟨is_mark name hname, initial value⟩
  | forLoop _ _ _ _ _ _ _ _ first second last statement =>
    obtain ⟨-, -, as, cs, -, es, -, bs⟩ := ht
    exact legible_forTree (first as) (second cs) (last es) (statement bs)
  | ifOnly _ _ _ _ _ condition yes =>
    obtain ⟨-, -, cs, -, ys⟩ := ht
    exact ⟨condition cs, yes ys⟩
  | ifElse _ _ _ _ _ _ _ _ condition yes no =>
    obtain ⟨-, -, cs, -, ys, -, ns⟩ := ht
    exact ⟨condition cs, yes ys, no ns⟩
  | print _ _ _ value => exact value ht.2.1
  | @answer _ _ _ _ _ e _ hword _ _ value =>
    have word := is_mark ht.1 hword
    have value := value ht.2.1
    cases e with
    | none => exact word
    | some e => exact ⟨word, value e rfl⟩
  | leave i hword => exact is_mark ht.1 hword
  | whileLoop _ _ _ _ _ condition statement =>
    obtain ⟨-, -, cs, -, bs⟩ := ht
    exact ⟨condition cs, statement bs⟩
  | block _ _ _ statements => exact statements ht.2.1
  | expressionStatement _ _ expression => exact expression ht.1
  | variableInitializer _ ih | expressionInitializer _ ih | someExpression _ ih =>
    rintro _ ⟨⟩
    exact ih ht
  | operation _ _ hsign _ left right =>
    obtain ⟨ls, sign, rs⟩ := ht
    exact legible_apply hsign sign (left ls) (right rs)
  | assign hname _ _ value => exact ⟨is_mark ht.1 hname, value ht.2.2⟩
  | set _ _ hname _ _ object value =>
    obtain ⟨cs, -, name, -, ts⟩ := ht
    exact ⟨is_mark name hname, object cs, value ts⟩
  | ternary _ _ _ _ _ condition yes no =>
    obtain ⟨cs, -, ys, -, ns⟩ := ht
    exact ⟨condition cs, yes ys, no ns⟩
  | unary hsign _ operand =>
    have kind := Parser.kind_of_unaryOperator? (unaryOperator?_eq_some.mpr hsign)
    exact ⟨is_mark ht.1 kind.symm, operand ht.2⟩
  | lambda _ _ routine => exact routine ht.2
  | apply _ _ _ _ _ callee arguments =>
    obtain ⟨cs, -, as, -⟩ := ht
    exact ⟨callee cs, arguments as⟩
  | get _ _ hname object => exact ⟨is_mark ht.2.2.1 hname, object ht.1⟩
  | argument _ argument => exact ⟨argument ht, trivial⟩
  | arguments _ _ _ first others => exact ⟨first ht.1, others ht.2.2⟩
  | constant i h =>
    have all : ∀ p ∈ constants, p.2.Legible := by
      simp [constants, Literal.Legible]
    exact all _ h
  | @literal t i =>
    have constant := ht.1.constant
    change (t.literal.getD .nil).Legible
    cases hv : t.literal with
    | none => trivial
    | some v => exact constant v hv
  | this i h | identifier i h => exact is_mark ht.1 h
  | super i h _ hname => exact ⟨is_mark ht.1 h, is_mark ht.2.2.1 hname⟩
  | group _ _ _ inner => exact inner ht.2.1

end Grammar

/-- What is read from a text without a fault is legible. -/
theorem legible_parse (source : String) (first : RefId)
    (h : (parse (scan source).tokens first).errors = []) :
    Stmt.LegibleAll (parse (scan source).tokens first).statements := by
  have ho : ∀ t ∈ lexemes source, t.Genuine := fun t h => (genuine_lexemes source t h).2
  obtain ⟨o, derives⟩ := derives_of_parse (untilEof_scan source) ho h
  exact derives.legible (legible_lexemes source)

end Lox
