import Lox.Proofs.Grammar.Derivation

/-!
What a single token decides. By its first token a phrase can be told from those that may stand in its
place, and by the token behind it whether it goes on.
-/

namespace Lox

namespace Grammar

open Lox.Parser (Level Infix)

/-! First tokens. -/

def beginsPrimary : Token.Kind → Bool
  | .false | .true | .nil | .number | .string | .this | .identifier | .super | .leftParen => true
  | _ => false

def beginsCall : Token.Kind → Bool
  | .fun => true
  | k => beginsPrimary k

def beginsExpression : Token.Kind → Bool
  | .bang | .minus => true
  | k => beginsCall k

def beginsStatement : Token.Kind → Bool
  | .for | .if | .print | .return | .break | .while | .leftBrace => true
  | k => beginsExpression k

def beginsDeclaration : Token.Kind → Bool
  | .class | .var => true
  | k => beginsStatement k

/-- The tokens begin with such a one. An expression that begins with `fun` has a parenthesis next,
which tells it from a declaration. -/
def Begins (p : Token.Kind → Bool) (ts : List Token) : Prop :=
  ∃ t us, ts = t :: us ∧ p t.kind ∧ (t.kind = .fun → ∃ u vs, us = u :: vs ∧ u.kind = .leftParen)

theorem Begins.mono {p q : Token.Kind → Bool} {ts : List Token} (h : Begins p ts)
    (hpq : ∀ k, p k → q k) : Begins q ts := by
  obtain ⟨t, us, hts, ht, hf⟩ := h
  exact ⟨t, us, hts, hpq _ ht, hf⟩

theorem Begins.append {p : Token.Kind → Bool} {ts : List Token} (h : Begins p ts)
    (us : List Token) : Begins p (ts ++ us) := by
  obtain ⟨t, vs, rfl, ht, hf⟩ := h
  refine ⟨t, vs ++ us, rfl, ht, fun he => ?_⟩
  obtain ⟨u, ws, rfl, hu⟩ := hf he
  exact ⟨u, ws ++ us, rfl, hu⟩

/-- The next token is of no other kind. -/
theorem Begins.head_ne {p : Token.Kind → Bool} {ts : List Token} (h : Begins p ts)
    {kind : Token.Kind} (hk : p kind = false) (us : List Token) :
    ∀ t ∈ (ts ++ us).head?, t.kind ≠ kind := by
  obtain ⟨t, vs, rfl, ht, -⟩ := h
  rintro u ⟨rfl⟩ rfl
  exact absurd ht (hk ▸ Bool.false_ne_true)

theorem Begins.of_kind {p : Token.Kind → Bool} {t : Token} {k : Token.Kind} (h : t.kind = k)
    (hp : p k) (hk : k ≠ .fun) (ts : List Token) : Begins p (t :: ts) :=
  ⟨t, ts, rfl, h ▸ hp, fun hf => absurd (h.symm.trans hf) hk⟩

theorem beginsCall_of_primary (k : Token.Kind) (h : beginsPrimary k) : beginsCall k := by
  cases k <;> first | rfl | cases h

theorem beginsExpression_of_call (k : Token.Kind) (h : beginsCall k) : beginsExpression k := by
  cases k <;> first | rfl | cases h

theorem beginsStatement_of_expression (k : Token.Kind) (h : beginsExpression k) :
    beginsStatement k := by
  cases k <;> first | rfl | cases h

theorem beginsDeclaration_of_statement (k : Token.Kind) (h : beginsStatement k) :
    beginsDeclaration k := by
  cases k <;> first | rfl | cases h

def Tier.begins : Tier → Token.Kind → Bool
  | .primary => beginsPrimary
  | .call => beginsCall
  | _ => beginsExpression

theorem beginsExpression_of_begins (tier : Tier) (k : Token.Kind) (h : tier.begins k) :
    beginsExpression k := by
  cases tier with
  | primary => exact beginsExpression_of_call k (beginsCall_of_primary k h)
  | call => exact beginsExpression_of_call k h
  | _ => exact h

theorem Begins.expression {tier : Tier} {ts : List Token} (h : Begins tier.begins ts) :
    Begins beginsExpression ts := h.mono (beginsExpression_of_begins tier)

namespace Symbol

/-- How the tokens of a phrase begin. -/
def Begun : Symbol → List Token → Prop
  | .declaration, ts => ∃ t us, ts = t :: us ∧ beginsDeclaration t.kind
  | .statement, ts => Begins beginsStatement ts
  | .expressionStatement, ts => Begins beginsExpression ts
  | .expr tier, ts => Begins tier.begins ts
  | .arguments (_ + 1), ts => Begins beginsExpression ts
  | .parameters (_ + 1), ts | .function, ts => ∃ t us, ts = t :: us ∧ t.kind = .identifier
  | .routine, ts => ∃ t us, ts = t :: us ∧ t.kind = .leftParen
  | .variableDeclaration, ts => ∃ t us, ts = t :: us ∧ t.kind = .var
  | _, _ => True

end Symbol

theorem beginsPrimary_of_constant {k : Token.Kind} {v : Literal} (h : (k, v) ∈ constants) :
    beginsPrimary k ∧ k ≠ .fun := by
  have all : ∀ p ∈ constants.map Prod.fst, beginsPrimary p ∧ p ≠ .fun := by decide
  exact all _ (List.mem_map_of_mem h)

theorem beginsExpression_of_unaryOperator {k : Token.Kind} {op : UnaryOp}
    (h : (k, op) ∈ unaryOperators) : beginsExpression k ∧ k ≠ .fun := by
  have all : ∀ p ∈ unaryOperators, beginsExpression p.1 ∧ p.1 ≠ .fun := by decide
  exact all _ h

theorem begins_operand {level : Level} {ts : List Token}
    (h : Begins (operand level).begins ts) : Begins beginsExpression ts := h.expression

theorem Derives.begun {best : Bool} {n : Symbol} {o : Bool} {ts : List Token} {i j : RefId}
    {a : n.Tree} (h : Derives best n o ts i a j) : n.Begun ts := by
  induction h with
  | noDeclaration | declarations | noSuperclass | superclass | noMember | method | classMethod
  | noParameter | noInitializer | variableInitializer | expressionInitializer | noExpression
  | someExpression | noArgument => trivial
  | classDeclaration hword => exact ⟨_, _, rfl, by rw [hword]; rfl⟩
  | functionDeclaration hword => exact ⟨_, _, rfl, by rw [hword]; rfl⟩
  | variableDeclaration _ ih =>
    obtain ⟨t, us, rfl, ht⟩ := ih
    exact ⟨t, us, rfl, by rw [ht]; rfl⟩
  | statement _ ih =>
    obtain ⟨t, us, rfl, ht, -⟩ := ih
    exact ⟨t, us, rfl, beginsDeclaration_of_statement _ ht⟩
  | function hname | parameter _ hname | parameters hname => exact ⟨_, _, rfl, hname⟩
  | routine hleft => exact ⟨_, _, rfl, hleft⟩
  | unassigned _ hword | assigned hword => exact ⟨_, _, rfl, hword⟩
  | expression _ ih => exact ih.mono beginsStatement_of_expression
  | forLoop hword | ifOnly hword | ifElse hword | print hword | answer hword | leave _ hword
  | whileLoop hword => exact .of_kind hword rfl (by decide) _
  | block hopening => exact .of_kind hopening rfl (by decide) _
  | expressionStatement _ _ ih => exact ih.append _
  | operand _ ih => exact begins_operand ih
  | operation _ _ _ _ ih => exact ih.append _
  | logic _ ih | equality _ ih => exact ih
  | assign hname => exact .of_kind hname rfl (by decide) _
  | set _ _ _ _ _ ih => exact (ih.mono beginsExpression_of_call).append _
  | ternary _ _ _ _ _ ih => exact ih.append _
  | call _ ih => exact ih.mono beginsExpression_of_call
  | unary hsign =>
    obtain ⟨hb, hf⟩ := beginsExpression_of_unaryOperator hsign
    exact .of_kind rfl hb hf _
  | primary _ ih => exact ih.mono beginsCall_of_primary
  | lambda hword _ ih =>
    obtain ⟨t, us, rfl, ht⟩ := ih
    exact ⟨_, _, rfl, by rw [hword]; rfl, fun _ => ⟨t, us, rfl, ht⟩⟩
  | apply _ _ _ _ _ ih | get _ _ _ ih => exact ih.append _
  | argument _ ih => exact ih
  | arguments _ _ _ ih => exact ih.append _
  | constant _ h =>
    obtain ⟨hb, hf⟩ := beginsPrimary_of_constant h
    exact .of_kind rfl hb hf _
  | literal _ h => obtain h | h := h <;> exact .of_kind h rfl (by decide) _
  | this _ h | identifier _ h | super _ h => exact .of_kind h rfl (by decide) _
  | group hleft => exact .of_kind hleft rfl (by decide) _

/-! Tokens behind. -/

/-- How loosely a kind of expression holds together: a looser one has the tighter ones in it. -/
def Tier.looseness : Tier → Nat
  | .primary => 0
  | .call => 1
  | .unary => 2
  | .chain .factor => 3
  | .chain .term => 4
  | .chain .comparison => 5
  | .chain .equality => 6
  | .ternary => 7
  | .chain .and => 8
  | .chain .or => 9
  | .assignment => 10
  | .chain .comma => 11

/-- The looseness of the tightest expressions that go on with such a token; more than all have, if it
ends any expression. -/
def pull : Token.Kind → Nat
  | .leftParen | .dot => 1
  | .slash | .star => 3
  | .minus | .plus => 4
  | .greater | .greaterEqual | .less | .lessEqual => 5
  | .bangEqual | .equalEqual => 6
  | .question => 7
  | .and => 8
  | .or => 9
  | .equal => 10
  | .comma => 11
  | _ => 12

/-- The expression does not go on with these tokens. An open one could also go on as the assignment
at its end. -/
def Tier.Stops (tier : Tier) (o : Bool) (rest : List Token) : Prop :=
  ∀ t ∈ rest.head?, tier.looseness < pull t.kind ∧
    (o = true → Tier.assignment.looseness < pull t.kind)

/-- The statement does not go on with these tokens. -/
def StopsElse (o : Bool) (rest : List Token) : Prop :=
  o = true → ∀ t ∈ rest.head?, t.kind ≠ .else

theorem Tier.stops_cons {tier : Tier} {o : Bool} {t : Token} {ts : List Token} :
    tier.Stops o (t :: ts) ↔ tier.looseness < pull t.kind ∧
      (o = true → Tier.assignment.looseness < pull t.kind) := by
  simp only [Tier.Stops, List.head?_cons, Option.mem_def, Option.some.injEq, forall_eq']

theorem Tier.Stops.mono {tier tier' : Tier} {o : Bool} {rest : List Token}
    (h : tier.Stops o rest) (hl : tier'.looseness ≤ tier.looseness) : tier'.Stops o rest :=
  fun t ht => ⟨Nat.lt_of_le_of_lt hl (h t ht).1, (h t ht).2⟩

theorem Tier.Stops.of_closed {tier : Tier} {o : Bool} {rest : List Token}
    (h : tier.Stops o rest) : tier.Stops false rest := fun t ht => ⟨(h t ht).1, nofun⟩

theorem Tier.stops_of_kind {tier : Tier} {t : Token} {k : Token.Kind} (h : t.kind = k)
    (hl : max tier.looseness 10 < pull k) (o : Bool) (ts : List Token) :
    tier.Stops o (t :: ts) := by
  rw [Tier.stops_cons, h]
  exact ⟨Nat.lt_of_le_of_lt (Nat.le_max_left _ _) hl,
    fun _ => Nat.lt_of_le_of_lt (Nat.le_max_right _ _) hl⟩

theorem looseness_operand (level : Level) :
    (operand level).looseness < (Tier.chain level).looseness := by
  cases level <;> decide

theorem pull_of_operator {level : Level} {k : Token.Kind} {op : Infix}
    (h : (k, op) ∈ operators level) : pull k = (Tier.chain level).looseness := by
  have all : ∀ p ∈ operators level, pull p.1 = (Tier.chain level).looseness := by
    cases level <;> decide
  exact all _ h

end Grammar

end Lox
