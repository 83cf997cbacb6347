import Lox.Proofs.Grammar.Disambiguation
import Lox.Proofs.Parser.Primitives

/-!
What the grammar derives is read. A phrase with a best derivation is read as its tree, wherever the
tokens behind it do not go on with it.
-/

namespace Lox

namespace Parser

variable {α β : Type}

/-- From the one state the reader answers the tree and leaves the other state, unless it needs more
depth than it has. -/
def Answers (p : Parser α) (s : State) (a : α) (s' : State) : Prop :=
  p s = .ok a s' ∨ ∃ t, p s = .error .tooDeep t

namespace Answers

variable {p : Parser α} {k : α → Parser β} {s s₁ s' : State} {a : α} {b : β}

theorem pure (a : α) (s : State) : Answers (Pure.pure a) s a s := .inl rfl

theorem bind (hp : Answers p s a s₁) (hk : Answers (k a) s₁ b s') : Answers (p >>= k) s b s' := by
  simp only [Answers, Bind.bind, EStateM.bind]
  obtain hp | ⟨t, hp⟩ := hp
  · rw [hp]
    exact hk
  · rw [hp]
    exact .inr ⟨t, rfl⟩

theorem map (f : α → β) (hp : Answers p s a s') : Answers (f <$> p) s (f a) s' :=
  bind (k := fun a => Pure.pure (f a)) hp (pure _ _)

theorem recover (hp : Answers p s a s') : Answers (recover p) s (some a) s' := by
  simp only [Answers, recover_run]
  obtain hp | ⟨t, hp⟩ := hp
  · rw [hp]
    exact .inl rfl
  · rw [hp]
    exact .inr ⟨t, rfl⟩

/-- A phrase is read as its production says. -/
theorem within {n : Nonterminal} {a : n.Tree}
    (h : ∀ d, Answers (production (parseWithin d) n) s a s') (d : Nat) :
    Answers (parseWithin d n) s a s' := by
  cases d with
  | zero => exact .inr ⟨s, rfl⟩
  | succ d => exact h d

variable {kind : Token.Kind} {t : Token} {ts : List Token} {i : RefId} {fs : List Fault}

theorem accept (h : t.kind = kind) :
    Answers (accept? kind) ⟨t :: ts, i, fs⟩ (some t) ⟨ts, i, fs⟩ := .inl (accept?_of_eq h ts i fs)

theorem accept_none (h : ∀ t ∈ ts.head?, t.kind ≠ kind) :
    Answers (accept? kind) ⟨ts, i, fs⟩ none ⟨ts, i, fs⟩ := by
  cases ts with
  | nil => exact .inl rfl
  | cons t ts => exact .inl (accept?_of_ne (h t rfl) ts i fs)

theorem expect (what : String) (h : t.kind = kind) :
    Answers (expect kind what) ⟨t :: ts, i, fs⟩ t ⟨ts, i, fs⟩ := bind (accept h) (pure _ _)

theorem expectName (what : String) (h : t.kind = .identifier) :
    Answers (expectName what) ⟨t :: ts, i, fs⟩ t.mark ⟨ts, i, fs⟩ := bind (expect what h) (pure _ _)

theorem get : Answers get s s s := .inl rfl

theorem peek : Answers peek s s.rest.head? s := .inl rfl

theorem atEnd : Answers atEnd ⟨t :: ts, i, fs⟩ false ⟨t :: ts, i, fs⟩ := .inl rfl

theorem skip : Answers skip ⟨t :: ts, i, fs⟩ () ⟨ts, i, fs⟩ := .inl rfl

theorem nextIs (h : t.kind = kind) : Answers (nextIs kind) ⟨t :: ts, i, fs⟩ true ⟨t :: ts, i, fs⟩ :=
  .inl (by rw [← h]; exact congrArg (EStateM.Result.ok · _) (beq_self_eq_true t.kind))

theorem nextIs_false (h : t.kind ≠ kind) :
    Answers (Parser.nextIs kind) ⟨t :: ts, i, fs⟩ false ⟨t :: ts, i, fs⟩ :=
  .inl (congrArg (EStateM.Result.ok · _) (beq_eq_false_iff_ne.mpr h))

theorem freshId : Answers freshId ⟨ts, i, fs⟩ i ⟨ts, i + 1, fs⟩ := .inl rfl

end Answers

end Parser

namespace Grammar

open Lox.Parser

/-- Readers of all phrases, which the readers of longer ones call. -/
abbrev Phrases := (n : Nonterminal) → Parser n.Tree

/-- The reader of a tier. -/
def Tier.reader (phrase : Phrases) : Tier → Parser (Expr RefId)
  | .chain level => phrase (.chain level)
  | .assignment => phrase .assignment
  | .ternary => phrase .ternary
  | .unary => phrase .unary
  | .call => phrase .call
  | .primary => phrase .primary

theorem reader_operand (phrase : Phrases) (level : Level) :
    Parser.operand phrase level = (operand level).reader phrase := by
  cases level <;> rfl

/-- The methods among the members that are read, or the class methods. -/
def named (ofClass : Bool) (ms : List (Bool × Definition RefId)) : List (Definition RefId) :=
  (ms.filter (·.1 == ofClass)).map (·.2)

theorem forLoop_eq (initial : Option (Stmt RefId)) (condition increment : Option (Expr RefId))
    (body : Stmt RefId) :
    Parser.forLoop initial condition increment body = forTree initial condition increment body := by
  cases initial <;> cases increment <;> rfl

/-- The declarations of a block, or of a program, end in front of these tokens. -/
def EndsBlock : Bool → List Token → Prop
  | true, rest => ∃ t us, rest = t :: us ∧ t.kind = .rightBrace
  | false, rest => rest = []

section Read

variable (ts : List Token) (i j : RefId)

/-- In front of the others the tokens are read as the tree. -/
def ReadAs {α : Type} (reader : Phrases → Parser α) (a : α) (rest : List Token) : Prop :=
  ∀ fs d, Answers (reader (parseWithin d)) ⟨ts ++ rest, i, fs⟩ a ⟨rest, j, fs⟩

/-- In front of the others the tokens are read as the beginning of an expression, which goes on as
the tail reads it. -/
def ReadInto (reader : Phrases → Parser (Expr RefId))
    (tail : Phrases → Expr RefId → Parser (Expr RefId)) (e : Expr RefId) (rest : List Token) :
    Prop :=
  ∀ fs e' s', (∀ d, Answers (tail (parseWithin d) e) ⟨rest, j, fs⟩ e' s') →
    ∀ d, Answers (reader (parseWithin d)) ⟨ts ++ rest, i, fs⟩ e' s'

end Read

/-- How the tokens of an expression are read. -/
def Tier.Completes : Tier → Bool → List Token → RefId → Expr RefId → RefId → Prop
  | .chain level, o, ts, i, e, j => ∀ rest, (operand level).Stops o rest →
      ReadInto ts i j (· (.chain level)) (fun phrase e => phrase (.chainTail level e)) e rest
  | .call, _, ts, i, e, j => ∀ rest,
      ReadInto ts i j (· .call) (fun phrase e => phrase (.callTail e)) e rest
  | tier, o, ts, i, e, j => ∀ rest, tier.Stops o rest → ReadAs ts i j (tier.reader ·) e rest

/-- How the tokens of a phrase are read. -/
def Completes : (n : Symbol) → Bool → List Token → RefId → n.Tree → RefId → Prop
  | .declarations, _, ts, i, ss, j => ∀ inBlock rest, EndsBlock inBlock rest →
      ReadAs ts i j (· (.sequence inBlock)) ss rest
  | .declaration, o, ts, i, s, j => ∀ rest, StopsElse o rest →
      ReadAs ts i j (· .declaration) (some s) rest
  | .superclass, _, _, _, _, _ => True
  | .members, _, ts, i, (ms, cs), j => ∀ rest, EndsBlock true rest →
      ∃ l, named false l = ms ∧ named true l = cs ∧ ReadAs ts i j (· .members) l rest
  | .function, _, ts, i, d, j => ∀ rest owner, ReadAs ts i j (definition · owner) d rest
  | .routine, _, ts, i, r, j => ∀ rest head owner, ReadAs ts i j (Parser.routine · head owner) r rest
  | .parameters count, _, ts, i, ps, j => 0 < count → ∀ before rest, before + count ≤ listBound →
      (∀ t ∈ rest.head?, t.kind ≠ .comma) → ReadAs ts i j (· (.parameters before)) ps rest
  | .variableDeclaration, _, ts, i, s, j => ∃ word us, ts = word :: us ∧ word.kind = .var ∧
      ∀ rest, ReadAs us i j varDeclaration s rest
  | .statement, o, ts, i, s, j => ∀ rest, StopsElse o rest → ReadAs ts i j (· .statement) s rest
  | .expressionStatement, _, ts, i, s, j => ∀ rest,
      ReadAs ts i j Parser.expressionStatement s rest
  | .initializer, _, ts, i, s, j => (∃ sign, ts = [sign] ∧ sign.kind = .semicolon ∧ s = none ∧ j = i)
      ∨ (∃ s', s = some s' ∧ Begins beginsExpression ts ∧
        ∀ rest, ReadAs ts i j Parser.expressionStatement s' rest)
      ∨ ∃ s', s = some s' ∧ ∃ word us, ts = word :: us ∧ word.kind = .var ∧
        ∀ rest, ReadAs us i j varDeclaration s' rest
  | .optionalExpression, _, ts, i, e, j => ∀ closing t rest, t.kind = closing →
      closing = .semicolon ∨ closing = .rightParen →
        ReadAs ts i j (optionalBefore · closing) e (t :: rest)
  | .expr tier, o, ts, i, e, j => tier.Completes o ts i e j
  | .arguments count, _, ts, i, es, j => 0 < count → ∀ before t rest, before + count ≤ listBound →
      t.kind = .rightParen → ReadAs ts i j (· (.arguments before)) es (t :: rest)

section Cases

variable {ts us : List Token} {i j k l : RefId} {o o' : Bool}

/-! Expressions. -/

theorem operator?_eq_some {level : Level} {kind : Token.Kind} {op : Infix} :
    level.operator? kind = some op ↔ (kind, op) ∈ operators level := by
  constructor
  · intro h
    cases level <;> cases kind <;> cases h <;> decide
  · intro h
    have all : ∀ p ∈ operators level, level.operator? p.1 = some p.2 := by
      cases level <;> decide
    exact all _ h

theorem unaryOperator?_eq_some {kind : Token.Kind} {op : UnaryOp} :
    unaryOperator? kind = some op ↔ (kind, op) ∈ unaryOperators := by
  constructor
  · intro h
    cases kind <;> cases h <;> decide
  · intro h
    have all : ∀ p ∈ unaryOperators, unaryOperator? p.1 = some p.2 := by decide
    exact all _ h

/-- A chain ends where no operator of its level follows. -/
theorem chainTail_ends {level : Level} {e : Expr RefId} {rest : List Token}
    (h : ∀ t ∈ rest.head?, level.operator? t.kind = none) (fs : List Fault) (d : Nat) :
    Answers (parseWithin d (.chainTail level e)) ⟨rest, j, fs⟩ e ⟨rest, j, fs⟩ := by
  refine Answers.within (fun d => Answers.bind .peek ?_) d
  cases rest with
  | nil => exact .pure e _
  | cons t rest =>
    dsimp only [List.head?_cons]
    rw [h t rfl]
    exact .pure e _

/-- A call ends where neither a parenthesis nor a dot follows. -/
theorem callTail_ends {e : Expr RefId} {rest : List Token}
    (h : Tier.call.Stops false rest) (fs : List Fault) (d : Nat) :
    Answers (parseWithin d (.callTail e)) ⟨rest, j, fs⟩ e ⟨rest, j, fs⟩ := by
  have other {kind : Token.Kind} (hk : pull kind ≤ 1) : ∀ t ∈ rest.head?, t.kind ≠ kind :=
    fun t ht he => absurd (h t ht).1 (he ▸ Nat.not_lt.mpr hk)
  refine Answers.within (fun d => Answers.bind (.accept_none (other (by decide))) ?_) d
  exact Answers.bind (.accept_none (other (by decide))) (.pure e _)

theorem Tier.Stops.operator? {level : Level} {rest : List Token}
    (h : (Tier.chain level).Stops o rest) : ∀ t ∈ rest.head?, level.operator? t.kind = none := by
  intro t ht
  cases ho : level.operator? t.kind with
  | none => rfl
  | some op =>
    have hl := (h t ht).1
    rw [pull_of_operator (operator?_eq_some.mp ho)] at hl
    exact absurd hl (Nat.lt_irrefl _)

/-- Where an expression stops, it is read as a whole. -/
theorem Tier.Completes.readAs {tier : Tier} {e : Expr RefId} (h : tier.Completes o ts i e j)
    {rest : List Token} (hs : tier.Stops o rest) : ReadAs ts i j (tier.reader ·) e rest := by
  cases tier with
  | chain level =>
    intro fs d
    exact h rest (hs.mono (Nat.le_of_lt (looseness_operand level))) fs e _
      (chainTail_ends hs.operator? fs) d
  | call => exact fun fs d => h rest fs e _ (callTail_ends hs.of_closed fs) d
  | assignment | ternary | unary | primary => exact h rest hs

theorem completes_operand {level : Level} {e : Expr RefId}
    (h : (operand level).Completes o ts i e j) : (Tier.chain level).Completes o ts i e j := by
  intro rest hs fs e' s' ht
  refine Answers.within fun d => Answers.bind ?_ (ht d)
  rw [reader_operand]
  exact h.readAs hs fs d

theorem stops_at_operator {level : Level} {sign : Token} {op : Infix}
    (closed : level ≠ .comma → o = false) (hsign : (sign.kind, op) ∈ operators level)
    (rest : List Token) : (operand level).Stops o (sign :: rest) := by
  rw [Tier.stops_cons, pull_of_operator hsign]
  refine ⟨looseness_operand level, fun ho => ?_⟩
  cases level with
  | comma => decide
  | _ => exact absurd ((closed nofun).symm.trans ho) Bool.false_ne_true

theorem completes_operation {level : Level} {sign : Token} {op : Infix} {l r : Expr RefId}
    (left : (Tier.chain level).Completes o ts i l j) (closed : level ≠ .comma → o = false)
    (hsign : (sign.kind, op) ∈ operators level) (right : (operand level).Completes o' us j r k) :
    (Tier.chain level).Completes o' (ts ++ sign :: us) i (op.apply sign.mark l r) k := by
  intro rest hs fs e' s' ht
  simp only [List.append_assoc, List.cons_append]
  refine left _ (stops_at_operator closed hsign _) fs e' s' (Answers.within fun d => ?_)
  refine Answers.bind .peek ?_
  dsimp only [List.head?_cons]
  rw [operator?_eq_some.mpr hsign]
  refine Answers.bind .skip (Answers.bind ?_ (ht d))
  rw [reader_operand]
  exact right.readAs hs fs d

theorem completes_logic {e : Expr RefId} (h : (Tier.chain .or).Completes o ts i e j) :
    Tier.assignment.Completes o ts i e j := by
  intro rest hs fs
  refine Answers.within fun d => Answers.bind (h.readAs (hs.mono (by decide)) fs d) ?_
  refine Answers.bind (.accept_none fun t ht he => ?_) (.pure e _)
  exact absurd (hs t ht).1 (by rw [he]; decide)

/-- A target is read as a chain, in front of the sign that makes it one. -/
theorem Tier.Completes.target {e : Expr RefId} {equal : Token}
    (h : (Tier.chain .or).Completes false ts i e j) (hequal : equal.kind = .equal)
    (rest : List Token) : ReadAs ts i j (· (.chain .or)) e (equal :: rest) := by
  apply h.readAs
  rw [Tier.stops_cons, hequal]
  exact ⟨by decide, nofun⟩

theorem completes_equality {e : Expr RefId} (h : (Tier.chain .equality).Completes false ts i e j) :
    Tier.ternary.Completes false ts i e j := by
  intro rest hs fs
  refine Answers.within fun d => Answers.bind (h.readAs (hs.mono (by decide)) fs d) ?_
  refine Answers.bind (.accept_none fun t ht he => ?_) (.pure e _)
  exact absurd (hs t ht).1 (by rw [he]; decide)

theorem completes_ternary {question colon : Token} {vs : List Token} {c y n : Expr RefId}
    {m : Bool} (condition : (Tier.chain .equality).Completes false ts i c j)
    (hquestion : question.kind = .question) (yes : (Tier.chain .comma).Completes o us j y k)
    (hcolon : colon.kind = .colon) (no : Tier.assignment.Completes m vs k n l) :
    Tier.ternary.Completes true (ts ++ question :: (us ++ colon :: vs)) i (.ternary c y n) l := by
  intro rest hs fs
  simp only [List.append_assoc, List.cons_append]
  have hc : (Tier.chain .equality).Stops false (question :: (us ++ colon :: (vs ++ rest))) := by
    rw [Tier.stops_cons, hquestion]
    exact ⟨by decide, nofun⟩
  have hn : Tier.assignment.Stops m rest := fun t ht => ⟨(hs t ht).2 rfl, fun _ => (hs t ht).2 rfl⟩
  refine Answers.within fun d => Answers.bind (condition.readAs hc fs d) ?_
  refine Answers.bind (.accept hquestion) ?_
  refine Answers.bind (yes.readAs (Tier.stops_of_kind hcolon (by decide) o _) fs d) ?_
  refine Answers.bind (.expect _ hcolon) (Answers.bind (no rest hn fs d) ?_)
  exact .pure _ _

theorem completes_call {e : Expr RefId} (h : Completes (.expr .call) o ts i e j)
    (hb : Begins beginsCall ts) : Tier.unary.Completes false ts i e j := by
  intro rest hs fs
  obtain ⟨t, us, rfl, ht, -⟩ := hb
  have notUnary : unaryOperator? t.kind = none := by
    generalize t.kind = kind at ht
    cases kind <;> first | rfl | cases ht
  refine Answers.within fun d => Answers.bind .peek ?_
  dsimp only [List.cons_append, List.head?_cons]
  rw [notUnary]
  exact h rest fs e _ (callTail_ends (hs.mono (by decide)) fs) d

theorem completes_unary {sign : Token} {op : UnaryOp} {e : Expr RefId}
    (hsign : (sign.kind, op) ∈ unaryOperators) (h : Tier.unary.Completes false ts i e j) :
    Tier.unary.Completes false (sign :: ts) i (.unary op sign.mark e) j := by
  intro rest hs fs
  refine Answers.within fun d => Answers.bind .peek ?_
  dsimp only [List.cons_append, List.head?_cons]
  rw [unaryOperator?_eq_some.mpr hsign]
  exact Answers.bind .skip (Answers.bind (h rest hs fs d) (.pure _ _))

theorem stops_primary (rest : List Token) : Tier.primary.Stops false rest := by
  intro t _
  refine ⟨?_, nofun⟩
  cases t.kind <;> decide

theorem completes_primary {e : Expr RefId} (h : Tier.primary.Completes false ts i e j)
    (hb : Begins beginsPrimary ts) : Tier.call.Completes false ts i e j := by
  intro rest fs e' s' ht
  have notFun : ∀ t ∈ (ts ++ rest).head?, t.kind ≠ .fun := by
    obtain ⟨t, us, rfl, hk, -⟩ := hb
    rintro u ⟨rfl⟩ hf
    rw [hf] at hk
    cases hk
  refine Answers.within fun d => Answers.bind (.accept_none notFun) ?_
  exact Answers.bind (h rest (stops_primary rest) fs d) (ht d)

/-- A call is an expression of all looser tiers. -/
theorem Tier.Completes.or_of_call {e : Expr RefId} (h : Tier.call.Completes o ts i e j)
    (hb : Begins beginsCall ts) : (Tier.chain .or).Completes false ts i e j := by
  have factor : (Tier.chain .factor).Completes false ts i e j :=
    completes_operand (completes_call (o := o) h hb)
  have equality : (Tier.chain .equality).Completes false ts i e j :=
    completes_operand (completes_operand (completes_operand factor))
  have and : (Tier.chain .and).Completes false ts i e j :=
    completes_operand (completes_equality equality)
  exact completes_operand and

theorem completes_lambda {word : Token} {r : Routine RefId} (hword : word.kind = .fun)
    (h : Completes .routine o ts i r j) :
    Tier.call.Completes false (word :: ts) i (.lambda word.line r) j := by
  intro rest fs e' s' ht
  refine Answers.within fun d => Answers.bind (.accept hword) ?_
  exact Answers.bind (.map _ (h rest _ _ fs d)) (ht d)

theorem completes_get {dot name : Token} {object : Expr RefId}
    (h : Completes (.expr .call) o ts i object j) (hdot : dot.kind = .dot)
    (hname : name.kind = .identifier) :
    Tier.call.Completes false (ts ++ [dot, name]) i (.get object name.mark) j := by
  intro rest fs e' s' ht
  rw [List.append_assoc]
  refine h _ fs e' s' (Answers.within fun d => ?_)
  refine Answers.bind (.accept_none ?_) (Answers.bind (.accept hdot) ?_)
  · rintro t ⟨rfl⟩
    rw [hdot]
    decide
  · exact Answers.bind (.expectName _ hname) (ht d)

theorem completes_set {dot name equal : Token} {object e : Expr RefId}
    (h : Completes (.expr .call) o ts i object j) (hb : Begins beginsCall ts)
    (hdot : dot.kind = .dot) (hname : name.kind = .identifier) (hequal : equal.kind = .equal)
    (value : Tier.assignment.Completes o' us j e k) :
    Tier.assignment.Completes o' (ts ++ dot :: name :: equal :: us) i (.set object name.mark e)
      k := by
  have call : Tier.call.Completes false (ts ++ [dot, name]) i (.get object name.mark) j :=
    completes_get (o := o) h hdot hname
  intro rest hs fs
  have target := (call.or_of_call (hb.append _)).target hequal (us ++ rest) fs
  rw [List.append_assoc] at target ⊢
  refine Answers.within fun d => Answers.bind (target d) ?_
  refine Answers.bind (.accept hequal) (Answers.bind (value rest hs fs d) ?_)
  exact .pure _ _

theorem completes_apply {left right : Token} {callee : Expr RefId} {es : List (Expr RefId)}
    {count : Nat} (h : Completes (.expr .call) o ts i callee j) (hleft : left.kind = .leftParen)
    (hcount : count ≤ listBound) (hes : Derives true (.arguments count) o' us j es k)
    (ih : Completes (.arguments count) o' us j es k) (hright : right.kind = .rightParen) :
    Tier.call.Completes false (ts ++ left :: (us ++ [right])) i (.call callee es right.line) k := by
  intro rest fs e' s' ht
  simp only [List.append_assoc, List.cons_append, List.nil_append]
  refine h _ fs e' s' (Answers.within fun d => Answers.bind (.accept hleft) ?_)
  cases count with
  | zero =>
    cases hes
    refine Answers.bind (.nextIs hright) (Answers.bind (.pure _ _) ?_)
    exact Answers.bind (.expect _ hright) (ht d)
  | succ count =>
    have begins := hes.begun.append (right :: rest)
    obtain ⟨t, vs, hvs, hk, -⟩ := begins
    have notRight : t.kind ≠ .rightParen := fun hf => by
      rw [hf] at hk
      cases hk
    have hes := ih (Nat.succ_pos count) 0 right rest (by rwa [Nat.zero_add]) hright fs d
    rw [hvs] at hes ⊢
    refine Answers.bind (.nextIs_false notRight) (Answers.bind hes ?_)
    exact Answers.bind (.expect _ hright) (ht d)

theorem not_full {before count : Nat} (h : before + (count + 1) ≤ listBound) :
    ¬ maxListed ≤ before := by
  unfold maxListed
  unfold listBound at h
  omega

theorem completes_argument {e : Expr RefId} (h : Tier.assignment.Completes o ts i e j) :
    Completes (.arguments 1) false ts i [e] j := by
  intro _ before right rest hb hright fs
  refine Answers.within fun d => ?_
  change Answers (if maxListed ≤ before then _ else _) _ _ _
  rw [if_neg (not_full hb)]
  refine Answers.bind (h _ (Tier.stops_of_kind hright (by decide) o _) fs d) ?_
  refine Answers.bind (.accept_none ?_) (.pure _ _)
  rintro t ⟨rfl⟩
  rw [hright]
  decide

theorem completes_arguments {sign : Token} {e : Expr RefId} {es : List (Expr RefId)} {count : Nat}
    (h : Tier.assignment.Completes o ts i e j) (hsign : sign.kind = .comma)
    (ih : Completes (.arguments (count + 1)) o' us j es k) :
    Completes (.arguments (count + 2)) false (ts ++ sign :: us) i (e :: es) k := by
  intro _ before right rest hb hright fs
  simp only [List.append_assoc, List.cons_append]
  refine Answers.within fun d => ?_
  change Answers (if maxListed ≤ before then _ else _) _ _ _
  rw [if_neg (not_full hb)]
  refine Answers.bind (h _ (Tier.stops_of_kind hsign (by decide) o _) fs d) ?_
  refine Answers.bind (.accept hsign) ?_
  have others := ih (Nat.succ_pos count) (before + 1) right rest (by omega) hright fs d
  exact Answers.bind others (.pure _ _)

theorem completes_constant {t : Token} {v : Literal} (h : (t.kind, v) ∈ constants) :
    Tier.primary.Completes false [t] i (.literal v) i := by
  intro rest _ fs
  obtain ⟨kind, lexeme, line, literal⟩ := t
  refine Answers.within fun d => Answers.bind .peek ?_
  simp only [constants, List.mem_cons, Prod.mk.injEq, List.not_mem_nil, or_false] at h
  obtain ⟨rfl, rfl⟩ | ⟨rfl, rfl⟩ | ⟨rfl, rfl⟩ := h
  all_goals exact Answers.bind .skip (.pure _ _)

theorem completes_literal {t : Token} (h : t.kind = .number ∨ t.kind = .string) :
    Tier.primary.Completes false [t] i (.literal (t.literal.getD .nil)) i := by
  intro rest _ fs
  obtain ⟨kind, lexeme, line, literal⟩ := t
  refine Answers.within fun d => Answers.bind .peek ?_
  obtain rfl | rfl : kind = .number ∨ kind = .string := h
  all_goals exact Answers.bind .skip (.pure _ _)

theorem completes_this {t : Token} (h : t.kind = .this) :
    Tier.primary.Completes false [t] i (.this i t.mark) (i + 1) := by
  intro rest _ fs
  obtain ⟨kind, lexeme, line, literal⟩ := t
  obtain rfl : kind = .this := h
  refine Answers.within fun d => Answers.bind .peek ?_
  exact Answers.bind .skip (Answers.bind .freshId (.pure _ _))

theorem completes_identifier {t : Token} (h : t.kind = .identifier) :
    Tier.primary.Completes false [t] i (.variable i t.mark) (i + 1) := by
  intro rest _ fs
  obtain ⟨kind, lexeme, line, literal⟩ := t
  obtain rfl : kind = .identifier := h
  refine Answers.within fun d => Answers.bind .peek ?_
  exact Answers.bind .skip (Answers.bind .freshId (.pure _ _))

theorem completes_assign {name equal : Token} {e : Expr RefId} (hname : name.kind = .identifier)
    (hequal : equal.kind = .equal) (value : Tier.assignment.Completes o ts (i + 1) e j) :
    Tier.assignment.Completes o (name :: equal :: ts) i (.assign i name.mark e) j := by
  have begins {p : Token.Kind → Bool} (hp : p .identifier) : Begins p [name] :=
    .of_kind hname hp nofun []
  have call : Tier.call.Completes false [name] i (.variable i name.mark) (i + 1) :=
    completes_primary (completes_identifier hname) (begins rfl)
  intro rest hs fs
  have target := (call.or_of_call (begins rfl)).target hequal (ts ++ rest) fs
  refine Answers.within fun d => Answers.bind (target d) ?_
  refine Answers.bind (.accept hequal) (Answers.bind (value rest hs fs d) ?_)
  exact .pure _ _

theorem completes_super {t dot name : Token} (h : t.kind = .super) (hdot : dot.kind = .dot)
    (hname : name.kind = .identifier) :
    Tier.primary.Completes false [t, dot, name] i (.super i t.mark name.mark) (i + 1) := by
  intro rest _ fs
  obtain ⟨kind, lexeme, line, literal⟩ := t
  obtain rfl : kind = .super := h
  refine Answers.within fun d => Answers.bind .peek (Answers.bind .skip ?_)
  refine Answers.bind (.expect _ hdot) (Answers.bind (.expectName _ hname) ?_)
  exact Answers.bind .freshId (.pure _ _)

theorem completes_group {left right : Token} {e : Expr RefId} (hleft : left.kind = .leftParen)
    (h : (Tier.chain .comma).Completes o ts i e j) (hright : right.kind = .rightParen) :
    Tier.primary.Completes false (left :: (ts ++ [right])) i (.group e) j := by
  intro rest _ fs
  obtain ⟨kind, lexeme, line, literal⟩ := left
  obtain rfl : kind = .leftParen := hleft
  simp only [List.append_assoc, List.cons_append, List.nil_append]
  refine Answers.within fun d => Answers.bind .peek (Answers.bind .skip ?_)
  refine Answers.bind (h.readAs (Tier.stops_of_kind hright (by decide) o _) fs d) ?_
  exact Answers.bind (.expect _ hright) (.pure _ _)

/-! Statements. -/

/-- An expression is read up to a token that ends all of them. -/
theorem Tier.Completes.expression {e : Expr RefId} (h : (Tier.chain .comma).Completes o ts i e j)
    {t : Token} {kind : Token.Kind} (ht : t.kind = kind) (hk : pull kind = 12) (rest : List Token) :
    ReadAs ts i j Parser.expression e (t :: rest) :=
  h.readAs (Tier.stops_of_kind ht (hk ▸ by decide) o _)

theorem completes_expressionStatement {sign : Token} {e : Expr RefId}
    (h : (Tier.chain .comma).Completes o ts i e j) (hsign : sign.kind = .semicolon) :
    Completes .expressionStatement false (ts ++ [sign]) i (.expr e) j := by
  intro rest fs d
  rw [List.append_assoc]
  refine Answers.bind (h.expression hsign rfl rest fs d) ?_
  exact Answers.bind (.expect _ hsign) (.pure _ _)

theorem completes_someExpression {e : Expr RefId} (h : (Tier.chain .comma).Completes o ts i e j)
    (hb : Begins beginsExpression ts) : Completes .optionalExpression false ts i (some e) j := by
  intro closing t rest ht hc fs d
  have hp : pull closing = 12 := by
    obtain rfl | rfl := hc <;> rfl
  have he := h.expression ht hp rest fs d
  obtain ⟨u, us, rfl, hu, -⟩ := hb
  have open' : u.kind ≠ closing := by
    rintro rfl
    obtain hc | hc := hc <;> rw [hc] at hu <;> cases hu
  exact Answers.bind (.nextIs_false open') (.map _ he)

theorem completes_noExpression : Completes .optionalExpression false [] i none i := by
  intro closing t rest ht _ fs d
  exact Answers.bind (.nextIs ht) (.pure _ _)

theorem completes_unassigned {word name sign : Token} (hword : word.kind = .var)
    (hname : name.kind = .identifier) (hsign : sign.kind = .semicolon) :
    Completes .variableDeclaration false [word, name, sign] i (.var name.mark none) i := by
  refine ⟨word, _, rfl, hword, fun rest fs d => ?_⟩
  refine Answers.bind (.expectName _ hname) (Answers.bind (.accept_none ?_) ?_)
  · rintro t ⟨rfl⟩
    rw [hsign]
    decide
  · exact Answers.bind (.pure _ _) (Answers.bind (.expect _ hsign) (.pure _ _))

theorem completes_assigned {word name equal sign : Token} {e : Expr RefId}
    (hword : word.kind = .var) (hname : name.kind = .identifier) (hequal : equal.kind = .equal)
    (h : (Tier.chain .comma).Completes o ts i e j) (hsign : sign.kind = .semicolon) :
    Completes .variableDeclaration false (word :: name :: equal :: (ts ++ [sign])) i
      (.var name.mark (some e)) j := by
  refine ⟨word, _, rfl, hword, fun rest fs d => ?_⟩
  simp only [List.append_assoc, List.cons_append, List.nil_append]
  refine Answers.bind (.expectName _ hname) (Answers.bind (.accept hequal) ?_)
  refine Answers.bind (.map _ (h.expression hsign rfl rest fs d)) ?_
  exact Answers.bind (.expect _ hsign) (.pure _ _)

theorem completes_expression {s : Stmt RefId} (h : Completes .expressionStatement o ts i s j)
    (hb : Begins beginsExpression ts) : Completes .statement false ts i s j := by
  intro rest _ fs
  have hs := h rest fs
  obtain ⟨⟨kind, lexeme, line, literal⟩, us, rfl, ht, -⟩ := hb
  refine Answers.within fun d => Answers.bind .peek ?_
  have hs := hs d
  cases kind <;> first | exact hs | cases ht

theorem completes_forLoop {word left sign right : Token} {vs ws : List Token} {n : RefId}
    {initial : Option (Stmt RefId)} {condition increment : Option (Expr RefId)} {body : Stmt RefId}
    {o₁ o₂ : Bool} (hword : word.kind = .for) (hleft : left.kind = .leftParen)
    (first : Completes .initializer o ts i initial j)
    (second : Completes .optionalExpression o' us j condition k) (hsign : sign.kind = .semicolon)
    (last : Completes .optionalExpression o₁ vs k increment l) (hright : right.kind = .rightParen)
    (statement : Completes .statement o₂ ws l body n) :
    Completes .statement o₂ (word :: left :: (ts ++ (us ++ sign :: (vs ++ right :: ws)))) i
      (forTree initial condition increment body) n := by
  intro rest hs fs
  obtain ⟨kind, lexeme, line, literal⟩ := word
  obtain rfl : kind = .for := hword
  simp only [List.append_assoc, List.cons_append]
  refine Answers.within fun d => Answers.bind .peek (Answers.bind .skip ?_)
  rw [forStatement_eq]
  have clauses (initial : Option (Stmt RefId)) : Answers (forClauses (parseWithin d) initial)
      ⟨us ++ sign :: (vs ++ right :: (ws ++ rest)), j, fs⟩
      (forTree initial condition increment body) ⟨rest, n, fs⟩ := by
    refine Answers.bind (second _ sign _ hsign (.inl rfl) fs d) ?_
    refine Answers.bind (.expect _ hsign) ?_
    refine Answers.bind (last _ right _ hright (.inr rfl) fs d) ?_
    refine Answers.bind (.expect _ hright) (Answers.bind (statement rest hs fs d) ?_)
    rw [← forLoop_eq]
    exact .pure _ _
  refine Answers.bind (.expect _ hleft) ?_
  obtain ⟨start, rfl, hstart, rfl, rfl⟩ | ⟨s, rfl, hb, he⟩ | ⟨s, rfl, var, vars, rfl, hvar, hv⟩ := first
  · exact Answers.bind (.accept hstart) (clauses none)
  · have he := he (us ++ sign :: (vs ++ right :: (ws ++ rest))) fs d
    refine Answers.bind (.accept_none (hb.head_ne rfl _)) ?_
    refine Answers.bind (.accept_none (hb.head_ne rfl _)) ?_
    exact Answers.bind (.map _ he) (clauses (some s))
  · refine Answers.bind (.accept_none ?_) (Answers.bind (.accept hvar) ?_)
    · rintro t ⟨rfl⟩
      rw [hvar]
      decide
    · exact Answers.bind (.map _ (hv _ fs d)) (clauses (some s))

theorem completes_ifOnly {word left right : Token} {c : Expr RefId} {y : Stmt RefId}
    (hword : word.kind = .if) (hleft : left.kind = .leftParen)
    (condition : (Tier.chain .comma).Completes o ts i c j) (hright : right.kind = .rightParen)
    (yes : Completes .statement o' us j y k) :
    Completes .statement true (word :: left :: (ts ++ right :: us)) i (.if c y none) k := by
  intro rest hs fs
  obtain ⟨kind, lexeme, line, literal⟩ := word
  obtain rfl : kind = .if := hword
  simp only [List.append_assoc, List.cons_append]
  refine Answers.within fun d => Answers.bind .peek (Answers.bind .skip ?_)
  refine Answers.bind (.expect _ hleft) ?_
  refine Answers.bind (condition.expression hright rfl _ fs d) (Answers.bind (.expect _ hright) ?_)
  refine Answers.bind (yes rest (fun _ => hs rfl) fs d) ?_
  exact Answers.bind (.accept_none (hs rfl)) (.pure _ _)

theorem completes_ifElse {word left right other : Token} {vs : List Token} {c : Expr RefId}
    {y n : Stmt RefId} {o₁ : Bool} (hword : word.kind = .if) (hleft : left.kind = .leftParen)
    (condition : (Tier.chain .comma).Completes o ts i c j) (hright : right.kind = .rightParen)
    (yes : Completes .statement false us j y k) (hother : other.kind = .else)
    (no : Completes .statement o₁ vs k n l) :
    Completes .statement o₁ (word :: left :: (ts ++ right :: (us ++ other :: vs))) i
      (.if c y (some n)) l := by
  intro rest hs fs
  obtain ⟨kind, lexeme, line, literal⟩ := word
  obtain rfl : kind = .if := hword
  simp only [List.append_assoc, List.cons_append]
  refine Answers.within fun d => Answers.bind .peek (Answers.bind .skip ?_)
  refine Answers.bind (.expect _ hleft) ?_
  refine Answers.bind (condition.expression hright rfl _ fs d) (Answers.bind (.expect _ hright) ?_)
  refine Answers.bind (yes _ nofun fs d) (Answers.bind (.accept hother) ?_)
  exact Answers.bind (no rest hs fs d) (.pure _ _)

theorem completes_print {word sign : Token} {e : Expr RefId} (hword : word.kind = .print)
    (h : (Tier.chain .comma).Completes o ts i e j) (hsign : sign.kind = .semicolon) :
    Completes .statement false (word :: (ts ++ [sign])) i (.print e) j := by
  intro rest _ fs
  obtain ⟨kind, lexeme, line, literal⟩ := word
  obtain rfl : kind = .print := hword
  simp only [List.append_assoc, List.cons_append, List.nil_append]
  refine Answers.within fun d => Answers.bind .peek (Answers.bind .skip ?_)
  refine Answers.bind (h.expression hsign rfl rest fs d) ?_
  exact Answers.bind (.expect _ hsign) (.pure _ _)

theorem completes_answer {word sign : Token} {e : Option (Expr RefId)} (hword : word.kind = .return)
    (h : Completes .optionalExpression o ts i e j) (hsign : sign.kind = .semicolon) :
    Completes .statement false (word :: (ts ++ [sign])) i (.return word.mark e) j := by
  intro rest _ fs
  obtain ⟨kind, lexeme, line, literal⟩ := word
  obtain rfl : kind = .return := hword
  simp only [List.append_assoc, List.cons_append, List.nil_append]
  refine Answers.within fun d => Answers.bind .peek (Answers.bind .skip ?_)
  refine Answers.bind (h _ sign rest hsign (.inl rfl) fs d) ?_
  exact Answers.bind (.expect _ hsign) (.pure _ _)

theorem completes_leave {word sign : Token} (hword : word.kind = .break)
    (hsign : sign.kind = .semicolon) :
    Completes .statement false [word, sign] i (.break word.mark) i := by
  intro rest _ fs
  obtain ⟨kind, lexeme, line, literal⟩ := word
  obtain rfl : kind = .break := hword
  refine Answers.within fun d => Answers.bind .peek (Answers.bind .skip ?_)
  exact Answers.bind (.expect _ hsign) (.pure _ _)

theorem completes_whileLoop {word left right : Token} {c : Expr RefId} {body : Stmt RefId}
    (hword : word.kind = .while) (hleft : left.kind = .leftParen)
    (condition : (Tier.chain .comma).Completes o ts i c j) (hright : right.kind = .rightParen)
    (statement : Completes .statement o' us j body k) :
    Completes .statement o' (word :: left :: (ts ++ right :: us)) i (.while c body) k := by
  intro rest hs fs
  obtain ⟨kind, lexeme, line, literal⟩ := word
  obtain rfl : kind = .while := hword
  simp only [List.append_assoc, List.cons_append]
  refine Answers.within fun d => Answers.bind .peek (Answers.bind .skip ?_)
  refine Answers.bind (.expect _ hleft) ?_
  refine Answers.bind (condition.expression hright rfl _ fs d) (Answers.bind (.expect _ hright) ?_)
  exact Answers.bind (statement rest hs fs d) (.pure _ _)

/-- The statements of a block and its closing brace are read behind the opening one. -/
theorem block_answers {closing : Token} {body : List (Stmt RefId)}
    (h : Completes .declarations o ts i body j) (hclosing : closing.kind = .rightBrace)
    (rest : List Token) : ReadAs (ts ++ [closing]) i j Parser.block body rest := by
  intro fs d
  rw [List.append_assoc]
  refine Answers.bind (h true (closing :: rest) ⟨closing, rest, rfl, hclosing⟩ fs d) ?_
  exact Answers.bind (.expect _ hclosing) (.pure _ _)

theorem completes_block {opening closing : Token} {body : List (Stmt RefId)}
    (hopening : opening.kind = .leftBrace) (h : Completes .declarations o ts i body j)
    (hclosing : closing.kind = .rightBrace) :
    Completes .statement false (opening :: (ts ++ [closing])) i (.block body) j := by
  intro rest _ fs
  obtain ⟨kind, lexeme, line, literal⟩ := opening
  obtain rfl : kind = .leftBrace := hopening
  refine Answers.within fun d => Answers.bind .peek (Answers.bind .skip ?_)
  exact Answers.bind (block_answers h hclosing rest fs d) (.pure _ _)

/-! Declarations. -/

theorem completes_parameter {name : Token} (hname : name.kind = .identifier) :
    Completes (.parameters 1) false [name] i [name.mark] i := by
  intro _ before rest hb hrest fs
  refine Answers.within fun d => ?_
  change Answers (if maxListed ≤ before then _ else _) _ _ _
  rw [if_neg (not_full hb)]
  exact Answers.bind (.expectName _ hname) (Answers.bind (.accept_none hrest) (.pure _ _))

theorem completes_parameters {name sign : Token} {params : List Lexeme} {count : Nat}
    (hname : name.kind = .identifier) (hsign : sign.kind = .comma)
    (h : Completes (.parameters (count + 1)) o ts i params j) :
    Completes (.parameters (count + 2)) false (name :: sign :: ts) i (name.mark :: params) j := by
  intro _ before rest hb hrest fs
  refine Answers.within fun d => ?_
  change Answers (if maxListed ≤ before then _ else _) _ _ _
  rw [if_neg (not_full hb)]
  refine Answers.bind (.expectName _ hname) (Answers.bind (.accept hsign) ?_)
  have others := h (Nat.succ_pos count) (before + 1) rest (by omega) hrest fs d
  exact Answers.bind others (.pure _ _)

theorem completes_routine {left right opening closing : Token} {params : List Lexeme}
    {body : List (Stmt RefId)} {count : Nat} (hleft : left.kind = .leftParen)
    (hcount : count ≤ listBound) (hps : Derives true (.parameters count) o ts i params j)
    (ih : Completes (.parameters count) o ts i params j) (hright : right.kind = .rightParen)
    (hopening : opening.kind = .leftBrace) (statements : Completes .declarations o' us j body k)
    (hclosing : closing.kind = .rightBrace) :
    Completes .routine false (left :: (ts ++ right :: opening :: (us ++ [closing]))) i
      ⟨params, body⟩ k := by
  intro rest head owner fs d
  simp only [List.append_assoc, List.cons_append, List.nil_append]
  have tail : Answers
      (do
        let _ ← expect .rightParen "')' after parameters"
        let _ ← expect .leftBrace ("'\x7b' before " ++ owner ++ " body")
        return ⟨params, ← Parser.block (parseWithin d)⟩ : Parser (Routine RefId))
      ⟨right :: opening :: (us ++ [closing] ++ rest), j, fs⟩ ⟨params, body⟩ ⟨rest, k, fs⟩ := by
    refine Answers.bind (.expect _ hright) (Answers.bind (.expect _ hopening) ?_)
    exact Answers.bind (block_answers statements hclosing rest fs d) (.pure _ _)
  rw [List.append_assoc] at tail
  refine Answers.bind (.expect _ hleft) ?_
  cases count with
  | zero =>
    cases hps
    exact Answers.bind (.nextIs hright) (Answers.bind (.pure _ _) tail)
  | succ count =>
    have hps' := ih (Nat.succ_pos count) 0 (right :: opening :: (us ++ closing :: rest))
      (by rwa [Nat.zero_add]) (by rintro t ⟨rfl⟩; rw [hright]; decide) fs d
    obtain ⟨t, vs, rfl, hk⟩ := hps.begun
    refine Answers.bind (.nextIs_false ?_) (Answers.bind hps' tail)
    rw [hk]
    decide

theorem completes_function {name : Token} {r : Routine RefId} (hname : name.kind = .identifier)
    (h : Completes .routine o ts i r j) :
    Completes .function false (name :: ts) i ⟨name.mark, r⟩ j := by
  intro rest owner fs d
  exact Answers.bind (.expectName _ hname) (Answers.bind (h rest _ _ fs d) (.pure _ _))

theorem completes_noMember : Completes .members false [] i ([], []) i := by
  rintro rest ⟨t, us, rfl, ht⟩
  refine ⟨[], rfl, rfl, fun fs => Answers.within fun d => Answers.bind .atEnd ?_⟩
  exact Answers.bind (.nextIs ht) (.pure _ _)

theorem completes_method {d : Definition RefId} {ms cs : List (Definition RefId)}
    (hd : Derives true .function o ts i d j) (h : Completes .function o ts i d j)
    (others : Completes .members o' us j (ms, cs) k) :
    Completes .members false (ts ++ us) i (d :: ms, cs) k := by
  intro rest hrest
  obtain ⟨l, rfl, rfl, hl⟩ := others rest hrest
  refine ⟨(false, d) :: l, rfl, rfl, fun fs => Answers.within fun depth => ?_⟩
  rw [List.append_assoc]
  have hf := h (us ++ rest) "method" fs depth
  obtain ⟨t, vs, rfl, ht⟩ := hd.begun
  have other {kind : Token.Kind} (hk : kind ≠ .identifier) : t.kind ≠ kind :=
    fun he => hk (he.symm.trans ht)
  refine Answers.bind .atEnd (Answers.bind (.nextIs_false (other (by decide))) ?_)
  refine Answers.bind (.accept_none ?_) (Answers.bind hf (Answers.bind (hl fs depth) (.pure _ _)))
  rintro u ⟨rfl⟩
  exact other (by decide)

theorem completes_classMethod {word : Token} {d : Definition RefId}
    {ms cs : List (Definition RefId)} (hword : word.kind = .class)
    (h : Completes .function o ts i d j) (others : Completes .members o' us j (ms, cs) k) :
    Completes .members false (word :: (ts ++ us)) i (ms, d :: cs) k := by
  intro rest hrest
  obtain ⟨l, rfl, rfl, hl⟩ := others rest hrest
  refine ⟨(true, d) :: l, rfl, rfl, fun fs => Answers.within fun depth => ?_⟩
  rw [List.cons_append, List.append_assoc]
  have notClosing : word.kind ≠ .rightBrace := by
    rw [hword]
    decide
  refine Answers.bind .atEnd (Answers.bind (.nextIs_false notClosing) ?_)
  refine Answers.bind (.accept hword) (Answers.bind (h _ "method" fs depth) ?_)
  exact Answers.bind (hl fs depth) (.pure _ _)

theorem completes_classDeclaration {word name opening closing : Token}
    {above : Option (RefId × Lexeme)} {ms cs : List (Definition RefId)} (hword : word.kind = .class)
    (hname : name.kind = .identifier) (superclass : Derives true .superclass o ts i above j)
    (hopening : opening.kind = .leftBrace) (members : Completes .members o' us j (ms, cs) k)
    (hclosing : closing.kind = .rightBrace) :
    Completes .declaration false (word :: name :: (ts ++ opening :: (us ++ [closing]))) i
      (.class name.mark above ms cs) k := by
  intro rest _ fs
  obtain ⟨kind, lexeme, line, literal⟩ := word
  obtain rfl : kind = .class := hword
  obtain ⟨l, rfl, rfl, hl⟩ := members (closing :: rest) ⟨closing, rest, rfl, hclosing⟩
  simp only [List.append_assoc, List.cons_append, List.nil_append]
  refine Answers.within fun d => Answers.recover (Answers.bind .get (Answers.bind .skip ?_))
  rw [classDeclaration_eq]
  refine Answers.bind (.expectName _ hname) ?_
  have members : Answers (classBody (parseWithin d) name.mark above)
      ⟨opening :: (us ++ closing :: rest), j, fs⟩
      (.class name.mark above (named false l) (named true l)) ⟨rest, k, fs⟩ := by
    refine Answers.bind (.expect _ hopening) (Answers.bind (hl fs d) ?_)
    exact Answers.bind (.expect _ hclosing) (.pure _ _)
  cases superclass with
  | noSuperclass =>
    refine Answers.bind (.accept_none ?_) members
    rintro t ⟨rfl⟩
    rw [hopening]
    decide
  | superclass _ hsign hname =>
    refine Answers.bind (.accept hsign) (Answers.bind (.expectName _ hname) ?_)
    exact Answers.bind .freshId members

theorem completes_functionDeclaration {word : Token} {d : Definition RefId}
    (hword : word.kind = .fun) (hd : Derives true .function o ts i d j)
    (h : Completes .function o ts i d j) :
    Completes .declaration false (word :: ts) i (.function d) j := by
  intro rest _ fs
  have hf (depth : Nat) := h rest "function" fs depth
  obtain ⟨⟨kind, lexeme, line, literal⟩, us, rfl, ht⟩ := hd.begun
  obtain rfl : kind = .identifier := ht
  obtain ⟨kind, lexeme', line', literal'⟩ := word
  obtain rfl : kind = .fun := hword
  refine Answers.within fun depth => Answers.recover (Answers.bind .get (Answers.bind .skip ?_))
  exact Answers.bind (hf depth) (.pure _ _)

theorem completes_variableDeclaration {s : Stmt RefId}
    (h : Completes .variableDeclaration o ts i s j) : Completes .declaration false ts i s j := by
  intro rest _ fs
  obtain ⟨⟨kind, lexeme, line, literal⟩, us, rfl, hword, hv⟩ := h
  obtain rfl : kind = .var := hword
  refine Answers.within fun d => Answers.recover (Answers.bind .get (Answers.bind .skip ?_))
  exact hv rest fs d

theorem completes_statement {s : Stmt RefId} (hs : Derives true .statement o ts i s j)
    (h : Completes .statement o ts i s j) : Completes .declaration o ts i s j := by
  intro rest hrest fs
  have hstatement := h rest hrest fs
  obtain ⟨⟨kind, lexeme, line, literal⟩, us, rfl, hk, hf⟩ := hs.begun
  refine Answers.within fun d => Answers.recover (Answers.bind .get ?_)
  have hstatement := hstatement d
  cases kind with
  | «fun» =>
    obtain ⟨⟨kind, lexeme', line', literal'⟩, vs, rfl, hu⟩ := hf rfl
    obtain rfl : kind = .leftParen := hu
    exact hstatement
  | _ => first | exact hstatement | cases hk

theorem completes_noDeclaration : Completes .declarations false [] i [] i := by
  intro inBlock rest hrest fs
  cases inBlock with
  | false =>
    subst hrest
    exact Answers.within fun d => .inl rfl
  | true =>
    obtain ⟨t, us, rfl, ht⟩ := hrest
    refine Answers.within fun d => Answers.bind .atEnd (Answers.bind (.nextIs ht) ?_)
    exact .pure _ _

/-- No `else` follows a declaration. -/
theorem head_ne_else {inBlock : Bool} {ss : List (Stmt RefId)} {rest : List Token}
    (h : Derives true .declarations o ts i ss j) (hrest : EndsBlock inBlock rest) :
    ∀ t ∈ (ts ++ rest).head?, t.kind ≠ .else := by
  cases h with
  | noDeclaration =>
    cases inBlock with
    | false =>
      subst hrest
      exact nofun
    | true =>
      obtain ⟨t, us, rfl, ht⟩ := hrest
      rintro u ⟨rfl⟩
      rw [ht]
      decide
  | declarations first =>
    obtain ⟨t, us, rfl, ht⟩ := first.begun
    rintro u ⟨rfl⟩ he
    rw [he] at ht
    cases ht

theorem completes_declarations {s : Stmt RefId} {ss : List (Stmt RefId)}
    (hs : Derives true .declaration o ts i s j) (h : Completes .declaration o ts i s j)
    (hss : Derives true .declarations o' us j ss k) (others : Completes .declarations o' us j ss k) :
    Completes .declarations false (ts ++ us) i (s :: ss) k := by
  intro inBlock rest hrest fs
  rw [List.append_assoc]
  have first := h (us ++ rest) (fun _ => head_ne_else hss hrest) fs
  have others := others inBlock rest hrest fs
  obtain ⟨t, vs, rfl, hk⟩ := hs.begun
  have notClosing : t.kind ≠ .rightBrace := fun he => by
    rw [he] at hk
    cases hk
  refine Answers.within fun d => Answers.bind .atEnd (Answers.bind (.nextIs_false notClosing) ?_)
  cases inBlock <;> exact Answers.bind (first d) (Answers.bind (others d) (.pure _ _))

end Cases

/-- Whatever has a best derivation is read as its tree. -/
theorem Derives.completes {n : Symbol} {o : Bool} {ts : List Token} {i j : RefId} {a : n.Tree}
    (h : Derives true n o ts i a j) : Completes n o ts i a j := by
  induction h with
  | noDeclaration => exact completes_noDeclaration
  | declarations hs hss ih ih' => exact completes_declarations hs ih hss ih'
  | classDeclaration hword hname superclass hopening _ hclosing _ ih =>
    exact completes_classDeclaration hword hname superclass hopening ih hclosing
  | functionDeclaration hword hd ih => exact completes_functionDeclaration hword hd ih
  | variableDeclaration _ ih => exact completes_variableDeclaration ih
  | statement hs ih => exact completes_statement hs ih
  | noSuperclass | superclass => trivial
  | noMember => exact completes_noMember
  | method hd _ ih ih' => exact completes_method hd ih ih'
  | classMethod hword _ _ ih ih' => exact completes_classMethod hword ih ih'
  | function hname _ ih => exact completes_function hname ih
  | routine hleft hcount hps hright hopening _ hclosing ih ih' =>
    exact completes_routine hleft hcount hps ih hright hopening ih' hclosing
  | noParameter => exact fun h => absurd h (Nat.lt_irrefl 0)
  | parameter _ hname => exact completes_parameter hname
  | parameters hname hsign _ ih => exact completes_parameters hname hsign ih
  | unassigned _ hword hname hsign => exact completes_unassigned hword hname hsign
  | assigned hword hname hequal _ hsign ih => exact completes_assigned hword hname hequal ih hsign
  | expression hs ih => exact completes_expression ih hs.begun
  | forLoop hword hleft _ _ hsign _ hright _ ih ih' ih₁ ih₂ =>
    exact completes_forLoop hword hleft ih ih' hsign ih₁ hright ih₂
  | ifOnly hword hleft _ hright _ ih ih' => exact completes_ifOnly hword hleft ih hright ih'
  | ifElse hword hleft _ hright _ nearest hother _ ih ih' ih₁ =>
    exact completes_ifElse hword hleft ih hright (nearest rfl ▸ ih') hother ih₁
  | print hword _ hsign ih => exact completes_print hword ih hsign
  | answer hword _ hsign ih => exact completes_answer hword ih hsign
  | leave _ hword hsign => exact completes_leave hword hsign
  | whileLoop hword hleft _ hright _ ih ih' => exact completes_whileLoop hword hleft ih hright ih'
  | block hopening _ hclosing ih => exact completes_block hopening ih hclosing
  | expressionStatement _ hsign ih => exact completes_expressionStatement ih hsign
  | noInitializer _ hsign => exact .inl ⟨_, rfl, hsign, rfl, rfl⟩
  | variableInitializer _ ih => exact .inr (.inr ⟨_, rfl, ih⟩)
  | expressionInitializer hs ih => exact .inr (.inl ⟨_, rfl, hs.begun, ih⟩)
  | noExpression => exact completes_noExpression
  | someExpression he ih => exact completes_someExpression ih he.begun
  | operand _ ih => exact completes_operand ih
  | operation _ farthest hsign _ ih ih' => exact completes_operation ih (farthest rfl) hsign ih'
  | logic _ ih => exact completes_logic ih
  | assign hname hequal _ ih => exact completes_assign hname hequal ih
  | set hobject hdot hname hequal _ ih ih' =>
    exact completes_set ih hobject.begun hdot hname hequal ih'
  | equality he ih =>
    obtain rfl := he.closed_of_level nofun nofun nofun
    exact completes_equality ih
  | ternary hc hquestion _ hcolon _ ih ih' ih₁ =>
    obtain rfl := hc.closed_of_level nofun nofun nofun
    exact completes_ternary ih hquestion ih' hcolon ih₁
  | call he ih => exact completes_call ih he.begun
  | unary hsign he ih =>
    obtain rfl := he.closedIfTight (by decide)
    exact completes_unary hsign ih
  | primary he ih =>
    obtain rfl := he.closedIfTight (by decide)
    exact completes_primary ih he.begun
  | lambda hword _ ih => exact completes_lambda hword ih
  | apply _ hleft hcount hes hright ih ih' =>
    exact completes_apply ih hleft hcount hes ih' hright
  | get _ hdot hname ih => exact completes_get ih hdot hname
  | noArgument => exact fun h => absurd h (Nat.lt_irrefl 0)
  | argument _ ih => exact completes_argument ih
  | arguments _ hsign _ ih ih' => exact completes_arguments ih hsign ih'
  | constant _ h => exact completes_constant h
  | literal _ h => exact completes_literal h
  | this _ h => exact completes_this h
  | identifier _ h => exact completes_identifier h
  | super _ h hdot hname => exact completes_super h hdot hname
  | group hleft _ hright ih => exact completes_group hleft ih hright

end Grammar

end Lox
