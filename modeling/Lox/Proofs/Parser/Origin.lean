import Lox.Proofs.Operator
import Lox.Proofs.Parser.Reading

/-!
What trees are made of. Each operator in a tree is that of a token of its kind, and so are the names,
the keywords and the lines. That holds of whatever is read, from any tokens, whether complaints are
made or not.
-/

namespace Lox

variable {ρ : Type}

section Trees

variable (G : Token → Prop)

/-- The lexeme of such a token of this kind. -/
def Lexeme.From (kind : Token.Kind) (l : Lexeme) : Prop := ∃ t, G t ∧ t.kind = kind ∧ t.mark = l

mutual

/-- Operators, names, keywords and lines are those of such tokens. -/
def Expr.MadeOf : Expr ρ → Prop
  | .literal _ => True
  | .variable _ name => name.From G .identifier
  | .assign _ name e | .get e name => name.From G .identifier ∧ e.MadeOf
  | .this _ keyword => keyword.From G .this
  | .super _ keyword method => keyword.From G .super ∧ method.From G .identifier
  | .unary op sign e => sign.From G op.kind ∧ e.MadeOf
  | .binary op sign l r => sign.From G op.kind ∧ l.MadeOf ∧ r.MadeOf
  | .logical op sign l r => sign.From G op.kind ∧ l.MadeOf ∧ r.MadeOf
  | .ternary c y n => c.MadeOf ∧ y.MadeOf ∧ n.MadeOf
  | .group e => e.MadeOf
  | .call c as line =>
    c.MadeOf ∧ Expr.MadeOfAll as ∧ ∃ t, G t ∧ t.kind = .rightParen ∧ t.line = line
  | .set o name e => name.From G .identifier ∧ o.MadeOf ∧ e.MadeOf
  | .lambda line r => (∃ t, G t ∧ t.kind = .fun ∧ t.line = line) ∧ r.MadeOf

def Expr.MadeOfAll : List (Expr ρ) → Prop
  | [] => True
  | e :: es => e.MadeOf ∧ Expr.MadeOfAll es

def Stmt.MadeOf : Stmt ρ → Prop
  | .expr e | .print e => e.MadeOf
  | .var name none => name.From G .identifier
  | .var name (some e) => name.From G .identifier ∧ e.MadeOf
  | .block b => Stmt.MadeOfAll b
  | .if c y none => c.MadeOf ∧ y.MadeOf
  | .if c y (some n) => c.MadeOf ∧ y.MadeOf ∧ n.MadeOf
  | .while c b => c.MadeOf ∧ b.MadeOf
  | .break keyword => keyword.From G .break
  | .return keyword none => keyword.From G .return
  | .return keyword (some e) => keyword.From G .return ∧ e.MadeOf
  | .function d => d.MadeOf
  | .class name superclass ms cs =>
    name.From G .identifier ∧ (∀ s ∈ superclass, s.2.From G .identifier) ∧
      Definition.MadeOfAll ms ∧ Definition.MadeOfAll cs

def Stmt.MadeOfAll : List (Stmt ρ) → Prop
  | [] => True
  | s :: ss => s.MadeOf ∧ Stmt.MadeOfAll ss

def Routine.MadeOf : Routine ρ → Prop
  | ⟨params, body⟩ => (∀ p ∈ params, p.From G .identifier) ∧ Stmt.MadeOfAll body

def Definition.MadeOf : Definition ρ → Prop
  | ⟨name, r⟩ => name.From G .identifier ∧ r.MadeOf

def Definition.MadeOfAll : List (Definition ρ) → Prop
  | [] => True
  | d :: ds => d.MadeOf ∧ Definition.MadeOfAll ds

end

variable {G}

theorem Expr.madeOfAll_iff {es : List (Expr ρ)} : Expr.MadeOfAll G es ↔ ∀ e ∈ es, e.MadeOf G := by
  induction es with
  | nil => simp [Expr.MadeOfAll]
  | cons e es ih => rw [Expr.MadeOfAll, ih, List.forall_mem_cons]

theorem Stmt.madeOfAll_append {ss ts : List (Stmt ρ)} (hs : Stmt.MadeOfAll G ss)
    (ht : Stmt.MadeOfAll G ts) : Stmt.MadeOfAll G (ss ++ ts) := by
  induction ss with
  | nil => exact ht
  | cons s ss ih => exact ⟨hs.1, ih hs.2⟩

theorem Definition.madeOfAll_filter {ms : List (Bool × Definition ρ)}
    (h : Definition.MadeOfAll G (ms.map (·.2))) (keep : Bool × Definition ρ → Bool) :
    Definition.MadeOfAll G ((ms.filter keep).map (·.2)) := by
  induction ms with
  | nil => trivial
  | cons m ms ih =>
    rw [List.filter_cons]
    split
    · exact ⟨h.1, ih h.2⟩
    · exact ih h.2

theorem Parser.Infix.madeOf_apply {op : Infix} {sign : Lexeme} {left right : Expr ρ}
    (hs : sign.From G op.kind) (hl : left.MadeOf G) (hr : right.MadeOf G) :
    (op.apply sign left right).MadeOf G := by
  cases op <;> exact ⟨hs, hl, hr⟩

theorem Parser.madeOf_forLoop {initial : Option (Stmt ρ)} {condition increment : Option (Expr ρ)}
    {body : Stmt ρ} (hi : ∀ s ∈ initial, s.MadeOf G) (hc : ∀ e ∈ condition, e.MadeOf G)
    (hn : ∀ e ∈ increment, e.MadeOf G) (hb : body.MadeOf G) :
    (forLoop initial condition increment body).MadeOf G := by
  have condition : (condition.getD (.literal (.bool true))).MadeOf G := by
    cases condition with
    | none => trivial
    | some e => exact hc e rfl
  cases increment with
  | none =>
    cases initial with
    | none => exact ⟨condition, hb⟩
    | some s => exact ⟨hi s rfl, ⟨condition, hb⟩, trivial⟩
  | some e =>
    have round : (Stmt.block [body, .expr e]).MadeOf G := ⟨hb, hn e rfl, trivial⟩
    cases initial with
    | none => exact ⟨condition, round⟩
    | some s => exact ⟨hi s rfl, ⟨condition, round⟩, trivial⟩

end Trees

namespace Parser

variable {α β : Type} {G : Token → Prop}

/-- From such tokens the reader makes what is told, and leaves such tokens however it ends. -/
def Makes (G : Token → Prop) (p : Parser α) (Q : α → Prop) : Prop :=
  ∀ s : State, (∀ t ∈ s.rest, G t) → match p s with
    | .ok a s' => (∀ t ∈ s'.rest, G t) ∧ Q a
    | .error _ s' => ∀ t ∈ s'.rest, G t

namespace Makes

variable {p : Parser α} {k : α → Parser β} {Q Q' : α → Prop} {R : β → Prop}

theorem pure {a : α} (h : Q a) : Makes G (Pure.pure a) Q := fun _ hs => ⟨hs, h⟩

theorem bind (hp : Makes G p Q) (hk : ∀ a, Q a → Makes G (k a) R) : Makes G (p >>= k) R := by
  intro s hs
  have first := hp s hs
  simp only [Bind.bind, EStateM.bind]
  cases h : p s with
  | ok a s' =>
    rw [h] at first
    exact hk a first.2 s' first.1
  | error e s' =>
    rw [h] at first
    exact first

theorem map {f : α → β} (hp : Makes G p fun a => R (f a)) : Makes G (f <$> p) R :=
  hp.bind (k := fun a => Pure.pure (f a)) fun _ h => pure h

theorem mono (hp : Makes G p Q) (h : ∀ a, Q a → Q' a) : Makes G p Q' := by
  intro s hs
  have read := hp s hs
  cases hr : p s with
  | ok a s' =>
    rw [hr] at read
    exact ⟨read.1, h a read.2⟩
  | error e s' =>
    rw [hr] at read
    exact read

theorem some (hp : Makes G p Q) : Makes G (some <$> p) fun o => ∀ a ∈ o, Q a := by
  apply map
  apply hp.mono
  rintro a ha _ ⟨⟩
  exact ha

theorem get : Makes G MonadState.get fun s : State => ∀ t ∈ s.rest, G t := fun _ hs => ⟨hs, hs⟩

theorem peek : Makes G peek fun t => ∀ x ∈ t, G x :=
  fun _ hs => ⟨hs, fun x hx => hs x (List.mem_of_mem_head? hx)⟩

theorem skip : Makes G skip fun _ => True :=
  fun _ hs => ⟨fun t ht => hs t (List.mem_of_mem_tail ht), trivial⟩

theorem nextIs (kind : Token.Kind) : Makes G (nextIs kind) fun _ => True :=
  fun _ hs => ⟨hs, trivial⟩

theorem atEnd : Makes G atEnd fun _ => True := fun _ hs => ⟨hs, trivial⟩

theorem fail (token : Option Token) (complaint : Syntax.Complaint) :
    Makes G (fail token complaint) Q := fun _ hs => hs

theorem report (token : Option Token) (complaint : Syntax.Complaint) :
    Makes G (report token complaint) fun _ => True := fun _ hs => ⟨hs, trivial⟩

theorem freshId : Makes G freshId fun _ => True := fun _ hs => ⟨hs, trivial⟩

theorem accept? (kind : Token.Kind) :
    Makes G (accept? kind) fun t => ∀ x ∈ t, G x ∧ x.kind = kind := by
  rintro ⟨_ | ⟨t, ts⟩, k, fs⟩ hs
  · exact ⟨hs, nofun⟩
  · by_cases h : t.kind = kind
    · rw [accept?_of_eq h]
      obtain ⟨ht, hs⟩ := List.forall_mem_cons.mp hs
      refine ⟨hs, ?_⟩
      rintro x ⟨⟩
      exact ⟨ht, h⟩
    · rw [accept?_of_ne h]
      exact ⟨hs, nofun⟩

theorem expect (kind : Token.Kind) (what : String) :
    Makes G (expect kind what) fun t => G t ∧ t.kind = kind := by
  apply (accept? kind).bind
  intro t ht
  cases t with
  | none => exact peek.bind fun _ _ => fail _ _
  | some t => exact pure (ht t rfl)

theorem expectName (what : String) :
    Makes G (expectName what) fun name => name.From G .identifier :=
  (expect .identifier what).bind fun t ht => pure ⟨t, ht.1, ht.2, rfl⟩

theorem listed {others : Parser (List α)} (hi : Makes G p Q)
    (ho : Makes G others fun as => ∀ a ∈ as, Q a) :
    Makes G (listed p others) fun as => ∀ a ∈ as, Q a := by
  apply hi.bind
  intro a ha
  apply (accept? .comma).bind
  intro comma _
  cases comma with
  | none => exact pure (List.forall_mem_singleton.mpr ha)
  | some _ => exact ho.bind fun as has => pure (List.forall_mem_cons.mpr ⟨ha, has⟩)

theorem counted (before : Nat) (what : String) (hp : Makes G p Q) :
    Makes G (counted before what p) Q := by
  unfold Parser.counted
  split
  · exact peek.bind fun t _ => (report t _).bind fun _ _ => hp
  · exact hp

theorem recover (hp : Makes G p Q) : Makes G (recover p) fun o => ∀ a ∈ o, Q a := by
  intro s hs
  have read := hp s hs
  rw [recover_run]
  rcases h : p s with ⟨a, s'⟩ | ⟨f | _, s'⟩
  · rw [h] at read
    refine ⟨read.1, ?_⟩
    rintro _ ⟨⟩
    exact read.2
  · rw [h] at read
    exact ⟨fun t ht => read t ((resume_suffix _).subset ht), nofun⟩
  · rw [h] at read
    exact read

end Makes

namespace Nonterminal

/-- What is read is made of such tokens. -/
def Made (G : Token → Prop) : (n : Nonterminal) → n.Tree → Prop
  | .sequence _, ss => Stmt.MadeOfAll G ss
  | .declaration, s => ∀ x ∈ s, x.MadeOf G
  | .members, ms => Definition.MadeOfAll G (ms.map (·.2))
  | .statement, s => s.MadeOf G
  | .parameters _, ps => ∀ p ∈ ps, p.From G .identifier
  | .arguments _, as => Expr.MadeOfAll G as
  | .assignment, e | .chain _, e | .chainTail _ _, e | .ternary, e | .unary, e | .call, e
  | .callTail _, e | .primary, e => e.MadeOf G

/-- An operand that is already there is made of such tokens. -/
def Given (G : Token → Prop) : Nonterminal → Prop
  | .chainTail _ left => left.MadeOf G
  | .callTail callee => callee.MadeOf G
  | _ => True

end Nonterminal

section Productions

variable {phrase : (n : Nonterminal) → Parser n.Tree}
  (hp : ∀ n : Nonterminal, n.Given G → Makes G (phrase n) (n.Made G))

include hp

theorem expression_makes : Makes G (expression phrase) (Expr.MadeOf G) :=
  hp (.chain .comma) trivial

theorem operand_makes (level : Level) : Makes G (operand phrase level) (Expr.MadeOf G) := by
  cases level with
  | comma => exact hp .assignment trivial
  | or => exact hp (.chain .and) trivial
  | and => exact hp .ternary trivial
  | equality => exact hp (.chain .comparison) trivial
  | comparison => exact hp (.chain .term) trivial
  | term => exact hp (.chain .factor) trivial
  | factor => exact hp .unary trivial

theorem sequence_makes (inBlock : Bool) :
    Makes G (sequence phrase inBlock) (Stmt.MadeOfAll G) := by
  have rest : Makes G (do
      let first ← phrase .declaration
      let others ← phrase (.sequence inBlock)
      return first.toList ++ others) (Stmt.MadeOfAll G) := by
    apply (hp .declaration trivial).bind
    intro (first : Option (Stmt RefId)) hf
    apply (hp (.sequence inBlock) trivial).bind
    intro others ho
    refine .pure (Stmt.madeOfAll_append ?_ ho)
    cases first with
    | none => trivial
    | some s => exact ⟨hf s rfl, trivial⟩
  apply Makes.atEnd.bind
  intro atEnd _
  cases atEnd with
  | true => exact .pure trivial
  | false =>
    cases inBlock with
    | false => exact rest
    | true =>
      apply (Makes.nextIs .rightBrace).bind
      intro closes _
      cases closes with
      | true => exact .pure trivial
      | false => exact rest

theorem block_makes : Makes G (block phrase) (Stmt.MadeOfAll G) :=
  (hp (.sequence true) trivial).bind fun _ hb => (Makes.expect .rightBrace _).bind fun _ _ =>
    .pure hb

theorem parameters_makes (before : Nat) :
    Makes G (parameters phrase before) fun ps => ∀ p ∈ ps, p.From G .identifier := by
  rw [parameters_eq]
  exact .counted before _ (.listed (.expectName _) (hp (.parameters (before + 1)) trivial))

theorem routine_makes (head owner : String) :
    Makes G (routine phrase head owner) (Routine.MadeOf G) := by
  have rest {params : List Lexeme} (h : ∀ p ∈ params, p.From G .identifier) : Makes G (do
      let _ ← expect .rightParen "')' after parameters"
      let _ ← expect .leftBrace ("'\x7b' before " ++ owner ++ " body")
      return ⟨params, ← block phrase⟩) (Routine.MadeOf G) :=
    (Makes.expect .rightParen _).bind fun _ _ => (Makes.expect .leftBrace _).bind fun _ _ =>
      (block_makes hp).bind fun _ hb => .pure ⟨h, hb⟩
  apply (Makes.expect .leftParen _).bind
  intro _ _
  apply (Makes.nextIs .rightParen).bind
  intro closes _
  cases closes with
  | true => exact rest nofun
  | false => exact (hp (.parameters 0) trivial).bind fun _ h => rest h

theorem definition_makes (owner : String) :
    Makes G (definition phrase owner) (Definition.MadeOf G) :=
  (Makes.expectName _).bind fun _ hn => (routine_makes hp _ owner).bind fun _ hr => .pure ⟨hn, hr⟩

theorem lambda_makes {keyword : Token} (hk : G keyword ∧ keyword.kind = .fun) :
    Makes G (lambda phrase keyword) (Expr.MadeOf G) :=
  ((routine_makes hp _ _).mono fun _ hr => ⟨⟨keyword, hk.1, hk.2, rfl⟩, hr⟩).map

theorem members_makes :
    Makes G (members phrase) fun ms => Definition.MadeOfAll G (ms.map (·.2)) := by
  apply Makes.atEnd.bind
  intro atEnd _
  have rest : Makes G (do
      let ofClass ← accept? .class
      let method ← definition phrase "method"
      return (ofClass.isSome, method) :: (← phrase .members))
      fun ms => Definition.MadeOfAll G (ms.map (·.2)) := by
    apply (Makes.accept? .class).bind
    intro ofClass _
    apply (definition_makes hp "method").bind
    intro method hm
    exact (hp .members trivial).bind fun others ho => .pure ⟨hm, ho⟩
  cases atEnd with
  | true => exact .pure trivial
  | false =>
    apply (Makes.nextIs .rightBrace).bind
    intro closes _
    cases closes with
    | true => exact .pure trivial
    | false => exact rest

theorem classBody_makes {name : Lexeme} {superclass : Option (RefId × Lexeme)}
    (hn : name.From G .identifier) (hs : ∀ s ∈ superclass, s.2.From G .identifier) :
    Makes G (classBody phrase name superclass) (Stmt.MadeOf G) := by
  apply (Makes.expect .leftBrace _).bind
  intro _ _
  apply (hp .members trivial).bind
  intro ms hm
  apply (Makes.expect .rightBrace _).bind
  intro _ _
  exact .pure ⟨hn, hs, Definition.madeOfAll_filter hm _, Definition.madeOfAll_filter hm _⟩

theorem classDeclaration_makes : Makes G (classDeclaration phrase) (Stmt.MadeOf G) := by
  rw [classDeclaration_eq]
  apply (Makes.expectName "class name").bind
  intro name hn
  apply (Makes.accept? .less).bind
  intro less _
  cases less with
  | none => exact classBody_makes hp hn nofun
  | some _ =>
    apply (Makes.expectName "superclass name").bind
    intro superclass hs
    apply Makes.freshId.bind
    intro id _
    refine classBody_makes hp hn ?_
    rintro _ ⟨⟩
    exact hs

omit hp in
theorem closeVar_makes {name : Lexeme} {initial : Option (Expr RefId)}
    (hn : name.From G .identifier) (hi : ∀ e ∈ initial, e.MadeOf G) :
    Makes G (closeVar name initial) (Stmt.MadeOf G) := by
  apply (Makes.expect .semicolon _).bind
  intro _ _
  cases initial with
  | none => exact .pure hn
  | some e => exact .pure ⟨hn, hi e rfl⟩

theorem varDeclaration_makes : Makes G (varDeclaration phrase) (Stmt.MadeOf G) := by
  rw [varDeclaration_eq]
  apply (Makes.expectName "variable name").bind
  intro name hn
  apply (Makes.accept? .equal).bind
  intro equal _
  cases equal with
  | none => exact closeVar_makes hn nofun
  | some _ => exact (expression_makes hp).some.bind fun _ hi => closeVar_makes hn hi

theorem expressionStatement_makes : Makes G (expressionStatement phrase) (Stmt.MadeOf G) :=
  (expression_makes hp).bind fun _ he => (Makes.expect .semicolon _).bind fun _ _ => .pure he

theorem optionalBefore_makes (closing : Token.Kind) :
    Makes G (optionalBefore phrase closing) fun o => ∀ e ∈ o, e.MadeOf G := by
  apply (Makes.nextIs closing).bind
  intro closes _
  cases closes with
  | true => exact .pure nofun
  | false => exact (expression_makes hp).some

theorem forClauses_makes {initial : Option (Stmt RefId)} (hi : ∀ s ∈ initial, s.MadeOf G) :
    Makes G (forClauses phrase initial) (Stmt.MadeOf G) := by
  apply (optionalBefore_makes hp .semicolon).bind
  intro condition hc
  apply (Makes.expect .semicolon _).bind
  intro _ _
  apply (optionalBefore_makes hp .rightParen).bind
  intro increment hn
  apply (Makes.expect .rightParen _).bind
  intro _ _
  exact (hp .statement trivial).bind fun _ hb => .pure (madeOf_forLoop hi hc hn hb)

theorem forStatement_makes : Makes G (forStatement phrase) (Stmt.MadeOf G) := by
  rw [forStatement_eq]
  apply (Makes.expect .leftParen _).bind
  intro _ _
  apply (Makes.accept? .semicolon).bind
  intro semicolon _
  cases semicolon with
  | some _ => exact forClauses_makes hp nofun
  | none =>
    apply (Makes.accept? .var).bind
    intro var _
    cases var with
    | some _ => exact (varDeclaration_makes hp).some.bind fun _ h => forClauses_makes hp h
    | none => exact (expressionStatement_makes hp).some.bind fun _ h => forClauses_makes hp h

theorem ifStatement_makes : Makes G (ifStatement phrase) (Stmt.MadeOf G) := by
  apply (Makes.expect .leftParen _).bind
  intro _ _
  apply (expression_makes hp).bind
  intro condition hc
  apply (Makes.expect .rightParen _).bind
  intro _ _
  apply (hp .statement trivial).bind
  intro yes hy
  apply (Makes.accept? .else).bind
  intro other _
  cases other with
  | none => exact .pure ⟨hc, hy⟩
  | some _ => exact (hp .statement trivial).bind fun _ hn => .pure ⟨hc, hy, hn⟩

theorem whileStatement_makes : Makes G (whileStatement phrase) (Stmt.MadeOf G) := by
  apply (Makes.expect .leftParen _).bind
  intro _ _
  apply (expression_makes hp).bind
  intro condition hc
  apply (Makes.expect .rightParen _).bind
  intro _ _
  exact (hp .statement trivial).bind fun _ hb => .pure ⟨hc, hb⟩

theorem printStatement_makes : Makes G (printStatement phrase) (Stmt.MadeOf G) :=
  (expression_makes hp).bind fun _ he => (Makes.expect .semicolon _).bind fun _ _ => .pure he

theorem returnStatement_makes {keyword : Token} (hk : keyword.mark.From G .return) :
    Makes G (returnStatement phrase keyword) (Stmt.MadeOf G) := by
  apply (optionalBefore_makes hp .semicolon).bind
  intro value hv
  apply (Makes.expect .semicolon _).bind
  intro _ _
  cases value with
  | none => exact .pure hk
  | some e => exact .pure ⟨hk, hv e rfl⟩

omit hp in
theorem breakStatement_makes {keyword : Token} (hk : keyword.mark.From G .break) :
    Makes G (breakStatement keyword) (Stmt.MadeOf G) :=
  (Makes.expect .semicolon _).bind fun _ _ => .pure hk

theorem statement_makes : Makes G (statement phrase) (Stmt.MadeOf G) := by
  apply Makes.peek.bind
  intro t ht
  cases t with
  | none => exact expressionStatement_makes hp
  | some t =>
    have mark {kind : Token.Kind} (hk : t.kind = kind) : t.mark.From G kind := ⟨t, ht t rfl, hk, rfl⟩
    dsimp only
    cases hk : t.kind with
    | «for» => exact Makes.skip.bind fun _ _ => forStatement_makes hp
    | «if» => exact Makes.skip.bind fun _ _ => ifStatement_makes hp
    | print => exact Makes.skip.bind fun _ _ => printStatement_makes hp
    | «return» => exact Makes.skip.bind fun _ _ => returnStatement_makes hp (mark hk)
    | «break» => exact Makes.skip.bind fun _ _ => breakStatement_makes (mark hk)
    | «while» => exact Makes.skip.bind fun _ _ => whileStatement_makes hp
    | leftBrace => exact Makes.skip.bind fun _ _ => (block_makes hp).bind fun _ hb => .pure hb
    | _ => exact expressionStatement_makes hp

theorem declaration_makes : Makes G (declaration phrase) (Stmt.MadeOf G) := by
  have function : Makes G (do skip; return .function (← definition phrase "function"))
      (Stmt.MadeOf G) :=
    Makes.skip.bind fun _ _ => (definition_makes hp "function").bind fun _ hf => .pure hf
  apply Makes.get.bind
  intro s _
  obtain ⟨_ | ⟨⟨kind, lexeme, line, literal⟩, ts⟩, k, fs⟩ := s
  · exact hp .statement trivial
  · cases kind with
    | «class» => exact Makes.skip.bind fun _ _ => classDeclaration_makes hp
    | var => exact Makes.skip.bind fun _ _ => varDeclaration_makes hp
    | «fun» =>
      obtain _ | ⟨⟨kind, lexeme', line', literal'⟩, ts⟩ := ts
      · exact function
      · cases kind with
        | leftParen => exact hp .statement trivial
        | _ => exact function
    | _ => exact hp .statement trivial

theorem assignment_makes : Makes G (assignment phrase) (Expr.MadeOf G) := by
  apply (hp (.chain .or) trivial).bind
  intro (left : Expr RefId) hl
  apply (Makes.accept? .equal).bind
  intro sign _
  cases sign with
  | none => exact .pure hl
  | some sign =>
    apply (hp .assignment trivial).bind
    intro (value : Expr RefId) hv
    cases left with
    | «variable» ref name => exact .pure ⟨hl, hv⟩
    | get object name => exact .pure ⟨hl.1, hl.2, hv⟩
    | _ => exact (Makes.report (some sign) _).bind fun _ _ => .pure hl

theorem chain_makes (level : Level) : Makes G (chain phrase level) (Expr.MadeOf G) :=
  (operand_makes hp level).bind fun left hl => hp (.chainTail level left) hl

theorem chainTail_makes (level : Level) {left : Expr RefId} (hl : left.MadeOf G) :
    Makes G (chainTail phrase level left) (Expr.MadeOf G) := by
  apply Makes.peek.bind
  intro t ht
  cases t with
  | none => exact .pure hl
  | some t =>
    dsimp only
    cases ho : level.operator? t.kind with
    | none => exact .pure hl
    | some op =>
      apply Makes.skip.bind
      intro _ _
      apply (operand_makes hp level).bind
      intro right hr
      have sign : t.mark.From G op.kind :=
        ⟨t, ht t rfl, (Level.kind_of_operator? ho).symm, rfl⟩
      exact hp (.chainTail level (op.apply t.mark left right)) (Infix.madeOf_apply sign hl hr)

theorem ternary_makes : Makes G (ternary phrase) (Expr.MadeOf G) := by
  apply (hp (.chain .equality) trivial).bind
  intro condition hc
  apply (Makes.accept? .question).bind
  intro question _
  cases question with
  | none => exact .pure hc
  | some _ =>
    apply (expression_makes hp).bind
    intro yes hy
    apply (Makes.expect .colon _).bind
    intro _ _
    exact (hp .assignment trivial).bind fun _ hn => .pure ⟨hc, hy, hn⟩

theorem unary_makes : Makes G (unary phrase) (Expr.MadeOf G) := by
  apply Makes.peek.bind
  intro t ht
  cases t with
  | none => exact hp .call trivial
  | some t =>
    dsimp only
    cases ho : unaryOperator? t.kind with
    | none => exact hp .call trivial
    | some op =>
      apply Makes.skip.bind
      intro _ _
      exact (hp .unary trivial).bind fun _ he =>
        .pure ⟨⟨t, ht t rfl, (kind_of_unaryOperator? ho).symm, rfl⟩, he⟩

theorem call_makes : Makes G (call phrase) (Expr.MadeOf G) := by
  apply (Makes.accept? .fun).bind
  intro keyword hk
  cases keyword with
  | none => exact (hp .primary trivial).bind fun e he => hp (.callTail e) he
  | some keyword => exact (lambda_makes hp (hk keyword rfl)).bind fun e he => hp (.callTail e) he

theorem closeCall_makes {callee : Expr RefId} {arguments : List (Expr RefId)}
    (hc : callee.MadeOf G) (ha : Expr.MadeOfAll G arguments) :
    Makes G (closeCall phrase callee arguments) (Expr.MadeOf G) := by
  apply (Makes.expect .rightParen _).bind
  intro paren hp'
  exact hp (.callTail (.call callee arguments paren.line)) ⟨hc, ha, paren, hp'.1, hp'.2, rfl⟩

theorem callTail_makes {callee : Expr RefId} (hc : callee.MadeOf G) :
    Makes G (callTail phrase callee) (Expr.MadeOf G) := by
  rw [callTail_eq]
  apply (Makes.accept? .leftParen).bind
  intro paren _
  cases paren with
  | some _ =>
    apply (Makes.nextIs .rightParen).bind
    intro closes _
    cases closes with
    | true => exact closeCall_makes hp hc trivial
    | false => exact (hp (.arguments 0) trivial).bind fun _ ha => closeCall_makes hp hc ha
  | none =>
    apply (Makes.accept? .dot).bind
    intro dot _
    cases dot with
    | none => exact .pure hc
    | some _ =>
      apply (Makes.expectName _).bind
      intro name hn
      exact hp (.callTail (.get callee name)) ⟨hn, hc⟩

theorem arguments_makes (before : Nat) :
    Makes G (arguments phrase before) (Expr.MadeOfAll G) := by
  have all : Makes G (arguments phrase before) fun as => ∀ e ∈ as, e.MadeOf G := by
    rw [arguments_eq]
    exact .counted before _ (.listed (hp .assignment trivial)
      ((hp (.arguments (before + 1)) trivial).mono fun _ => Expr.madeOfAll_iff.mp))
  exact all.mono fun _ => Expr.madeOfAll_iff.mpr

theorem missingLeftOperand_makes {Q : Expr RefId → Prop} (operator : Token) (level : Level) :
    Makes G (missingLeftOperand phrase operator level) Q :=
  (operand_makes hp level).bind fun _ _ => .fail (some operator) _

omit hp in
theorem superReference_makes {keyword : Token} (hk : keyword.mark.From G .super) :
    Makes G (superReference keyword) (Expr.MadeOf G) := by
  apply (Makes.expect .dot _).bind
  intro _ _
  apply (Makes.expectName _).bind
  intro method hm
  exact Makes.freshId.bind fun _ _ => .pure ⟨hk, hm⟩

theorem primary_makes : Makes G (primary phrase) (Expr.MadeOf G) := by
  have literal (l : Literal) :
      Makes G (do skip; return .literal l : Parser (Expr RefId)) (Expr.MadeOf G) :=
    Makes.skip.bind fun _ _ => .pure trivial
  have missing (t : Token) (level : Level) :
      Makes G (do skip; missingLeftOperand phrase t level) (Expr.MadeOf G) :=
    Makes.skip.bind fun _ _ => missingLeftOperand_makes hp t level
  apply Makes.peek.bind
  intro t ht
  cases t with
  | none => exact .fail none _
  | some t =>
    have mark {kind : Token.Kind} (hk : t.kind = kind) : t.mark.From G kind := ⟨t, ht t rfl, hk, rfl⟩
    dsimp only
    cases hk : t.kind with
    | false | true | nil | number | string => exact literal _
    | super => exact Makes.skip.bind fun _ _ => superReference_makes (mark hk)
    | this => exact Makes.skip.bind fun _ _ => Makes.freshId.bind fun _ _ => .pure (mark hk)
    | identifier => exact Makes.skip.bind fun _ _ => Makes.freshId.bind fun _ _ => .pure (mark hk)
    | leftParen =>
      apply Makes.skip.bind
      intro _ _
      apply (expression_makes hp).bind
      intro e he
      exact (Makes.expect .rightParen _).bind fun _ _ => .pure he
    | comma => exact missing t .comma
    | equalEqual | bangEqual => exact missing t .equality
    | less | lessEqual | greater | greaterEqual => exact missing t .comparison
    | plus => exact missing t .term
    | star | slash => exact missing t .factor
    | _ => exact .fail (some t) _

theorem production_makes (n : Nonterminal) (hn : n.Given G) :
    Makes G (production phrase n) (n.Made G) := by
  cases n with
  | sequence inBlock => exact sequence_makes hp inBlock
  | declaration => exact (declaration_makes hp).recover
  | members => exact members_makes hp
  | statement => exact statement_makes hp
  | parameters before => exact parameters_makes hp before
  | assignment => exact assignment_makes hp
  | chain level => exact chain_makes hp level
  | chainTail level left => exact chainTail_makes hp level hn
  | ternary => exact ternary_makes hp
  | unary => exact unary_makes hp
  | call => exact call_makes hp
  | callTail callee => exact callTail_makes hp hn
  | arguments before => exact arguments_makes hp before
  | primary => exact primary_makes hp

omit hp in
theorem parseWithin_makes (depth : Nat) (n : Nonterminal) (hn : n.Given G) :
    Makes G (parseWithin depth n) (n.Made G) := by
  induction depth generalizing n with
  | zero => exact fun _ hs => hs
  | succ depth ih => exact production_makes ih n hn

end Productions

end Parser

theorem Token.untilEof_prefix (tokens : List Token) : (untilEof tokens).1 <+: tokens := by
  fun_induction untilEof tokens with
  | case1 => exact List.prefix_refl _
  | case2 t h => exact List.nil_prefix
  | case3 t h => exact List.prefix_refl _
  | case4 t ts _ h => exact List.nil_prefix
  | case5 t ts _ h before line hu ih =>
    rw [hu] at ih
    exact List.cons_prefix_cons.mpr ⟨rfl, ih⟩

/-- What is read from tokens is made of them, also where they are no program. -/
theorem parse_madeOf {G : Token → Prop} {tokens : List Token} (first : RefId)
    (hG : ∀ t ∈ (Token.untilEof tokens).1, G t) :
    Stmt.MadeOfAll G (parse tokens first).statements := by
  have read := Parser.parseWithin_makes (Parser.depthFor (Token.untilEof tokens).1.length)
    (.sequence false) trivial ⟨(Token.untilEof tokens).1, first, []⟩ hG
  rw [parse_of_untilEof rfl]
  cases h : Parser.parseWithin (Parser.depthFor (Token.untilEof tokens).1.length) (.sequence false)
    ⟨(Token.untilEof tokens).1, first, []⟩ with
  | ok ss s =>
    rw [h] at read
    exact read.2
  | error e s => trivial

end Lox
