import Lox.Proofs.Parser.Primitives
import Lox.Proofs.Relabel.Syntax

/-!
Reading shifted tokens. With other lines on the tokens and another first number for the references,
the same phrases are read, with other lines and shifted numbers, and the same complaints are made.
-/

namespace Lox

def Token.onLine (g : Nat → Nat) (t : Token) : Token := { t with line := g t.line }

@[simp] theorem Token.kind_onLine (g : Nat → Nat) (t : Token) : (t.onLine g).kind = t.kind := rfl

@[simp] theorem Token.literal_onLine (g : Nat → Nat) (t : Token) :
    (t.onLine g).literal = t.literal := rfl

/-- The relabeling of what is read. -/
def shifting (d : Nat) (g : Nat → Nat) : Relabeling RefId RefId := ⟨(· + d), g⟩

@[simp] theorem Token.mark_onLine (d : Nat) (g : Nat → Nat) (t : Token) :
    (t.onLine g).mark = t.mark.relabel (shifting d g) := rfl

namespace Parser

variable {α β γ δ : Type} (d : Nat) (g : Nat → Nat)

def Fault.onLine (f : Fault) : Fault := ⟨f.token.map (Token.onLine g), f.complaint⟩

def Stop.onLine : Stop → Stop
  | .fault f => .fault (f.onLine g)
  | .tooDeep => .tooDeep

def State.shift (s : State) : State :=
  ⟨s.rest.map (Token.onLine g), s.nextId + d, s.faults.map (Fault.onLine g)⟩

namespace Nonterminal

def relabel (φ : Relabeling RefId RefId) : Nonterminal → Nonterminal
  | .chainTail level left => .chainTail level (left.relabel φ)
  | .callTail callee => .callTail (callee.relabel φ)
  | n => n

def relabelTree (φ : Relabeling RefId RefId) : (n : Nonterminal) → n.Tree → (n.relabel φ).Tree
  | .sequence _, ss => ss.map (Stmt.relabel φ)
  | .declaration, s => s.map (Stmt.relabel φ)
  | .members, ms => ms.map fun (ofClass, m) => (ofClass, m.relabel φ)
  | .statement, s => s.relabel φ
  | .parameters _, ps => ps.map (Lexeme.relabel φ)
  | .arguments _, as => as.map (Expr.relabel φ)
  | .assignment, e | .chain _, e | .chainTail _ _, e | .ternary, e | .unary, e | .call, e
  | .callTail _, e | .primary, e => e.relabel φ

end Nonterminal

/-- The second reader reads shifted tokens as the first one reads the tokens, shifted. -/
def Shifts (f : α → β) (p : Parser α) (q : Parser β) : Prop :=
  ∀ s, q (s.shift d g) = match p s with
    | .ok a s' => .ok (f a) (s'.shift d g)
    | .error e s' => .error (e.onLine g) (s'.shift d g)

namespace Shifts

variable {d g} {f : α → β} {h : γ → δ} {p : Parser α} {q : Parser β} {k : α → Parser γ}
  {l : β → Parser δ}

theorem pure (a : α) : Shifts d g f (Pure.pure a) (Pure.pure (f a)) := fun _ => rfl

theorem bind (hp : Shifts d g f p q) (hk : ∀ a, Shifts d g h (k a) (l (f a))) :
    Shifts d g h (p >>= k) (q >>= l) := by
  intro s
  simp only [Bind.bind, EStateM.bind, hp s]
  cases p s with
  | ok a s' => exact hk a s'
  | error e s' => rfl

theorem map (hp : Shifts d g f p q) (u : β → δ) (u' : α → γ) (hu : ∀ a, u (f a) = h (u' a)) :
    Shifts d g h (u' <$> p) (u <$> q) := by
  intro s
  simp only [Functor.map, EStateM.map, hp s]
  cases p s with
  | ok a s' => exact congrArg (EStateM.Result.ok · (s'.shift d g)) (hu a)
  | error e s' => rfl

theorem get : Shifts d g (State.shift d g) MonadState.get MonadState.get := fun _ => rfl

theorem peek : Shifts d g (Option.map (Token.onLine g)) peek peek := by
  intro s
  change EStateM.Result.ok (s.rest.map (Token.onLine g)).head? _ = _
  rw [List.head?_map]
  rfl

theorem skip : Shifts d g id skip skip := by
  intro s
  change EStateM.Result.ok () (⟨(s.rest.map (Token.onLine g)).tail, _, _⟩ : State) = _
  rw [← List.map_tail]
  rfl

theorem nextIs (kind : Token.Kind) : Shifts d g id (nextIs kind) (Parser.nextIs kind) := by
  apply peek.bind
  intro t
  cases t <;> exact pure (f := id) _

theorem atEnd : Shifts d g id atEnd Parser.atEnd := by
  apply peek.bind
  intro t
  cases t <;> exact pure (f := id) _

theorem accept? (kind : Token.Kind) :
    Shifts d g (Option.map (Token.onLine g)) (accept? kind) (Parser.accept? kind) := by
  apply peek.bind
  intro t
  cases t with
  | none => exact pure (f := Option.map (Token.onLine g)) none
  | some t =>
    cases h : t.kind == kind with
    | true =>
      simp only [Option.map_some, Token.kind_onLine, h, if_true]
      exact skip.bind fun _ => pure (f := Option.map (Token.onLine g)) (some t)
    | false =>
      simp only [Option.map_some, Token.kind_onLine, h, Bool.false_eq_true, if_false]
      exact pure (f := Option.map (Token.onLine g)) none

theorem fail (token : Option Token) (complaint : Syntax.Complaint) :
    Shifts d g f (fail token complaint) (Parser.fail (token.map (Token.onLine g)) complaint) :=
  fun _ => rfl

theorem report (token : Option Token) (complaint : Syntax.Complaint) :
    Shifts d g id (report token complaint)
      (Parser.report (token.map (Token.onLine g)) complaint) := by
  intro s
  change EStateM.Result.ok () (⟨_, _, s.faults.map (Fault.onLine g) ++
    [Fault.onLine g ⟨token, complaint⟩]⟩ : State) = _
  rw [← List.map_singleton, ← List.map_append]
  rfl

theorem expect (kind : Token.Kind) (what : String) :
    Shifts d g (Token.onLine g) (expect kind what) (Parser.expect kind what) := by
  apply (accept? kind).bind
  intro t
  cases t with
  | none => exact peek.bind fun t => fail t _
  | some t => exact pure t

theorem expectName (what : String) :
    Shifts d g (Lexeme.relabel (shifting d g)) (expectName what) (Parser.expectName what) :=
  (expect .identifier what).bind fun t => pure (f := Lexeme.relabel (shifting d g)) t.mark

theorem listed {item : Parser α} {item' : Parser β} {others : Parser (List α)}
    {others' : Parser (List β)} (hi : Shifts d g f item item')
    (ho : Shifts d g (List.map f) others others') :
    Shifts d g (List.map f) (listed item others) (Parser.listed item' others') := by
  refine hi.bind fun a => (accept? .comma).bind fun comma => ?_
  cases comma with
  | none => exact pure (f := List.map f) [a]
  | some _ => exact ho.bind fun others => pure (f := List.map f) (a :: others)

theorem counted (before : Nat) (what : String) (hp : Shifts d g f p q) :
    Shifts d g f (counted before what p) (Parser.counted before what q) := by
  unfold Parser.counted
  split
  · exact peek.bind fun t => (report t _).bind fun _ => hp
  · exact hp

theorem freshId : Shifts d g (· + d) freshId Parser.freshId := by
  intro s
  change EStateM.Result.ok (s.nextId + d) (⟨_, s.nextId + d + 1, _⟩ : State) =
    EStateM.Result.ok (s.nextId + d) ⟨_, s.nextId + 1 + d, _⟩
  rw [Nat.add_right_comm]
  rfl

theorem resume_onLine (ts : List Token) :
    resume (ts.map (Token.onLine g)) = (resume ts).map (Token.onLine g) := by
  induction ts with
  | nil => rfl
  | cons t ts ih =>
    have hh : (ts.map (Token.onLine g)).head?.any (·.kind.startsStatement) =
        ts.head?.any (·.kind.startsStatement) := by cases ts <;> rfl
    simp only [List.map_cons, resume, hh, Token.kind_onLine, ih]
    split <;> rfl

theorem recover (hp : Shifts d g f p q) :
    Shifts d g (Option.map f) (recover p) (Parser.recover q) := by
  intro s
  rw [recover_run, recover_run, hp s]
  obtain ⟨a, s'⟩ | ⟨e | _, s'⟩ := p s
  · rfl
  · simp only [Stop.onLine, State.shift, resume_onLine, List.map_append, List.map_singleton]
    rfl
  · rfl

end Shifts

section Productions

variable {d : Nat} {g : Nat → Nat} {phrase phrase' : (n : Nonterminal) → Parser n.Tree}
  (hp : ∀ n : Nonterminal, Shifts d g (n.relabelTree (shifting d g)) (phrase n)
    (phrase' (n.relabel (shifting d g))))

include hp

theorem expression_shifts :
    Shifts d g (Expr.relabel (shifting d g)) (expression phrase) (expression phrase') :=
  hp (.chain .comma)

theorem operand_shifts (level : Level) :
    Shifts d g (Expr.relabel (shifting d g)) (operand phrase level) (operand phrase' level) := by
  cases level with
  | comma => exact hp .assignment
  | or => exact hp (.chain .and)
  | and => exact hp .ternary
  | equality => exact hp (.chain .comparison)
  | comparison => exact hp (.chain .term)
  | term => exact hp (.chain .factor)
  | factor => exact hp .unary

theorem sequence_shifts (inBlock : Bool) :
    Shifts d g (List.map (Stmt.relabel (shifting d g))) (sequence phrase inBlock)
      (sequence phrase' inBlock) := by
  have rest : Shifts d g (List.map (Stmt.relabel (shifting d g)))
      (do
        let first ← phrase .declaration
        let others ← phrase (.sequence inBlock)
        return first.toList ++ others)
      (do
        let first ← phrase' .declaration
        let others ← phrase' (.sequence inBlock)
        return first.toList ++ others) := by
    apply (hp .declaration).bind
    intro first
    apply (hp (.sequence inBlock)).bind
    intro others
    have h := Shifts.pure (d := d) (g := g) (f := List.map (Stmt.relabel (shifting d g)))
      (first.toList ++ others)
    rw [List.map_append] at h
    cases first <;> exact h
  apply Shifts.atEnd.bind
  intro atEnd
  cases atEnd with
  | true => exact Shifts.pure (f := List.map (Stmt.relabel (shifting d g))) []
  | false =>
    cases inBlock with
    | false => exact rest
    | true =>
      apply (Shifts.nextIs .rightBrace).bind
      intro closes
      cases closes with
      | true => exact Shifts.pure (f := List.map (Stmt.relabel (shifting d g))) []
      | false => exact rest

theorem block_shifts :
    Shifts d g (List.map (Stmt.relabel (shifting d g))) (block phrase) (block phrase') :=
  (hp (.sequence true)).bind fun body => (Shifts.expect .rightBrace _).bind fun _ =>
    Shifts.pure (f := List.map (Stmt.relabel (shifting d g))) body

theorem parameters_shifts (before : Nat) :
    Shifts d g (List.map (Lexeme.relabel (shifting d g))) (parameters phrase before)
      (parameters phrase' before) := by
  rw [parameters_eq, parameters_eq]
  exact .counted before _ (.listed (.expectName "parameter name") (hp (.parameters (before + 1))))

theorem routine_shifts (head owner : String) :
    Shifts d g (Routine.relabel (shifting d g)) (routine phrase head owner)
      (routine phrase' head owner) := by
  have rest (params : List Lexeme) : Shifts d g (Routine.relabel (shifting d g))
      (do
        let _ ← expect .rightParen "')' after parameters"
        let _ ← expect .leftBrace ("'\x7b' before " ++ owner ++ " body")
        return ⟨params, ← block phrase⟩)
      (do
        let _ ← expect .rightParen "')' after parameters"
        let _ ← expect .leftBrace ("'\x7b' before " ++ owner ++ " body")
        return ⟨params.map (Lexeme.relabel (shifting d g)), ← block phrase'⟩) := by
    apply (Shifts.expect .rightParen _).bind
    intro _
    apply (Shifts.expect .leftBrace _).bind
    intro _
    apply (block_shifts hp).bind
    intro body
    have h := Shifts.pure (d := d) (g := g) (f := Routine.relabel (shifting d g)) ⟨params, body⟩
    simp only [Routine.relabel, Stmt.relabelAll_eq_map] at h
    exact h
  apply (Shifts.expect .leftParen _).bind
  intro _
  apply (Shifts.nextIs .rightParen).bind
  intro closes
  cases closes with
  | true => exact rest []
  | false => exact (hp (.parameters 0)).bind rest

theorem definition_shifts (owner : String) :
    Shifts d g (Definition.relabel (shifting d g)) (definition phrase owner)
      (definition phrase' owner) := by
  apply (Shifts.expectName (owner ++ " name")).bind
  intro name
  exact (routine_shifts hp (owner ++ " name") owner).bind fun r =>
    Shifts.pure (f := Definition.relabel (shifting d g)) ⟨name, r⟩

theorem lambda_shifts (keyword : Token) :
    Shifts d g (Expr.relabel (shifting d g)) (lambda phrase keyword)
      (lambda phrase' (keyword.onLine g)) :=
  (routine_shifts hp "'fun'" "lambda").map (Expr.lambda (g keyword.line))
    (Expr.lambda keyword.line) fun _ => rfl

theorem members_shifts :
    Shifts d g (List.map fun (ofClass, m) => (ofClass, Definition.relabel (shifting d g) m))
      (members phrase) (members phrase') := by
  have rest : Shifts d g
      (List.map fun (ofClass, m) => (ofClass, Definition.relabel (shifting d g) m))
      (do
        let ofClass ← accept? .class
        let method ← definition phrase "method"
        return (ofClass.isSome, method) :: (← phrase .members))
      (do
        let ofClass ← accept? .class
        let method ← definition phrase' "method"
        return (ofClass.isSome, method) :: (← phrase' .members)) := by
    apply (Shifts.accept? .class).bind
    intro ofClass
    apply (definition_shifts hp "method").bind
    intro method
    apply (hp .members).bind
    intro others
    have h := Shifts.pure (d := d) (g := g)
      (f := List.map fun (ofClass, m) => (ofClass, Definition.relabel (shifting d g) m))
      ((ofClass.isSome, method) :: others)
    cases ofClass <;> exact h
  apply Shifts.atEnd.bind
  intro atEnd
  cases atEnd with
  | true => exact Shifts.pure (f := List.map _) []
  | false =>
    apply (Shifts.nextIs .rightBrace).bind
    intro closes
    cases closes with
    | true => exact Shifts.pure (f := List.map _) []
    | false => exact rest

theorem classBody_shifts (name : Lexeme) (superclass : Option (RefId × Lexeme)) :
    Shifts d g (Stmt.relabel (shifting d g)) (classBody phrase name superclass)
      (classBody phrase' (name.relabel (shifting d g))
        (superclass.map fun (r, l) => (r + d, l.relabel (shifting d g)))) := by
  apply (Shifts.expect .leftBrace _).bind
  intro _
  apply (hp .members).bind
  intro ms
  apply (Shifts.expect .rightBrace _).bind
  intro _
  have h := Shifts.pure (d := d) (g := g) (f := Stmt.relabel (shifting d g))
    (.class name superclass ((ms.filter (·.1 == false)).map (·.2))
      ((ms.filter (·.1 == true)).map (·.2)))
  simp only [Stmt.relabel, Definition.relabelAll_eq_map, List.map_map] at h
  simp only [Nonterminal.relabelTree, List.filter_map, List.map_map]
  exact h

theorem classDeclaration_shifts :
    Shifts d g (Stmt.relabel (shifting d g)) (classDeclaration phrase)
      (classDeclaration phrase') := by
  rw [classDeclaration_eq, classDeclaration_eq]
  apply (Shifts.expectName "class name").bind
  intro name
  apply (Shifts.accept? .less).bind
  intro less
  cases less with
  | none => exact classBody_shifts hp name none
  | some _ =>
    apply (Shifts.expectName "superclass name").bind
    intro superclass
    exact Shifts.freshId.bind fun id => classBody_shifts hp name (some (id, superclass))

omit hp in
theorem closeVar_shifts (name : Lexeme) (initial : Option (Expr RefId)) :
    Shifts d g (Stmt.relabel (shifting d g)) (closeVar name initial)
      (closeVar (name.relabel (shifting d g)) (initial.map (Expr.relabel (shifting d g)))) := by
  apply (Shifts.expect .semicolon _).bind
  intro _
  have h := Shifts.pure (d := d) (g := g) (f := Stmt.relabel (shifting d g)) (.var name initial)
  cases initial <;> exact h

theorem varDeclaration_shifts :
    Shifts d g (Stmt.relabel (shifting d g)) (varDeclaration phrase) (varDeclaration phrase') := by
  rw [varDeclaration_eq, varDeclaration_eq]
  apply (Shifts.expectName "variable name").bind
  intro name
  apply (Shifts.accept? .equal).bind
  intro equal
  cases equal with
  | none => exact closeVar_shifts name none
  | some _ =>
    apply ((expression_shifts hp).map (h := Option.map (Expr.relabel (shifting d g))) some some
      fun _ => rfl).bind
    exact closeVar_shifts name

theorem expressionStatement_shifts :
    Shifts d g (Stmt.relabel (shifting d g)) (expressionStatement phrase)
      (expressionStatement phrase') := by
  apply (expression_shifts hp).bind
  intro e
  exact (Shifts.expect .semicolon _).bind fun _ =>
    Shifts.pure (f := Stmt.relabel (shifting d g)) (.expr e)

theorem optionalBefore_shifts (closing : Token.Kind) :
    Shifts d g (Option.map (Expr.relabel (shifting d g))) (optionalBefore phrase closing)
      (optionalBefore phrase' closing) := by
  apply (Shifts.nextIs closing).bind
  intro closes
  cases closes with
  | true => exact Shifts.pure (f := Option.map _) none
  | false => exact (expression_shifts hp).map some some fun _ => rfl

omit hp in
theorem forLoop_relabel {ρ σ : Type} (φ : Relabeling ρ σ) (initial : Option (Stmt ρ))
    (condition increment : Option (Expr ρ)) (body : Stmt ρ) :
    (forLoop initial condition increment body).relabel φ =
      forLoop (initial.map (Stmt.relabel φ)) (condition.map (Expr.relabel φ))
        (increment.map (Expr.relabel φ)) (body.relabel φ) := by
  cases initial <;> cases condition <;> cases increment <;> rfl

theorem forClauses_shifts (initial : Option (Stmt RefId)) :
    Shifts d g (Stmt.relabel (shifting d g)) (forClauses phrase initial)
      (forClauses phrase' (initial.map (Stmt.relabel (shifting d g)))) := by
  apply (optionalBefore_shifts hp .semicolon).bind
  intro condition
  apply (Shifts.expect .semicolon _).bind
  intro _
  apply (optionalBefore_shifts hp .rightParen).bind
  intro increment
  apply (Shifts.expect .rightParen _).bind
  intro _
  apply (hp .statement).bind
  intro body
  have h := Shifts.pure (d := d) (g := g) (f := Stmt.relabel (shifting d g))
    (forLoop initial condition increment body)
  rw [forLoop_relabel] at h
  exact h

theorem forStatement_shifts :
    Shifts d g (Stmt.relabel (shifting d g)) (forStatement phrase) (forStatement phrase') := by
  rw [forStatement_eq, forStatement_eq]
  apply (Shifts.expect .leftParen _).bind
  intro _
  apply (Shifts.accept? .semicolon).bind
  intro semicolon
  cases semicolon with
  | some _ => exact forClauses_shifts hp none
  | none =>
    apply (Shifts.accept? .var).bind
    intro var
    cases var with
    | some _ =>
      exact ((varDeclaration_shifts hp).map (h := Option.map _) some some fun _ => rfl).bind
        (forClauses_shifts hp)
    | none =>
      exact ((expressionStatement_shifts hp).map (h := Option.map _) some some fun _ => rfl).bind
        (forClauses_shifts hp)

theorem ifStatement_shifts :
    Shifts d g (Stmt.relabel (shifting d g)) (ifStatement phrase) (ifStatement phrase') := by
  apply (Shifts.expect .leftParen _).bind
  intro _
  apply (expression_shifts hp).bind
  intro condition
  apply (Shifts.expect .rightParen _).bind
  intro _
  apply (hp .statement).bind
  intro yes
  apply (Shifts.accept? .else).bind
  intro other
  cases other with
  | none => exact Shifts.pure (f := Stmt.relabel (shifting d g)) (.if condition yes none)
  | some _ =>
    exact (hp .statement).bind fun no =>
      Shifts.pure (f := Stmt.relabel (shifting d g)) (.if condition yes (some no))

theorem whileStatement_shifts :
    Shifts d g (Stmt.relabel (shifting d g)) (whileStatement phrase) (whileStatement phrase') := by
  apply (Shifts.expect .leftParen _).bind
  intro _
  apply (expression_shifts hp).bind
  intro condition
  apply (Shifts.expect .rightParen _).bind
  intro _
  exact (hp .statement).bind fun body =>
    Shifts.pure (f := Stmt.relabel (shifting d g)) (.while condition body)

theorem printStatement_shifts :
    Shifts d g (Stmt.relabel (shifting d g)) (printStatement phrase) (printStatement phrase') := by
  apply (expression_shifts hp).bind
  intro e
  exact (Shifts.expect .semicolon _).bind fun _ =>
    Shifts.pure (f := Stmt.relabel (shifting d g)) (.print e)

theorem returnStatement_shifts (keyword : Token) :
    Shifts d g (Stmt.relabel (shifting d g)) (returnStatement phrase keyword)
      (returnStatement phrase' (keyword.onLine g)) := by
  apply (optionalBefore_shifts hp .semicolon).bind
  intro value
  apply (Shifts.expect .semicolon _).bind
  intro _
  have h := Shifts.pure (d := d) (g := g) (f := Stmt.relabel (shifting d g))
    (.return keyword.mark value)
  cases value <;> exact h

omit hp in
theorem breakStatement_shifts (keyword : Token) :
    Shifts d g (Stmt.relabel (shifting d g)) (breakStatement keyword)
      (breakStatement (keyword.onLine g)) :=
  (Shifts.expect .semicolon _).bind fun _ =>
    Shifts.pure (f := Stmt.relabel (shifting d g)) (.break keyword.mark)

theorem statement_shifts :
    Shifts d g (Stmt.relabel (shifting d g)) (statement phrase) (statement phrase') := by
  apply Shifts.peek.bind
  intro t
  cases t with
  | none => exact expressionStatement_shifts hp
  | some t =>
    simp only [Option.map_some, Token.kind_onLine]
    cases t.kind with
    | «for» => exact Shifts.skip.bind fun _ => forStatement_shifts hp
    | «if» => exact Shifts.skip.bind fun _ => ifStatement_shifts hp
    | print => exact Shifts.skip.bind fun _ => printStatement_shifts hp
    | «return» => exact Shifts.skip.bind fun _ => returnStatement_shifts hp t
    | «break» => exact Shifts.skip.bind fun _ => breakStatement_shifts t
    | «while» => exact Shifts.skip.bind fun _ => whileStatement_shifts hp
    | leftBrace =>
      apply Shifts.skip.bind
      intro _
      apply (block_shifts hp).bind
      intro body
      have h := Shifts.pure (d := d) (g := g) (f := Stmt.relabel (shifting d g)) (.block body)
      simp only [Stmt.relabel, Stmt.relabelAll_eq_map] at h
      exact h
    | _ => exact expressionStatement_shifts hp

theorem declaration_shifts :
    Shifts d g (Stmt.relabel (shifting d g)) (declaration phrase) (declaration phrase') := by
  have function : Shifts d g (Stmt.relabel (shifting d g))
      (do skip; return .function (← definition phrase "function"))
      (do skip; return .function (← definition phrase' "function")) :=
    Shifts.skip.bind fun _ => (definition_shifts hp "function").bind fun f =>
      Shifts.pure (f := Stmt.relabel (shifting d g)) (.function f)
  apply Shifts.get.bind
  intro s
  obtain ⟨_ | ⟨⟨kind, lexeme, line, literal⟩, ts⟩, k, fs⟩ := s
  · exact hp .statement
  · cases kind with
    | «class» => exact Shifts.skip.bind fun _ => classDeclaration_shifts hp
    | var => exact Shifts.skip.bind fun _ => varDeclaration_shifts hp
    | «fun» =>
      obtain _ | ⟨⟨kind, lexeme', line', literal'⟩, ts⟩ := ts
      · exact function
      · cases kind with
        | leftParen => exact hp .statement
        | _ => exact function
    | _ => exact hp .statement

theorem assignment_shifts :
    Shifts d g (Expr.relabel (shifting d g)) (assignment phrase) (assignment phrase') := by
  apply (hp (.chain .or)).bind
  intro (left : Expr RefId)
  apply (Shifts.accept? .equal).bind
  intro sign
  cases sign with
  | none => exact Shifts.pure left
  | some sign =>
    apply (hp .assignment).bind
    intro (value : Expr RefId)
    cases left with
    | «variable» ref name =>
      exact Shifts.pure (f := Expr.relabel (shifting d g)) (.assign ref name value)
    | get object name =>
      exact Shifts.pure (f := Expr.relabel (shifting d g)) (.set object name value)
    | _ => exact (Shifts.report (some sign) _).bind fun _ => Shifts.pure _

theorem chain_shifts (level : Level) :
    Shifts d g (Expr.relabel (shifting d g)) (chain phrase level) (chain phrase' level) :=
  (operand_shifts hp level).bind fun left => hp (.chainTail level left)

omit hp in
theorem Infix.apply_relabel {ρ σ : Type} (φ : Relabeling ρ σ) (op : Infix) (sign : Lexeme)
    (left right : Expr ρ) :
    (op.apply sign left right).relabel φ =
      op.apply (sign.relabel φ) (left.relabel φ) (right.relabel φ) := by
  cases op <;> rfl

theorem chainTail_shifts (level : Level) (left : Expr RefId) :
    Shifts d g (Expr.relabel (shifting d g)) (chainTail phrase level left)
      (chainTail phrase' level (left.relabel (shifting d g))) := by
  apply Shifts.peek.bind
  intro t
  cases t with
  | none => exact Shifts.pure left
  | some t =>
    simp only [Option.map_some, Token.kind_onLine]
    cases level.operator? t.kind with
    | none => exact Shifts.pure left
    | some op =>
      apply Shifts.skip.bind
      intro _
      apply (operand_shifts hp level).bind
      intro right
      rw [Token.mark_onLine d, ← Infix.apply_relabel]
      exact hp (.chainTail level (op.apply t.mark left right))

theorem ternary_shifts :
    Shifts d g (Expr.relabel (shifting d g)) (ternary phrase) (ternary phrase') := by
  apply (hp (.chain .equality)).bind
  intro condition
  apply (Shifts.accept? .question).bind
  intro question
  cases question with
  | none => exact Shifts.pure _
  | some _ =>
    apply (expression_shifts hp).bind
    intro yes
    apply (Shifts.expect .colon _).bind
    intro _
    exact (hp .assignment).bind fun no =>
      Shifts.pure (f := Expr.relabel (shifting d g)) (.ternary condition yes no)

theorem unary_shifts :
    Shifts d g (Expr.relabel (shifting d g)) (unary phrase) (unary phrase') := by
  apply Shifts.peek.bind
  intro t
  cases t with
  | none => exact hp .call
  | some t =>
    simp only [Option.map_some, Token.kind_onLine]
    cases unaryOperator? t.kind with
    | none => exact hp .call
    | some op =>
      exact Shifts.skip.bind fun _ => (hp .unary).bind fun e =>
        Shifts.pure (f := Expr.relabel (shifting d g)) (.unary op t.mark e)

theorem call_shifts : Shifts d g (Expr.relabel (shifting d g)) (call phrase) (call phrase') := by
  apply (Shifts.accept? .fun).bind
  intro keyword
  cases keyword with
  | none => exact (hp .primary).bind fun e => hp (.callTail e)
  | some keyword => exact (lambda_shifts hp keyword).bind fun e => hp (.callTail e)

theorem closeCall_shifts (callee : Expr RefId) (arguments : List (Expr RefId)) :
    Shifts d g (Expr.relabel (shifting d g)) (closeCall phrase callee arguments)
      (closeCall phrase' (callee.relabel (shifting d g))
        (arguments.map (Expr.relabel (shifting d g)))) := by
  apply (Shifts.expect .rightParen _).bind
  intro paren
  rw [← Expr.relabelAll_eq_map]
  exact hp (.callTail (.call callee arguments paren.line))

theorem callTail_shifts (callee : Expr RefId) :
    Shifts d g (Expr.relabel (shifting d g)) (callTail phrase callee)
      (callTail phrase' (callee.relabel (shifting d g))) := by
  rw [callTail_eq, callTail_eq]
  apply (Shifts.accept? .leftParen).bind
  intro paren
  cases paren with
  | some _ =>
    apply (Shifts.nextIs .rightParen).bind
    intro closes
    cases closes with
    | true => exact closeCall_shifts hp callee []
    | false => exact (hp (.arguments 0)).bind (closeCall_shifts hp callee)
  | none =>
    apply (Shifts.accept? .dot).bind
    intro dot
    cases dot with
    | none => exact Shifts.pure callee
    | some _ =>
      exact (Shifts.expectName _).bind fun name => hp (.callTail (.get callee name))

theorem arguments_shifts (before : Nat) :
    Shifts d g (List.map (Expr.relabel (shifting d g))) (arguments phrase before)
      (arguments phrase' before) := by
  rw [arguments_eq, arguments_eq]
  exact .counted before _ (.listed (hp .assignment) (hp (.arguments (before + 1))))

theorem missingLeftOperand_shifts (operator : Token) (level : Level) :
    Shifts d g (Expr.relabel (shifting d g)) (missingLeftOperand phrase operator level)
      (missingLeftOperand phrase' (operator.onLine g) level) :=
  (operand_shifts hp level).bind fun _ => Shifts.fail (some operator) _

omit hp in
theorem superReference_shifts (keyword : Token) :
    Shifts d g (Expr.relabel (shifting d g)) (superReference keyword)
      (superReference (keyword.onLine g)) := by
  apply (Shifts.expect .dot _).bind
  intro _
  apply (Shifts.expectName _).bind
  intro method
  exact Shifts.freshId.bind fun id =>
    Shifts.pure (f := Expr.relabel (shifting d g)) (.super id keyword.mark method)

theorem primary_shifts :
    Shifts d g (Expr.relabel (shifting d g)) (primary phrase) (primary phrase') := by
  have literal (l : Literal) : Shifts d g (Expr.relabel (shifting d g))
      (do skip; return .literal l) (do skip; return .literal l) :=
    Shifts.skip.bind fun _ => Shifts.pure (f := Expr.relabel (shifting d g)) (.literal l)
  apply Shifts.peek.bind
  intro t
  cases t with
  | none => exact Shifts.fail none _
  | some t =>
    simp only [Option.map_some, Token.kind_onLine, Token.literal_onLine]
    cases t.kind with
    | false | true | nil | number | string => exact literal _
    | super => exact Shifts.skip.bind fun _ => superReference_shifts t
    | this =>
      exact Shifts.skip.bind fun _ => Shifts.freshId.bind fun id =>
        Shifts.pure (f := Expr.relabel (shifting d g)) (.this id t.mark)
    | identifier =>
      exact Shifts.skip.bind fun _ => Shifts.freshId.bind fun id =>
        Shifts.pure (f := Expr.relabel (shifting d g)) (.variable id t.mark)
    | leftParen =>
      apply Shifts.skip.bind
      intro _
      apply (expression_shifts hp).bind
      intro e
      exact (Shifts.expect .rightParen _).bind fun _ =>
        Shifts.pure (f := Expr.relabel (shifting d g)) (.group e)
    | comma => exact Shifts.skip.bind fun _ => missingLeftOperand_shifts hp t .comma
    | equalEqual | bangEqual =>
      exact Shifts.skip.bind fun _ => missingLeftOperand_shifts hp t .equality
    | less | lessEqual | greater | greaterEqual =>
      exact Shifts.skip.bind fun _ => missingLeftOperand_shifts hp t .comparison
    | plus => exact Shifts.skip.bind fun _ => missingLeftOperand_shifts hp t .term
    | star | slash => exact Shifts.skip.bind fun _ => missingLeftOperand_shifts hp t .factor
    | _ => exact Shifts.fail (some t) _

theorem production_shifts (n : Nonterminal) :
    Shifts d g (n.relabelTree (shifting d g)) (production phrase n)
      (production phrase' (n.relabel (shifting d g))) := by
  cases n with
  | sequence inBlock => exact sequence_shifts hp inBlock
  | declaration => exact (declaration_shifts hp).recover
  | members => exact members_shifts hp
  | statement => exact statement_shifts hp
  | parameters before => exact parameters_shifts hp before
  | assignment => exact assignment_shifts hp
  | chain level => exact chain_shifts hp level
  | chainTail level left => exact chainTail_shifts hp level left
  | ternary => exact ternary_shifts hp
  | unary => exact unary_shifts hp
  | call => exact call_shifts hp
  | callTail callee => exact callTail_shifts hp callee
  | arguments before => exact arguments_shifts hp before
  | primary => exact primary_shifts hp

omit hp in
theorem parseWithin_shifts (depth : Nat) (n : Nonterminal) :
    Shifts d g (n.relabelTree (shifting d g)) (parseWithin depth n)
      (parseWithin depth (n.relabel (shifting d g))) := by
  induction depth generalizing n with
  | zero => exact fun _ => rfl
  | succ depth ih => exact production_shifts ih n

end Productions

theorem State.shift_id (d : Nat) (s : State) :
    s.shift d id = ⟨s.rest, s.nextId + d, s.faults⟩ := by
  have token : Token.onLine id = id := rfl
  have fault : Fault.onLine id = id := by
    funext ⟨t, c⟩
    simp only [Fault.onLine, token, Option.map_id]
    rfl
  rw [shift, token, fault, List.map_id, List.map_id]

end Parser

/-- A program is read alike from whatever number its references start at. -/
theorem parse_shift (tokens : List Token) (first d : RefId) :
    parse tokens (first + d) =
      ⟨(parse tokens first).statements.map (Stmt.relabel (shifting d id)),
        (parse tokens first).errors, (parse tokens first).nextId + d⟩ := by
  obtain ⟨body, endLine, h⟩ : ∃ body endLine, Token.untilEof tokens = (body, endLine) :=
    ⟨_, _, rfl⟩
  have hs : Parser.Shifts d id (List.map (Stmt.relabel (shifting d id)))
      (Parser.parseWithin (Parser.depthFor body.length) (.sequence false))
      (Parser.parseWithin (Parser.depthFor body.length) (.sequence false)) :=
    Parser.parseWithin_shifts _ (.sequence false)
  have run := hs ⟨body, first, []⟩
  simp only [Parser.State.shift_id] at run
  simp only [parse, h, run]
  obtain ⟨ss, s⟩ | ⟨e, s⟩ := Parser.parseWithin (Parser.depthFor body.length) (.sequence false)
    ⟨body, first, []⟩ <;> rfl

/-- A program is read alike wherever its lines are. -/
theorem parse_onLine {tokens tokens' : List Token} {g : Nat → Nat}
    (ht : (Token.untilEof tokens').1 = (Token.untilEof tokens).1.map (Token.onLine g))
    (first d : RefId) :
    (parse tokens' (first + d)).statements =
        (parse tokens first).statements.map (Stmt.relabel (shifting d g)) ∧
      (parse tokens' (first + d)).nextId = (parse tokens first).nextId + d ∧
      ((parse tokens first).errors = [] → (parse tokens' (first + d)).errors = []) := by
  obtain ⟨body, endLine, h⟩ : ∃ body endLine, Token.untilEof tokens = (body, endLine) :=
    ⟨_, _, rfl⟩
  obtain ⟨body', endLine', h'⟩ : ∃ body endLine, Token.untilEof tokens' = (body, endLine) :=
    ⟨_, _, rfl⟩
  have hb : body' = body.map (Token.onLine g) := by rw [h, h'] at ht; exact ht
  subst hb
  have hs : Parser.Shifts d g (List.map (Stmt.relabel (shifting d g)))
      (Parser.parseWithin (Parser.depthFor body.length) (.sequence false))
      (Parser.parseWithin (Parser.depthFor body.length) (.sequence false)) :=
    Parser.parseWithin_shifts _ (.sequence false)
  have run := hs ⟨body, first, []⟩
  change Parser.parseWithin (Parser.depthFor body.length) (.sequence false)
    ⟨body.map (Token.onLine g), first + d, []⟩ = _ at run
  simp only [parse, h, h', List.length_map, run]
  obtain ⟨ss, s⟩ | ⟨e, s⟩ := Parser.parseWithin (Parser.depthFor body.length) (.sequence false)
    ⟨body, first, []⟩
  all_goals
    refine ⟨rfl, rfl, fun he => ?_⟩
    have hf : s.faults = [] := List.map_eq_nil_iff.mp he
    simp only [Parser.State.shift, hf, List.map_nil]

end Lox
