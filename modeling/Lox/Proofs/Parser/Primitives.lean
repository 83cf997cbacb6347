import Lox.Syntax.Parser
import Mathlib.Data.List.Basic

/-!
What the smallest readers answer in a state, what lists of parameters and of arguments have in common,
how the productions end that several ways lead through, and where the tokens of a program end.
-/

namespace Lox

namespace Parser

variable {α : Type}

theorem accept?_of_eq {kind : Token.Kind} {t : Token} (h : t.kind = kind) (ts : List Token)
    (k : RefId) (fs : List Fault) : accept? kind ⟨t :: ts, k, fs⟩ = .ok (some t) ⟨ts, k, fs⟩ := by
  have h' : (t.kind == kind) = true := beq_iff_eq.mpr h
  change (if t.kind == kind then _ else _ : Parser (Option Token)) _ = _
  rw [if_pos h']
  rfl

theorem accept?_of_ne {kind : Token.Kind} {t : Token} (h : t.kind ≠ kind) (ts : List Token)
    (k : RefId) (fs : List Fault) : accept? kind ⟨t :: ts, k, fs⟩ = .ok none ⟨t :: ts, k, fs⟩ := by
  have h' : ¬ (t.kind == kind) = true := mt beq_iff_eq.mp h
  change (if t.kind == kind then _ else _ : Parser (Option Token)) _ = _
  rw [if_neg h']
  rfl

/-- A fault is reported, and nothing is read then. -/
theorem recover_run (p : Parser α) (s : State) :
    recover p s = match p s with
      | .ok a s' => .ok (some a) s'
      | .error (.fault f) s' => .ok none ⟨resume s'.rest, s'.nextId, s'.faults ++ [f]⟩
      | .error .tooDeep s' => .error .tooDeep s' := by
  simp only [recover, tryCatch, tryCatchThe, MonadExceptOf.tryCatch, EStateM.tryCatch,
    Functor.map, EStateM.map]
  obtain ⟨a, s'⟩ | ⟨_ | _, s'⟩ := p s <;> rfl

/-! Lists with commas. -/

/-- An item, and the others if there is a comma behind it. -/
def listed (item : Parser α) (others : Parser (List α)) : Parser (List α) := do
  let a ← item
  match ← accept? .comma with
  | some _ => return a :: (← others)
  | none => return [a]

/-- The list is complained about where it gets too long, and read all the same. -/
def counted (before : Nat) (what : String) (list : Parser α) : Parser α := do
  if maxListed ≤ before then report (← peek) (.tooMany what)
  list

theorem parameters_eq (phrase : (n : Nonterminal) → Parser n.Tree) (before : Nat) :
    parameters phrase before = counted before "parameters"
      (listed (expectName "parameter name") (phrase (.parameters (before + 1)))) := rfl

theorem arguments_eq (phrase : (n : Nonterminal) → Parser n.Tree) (before : Nat) :
    arguments phrase before = counted before "arguments"
      (listed (phrase .assignment) (phrase (.arguments (before + 1)))) := rfl

/-! Ends of productions that go on alike whatever was read before. -/

section Ends

variable (phrase : (n : Nonterminal) → Parser n.Tree)

/-- A class behind its name and the one above. -/
def classBody (name : Lexeme) (superclass : Option (RefId × Lexeme)) : Parser (Stmt RefId) := do
  let _ ← expect .leftBrace "'\x7b' before class body"
  let ms ← phrase .members
  let _ ← expect .rightBrace "'\x7d' after class body"
  let named (ofClass : Bool) := (ms.filter (·.1 == ofClass)).map (·.2)
  return .class name superclass (named false) (named true)

/-- The declaration of a variable behind its initial value. -/
def closeVar (name : Lexeme) (initial : Option (Expr RefId)) : Parser (Stmt RefId) := do
  let _ ← expect .semicolon "';' after variable declaration"
  return .var name initial

/-- A loop behind what comes before its rounds. -/
def forClauses (initial : Option (Stmt RefId)) : Parser (Stmt RefId) := do
  let condition ← optionalBefore phrase .semicolon
  let _ ← expect .semicolon "';' after loop condition"
  let increment ← optionalBefore phrase .rightParen
  let _ ← expect .rightParen "')' after for clauses"
  return forLoop initial condition increment (← phrase .statement)

/-- A call behind its arguments. -/
def closeCall (callee : Expr RefId) (arguments : List (Expr RefId)) : Parser (Expr RefId) := do
  let paren ← expect .rightParen "')' after arguments"
  phrase (.callTail (.call callee arguments paren.line))

theorem classDeclaration_eq : classDeclaration phrase = (do
    let name ← expectName "class name"
    match ← accept? .less with
    | some _ =>
      let superclass ← expectName "superclass name"
      classBody phrase name (some (← freshId, superclass))
    | none => classBody phrase name none) := rfl

theorem varDeclaration_eq : varDeclaration phrase = (do
    let name ← expectName "variable name"
    match ← accept? .equal with
    | some _ => closeVar name (← some <$> expression phrase)
    | none => closeVar name none) := rfl

theorem forStatement_eq : forStatement phrase = (do
    let _ ← expect .leftParen "'(' after 'for'"
    match ← accept? .semicolon with
    | some _ => forClauses phrase none
    | none => match ← accept? .var with
      | some _ => forClauses phrase (← some <$> varDeclaration phrase)
      | none => forClauses phrase (← some <$> expressionStatement phrase)) := rfl

theorem callTail_eq (callee : Expr RefId) : callTail phrase callee = (do
    match ← accept? .leftParen with
    | some _ =>
      if ← nextIs .rightParen then closeCall phrase callee []
      else closeCall phrase callee (← phrase (.arguments 0))
    | none => match ← accept? .dot with
      | some _ => phrase (.callTail (.get callee (← expectName "property name after '.'")))
      | none => return callee) := rfl

end Ends

/-- The depth that a program is read within is enough for its declarations. -/
theorem le_depthFor (tokens : Nat) : 32 * tokens + 21 ≤ depthFor tokens := by
  unfold depthFor
  omega

end Parser

namespace Token

variable {ts : List Token} (proper : ∀ t ∈ ts, t.kind ≠ .eof)

include proper

theorem untilEof_append_mark {mark : Token} (isMark : mark.kind = .eof) (beyond : List Token) :
    untilEof (ts ++ mark :: beyond) = (ts, mark.line) := by
  induction ts with
  | nil => cases beyond <;> simp [untilEof, isMark]
  | cons t ts ih =>
    obtain ⟨ht, proper⟩ := List.forall_mem_cons.mp proper
    obtain ⟨u, us, hu⟩ := List.exists_cons_of_ne_nil
      (List.append_ne_nil_of_right_ne_nil ts (List.cons_ne_nil mark beyond))
    have step : untilEof (t :: u :: us) =
        (t :: (untilEof (u :: us)).1, (untilEof (u :: us)).2) := by
      simp [untilEof, ht]
    rw [List.cons_append, hu, step, ← hu, ih proper]

theorem untilEof_append_proper (us : List Token) :
    (untilEof (ts ++ us)).1 = ts ++ (untilEof us).1 := by
  induction ts with
  | nil => rfl
  | cons t ts ih =>
    obtain ⟨ht, proper⟩ := List.forall_mem_cons.mp proper
    have ih := ih proper
    rw [List.cons_append, List.cons_append, ← ih]
    generalize ts ++ us = vs
    cases vs <;> simp [untilEof, ht]

theorem untilEof_of_proper (h : ts ≠ []) : untilEof ts = (ts, (ts.getLast h).line) := by
  induction ts with
  | nil => exact absurd rfl h
  | cons t ts ih =>
    obtain ⟨ht, proper⟩ := List.forall_mem_cons.mp proper
    cases ts with
    | nil => simp [untilEof, ht]
    | cons u us =>
      rw [List.getLast_cons (List.cons_ne_nil u us)]
      simp [untilEof, ht, ih proper (List.cons_ne_nil u us)]

end Token

end Lox
