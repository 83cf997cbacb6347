import Lox.Proofs.Cursor.Recovery
import Mathlib.Data.List.Perm.Subperm

/-!
Reading always ends, and it never stands still. Production by production the reader with the cursor agrees
with the other one, within the nested calls that are allowed. So it reads what the other one reads; each
round of its loops leaves the cursor further on, and no two rounds begin at the same token.
-/

namespace Lox

namespace Cursor

open Lox.Parser (Nonterminal Level)

variable {T : Tape} {depth : Nat} {phrase' : (n : Nonterminal) → Cursor n.Tree}
  {phrase : (n : Nonterminal) → Parser n.Tree}

/-- The readers of the phrases agree. A declaration is only read where a token is left. -/
def Agreeing (T : Tape) (depth : Nat) (phrase' : (n : Nonterminal) → Cursor n.Tree)
    (phrase : (n : Nonterminal) → Parser n.Tree) : Prop :=
  ∀ n q s, Stands T q s → (n = .declaration → s.rest ≠ []) → 32 * s.rest.length + n.rank ≤ depth →
    Agrees T n.gain q (phrase' n q) (phrase n s)

section Lists

variable {budget gain : Nat} {α : Type} {c : Cursor α} {p : Parser α} {others' : Cursor (List α)}
  {others : Parser (List α)}

theorem counted_follows (before : Nat) (what : String) (h : Follows T depth budget gain c p) :
    Follows T depth budget gain
      (do
        if Parser.maxListed ≤ before then report (← peek) (.tooMany what)
        c)
      (Parser.counted before what p) := by
  unfold Parser.counted
  split
  · exact .peek fun o ho => (Still.report ho _).bind fun _ => h
  · exact h

theorem listed_follows (hi : Follows T depth budget 1 c p) (ho : Behind T depth others' others) :
    Follows T depth budget 1
      (do
        let a ← c
        if ← advanceIf .comma then return a :: (← others') else return [a])
      (Parser.listed p others) :=
  hi.first fun a => .branch (by decide) (by decide) (fun _ => ho.next fun as => .pure (a :: as))
    (.pure [a])

end Lists

section Productions

variable (hp : Agreeing T depth phrase' phrase) {budget : Nat}

include hp

theorem Agreeing.follows {n : Nonterminal} (hn : n ≠ .declaration) (hb : n.rank ≤ budget) :
    Follows T depth budget n.gain (phrase' n) (phrase n) :=
  fun q s st deep => hp n q s st (fun h => absurd h hn) (by omega)

theorem Agreeing.behind {n : Nonterminal} (hn : n ≠ .declaration) :
    Behind T depth (phrase' n) (phrase n) := (hp.follows hn (Nat.le_of_lt n.rank_lt)).behind (Nat.le_refl 32)

theorem expression_behind : Behind T depth (expression phrase') (Parser.expression phrase) :=
  hp.behind (n := .chain .comma) nofun

theorem operand_follows (level : Level) (hb : level.rank ≤ budget + 1) :
    Follows T depth budget 1 (operand phrase' level) (Parser.operand phrase level) := by
  cases level with
  | comma => exact hp.follows (n := .assignment) nofun (Nat.le_of_succ_le_succ hb)
  | or => exact hp.follows (n := .chain .and) nofun (Nat.le_of_succ_le_succ hb)
  | and => exact hp.follows (n := .ternary) nofun (Nat.le_of_succ_le_succ hb)
  | equality => exact hp.follows (n := .chain .comparison) nofun (Nat.le_of_succ_le_succ hb)
  | comparison => exact hp.follows (n := .chain .term) nofun (Nat.le_of_succ_le_succ hb)
  | term => exact hp.follows (n := .chain .factor) nofun (Nat.le_of_succ_le_succ hb)
  | factor => exact hp.follows (n := .unary) nofun (Nat.le_of_succ_le_succ hb)

theorem operand_behind (level : Level) :
    Behind T depth (operand phrase' level) (Parser.operand phrase level) := by
  have low : level.rank ≤ 31 + 1 := by cases level <;> decide
  exact (operand_follows hp level low).behind (by decide)

theorem block_behind : Behind T depth (block phrase') (Parser.block phrase) :=
  (hp.behind (n := .sequence true) nofun).next fun body =>
    (Behind.consume (by decide) _).next fun _ => .pure body

theorem routine_follows (head owner : String) :
    Follows T depth budget 1 (routine phrase' head owner) (Parser.routine phrase head owner) := by
  refine (Follows.consume (by decide) _).first fun _ => (Still.check (by decide)).bind fun closes => ?_
  refine Behind.joined (.pure []) (hp.behind (n := .parameters 0) nofun) fun params => ?_
  exact (Behind.consume (by decide) _).next fun _ => (Behind.consume (by decide) _).next fun _ =>
    (block_behind hp).next fun body => .pure _

theorem definition_follows (owner : String) :
    Follows T depth budget 1 (definition phrase' owner) (Parser.definition phrase owner) :=
  (Follows.consumeName _).first fun _ =>
    ((routine_follows hp _ owner).behind (Nat.le_refl 32)).next fun _ => .pure _

theorem members_follows : Follows T depth budget 0 (members phrase') (Parser.members phrase) := by
  have others (m : Bool × Definition RefId) : Behind T depth (do return m :: (← phrase' .members))
      (do return m :: (← phrase .members)) :=
    (hp.behind (n := .members) nofun).next fun ms => .pure (m :: ms)
  refine Still.isAtEnd.bind fun _ => (Still.check (by decide)).bind fun _ => .either (.pure []) ?_
  refine .branch (by decide) (by decide) (fun _ => ?_) ?_
  · exact ((definition_follows hp "method").first fun m => others (true, m)).behind (Nat.le_refl 32)
  · exact ((definition_follows hp "method").first fun m => others (false, m)).mono (Nat.le_refl _)
      (Nat.zero_le 1)

theorem classDeclaration_follows :
    Follows T depth budget 1 (classDeclaration phrase') (Parser.classDeclaration phrase) := by
  have rest (name : Lexeme) (superclass : Option (RefId × Lexeme)) : Behind T depth
      (do
        let _ ← consume .leftBrace "'\x7b' before class body"
        let ms ← phrase' .members
        let _ ← consume .rightBrace "'\x7d' after class body"
        let named (ofClass : Bool) := (ms.filter (·.1 == ofClass)).map (·.2)
        return Stmt.class name superclass (named false) (named true))
      (Parser.classBody phrase name superclass) :=
    (Behind.consume (by decide) _).next fun _ => (hp.behind (n := .members) nofun).next fun _ =>
      (Behind.consume (by decide) _).next fun _ => .pure _
  refine (Follows.consumeName _).first fun name => .branch (by decide) (by decide) (fun _ => ?_) ?_
  · exact (Behind.consumeName _).next fun superclass => Still.freshId.bind fun id =>
      rest name (some (id, superclass))
  · exact rest name none

theorem varDeclaration_follows :
    Follows T depth budget 1 (varDeclaration phrase') (Parser.varDeclaration phrase) := by
  have rest (name : Lexeme) (initial : Option (Expr RefId)) : Behind T depth
      (do
        let _ ← consume .semicolon "';' after variable declaration"
        return Stmt.var name initial)
      (Parser.closeVar name initial) :=
    (Behind.consume (by decide) _).next fun _ => .pure _
  refine (Follows.consumeName _).first fun name => .branch (by decide) (by decide) (fun _ => ?_) ?_
  · exact Behind.next ((expression_behind hp).map some) (rest name)
  · exact rest name none

theorem expressionStatement_follows (hb : 17 ≤ budget) : Follows T depth budget 1
    (expressionStatement phrase') (Parser.expressionStatement phrase) :=
  (hp.follows (n := .chain .comma) nofun hb).first fun e =>
    (Behind.consume (by decide) _).next fun _ => .pure (Stmt.expr e)

theorem optionalBefore_behind {closing : Token.Kind} (h : closing ≠ .eof) : Behind T depth
    (optionalBefore phrase' closing) (Parser.optionalBefore phrase closing) :=
  (Still.check h).bind fun _ => .either (.pure none) ((expression_behind hp).map some)

theorem forStatement_behind :
    Behind T depth (forStatement phrase') (Parser.forStatement phrase) := by
  have rest (initial : Option (Stmt RefId)) : Behind T depth
      (do
        let condition ← optionalBefore phrase' .semicolon
        let _ ← consume .semicolon "';' after loop condition"
        let increment ← optionalBefore phrase' .rightParen
        let _ ← consume .rightParen "')' after for clauses"
        return Parser.forLoop initial condition increment (← phrase' .statement))
      (Parser.forClauses phrase initial) :=
    (optionalBefore_behind hp (by decide)).next fun _ => (Behind.consume (by decide) _).next fun _ =>
      (optionalBefore_behind hp (by decide)).next fun _ => (Behind.consume (by decide) _).next fun _ =>
        (hp.behind (n := .statement) nofun).next fun _ => .pure _
  refine (Behind.consume (by decide) _).next fun _ => ?_
  refine .branch (by decide) (by decide) (fun _ => rest none) ?_
  refine .branch (by decide) (by decide) (fun _ => ?_) ?_
  · exact Behind.next (((varDeclaration_follows hp).behind (Nat.le_refl 32)).map some) rest
  · exact Behind.next (((expressionStatement_follows hp (by decide)).behind (Nat.le_refl 32)).map some)
      rest

theorem ifStatement_behind : Behind T depth (ifStatement phrase') (Parser.ifStatement phrase) := by
  refine (Behind.consume (by decide) _).next fun _ => (expression_behind hp).next fun _ => ?_
  refine (Behind.consume (by decide) _).next fun _ => (hp.behind (n := .statement) nofun).next fun _ => ?_
  refine .branch (by decide) (by decide) (fun _ => ?_) (.pure _)
  exact (hp.behind (n := .statement) nofun).next fun _ => .pure _

theorem whileStatement_behind :
    Behind T depth (whileStatement phrase') (Parser.whileStatement phrase) :=
  (Behind.consume (by decide) _).next fun _ => (expression_behind hp).next fun _ =>
    (Behind.consume (by decide) _).next fun _ => (hp.behind (n := .statement) nofun).next fun _ =>
      .pure _

theorem printStatement_behind :
    Behind T depth (printStatement phrase') (Parser.printStatement phrase) :=
  (expression_behind hp).next fun _ => (Behind.consume (by decide) _).next fun _ => .pure _

theorem returnStatement_behind (keyword : Token) :
    Behind T depth (returnStatement phrase' keyword) (Parser.returnStatement phrase keyword) :=
  (optionalBefore_behind hp (by decide)).next fun _ => (Behind.consume (by decide) _).next fun _ =>
    .pure _

omit hp in
theorem breakStatement_behind (keyword : Token) :
    Behind T depth (breakStatement keyword) (Parser.breakStatement keyword) :=
  (Behind.consume (by decide) _).next fun _ => .pure _

theorem statement_follows (hb : 17 ≤ budget) :
    Follows T depth budget 1 (statement phrase') (Parser.statement phrase) := by
  rintro q ⟨_ | ⟨⟨kind, lexeme, literal, line⟩, ts⟩, k, fs⟩ st deep
  · have other := expressionStatement_follows hp hb q _ st deep
    simp (disch := decide) only [statement, advanceIf_nil _ _ st]
    exact other
  · have other := expressionStatement_follows hp hb q _ st deep
    simp only [statement, advanceIf_cons _ _ st, previous_bind st]
    cases kind with
    | «for» => exact (forStatement_behind hp).moved st deep
    | «if» => exact (ifStatement_behind hp).moved st deep
    | print => exact (printStatement_behind hp).moved st deep
    | «return» => exact (returnStatement_behind hp _).moved st deep
    | «break» => exact (breakStatement_behind _).moved st deep
    | «while» => exact (whileStatement_behind hp).moved st deep
    | leftBrace => exact ((block_behind hp).next fun body => .pure (Stmt.block body)).moved st deep
    | _ => exact other

theorem declaration_follows (hb : 19 ≤ budget) :
    Follows T depth budget 1 (declaration phrase') (Parser.declaration phrase) := by
  rintro q ⟨_ | ⟨⟨kind, lexeme, literal, line⟩, ts⟩, k, fs⟩ st deep
  · have other := hp.follows (n := .statement) nofun hb q _ st deep
    simp (disch := decide) only [declaration, advanceIf_nil _ _ st]
    exact other
  · have other := hp.follows (n := .statement) nofun hb q _ st deep
    simp only [declaration, advanceIf_cons _ _ st]
    cases kind with
    | «class» => exact ((classDeclaration_follows hp).behind (Nat.le_refl 32)).moved st deep
    | «fun» =>
      have definition := (definition_follows hp "function").behind (Nat.le_refl 32)
      have named := (definition.next fun f => .pure (Stmt.function f)).moved st deep
      simp only [Bind.bind, EStateM.bind, check_run st.moved]
      obtain _ | ⟨⟨kind, lexeme', literal', line'⟩, ts⟩ := ts
      · simp only [List.head?_nil, Option.getD_none, T.isMark]
        exact named
      · cases kind with
        -- The cursor goes back, to where the other reader has stayed.
        | leftParen => exact other
        | _ => exact named
    | var => exact ((varDeclaration_follows hp).behind (Nat.le_refl 32)).moved st deep
    | _ => exact other

theorem assignment_follows (hb : 15 ≤ budget) :
    Follows T depth budget 1 (assignment phrase') (Parser.assignment phrase) := by
  refine (hp.follows (n := .chain .or) nofun hb).first fun left => ?_
  refine .accept? (by decide) (by decide) (fun sign hs => ?_) (.pure left)
  refine (hp.behind (n := .assignment) nofun).next fun value => ?_
  cases left with
  | «variable» ref name => exact .pure _
  | get object name => exact .pure _
  | _ =>
    have proper : ∀ t ∈ some sign, t.kind ≠ .eof := by
      rintro t ⟨⟩
      exact hs ▸ nofun
    exact (Still.report proper _).bind fun _ => .pure _

theorem chain_follows (level : Level) (hb : level.rank ≤ budget + 1) :
    Follows T depth budget 1 (chain phrase' level) (Parser.chain phrase level) :=
  (operand_follows hp level hb).first fun left => hp.behind (n := .chainTail level left) nofun

theorem chainTail_follows (level : Level) (left : Expr RefId) : Follows T depth budget 0
    (chainTail phrase' level left) (Parser.chainTail phrase level left) := by
  have next (op : Parser.Infix) (sign : Token) := (operand_behind hp level).next fun right =>
    hp.behind (n := .chainTail level (op.apply sign.mark left right)) nofun
  refine .ahead ?_ fun q sign ts k fs st deep => ?_
  · have ends : level.operator? T.mark.kind = none := by rw [T.isMark]; cases level <;> rfl
    rw [ends]
    exact .pure left
  · dsimp only
    cases level.operator? sign.kind with
    | none => exact Follows.pure left q _ st deep
    | some op => exact ((next op sign).taken st deep).weaken (Nat.zero_le 1)

theorem ternary_follows (hb : 12 ≤ budget) :
    Follows T depth budget 1 (ternary phrase') (Parser.ternary phrase) := by
  refine (hp.follows (n := .chain .equality) nofun hb).first fun condition => ?_
  refine .branch (by decide) (by decide) (fun _ => ?_) (.pure condition)
  exact (expression_behind hp).next fun _ => (Behind.consume (by decide) _).next fun _ =>
    (hp.behind (n := .assignment) nofun).next fun _ => .pure _

theorem unary_follows (hb : 7 ≤ budget) :
    Follows T depth budget 1 (unary phrase') (Parser.unary phrase) := by
  have call := hp.follows (n := .call) nofun hb
  refine .ahead ?_ fun q sign ts k fs st deep => ?_
  · have ends : Parser.unaryOperator? T.mark.kind = none := by rw [T.isMark]; rfl
    rw [ends]
    exact call
  · dsimp only
    cases Parser.unaryOperator? sign.kind with
    | none => exact call q _ st deep
    | some op =>
      have operand := (hp.behind (n := .unary) nofun).next fun e => .pure (Expr.unary op sign.mark e)
      exact operand.taken st deep

theorem call_follows (hb : 6 ≤ budget) :
    Follows T depth budget 1 (call phrase') (Parser.call phrase) := by
  have tail (callee : Expr RefId) : Behind T depth (phrase' (.callTail callee))
      (phrase (.callTail callee)) := hp.behind nofun
  refine .accept? (by decide) (by decide) (fun keyword _ => ?_) ?_
  · exact (((routine_follows hp _ _).map (Expr.lambda keyword.line)).behind (Nat.le_refl 32)).next tail
  · exact (hp.follows (n := .primary) nofun hb).first tail

theorem callTail_follows (callee : Expr RefId) :
    Follows T depth budget 0 (callTail phrase' callee) (Parser.callTail phrase callee) := by
  have tail (callee : Expr RefId) : Behind T depth (phrase' (.callTail callee))
      (phrase (.callTail callee)) := hp.behind nofun
  refine .branch (by decide) (by decide) (fun _ => ?_) ?_
  · refine (Still.check (by decide)).bind fun _ => ?_
    exact Behind.joined (.pure []) (hp.behind (n := .arguments 0) nofun) fun arguments =>
      (Behind.consume (by decide) _).next fun paren => tail (.call callee arguments paren.line)
  · refine .branch (by decide) (by decide) (fun _ => ?_) (.pure callee)
    exact (Behind.consumeName _).next fun name => tail (.get callee name)

theorem parameters_follows (before : Nat) : Follows T depth budget 1 (parameters phrase' before)
    (Parser.parameters phrase before) := by
  rw [Parser.parameters_eq]
  exact counted_follows before _ (listed_follows (.consumeName _) (hp.behind nofun))

theorem arguments_follows (before : Nat) (hb : 16 ≤ budget) : Follows T depth budget 1
    (arguments phrase' before) (Parser.arguments phrase before) := by
  rw [Parser.arguments_eq]
  exact counted_follows before _ (listed_follows (hp.follows (n := .assignment) nofun hb)
    (hp.behind nofun))

theorem missingLeftOperand_behind {operator : Token} (h : operator.kind ≠ .eof) (level : Level) :
    Behind T depth (missingLeftOperand phrase' operator level)
      (Parser.missingLeftOperand phrase operator level) :=
  (operand_behind hp level).next fun _ => .fail (o := some operator) (fun _ ht => Option.some.inj ht ▸ h) _

omit hp in
theorem superReference_behind (keyword : Token) :
    Behind T depth (superReference keyword) (Parser.superReference keyword) :=
  (Behind.consume (by decide) _).next fun _ => (Behind.consumeName _).next fun _ =>
    Still.freshId.bind fun _ => .pure _

theorem primary_follows : Follows T depth budget 1 (primary phrase') (Parser.primary phrase) := by
  have missing {o : Option Token} (ho : ∀ t ∈ o, t.kind ≠ .eof) : Follows T depth budget 1
      (fail (o.getD T.mark) (.expected "expression") : Cursor (Expr RefId))
      (Parser.fail o (.expected "expression")) := .fail ho _
  rintro q ⟨_ | ⟨t, ts⟩, k, fs⟩ st deep
  · have missing := missing (o := none) (fun _ h => nomatch h) q _ st deep
    simp only [primary, Bind.bind, EStateM.bind, isAtEnd_run st, List.isEmpty_nil, if_true, peek_run st]
    exact missing
  · have proper := st.kind_ne
    have missing := missing (o := some t) (fun _ ht => Option.some.inj ht ▸ proper) q _ st deep
    simp only [primary, Bind.bind, EStateM.bind, isAtEnd_run st, List.isEmpty_cons, Bool.false_eq_true,
      if_false, advance_run st]
    obtain ⟨kind, lexeme, literal, line⟩ := t
    have behind {c : Cursor (Expr RefId)} {p : Parser (Expr RefId)} (h : Behind T depth c p) :=
      h.moved st deep
    cases kind with
    | «false» | «true» | nil | number | string => exact behind (.pure (Expr.literal _))
    | super => exact behind (superReference_behind _)
    | this => exact behind (Still.freshId.bind fun id => .pure (Expr.this id _))
    | identifier => exact behind (Still.freshId.bind fun id => .pure (Expr.variable id _))
    | leftParen =>
      exact behind ((expression_behind hp).next fun e => (Behind.consume (by decide) _).next fun _ =>
        .pure (Expr.group e))
    | comma => exact behind (missingLeftOperand_behind hp proper .comma)
    | equalEqual | bangEqual => exact behind (missingLeftOperand_behind hp proper .equality)
    | less | lessEqual | greater | greaterEqual =>
      exact behind (missingLeftOperand_behind hp proper .comparison)
    | plus => exact behind (missingLeftOperand_behind hp proper .term)
    | star | slash => exact behind (missingLeftOperand_behind hp proper .factor)
    -- From any other token the cursor goes back.
    | _ => exact missing

theorem sequence_follows (inBlock : Bool) (hb : 20 ≤ budget) :
    Follows T depth budget 0 (sequence phrase' inBlock) (Parser.sequence phrase inBlock) := by
  intro q s st deep
  have done : Agrees T 0 q (.ok ([] : List (Stmt RefId)) q) (.ok [] s) :=
    .answer st (Nat.le_refl _) (.of_eq rfl)
  have round (hs : s.rest ≠ []) : Agrees T 0 q
      ((do
        let first ← phrase' .declaration
        finishRound q.position
        let others ← phrase' (.sequence inBlock)
        return first.toList ++ others : Cursor (List (Stmt RefId))) q)
      ((do
        let first ← phrase .declaration
        let others ← phrase (.sequence inBlock)
        return first.toList ++ others : Parser (List (Stmt RefId))) s) := by
    have first := hp .declaration q s st (fun _ => hs) (Nat.le_trans (Nat.add_le_add_left hb _) deep)
    refine first.round fun first q' s' st' further => ?_
    -- The round took a token, so enough nested calls are left for the other ones.
    have others := (hp.behind (n := .sequence inBlock) nofun).next fun others =>
      .pure (first.toList ++ others)
    refine others q' s' st' ?_
    have := st.length
    have := st'.length
    omega
  simp only [sequence, Bind.bind, EStateM.bind, isAtEnd_run st, check_run st]
  obtain ⟨_ | ⟨⟨kind, lexeme, literal, line⟩, ts⟩, k, fs⟩ := s
  · cases inBlock <;> exact done
  · have round := round (List.cons_ne_nil _ _)
    cases inBlock with
    | false => exact round
    | true =>
      cases kind with
      | rightBrace => exact done
      | _ => exact round

theorem production_agreeing :
    Agreeing T (depth + 1) (production phrase') (Parser.production phrase) := by
  intro n q s st hs deep
  have within {α : Type} {budget gain : Nat} {c : Cursor α} {p : Parser α}
      (h : Follows T depth budget gain c p) (deep : 32 * s.rest.length + (budget + 1) ≤ depth + 1) :
      Agrees T gain q (c q) (p s) := h q s st (Nat.le_of_succ_le_succ deep)
  cases n with
  | sequence inBlock => exact within (sequence_follows hp inBlock (Nat.le_refl 20)) deep
  | declaration => exact (within (declaration_follows hp (Nat.le_refl 19)) deep).recover st (hs rfl)
  | members => exact within (members_follows hp) deep
  | statement => exact within (statement_follows hp (by decide : 17 ≤ 18)) deep
  | parameters before => exact within (parameters_follows hp before) deep
  | assignment => exact within (assignment_follows hp (Nat.le_refl 15)) deep
  | chain level => cases level <;> exact within (chain_follows hp _ (Nat.le_refl _)) deep
  | chainTail level left => exact within (chainTail_follows hp level left) deep
  | ternary => exact within (ternary_follows hp (Nat.le_refl 12)) deep
  | unary => exact within (unary_follows hp (Nat.le_refl 7)) deep
  | call => exact within (call_follows hp (Nat.le_refl 6)) deep
  | callTail callee => exact within (callTail_follows hp callee) deep
  | arguments before => exact within (arguments_follows hp before (by decide : 16 ≤ 17)) deep
  | primary => exact within (primary_follows hp) deep

end Productions

/-- The reader with the cursor may be given more nested calls. -/
theorem readWithin_agreeing {depth depth' : Nat} (h : depth ≤ depth') :
    Agreeing T depth (readWithin depth') (Parser.parseWithin depth) := by
  induction depth generalizing depth' with
  | zero =>
    intro n q s st _ deep
    have := n.rank_pos
    omega
  | succ depth ih =>
    obtain ⟨depth', rfl⟩ := Nat.exists_eq_succ_of_ne_zero (Nat.ne_zero_of_lt h)
    exact production_agreeing (ih (Nat.le_of_succ_le_succ h))

/-- Reading always ends, however many more nested calls are allowed than it takes. It gives what the
reading from the front gives, and looks at no token outside of the list. Each round leaves the cursor
further on than it found it; no two begin at the same token, so there are at most as many as there are
tokens. -/
theorem parse_finishes (tokens : List Token) (first : RefId) (more : Nat) : ∃ s : State,
    readWithin (Parser.depthFor tokens.length + more) (.sequence false) (.start tokens first) =
      .ok (parse tokens first).statements s ∧
    s.errors = (parse tokens first).errors ∧ s.nextId = (parse tokens first).nextId ∧
    (∀ round ∈ s.rounds, round.1 < round.2 ∧ round.2 ≤ tokens.length) ∧
    (s.rounds.map (·.1)).Nodup ∧ s.rounds.length ≤ tokens.length := by
  obtain ⟨T, closed, until_, within⟩ := exists_tape tokens
  have st : Stands T (.start tokens first) ⟨T.body, first, []⟩ :=
    ⟨closed.symm, Nat.zero_le _, rfl, rfl, rfl⟩
  have deep : 32 * T.body.length + 21 ≤ Parser.depthFor T.body.length := by
    unfold Parser.depthFor
    omega
  have enough : Parser.depthFor T.body.length ≤ Parser.depthFor tokens.length + more := by
    unfold Parser.depthFor
    omega
  have agrees := readWithin_agreeing enough (.sequence false) _ _ st nofun deep
  rw [parse_of_untilEof until_]
  have reports := Parser.sequence_reports (Parser.depthFor T.body.length) false ⟨T.body, first, []⟩
  generalize readWithin _ (.sequence false) (.start tokens first) = r at agrees
  generalize Parser.parseWithin (Parser.depthFor T.body.length) (.sequence false) ⟨T.body, first, []⟩ = r'
    at agrees reports
  cases agrees with
  | fault stands taken proceeds => exact absurd rfl (reports _ _)
  | answer stands taken proceeds =>
    rename_i a s s'
    obtain ⟨rounds, put, nodup, range⟩ := proceeds
    obtain rfl : s.rounds = rounds := put
    have range : ∀ round ∈ s.rounds, round.1 < round.2 ∧ round.2 ≤ tokens.length := fun round hr =>
      ⟨(range round hr).2.1, Nat.le_trans (range round hr).2.2 (Nat.le_trans stands.position within)⟩
    have starts : s.rounds.map (·.1) ⊆ List.range tokens.length := by
      intro start hs
      obtain ⟨round, hr, rfl⟩ := List.mem_map.mp hs
      exact List.mem_range.mpr (Nat.lt_of_lt_of_le (range round hr).1 (range round hr).2)
    have few := (nodup.subperm starts).length_le
    rw [List.length_map, List.length_range] at few
    exact ⟨s, rfl, stands.errors, stands.nextId.symm, range, nodup, few⟩

end Cursor

end Lox
