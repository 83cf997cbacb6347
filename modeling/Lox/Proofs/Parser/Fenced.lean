import Lox.Proofs.Parser.Append

/-!
Reading up to a semicolon. In front of a semicolon it does not matter what stands behind it, as long as
no brace opens a block and no `for` takes more than one semicolon. A statement that is read ends behind
the semicolon then, and one that is given up is given up in front of it, at a token.
-/

namespace Lox

namespace Parser

variable {α β : Type}

/-- The token neither ends a statement nor lets one go on behind a semicolon. -/
def Plain (t : Token) : Prop := t.kind ≠ .semicolon ∧ t.kind ≠ .leftBrace ∧ t.kind ≠ .for

/-- Two ways for a text to go on behind a semicolon. -/
structure Fence where
  sign : Token
  isSign : sign.kind = .semicolon
  beyond : List Token
  beyond' : List Token
  noElse : ∀ t ∈ beyond.head?, t.kind ≠ .else
  noElse' : ∀ t ∈ beyond'.head?, t.kind ≠ .else

namespace Fence

variable (F : Fence)

/-- In front of these tokens, with the first way to go on behind the semicolon. -/
def first (xs : List Token) (k : RefId) (fs : List Fault) : State :=
  ⟨xs ++ F.sign :: F.beyond, k, fs⟩

/-- In front of these tokens, with the second way to go on behind the semicolon. -/
def second (xs : List Token) (k : RefId) (fs : List Fault) : State :=
  ⟨xs ++ F.sign :: F.beyond', k, fs⟩

end Fence

/-- No complaint is about the end of the input. -/
def Placed (fs : List Fault) : Prop := ∀ f ∈ fs, f.token.isSome

theorem Placed.append {fs : List Fault} (h : Placed fs) (t : Token) (complaint : Syntax.Complaint) :
    Placed (fs ++ [⟨some t, complaint⟩]) := by
  intro f hf
  obtain hf | hf := List.mem_append.mp hf
  · exact h f hf
  · obtain rfl := List.mem_singleton.mp hf
    rfl

/-- The outcomes of one reader on both texts. Its answer leaves it in front of the semicolon, or behind
it if it is one that passes. -/
inductive Alike (F : Fence) (xs : List Token) :
    Bool → EStateM.Result Stop State α → EStateM.Result Stop State α → Prop
  | before {a : α} {ys : List Token} {k : RefId} {fs : List Fault} (rest : ys <:+ xs)
      (placed : Placed fs) : Alike F xs false (.ok a (F.first ys k fs)) (.ok a (F.second ys k fs))
  | behind {a : α} {k : RefId} {fs : List Fault} (placed : Placed fs) :
      Alike F xs true (.ok a ⟨F.beyond, k, fs⟩) (.ok a ⟨F.beyond', k, fs⟩)
  | fault {passes : Bool} {t : Token} {complaint : Syntax.Complaint} {ys : List Token} {k : RefId}
      {fs : List Fault} (rest : ys <:+ xs) (placed : Placed fs) :
      Alike F xs passes (.error (.fault ⟨some t, complaint⟩) (F.first ys k fs))
        (.error (.fault ⟨some t, complaint⟩) (F.second ys k fs))
  | tooDeep {passes : Bool} {s : State} {r : EStateM.Result Stop State α} :
      Alike F xs passes (.error .tooDeep s) r

theorem Alike.longer {F : Fence} {xs ys : List Token} {passes : Bool}
    {r r' : EStateM.Result Stop State α} (h : Alike F ys passes r r') (hs : ys <:+ xs) :
    Alike F xs passes r r' := by
  cases h with
  | before rest placed => exact .before (rest.trans hs) placed
  | behind placed => exact .behind placed
  | fault rest placed => exact .fault (rest.trans hs) placed
  | tooDeep => exact .tooDeep

/-- In front of just these tokens the readers have outcomes that are alike. -/
def ReadsAt (F : Fence) (passes : Bool) (p q : Parser α) (xs : List Token) : Prop :=
  ∀ k fs, Placed fs → Alike F xs passes (p (F.first xs k fs)) (q (F.second xs k fs))

/-- In front of any plain tokens the readers have outcomes that are alike. -/
def Reads (F : Fence) (passes : Bool) (p q : Parser α) : Prop :=
  ∀ xs, (∀ t ∈ xs, Plain t) → ReadsAt F passes p q xs

section Rules

variable {F : Fence} {c : Bool} {p q : Parser α} {k l : α → Parser β} {kind : Token.Kind}

namespace Reads

theorem pure (a : α) : Reads F false (Pure.pure a) (Pure.pure a) :=
  fun _ _ _ _ placed => .before List.suffix_rfl placed

theorem fail (t : Token) (complaint : Syntax.Complaint) :
    Reads F c (fail (some t) complaint : Parser α) (fail (some t) complaint) :=
  fun _ _ _ _ placed => .fault List.suffix_rfl placed

/-- What comes second is read in front of the semicolon as well. -/
theorem bind (hp : Reads F false p q) (hk : ∀ a, Reads F c (k a) (l a)) :
    Reads F c (p >>= k) (q >>= l) := by
  intro xs plain i fs placed
  have run := hp xs plain i fs placed
  simp only [Bind.bind, EStateM.bind]
  generalize p (F.first xs i fs) = r at run
  generalize q (F.second xs i fs) = r' at run
  cases run with
  | before rest placed =>
    exact (hk _ _ (fun t ht => plain t (rest.subset ht)) _ _ placed).longer rest
  | fault rest placed => exact .fault rest placed
  | tooDeep => exact .tooDeep

/-- Behind the semicolon nothing more may be taken. -/
theorem through (hp : Reads F true p q)
    (hk : ∀ a i fs, ∃ b, k a ⟨F.beyond, i, fs⟩ = .ok b ⟨F.beyond, i, fs⟩ ∧
      l a ⟨F.beyond', i, fs⟩ = .ok b ⟨F.beyond', i, fs⟩) : Reads F true (p >>= k) (q >>= l) := by
  intro xs plain i fs placed
  have run := hp xs plain i fs placed
  simp only [Bind.bind, EStateM.bind]
  generalize p (F.first xs i fs) = r at run
  generalize q (F.second xs i fs) = r' at run
  cases run with
  | @behind a i fs placed =>
    obtain ⟨b, hb, hb'⟩ := hk a i fs
    simp only [hb, hb']
    exact .behind placed
  | fault rest placed => exact .fault rest placed
  | tooDeep => exact .tooDeep

theorem returned (hp : Reads F c p q) (f : α → β) :
    Reads F c (do return f (← p)) (do return f (← q)) := by
  cases c with
  | false => exact hp.bind fun a => .pure (f a)
  | true => exact hp.through fun a _ _ => ⟨f a, rfl, rfl⟩

theorem map (f : α → β) (hp : Reads F c p q) : Reads F c (f <$> p) (f <$> q) := hp.returned f

/-- What is next is the semicolon, or a plain token. -/
theorem ahead {k l : Option Token → Parser β}
    (fence : Reads F c (k (some F.sign)) (l (some F.sign)))
    (next : ∀ t, Plain t → ∀ xs, (∀ t ∈ xs, Plain t) →
      ReadsAt F c (k (some t)) (l (some t)) (t :: xs)) : Reads F c (peek >>= k) (peek >>= l)
  | [], plain => fence [] plain
  | t :: xs, plain =>
    next t (plain t List.mem_cons_self) xs fun u hu => plain u (List.mem_cons_of_mem t hu)

/-- What is next is looked at only, so whatever it is, both go on alike. -/
theorem looked {k l : Option Token → Parser β} (hk : ∀ t, Reads F c (k (some t)) (l (some t))) :
    Reads F c (peek >>= k) (peek >>= l) :=
  ahead (hk F.sign) fun t ht xs plain => hk t (t :: xs) (List.forall_mem_cons.mpr ⟨ht, plain⟩)

theorem nextIs_bind {k l : Bool → Parser β} (hk : ∀ b, Reads F c (k b) (l b)) :
    Reads F c (nextIs kind >>= k) (nextIs kind >>= l) :=
  looked (k := fun t => k (t.any (·.kind == kind))) (l := fun t => l (t.any (·.kind == kind)))
    fun _ => hk _

/-- A token in front of the semicolon is taken. -/
theorem taken (h : Reads F c p q) {t : Token} {xs : List Token} (plain : ∀ t ∈ xs, Plain t) :
    ReadsAt F c (do skip; p) (do skip; q) (t :: xs) :=
  fun i fs placed => (h xs plain i fs placed).longer (List.suffix_cons t xs)

theorem accept?_bind (hkind : kind ≠ .semicolon) {k l : Option Token → Parser β}
    (yes : ∀ t, Reads F c (k (some t)) (l (some t))) (no : Reads F c (k none) (l none)) :
    Reads F c (accept? kind >>= k) (accept? kind >>= l) := by
  have fence : F.sign.kind ≠ kind := fun h => hkind (h.symm.trans F.isSign)
  rintro (_ | ⟨t, xs⟩) plain i fs placed
  · have run := no [] plain i fs placed
    simp only [Fence.first, Fence.second, List.nil_append] at run ⊢
    rw [bind_of_ok (accept?_of_ne fence ..), bind_of_ok (accept?_of_ne fence ..)]
    exact run
  · by_cases h : t.kind = kind
    · have run := yes t xs (fun u hu => plain u (List.mem_cons_of_mem t hu)) i fs placed
      simp only [Fence.first, Fence.second, List.cons_append] at run ⊢
      rw [bind_of_ok (accept?_of_eq h ..), bind_of_ok (accept?_of_eq h ..)]
      exact run.longer (List.suffix_cons t xs)
    · have run := no (t :: xs) plain i fs placed
      simp only [Fence.first, Fence.second, List.cons_append] at run ⊢
      rw [bind_of_ok (accept?_of_ne h ..), bind_of_ok (accept?_of_ne h ..)]
      exact run

theorem missing (complaint : Syntax.Complaint) :
    Reads F c (do Parser.fail (← peek) complaint : Parser α)
      (do Parser.fail (← peek) complaint) :=
  looked fun t => fail t complaint

theorem expect (hkind : kind ≠ .semicolon) (what : String) :
    Reads F false (expect kind what) (expect kind what) :=
  accept?_bind hkind pure (missing (.expected what))

theorem expectName (what : String) : Reads F false (expectName what) (expectName what) :=
  (expect (by decide) what).bind fun t => pure t.mark

/-- No block is opened in front of the semicolon. -/
theorem refused (what : String) {k l : Token → Parser β} :
    Reads F c (Parser.expect .leftBrace what >>= k) (Parser.expect .leftBrace what >>= l) := by
  have noBrace {t : Token} {ts : List Token} {i : RefId} {fs : List Fault} (h : t.kind ≠ .leftBrace) :
      Parser.expect .leftBrace what ⟨t :: ts, i, fs⟩ =
        .error (.fault ⟨some t, .expected what⟩) ⟨t :: ts, i, fs⟩ := by
    rw [Parser.expect, bind_of_ok (accept?_of_ne h ts i fs)]
    rfl
  rintro (_ | ⟨t, xs⟩) plain i fs placed
  · have fence : F.sign.kind ≠ .leftBrace := fun h => nomatch h.symm.trans F.isSign
    simp only [Fence.first, Fence.second, List.nil_append, Bind.bind, EStateM.bind, noBrace fence]
    exact .fault (List.suffix_refl []) placed
  · have ht := (plain t List.mem_cons_self).2.1
    simp only [Fence.first, Fence.second, List.cons_append, Bind.bind, EStateM.bind, noBrace ht]
    exact .fault (List.suffix_refl (t :: xs)) placed

/-- The semicolon ends the statement. -/
theorem semicolon (what : String) :
    Reads F true (Parser.expect .semicolon what) (Parser.expect .semicolon what) := by
  rintro (_ | ⟨t, xs⟩) plain i fs placed
  · simp only [Fence.first, Fence.second, List.nil_append, Parser.expect]
    rw [bind_of_ok (accept?_of_eq F.isSign ..), bind_of_ok (accept?_of_eq F.isSign ..)]
    exact .behind placed
  · have ht := (plain t List.mem_cons_self).1
    have given := missing (α := Token) (F := F) (c := true) (.expected what) (t :: xs) plain i fs placed
    simp only [Fence.first, Fence.second, List.cons_append, Parser.expect] at given ⊢
    rw [bind_of_ok (accept?_of_ne ht ..), bind_of_ok (accept?_of_ne ht ..)]
    exact given

/-- A semicolon, and the statement is complete. -/
theorem ended (what : String) (a : α) :
    Reads F true (do let _ ← Parser.expect .semicolon what; return a)
      (do let _ ← Parser.expect .semicolon what; return a) :=
  (semicolon what).through fun _ _ _ => ⟨a, rfl, rfl⟩

theorem freshId : Reads F false freshId freshId :=
  fun xs _ _ _ placed => .before (List.suffix_refl xs) placed

theorem report (t : Token) (complaint : Syntax.Complaint) :
    Reads F false (report (some t) complaint) (report (some t) complaint) :=
  fun xs _ _ _ placed => .before (List.suffix_refl xs) (placed.append t complaint)

theorem listed {item item' : Parser α} {others others' : Parser (List α)}
    (hi : Reads F false item item') (ho : Reads F false others others') :
    Reads F false (listed item others) (listed item' others') :=
  hi.bind fun a => accept?_bind (by decide) (fun _ => ho.bind fun others => pure (a :: others))
    (pure [a])

theorem counted (before : Nat) (what : String) (h : Reads F false p q) :
    Reads F false (counted before what p) (counted before what q) := by
  unfold Parser.counted
  split
  · exact looked fun t => (report t _).bind fun _ => h
  · exact h

end Reads

end Rules

/-- Whether a phrase that ends in front of or behind a semicolon ends behind it. Of the other phrases
nothing is said. -/
def Nonterminal.passes? : Nonterminal → Option Bool
  | .sequence _ | .declaration | .members => none
  | .statement => some true
  | _ => some false

section Productions

variable {F : Fence} {phrase phrase' : (n : Nonterminal) → Parser n.Tree}
  (hp : ∀ n c, n.passes? = some c → Reads F c (phrase n) (phrase' n))

include hp

theorem expression_reads : Reads F false (expression phrase) (expression phrase') :=
  hp (.chain .comma) false rfl

theorem operand_reads (level : Level) :
    Reads F false (operand phrase level) (operand phrase' level) := by
  cases level with
  | comma => exact hp .assignment false rfl
  | or => exact hp (.chain .and) false rfl
  | and => exact hp .ternary false rfl
  | equality => exact hp (.chain .comparison) false rfl
  | comparison => exact hp (.chain .term) false rfl
  | term => exact hp (.chain .factor) false rfl
  | factor => exact hp .unary false rfl

theorem parameters_reads (before : Nat) :
    Reads F false (parameters phrase before) (parameters phrase' before) := by
  rw [parameters_eq, parameters_eq]
  exact .counted before _ (.listed (.expectName _) (hp (.parameters (before + 1)) false rfl))

/-- A routine is given up where its body would be opened. -/
theorem routine_reads (c : Bool) (head owner : String) :
    Reads F c (routine phrase head owner) (routine phrase' head owner) := by
  have rest (params : List Lexeme) : Reads F c
      (do
        let _ ← expect .rightParen "')' after parameters"
        let _ ← expect .leftBrace ("'\x7b' before " ++ owner ++ " body")
        return ⟨params, ← block phrase⟩ : Parser (Routine RefId))
      (do
        let _ ← expect .rightParen "')' after parameters"
        let _ ← expect .leftBrace ("'\x7b' before " ++ owner ++ " body")
        return ⟨params, ← block phrase'⟩) :=
    (Reads.expect (by decide) _).bind fun _ => .refused _
  apply (Reads.expect (by decide) _).bind
  intro _
  apply Reads.nextIs_bind
  intro closes
  cases closes with
  | true => exact rest []
  | false => exact (hp (.parameters 0) false rfl).bind rest

theorem definition_reads (owner : String) :
    Reads F true (definition phrase owner) (definition phrase' owner) :=
  (Reads.expectName _).bind fun _ => (routine_reads hp true (owner ++ " name") owner).returned _

theorem lambda_reads (keyword : Token) :
    Reads F false (lambda phrase keyword) (lambda phrase' keyword) :=
  (routine_reads hp false _ _).map _

omit hp in
/-- A class is given up where its body would be opened. -/
theorem classDeclaration_reads :
    Reads F true (classDeclaration phrase) (classDeclaration phrase') := by
  apply (Reads.expectName "class name").bind
  intro name
  apply Reads.accept?_bind (by decide)
  · intro _
    apply (Reads.expectName "superclass name").bind
    intro superclass
    exact Reads.freshId.bind fun _ => .refused _
  · exact .refused _

theorem varDeclaration_reads :
    Reads F true (varDeclaration phrase) (varDeclaration phrase') := by
  apply (Reads.expectName "variable name").bind
  intro name
  apply Reads.accept?_bind (by decide)
  · intro _
    exact ((expression_reads hp).map some).bind fun _ => .ended _ _
  · exact .ended _ _

theorem expressionStatement_reads :
    Reads F true (expressionStatement phrase) (expressionStatement phrase') :=
  (expression_reads hp).bind fun _ => .ended _ _

theorem optionalBefore_reads (closing : Token.Kind) :
    Reads F false (optionalBefore phrase closing) (optionalBefore phrase' closing) := by
  apply Reads.nextIs_bind
  intro closes
  cases closes with
  | true => exact .pure none
  | false => exact (expression_reads hp).map some

/-- What is behind the semicolon does not begin with `else`, so the statement ends there. -/
theorem ifStatement_reads : Reads F true (ifStatement phrase) (ifStatement phrase') := by
  have noElse (us : List Token) (h : ∀ t ∈ us.head?, t.kind ≠ .else) (i : RefId) (fs : List Fault) :
      accept? .else ⟨us, i, fs⟩ = .ok none ⟨us, i, fs⟩ := by
    cases us with
    | nil => rfl
    | cons t us => exact accept?_of_ne (h t rfl) us i fs
  apply (Reads.expect (by decide) _).bind
  intro _
  apply (expression_reads hp).bind
  intro condition
  apply (Reads.expect (by decide) _).bind
  intro _
  apply (hp .statement true rfl).through
  intro (yes : Stmt RefId) i fs
  refine ⟨.if condition yes none, ?_, ?_⟩
  · rw [bind_of_ok (noElse _ F.noElse i fs)]
    rfl
  · rw [bind_of_ok (noElse _ F.noElse' i fs)]
    rfl

theorem whileStatement_reads : Reads F true (whileStatement phrase) (whileStatement phrase') := by
  apply (Reads.expect (by decide) _).bind
  intro _
  apply (expression_reads hp).bind
  intro condition
  apply (Reads.expect (by decide) _).bind
  intro _
  exact (hp .statement true rfl).returned _

theorem printStatement_reads : Reads F true (printStatement phrase) (printStatement phrase') :=
  (expression_reads hp).bind fun _ => .ended _ _

theorem returnStatement_reads (keyword : Token) :
    Reads F true (returnStatement phrase keyword) (returnStatement phrase' keyword) :=
  (optionalBefore_reads hp .semicolon).bind fun _ => .ended _ _

theorem statement_reads : Reads F true (statement phrase) (statement phrase') := by
  apply Reads.ahead
  · simp only [F.isSign]
    exact expressionStatement_reads hp
  · intro t ht xs plain
    have all : ∀ u ∈ t :: xs, Plain u := List.forall_mem_cons.mpr ⟨ht, plain⟩
    obtain ⟨-, notBrace, notFor⟩ := ht
    simp only
    cases hk : t.kind with
    | «for» => exact absurd hk notFor
    | leftBrace => exact absurd hk notBrace
    | «if» => exact (ifStatement_reads hp).taken plain
    | print => exact (printStatement_reads hp).taken plain
    | «return» => exact (returnStatement_reads hp t).taken plain
    | «break» => exact (Reads.ended _ _).taken plain
    | «while» => exact (whileStatement_reads hp).taken plain
    | _ => exact expressionStatement_reads hp (t :: xs) all

/-- A function and a class have a body, so neither is complete in front of the semicolon. -/
theorem declaration_reads : Reads F true (declaration phrase) (declaration phrase') := by
  have statement := hp .statement true rfl
  have function : Reads F true
      (do return .function (← definition phrase "function") : Parser (Stmt RefId))
      (do return .function (← definition phrase' "function")) := (definition_reads hp _).returned _
  have other (t : Token) (h : t.kind ≠ .class ∧ t.kind ≠ .fun ∧ t.kind ≠ .var)
      (phrase : (n : Nonterminal) → Parser n.Tree) (ts : List Token) (i : RefId) (fs : List Fault) :
      declaration phrase ⟨t :: ts, i, fs⟩ = phrase .statement ⟨t :: ts, i, fs⟩ := by
    obtain ⟨kind, lexeme, line, literal⟩ := t
    cases kind <;> first | rfl | simp at h
  have lone (t u : Token) (h : t.kind = .fun) (h' : u.kind ≠ .leftParen)
      (phrase : (n : Nonterminal) → Parser n.Tree) (ts : List Token) (i : RefId) (fs : List Fault) :
      declaration phrase ⟨t :: u :: ts, i, fs⟩ =
        (do skip; return .function (← definition phrase "function") : Parser (Stmt RefId))
          ⟨t :: u :: ts, i, fs⟩ := by
    obtain ⟨kind, lexeme, line, literal⟩ := t
    obtain rfl : kind = .fun := h
    obtain ⟨kind, lexeme, line, literal⟩ := u
    cases kind <;> first | rfl | exact absurd rfl h'
  rintro (_ | ⟨t, xs⟩) plain i fs placed
  · have run := statement [] plain i fs placed
    have h : F.sign.kind ≠ .class ∧ F.sign.kind ≠ .fun ∧ F.sign.kind ≠ .var := by
      rw [F.isSign]
      decide
    simp only [Fence.first, Fence.second, List.nil_append, other F.sign h] at run ⊢
    exact run
  · obtain ⟨kind, lexeme, line, literal⟩ := t
    have rest : ∀ t ∈ xs, Plain t := fun u hu => plain u (List.mem_cons_of_mem _ hu)
    cases kind with
    | «class» => exact classDeclaration_reads.taken rest i fs placed
    | var => exact (varDeclaration_reads hp).taken rest i fs placed
    | «fun» =>
      have run := function.taken (t := ⟨.fun, lexeme, line, literal⟩) rest i fs placed
      obtain _ | ⟨u, xs⟩ := xs
      · have h : F.sign.kind ≠ .leftParen := fun h => nomatch h.symm.trans F.isSign
        simp only [Fence.first, Fence.second, List.cons_append, List.nil_append] at run ⊢
        rw [lone _ F.sign rfl h, lone _ F.sign rfl h]
        exact run
      · by_cases h : u.kind = .leftParen
        · obtain ⟨kind, lexeme', line', literal'⟩ := u
          obtain rfl : kind = .leftParen := h
          exact statement _ plain i fs placed
        · simp only [Fence.first, Fence.second, List.cons_append] at run ⊢
          rw [lone _ u rfl h, lone _ u rfl h]
          exact run
    | _ => exact statement _ plain i fs placed

theorem assignment_reads : Reads F false (assignment phrase) (assignment phrase') := by
  apply (hp (.chain .or) false rfl).bind
  intro (left : Expr RefId)
  apply Reads.accept?_bind (by decide)
  · intro sign
    apply (hp .assignment false rfl).bind
    intro (value : Expr RefId)
    cases left with
    | «variable» ref name => exact .pure _
    | get object name => exact .pure _
    | _ => exact (Reads.report sign _).bind fun _ => .pure _
  · exact .pure left

theorem chain_reads (level : Level) : Reads F false (chain phrase level) (chain phrase' level) :=
  (operand_reads hp level).bind fun left => hp (.chainTail level left) false rfl

theorem chainTail_reads (level : Level) (left : Expr RefId) :
    Reads F false (chainTail phrase level left) (chainTail phrase' level left) := by
  apply Reads.ahead
  · have none : level.operator? F.sign.kind = none := by
      rw [F.isSign]
      cases level <;> rfl
    simp only [none]
    exact .pure left
  · intro t ht xs plain
    simp only
    cases level.operator? t.kind with
    | none => exact Reads.pure left _ (List.forall_mem_cons.mpr ⟨ht, plain⟩)
    | some op =>
      refine Reads.taken ?_ plain
      exact (operand_reads hp level).bind fun right =>
        hp (.chainTail level (op.apply t.mark left right)) false rfl

theorem ternary_reads : Reads F false (ternary phrase) (ternary phrase') := by
  apply (hp (.chain .equality) false rfl).bind
  intro (condition : Expr RefId)
  apply Reads.accept?_bind (by decide)
  · intro _
    apply (expression_reads hp).bind
    intro yes
    apply (Reads.expect (by decide) _).bind
    intro _
    exact (hp .assignment false rfl).bind fun no => .pure _
  · exact .pure condition

theorem unary_reads : Reads F false (unary phrase) (unary phrase') := by
  have call := hp .call false rfl
  apply Reads.ahead
  · simp only [F.isSign]
    exact call
  · intro t ht xs plain
    simp only
    cases unaryOperator? t.kind with
    | none => exact call _ (List.forall_mem_cons.mpr ⟨ht, plain⟩)
    | some op => exact Reads.taken ((hp .unary false rfl).bind fun e => .pure _) plain

theorem call_reads : Reads F false (call phrase) (call phrase') := by
  apply Reads.accept?_bind (by decide)
  · exact fun keyword => (lambda_reads hp keyword).bind fun e => hp (.callTail e) false rfl
  · exact (hp .primary false rfl).bind fun e => hp (.callTail e) false rfl

theorem closeCall_reads (callee : Expr RefId) (arguments : List (Expr RefId)) :
    Reads F false (closeCall phrase callee arguments) (closeCall phrase' callee arguments) :=
  (Reads.expect (by decide) _).bind fun paren =>
    hp (.callTail (.call callee arguments paren.line)) false rfl

theorem callTail_reads (callee : Expr RefId) :
    Reads F false (callTail phrase callee) (callTail phrase' callee) := by
  rw [callTail_eq, callTail_eq]
  apply Reads.accept?_bind (by decide)
  · intro _
    apply Reads.nextIs_bind
    intro closes
    cases closes with
    | true => exact closeCall_reads hp callee []
    | false => exact (hp (.arguments 0) false rfl).bind (closeCall_reads hp callee)
  · apply Reads.accept?_bind (by decide)
    · exact fun _ => (Reads.expectName _).bind fun name => hp (.callTail (.get callee name)) false rfl
    · exact .pure callee

theorem arguments_reads (before : Nat) :
    Reads F false (arguments phrase before) (arguments phrase' before) := by
  rw [arguments_eq, arguments_eq]
  exact .counted before _
    (.listed (hp .assignment false rfl) (hp (.arguments (before + 1)) false rfl))

theorem missingLeftOperand_reads (operator : Token) (level : Level) :
    Reads F false (missingLeftOperand phrase operator level)
      (missingLeftOperand phrase' operator level) :=
  (operand_reads hp level).bind fun _ => .fail operator _

omit hp in
theorem superReference_reads (keyword : Token) :
    Reads F false (superReference keyword) (superReference keyword) := by
  apply (Reads.expect (by decide) _).bind
  intro _
  apply (Reads.expectName _).bind
  intro method
  exact Reads.freshId.bind fun _ => .pure _

theorem primary_reads : Reads F false (primary phrase) (primary phrase') := by
  apply Reads.ahead
  · simp only [F.isSign]
    exact .fail F.sign _
  · intro t ht xs plain
    have literal (l : Literal) : ReadsAt F false (do skip; return .literal l : Parser (Expr RefId))
        (do skip; return .literal l) (t :: xs) := (Reads.pure _).taken plain
    have missing (level : Level) : ReadsAt F false (do skip; missingLeftOperand phrase t level)
        (do skip; missingLeftOperand phrase' t level) (t :: xs) :=
      (missingLeftOperand_reads hp t level).taken plain
    simp only
    cases t.kind with
    | false | true | nil | number | string => exact literal _
    | super => exact (superReference_reads t).taken plain
    | this | identifier => exact (Reads.freshId.bind fun _ => Reads.pure _).taken plain
    | leftParen =>
      refine Reads.taken ?_ plain
      apply (expression_reads hp).bind
      intro e
      exact (Reads.expect (by decide) _).bind fun _ => .pure _
    | comma => exact missing .comma
    | equalEqual | bangEqual => exact missing .equality
    | less | lessEqual | greater | greaterEqual => exact missing .comparison
    | plus => exact missing .term
    | star | slash => exact missing .factor
    | _ => exact Reads.fail t _ _ (List.forall_mem_cons.mpr ⟨ht, plain⟩)

theorem production_reads (n : Nonterminal) (c : Bool) (h : n.passes? = some c) :
    Reads F c (production phrase n) (production phrase' n) := by
  cases n with
  | sequence | declaration | members => cases h
  | statement =>
    cases h
    exact statement_reads hp
  | parameters before =>
    cases h
    exact parameters_reads hp before
  | assignment =>
    cases h
    exact assignment_reads hp
  | chain level =>
    cases h
    exact chain_reads hp level
  | chainTail level left =>
    cases h
    exact chainTail_reads hp level left
  | ternary =>
    cases h
    exact ternary_reads hp
  | unary =>
    cases h
    exact unary_reads hp
  | call =>
    cases h
    exact call_reads hp
  | callTail callee =>
    cases h
    exact callTail_reads hp callee
  | arguments before =>
    cases h
    exact arguments_reads hp before
  | primary =>
    cases h
    exact primary_reads hp

end Productions

/-- The second text may be given more depth. -/
theorem parseWithin_reads (F : Fence) {depth depth' : Nat} (hd : depth ≤ depth') (n : Nonterminal)
    (c : Bool) (h : n.passes? = some c) : Reads F c (parseWithin depth n) (parseWithin depth' n) := by
  induction depth generalizing depth' n c with
  | zero => exact fun _ _ _ _ _ => .tooDeep
  | succ depth ih =>
    obtain ⟨depth', rfl⟩ := Nat.exists_eq_succ_of_ne_zero (Nat.ne_zero_of_lt hd)
    exact production_reads (ih (Nat.le_of_succ_le_succ hd)) n c h

end Parser

end Lox
