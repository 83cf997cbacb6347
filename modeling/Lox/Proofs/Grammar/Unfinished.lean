import Lox.Proofs.Grammar

/-!
Programs that lack their last semicolon. Reading such a program breaks off where its tokens end, and
what is lost is its last statement and no other.
-/

namespace Lox

namespace Parser

variable {α β : Type}

/-- Reading breaks off where the tokens end, unless it needs more depth than it has. -/
def BreaksOff (p : Parser α) (s : State) : Prop :=
  (∃ f s', p s = .error (.fault f) s' ∧ s'.rest = []) ∨ ∃ t, p s = .error .tooDeep t

namespace BreaksOff

variable {p : Parser α} {k : α → Parser β} {s s₁ : State} {a : α}

theorem bind (h : BreaksOff p s) : BreaksOff (p >>= k) s := by
  simp only [BreaksOff, Bind.bind, EStateM.bind]
  obtain ⟨f, s', h, hr⟩ | ⟨t, h⟩ := h
  · rw [h]
    exact .inl ⟨f, s', rfl, hr⟩
  · rw [h]
    exact .inr ⟨t, rfl⟩

theorem after (hp : Answers p s a s₁) (hk : BreaksOff (k a) s₁) : BreaksOff (p >>= k) s := by
  simp only [BreaksOff, Bind.bind, EStateM.bind]
  obtain hp | ⟨t, hp⟩ := hp
  · rw [hp]
    exact hk
  · rw [hp]
    exact .inr ⟨t, rfl⟩

theorem map (f : α → β) (h : BreaksOff p s) : BreaksOff (f <$> p) s :=
  bind (k := fun a => Pure.pure (f a)) h

theorem within {n : Nonterminal} (h : ∀ d, BreaksOff (production (parseWithin d) n) s) (d : Nat) :
    BreaksOff (parseWithin d n) s := by
  cases d with
  | zero => exact .inr ⟨s, rfl⟩
  | succ d => exact h d

theorem expect {kind : Token.Kind} (what : String) {i : RefId} {fs : List Fault} :
    BreaksOff (expect kind what) ⟨[], i, fs⟩ := .inl ⟨_, _, rfl, rfl⟩

end BreaksOff

/-- The reader answers the tree behind a fault, and leaves no tokens. -/
def Ends (p : Parser α) (s : State) (a : α) : Prop :=
  (∃ s', p s = .ok a s' ∧ s'.rest = [] ∧ s'.faults ≠ []) ∨ ∃ t, p s = .error .tooDeep t

namespace Ends

variable {p : Parser α} {k : α → Parser β} {s s₁ : State} {a : α} {b : β}

theorem pure (hr : s.rest = []) (hf : s.faults ≠ []) : Ends (Pure.pure a) s a :=
  .inl ⟨s, rfl, hr, hf⟩

theorem bind (hp : Ends p s a) (hk : ∀ s', s'.rest = [] → s'.faults ≠ [] → Ends (k a) s' b) :
    Ends (p >>= k) s b := by
  simp only [Ends, Bind.bind, EStateM.bind]
  obtain ⟨s', hp, hr, hf⟩ | ⟨t, hp⟩ := hp
  · rw [hp]
    exact hk s' hr hf
  · rw [hp]
    exact .inr ⟨t, rfl⟩

theorem after (hp : Answers p s a s₁) (hk : Ends (k a) s₁ b) : Ends (p >>= k) s b := by
  simp only [Ends, Bind.bind, EStateM.bind]
  obtain hp | ⟨t, hp⟩ := hp
  · rw [hp]
    exact hk
  · rw [hp]
    exact .inr ⟨t, rfl⟩

theorem within {n : Nonterminal} {a : n.Tree}
    (h : ∀ d, Ends (production (parseWithin d) n) s a) (d : Nat) : Ends (parseWithin d n) s a := by
  cases d with
  | zero => exact .inr ⟨s, rfl⟩
  | succ d => exact h d

theorem sequence {phrase : (n : Nonterminal) → Parser n.Tree} {ss : List (Stmt RefId)}
    (hs : s.rest ≠ []) (h : Ends (do
      let first ← phrase .declaration
      let others ← phrase (.sequence false)
      return first.toList ++ others) s ss) : Ends (sequence phrase false) s ss := by
  unfold Ends
  rw [sequence_cons phrase hs]
  exact h

/-- Where reading breaks off there is nothing to go on with. -/
theorem recover (h : BreaksOff p s) : Ends (recover p) s none := by
  simp only [Ends, recover_run]
  obtain ⟨f, s', h, hr⟩ | ⟨t, h⟩ := h
  · rw [h]
    exact .inl ⟨_, rfl, congrArg resume hr, List.append_ne_nil_of_right_ne_nil _ nofun⟩
  · rw [h]
    exact .inr ⟨t, rfl⟩

end Ends

end Parser

namespace Grammar

open Lox.Parser

/-- What is read of a phrase without its last token, where that token is a semicolon. -/
def Unfinished : (n : Symbol) → List Token → RefId → n.Tree → Prop
  | .declarations, ts, i, ss => ∀ fs d,
      Ends (parseWithin d (.sequence false)) ⟨ts, i, fs⟩ ss.dropLast
  | .declaration, ts, i, _ => ∀ fs d, BreaksOff (declaration (parseWithin d)) ⟨ts, i, fs⟩
  | .variableDeclaration, ts, i, _ => ∃ word us, ts = word :: us ∧ word.kind = .var ∧
      ∀ fs d, BreaksOff (varDeclaration (parseWithin d)) ⟨us, i, fs⟩
  | .statement, ts, i, _ => ∀ fs d, BreaksOff (parseWithin d .statement) ⟨ts, i, fs⟩
  | .expressionStatement, ts, i, _ => ∀ fs d,
      BreaksOff (expressionStatement (parseWithin d)) ⟨ts, i, fs⟩
  | .function, _, _, _ | .routine, _, _, _ => False
  | _, _, _, _ => True

theorem eq_of_append_eq (front : List Token) {ts : List Token} {last sign : Token}
    (h : front ++ [last] = ts ++ [sign]) : front = ts ∧ last = sign := by
  obtain ⟨hfront, hlast⟩ := List.append_inj' h rfl
  exact ⟨hfront, List.singleton_inj.mp hlast⟩

theorem exists_of_append_eq (front : List Token) {ys ts : List Token} {sign : Token} (hy : ys ≠ [])
    (h : front ++ ys = ts ++ [sign]) : ∃ us, ys = us ++ [sign] ∧ ts = front ++ us := by
  obtain ⟨us, y, rfl⟩ : ∃ us y, ys = us ++ [y] := ⟨_, _, (List.dropLast_append_getLast hy).symm⟩
  rw [← List.append_assoc] at h
  obtain ⟨ht, rfl⟩ := eq_of_append_eq _ h
  exact ⟨us, rfl, ht.symm⟩

section Cases

variable {ts us : List Token} {i j k l : RefId} {o o' : Bool}

/-- An expression is read up to the end. -/
theorem Tier.Completes.toEnd {e : Expr RefId} (h : (Tier.chain .comma).Completes o ts i e j)
    (fs : List Fault) (d : Nat) :
    Answers (Parser.expression (parseWithin d)) ⟨ts, i, fs⟩ e ⟨[], j, fs⟩ := by
  have stops : (Tier.chain .comma).Stops o [] := nofun
  have read := h.readAs stops fs d
  rwa [List.append_nil] at read

theorem unfinished_unassigned {word name : Token} (hword : word.kind = .var)
    (hname : name.kind = .identifier) (s : Stmt RefId) :
    Unfinished .variableDeclaration [word, name] i s := by
  refine ⟨word, _, rfl, hword, fun fs d => ?_⟩
  refine .after (.expectName _ hname) (.after (.accept_none nofun) ?_)
  exact .after (.pure _ _) (.bind (.expect _))

theorem unfinished_assigned {word name equal : Token} {e : Expr RefId} (hword : word.kind = .var)
    (hname : name.kind = .identifier) (hequal : equal.kind = .equal)
    (h : (Tier.chain .comma).Completes o ts i e j) (s : Stmt RefId) :
    Unfinished .variableDeclaration (word :: name :: equal :: ts) i s := by
  refine ⟨word, _, rfl, hword, fun fs d => ?_⟩
  refine .after (.expectName _ hname) (.after (.accept hequal) ?_)
  exact .after (.map _ (h.toEnd fs d)) (.bind (.expect _))

theorem unfinished_expressionStatement {e : Expr RefId}
    (h : (Tier.chain .comma).Completes o ts i e j) (s : Stmt RefId) :
    Unfinished .expressionStatement ts i s := by
  intro fs d
  exact .after (h.toEnd fs d) (.bind (.expect _))

theorem unfinished_print {word : Token} {e : Expr RefId} (hword : word.kind = .print)
    (h : (Tier.chain .comma).Completes o ts i e j) (s : Stmt RefId) :
    Unfinished .statement (word :: ts) i s := by
  intro fs
  obtain ⟨kind, lexeme, line, literal⟩ := word
  obtain rfl : kind = .print := hword
  refine BreaksOff.within fun d => .after .peek (.after .skip ?_)
  exact .after (h.toEnd fs d) (.bind (.expect _))

theorem unfinished_leave {word : Token} (hword : word.kind = .break) (s : Stmt RefId) :
    Unfinished .statement [word] i s := by
  intro fs
  obtain ⟨kind, lexeme, line, literal⟩ := word
  obtain rfl : kind = .break := hword
  exact BreaksOff.within fun d => .after .peek (.after .skip (.bind (.expect _)))

/-- An expression is missed where there are no tokens. -/
theorem expression_breaksOff (fs : List Fault) :
    ∀ d, BreaksOff (Parser.expression (parseWithin d)) ⟨[], i, fs⟩ := by
  have primary := BreaksOff.within (n := .primary) (s := ⟨[], i, fs⟩) fun d =>
    .after .peek (.inl ⟨_, _, rfl, rfl⟩)
  have call := BreaksOff.within (n := .call) (s := ⟨[], i, fs⟩) fun d =>
    .after (.accept_none nofun) (.bind (primary d))
  have unary := BreaksOff.within (n := .unary) (s := ⟨[], i, fs⟩) fun d => .after .peek (call d)
  have chain (level : Level)
      (h : ∀ d, BreaksOff (Parser.operand (parseWithin d) level) ⟨[], i, fs⟩) :=
    BreaksOff.within (n := .chain level) (s := ⟨[], i, fs⟩) fun d => .bind (h d)
  have equality : ∀ d, BreaksOff (parseWithin d (.chain .equality)) ⟨[], i, fs⟩ :=
    chain .equality (chain .comparison (chain .term (chain .factor unary)))
  have ternary := BreaksOff.within (n := .ternary) (s := ⟨[], i, fs⟩) fun d => .bind (equality d)
  have or : ∀ d, BreaksOff (parseWithin d (.chain .or)) ⟨[], i, fs⟩ :=
    chain .or (chain .and ternary)
  have assignment := BreaksOff.within (n := .assignment) (s := ⟨[], i, fs⟩) fun d => .bind (or d)
  exact chain .comma assignment

theorem unfinished_answer {word : Token} (hword : word.kind = .return)
    {e : Option (Expr RefId)} (h : Derives true .optionalExpression o ts i e j) (s : Stmt RefId) :
    Unfinished .statement (word :: ts) i s := by
  intro fs
  obtain ⟨kind, lexeme, line, literal⟩ := word
  obtain rfl : kind = .return := hword
  refine BreaksOff.within fun d => .after .peek (.after .skip ?_)
  cases h with
  | noExpression =>
    exact .bind (.after (.inl rfl) (.map _ (expression_breaksOff fs d)))
  | someExpression he =>
    have read := he.completes.toEnd fs d
    obtain ⟨t, us, rfl, begins, -⟩ := he.begun
    have other : t.kind ≠ .semicolon := by
      intro ht
      rw [ht] at begins
      cases begins
    exact .after (.bind (.nextIs_false other) (.map _ read)) (.bind (.expect _))

theorem unfinished_expression {s : Stmt RefId} (h : Unfinished .expressionStatement ts i s)
    (hb : Begins beginsExpression ts) : Unfinished .statement ts i s := by
  intro fs
  have hs := h fs
  obtain ⟨⟨kind, lexeme, line, literal⟩, us, rfl, ht, -⟩ := hb
  refine BreaksOff.within fun d => .after .peek ?_
  have hs := hs d
  cases kind <;> first | exact hs | cases ht

theorem unfinished_ifOnly {word left right : Token} {c : Expr RefId} {y : Stmt RefId}
    (hword : word.kind = .if) (hleft : left.kind = .leftParen)
    (condition : (Tier.chain .comma).Completes o ts i c j) (hright : right.kind = .rightParen)
    (yes : Unfinished .statement us j y) (s : Stmt RefId) :
    Unfinished .statement (word :: left :: (ts ++ right :: us)) i s := by
  intro fs
  obtain ⟨kind, lexeme, line, literal⟩ := word
  obtain rfl : kind = .if := hword
  refine BreaksOff.within fun d => .after .peek (.after .skip (.after (.expect _ hleft) ?_))
  refine .after (condition.expression hright rfl us fs d) (.after (.expect _ hright) ?_)
  exact .bind (yes fs d)

theorem unfinished_ifElse {word left right other : Token} {vs : List Token} {c : Expr RefId}
    {y n : Stmt RefId} (hword : word.kind = .if) (hleft : left.kind = .leftParen)
    (condition : (Tier.chain .comma).Completes o ts i c j) (hright : right.kind = .rightParen)
    (yes : Completes .statement false us j y k) (hother : other.kind = .else)
    (no : Unfinished .statement vs k n) (s : Stmt RefId) :
    Unfinished .statement (word :: left :: (ts ++ right :: (us ++ other :: vs))) i s := by
  intro fs
  obtain ⟨kind, lexeme, line, literal⟩ := word
  obtain rfl : kind = .if := hword
  refine BreaksOff.within fun d => .after .peek (.after .skip (.after (.expect _ hleft) ?_))
  refine .after (condition.expression hright rfl _ fs d) (.after (.expect _ hright) ?_)
  refine .after (yes _ nofun fs d) (.after (.accept hother) ?_)
  exact .bind (no fs d)

theorem unfinished_whileLoop {word left right : Token} {c : Expr RefId} {body : Stmt RefId}
    (hword : word.kind = .while) (hleft : left.kind = .leftParen)
    (condition : (Tier.chain .comma).Completes o ts i c j) (hright : right.kind = .rightParen)
    (statement : Unfinished .statement us j body) (s : Stmt RefId) :
    Unfinished .statement (word :: left :: (ts ++ right :: us)) i s := by
  intro fs
  obtain ⟨kind, lexeme, line, literal⟩ := word
  obtain rfl : kind = .while := hword
  refine BreaksOff.within fun d => .after .peek (.after .skip (.after (.expect _ hleft) ?_))
  refine .after (condition.expression hright rfl us fs d) (.after (.expect _ hright) ?_)
  exact .bind (statement fs d)

theorem unfinished_forLoop {word left sign right : Token} {vs ws : List Token}
    {initial : Option (Stmt RefId)} {condition increment : Option (Expr RefId)} {body : Stmt RefId}
    {o₁ : Bool} (hword : word.kind = .for) (hleft : left.kind = .leftParen)
    (first : Completes .initializer o ts i initial j)
    (second : Completes .optionalExpression o' us j condition k) (hsign : sign.kind = .semicolon)
    (last : Completes .optionalExpression o₁ vs k increment l) (hright : right.kind = .rightParen)
    (statement : Unfinished .statement ws l body) (s : Stmt RefId) :
    Unfinished .statement (word :: left :: (ts ++ (us ++ sign :: (vs ++ right :: ws)))) i s := by
  intro fs
  obtain ⟨kind, lexeme, line, literal⟩ := word
  obtain rfl : kind = .for := hword
  refine BreaksOff.within fun d => .after .peek (.after .skip ?_)
  rw [forStatement_eq]
  refine .after (.expect _ hleft) ?_
  have clauses (initial : Option (Stmt RefId)) : BreaksOff (forClauses (parseWithin d) initial)
      ⟨us ++ sign :: (vs ++ right :: ws), j, fs⟩ := by
    refine .after (second _ sign _ hsign (.inl rfl) fs d) (.after (.expect _ hsign) ?_)
    refine .after (last _ right _ hright (.inr rfl) fs d) (.after (.expect _ hright) ?_)
    exact .bind (statement fs d)
  obtain ⟨start, rfl, hstart, rfl, rfl⟩ | ⟨s, rfl, hb, he⟩ | ⟨s, rfl, var, vars, rfl, hvar, hv⟩ := first
  · exact .after (.accept hstart) (clauses none)
  · have he := he (us ++ sign :: (vs ++ right :: ws)) fs d
    refine .after (.accept_none (hb.head_ne rfl _)) (.after (.accept_none (hb.head_ne rfl _)) ?_)
    exact .after (.map _ he) (clauses (some s))
  · refine .after (.accept_none ?_) (.after (.accept hvar) ?_)
    · rintro t ⟨rfl⟩
      rw [hvar]
      decide
    · exact .after (.map _ (hv _ fs d)) (clauses (some s))

theorem unfinished_variableDeclaration {s : Stmt RefId}
    (h : Unfinished .variableDeclaration ts i s) : Unfinished .declaration ts i s := by
  intro fs d
  obtain ⟨⟨kind, lexeme, line, literal⟩, us, rfl, hword, hv⟩ := h
  obtain rfl : kind = .var := hword
  exact .after .get (.after .skip (hv fs d))

theorem unfinished_statement {s : Stmt RefId} (h : Unfinished .statement ts i s)
    (hb : Begins beginsStatement ts) : Unfinished .declaration ts i s := by
  intro fs d
  have hs := h fs d
  obtain ⟨⟨kind, lexeme, line, literal⟩, us, rfl, hk, hf⟩ := hb
  refine .after .get ?_
  cases kind with
  | «fun» =>
    obtain ⟨⟨kind, lexeme', line', literal'⟩, vs, rfl, hu⟩ := hf rfl
    obtain rfl : kind = .leftParen := hu
    exact hs
  | _ => first | exact hs | cases hk

/-- A broken declaration is the last one, and it is dropped. -/
theorem unfinished_lastDeclaration {s : Stmt RefId} (hts : ts ≠ [])
    (h : Unfinished .declaration ts i s) : Unfinished .declarations ts i [s] := by
  intro fs
  refine Ends.within fun d => Ends.sequence hts ?_
  have first := Ends.within (n := .declaration) (fun d => .recover (h fs d)) d
  refine .bind first fun s₁ hr hf => .bind (Ends.within (fun d => ?_) d) fun s₂ hr hf => .pure hr hf
  obtain ⟨rest, k, fs'⟩ := s₁
  subst hr
  exact .pure rfl hf

theorem Derives.eq_nil {best : Bool} {ss : List (Stmt RefId)}
    (h : Derives best .declarations o ts i ss j) (hts : ts = []) : ss = [] := by
  cases h with
  | noDeclaration => rfl
  | declarations first =>
    obtain ⟨t, us, rfl, -⟩ := first.begun
    cases hts

theorem Derives.ne_nil {best : Bool} {ss : List (Stmt RefId)}
    (h : Derives best .declarations o ts i ss j) (hts : ts ≠ []) : ss ≠ [] := by
  cases h with
  | noDeclaration => exact absurd rfl hts
  | declarations => exact List.cons_ne_nil _ _

theorem unfinished_declarations {sign : Token} {s : Stmt RefId} {ss : List (Stmt RefId)}
    (hs : Derives true .declaration o ts i s j)
    (hss : Derives true .declarations o' (us ++ [sign]) j ss k)
    (others : Unfinished .declarations us j ss) : Unfinished .declarations (ts ++ us) i (s :: ss) := by
  intro fs
  have ends : EndsBlock false [] := rfl
  have stops : StopsElse o us := fun _ t ht =>
    head_ne_else hss ends t (by simp [Option.mem_def.mp ht])
  have nonempty : ts ++ us ≠ [] := by
    obtain ⟨t, vs, rfl, -⟩ := hs.begun
    exact List.cons_ne_nil _ _
  obtain ⟨t, ss, rfl⟩ := List.exists_cons_of_ne_nil
    (hss.ne_nil (List.append_ne_nil_of_right_ne_nil _ nofun))
  refine Ends.within fun d => Ends.sequence nonempty ?_
  refine .after (hs.completes us stops fs d) (.bind (others fs d) fun s' hr hf => ?_)
  exact .pure hr hf

theorem Begins.of_append {p : Token.Kind → Bool} {sign : Token} (h : Begins p (ts ++ [sign]))
    (hsign : sign.kind = .semicolon) (hp : p .semicolon = false) : Begins p ts := by
  obtain ⟨t, vs, hts, ht, hf⟩ := h
  cases ts with
  | nil =>
    cases hts
    rw [hsign, hp] at ht
    cases ht
  | cons t' us =>
    injection hts with he hts
    subst he
    refine ⟨t', us, rfl, ht, fun hk => ?_⟩
    obtain ⟨u, ws, rfl, hu⟩ := hf hk
    cases us with
    | nil =>
      cases hts
      cases hsign.symm.trans hu
    | cons u' us =>
      injection hts with he
      exact ⟨u', us, rfl, he ▸ hu⟩

end Cases

/-- Without its last semicolon a program loses its last statement. -/
theorem Derives.unfinished {n : Symbol} {o : Bool} {us : List Token} {i j : RefId} {a : n.Tree}
    (h : Derives true n o us i a j) {ts : List Token} {sign : Token} (hus : us = ts ++ [sign])
    (hsign : sign.kind = .semicolon) : Unfinished n ts i a := by
  have notClosing {closing : Token} (hclosing : closing.kind = .rightBrace)
      (hlast : closing = sign) : False := by
    subst hlast
    cases hclosing.symm.trans hsign
  induction h generalizing ts with
  | noDeclaration => exact absurd hus.symm (List.append_ne_nil_of_right_ne_nil _ nofun)
  | @declarations front rest _ _ _ _ _ _ _ hs hss ih ih' =>
    by_cases hr : rest = []
    · rw [hr, List.append_nil] at hus
      rw [hss.eq_nil hr]
      refine unfinished_lastDeclaration ?_ (ih hus)
      rintro rfl
      obtain ⟨t, vs, rfl, begins⟩ := hs.begun
      cases hus
      rw [hsign] at begins
      cases begins
    · obtain ⟨us, rfl, rfl⟩ := exists_of_append_eq _ hr hus
      exact unfinished_declarations hs hss (ih' rfl)
  | classDeclaration _ _ _ _ _ hclosing =>
    obtain ⟨us, hrest, -⟩ := exists_of_append_eq (_ :: _ :: _) (List.cons_ne_nil _ _) hus
    exact (notClosing hclosing (eq_of_append_eq (_ :: _) hrest).2).elim
  | functionDeclaration _ hd ih =>
    obtain ⟨t, vs, rfl, -⟩ := hd.begun
    obtain ⟨us, hrest, -⟩ := exists_of_append_eq [_] (List.cons_ne_nil _ _) hus
    exact (ih hrest).elim
  | variableDeclaration _ ih => exact unfinished_variableDeclaration (ih hus)
  | statement hs ih =>
    subst hus
    exact unfinished_statement (ih rfl) (Begins.of_append hs.begun hsign rfl)
  | function _ hr ih =>
    obtain ⟨t, vs, rfl, -⟩ := hr.begun
    obtain ⟨us, hrest, -⟩ := exists_of_append_eq [_] (List.cons_ne_nil _ _) hus
    exact ih hrest
  | routine _ _ _ _ _ _ hclosing =>
    obtain ⟨us, hrest, -⟩ := exists_of_append_eq (_ :: _) (List.cons_ne_nil _ _) hus
    exact notClosing hclosing (eq_of_append_eq (_ :: _ :: _) hrest).2
  | unassigned i hword hname =>
    obtain ⟨rfl, -⟩ := eq_of_append_eq [_, _] hus
    exact unfinished_unassigned hword hname _
  | assigned hword hname hequal he =>
    obtain ⟨rfl, -⟩ := eq_of_append_eq (_ :: _ :: _ :: _) hus
    exact unfinished_assigned hword hname hequal he.completes _
  | expression hs ih =>
    subst hus
    exact unfinished_expression (ih rfl) (Begins.of_append hs.begun hsign rfl)
  | forLoop hword hleft first second hsecond last hright statement _ _ _ ih =>
    obtain ⟨t, vs, rfl, -⟩ := statement.begun
    obtain ⟨us, hclauses, rfl⟩ := exists_of_append_eq (_ :: _ :: _)
      (List.append_ne_nil_of_right_ne_nil _ (List.cons_ne_nil _ _)) hus
    obtain ⟨us, hlast, rfl⟩ := exists_of_append_eq _ (List.cons_ne_nil _ _) hclauses
    obtain ⟨us, hclosed, rfl⟩ := exists_of_append_eq (_ :: _) (List.cons_ne_nil _ _) hlast
    obtain ⟨us, hbody, rfl⟩ := exists_of_append_eq [_] (List.cons_ne_nil _ _) hclosed
    exact unfinished_forLoop hword hleft first.completes second.completes hsecond last.completes
      hright (ih hbody) _
  | ifOnly hword hleft condition hright yes _ ih =>
    obtain ⟨t, vs, rfl, -⟩ := yes.begun
    obtain ⟨us, hrest, rfl⟩ := exists_of_append_eq (_ :: _ :: _) (List.cons_ne_nil _ _) hus
    obtain ⟨us, hbody, rfl⟩ := exists_of_append_eq [_] (List.cons_ne_nil _ _) hrest
    exact unfinished_ifOnly hword hleft condition.completes hright (ih hbody) _
  | ifElse hword hleft condition hright yes nearest hother no _ _ ih =>
    obtain ⟨t, vs, rfl, -⟩ := no.begun
    obtain ⟨us, hrest, rfl⟩ := exists_of_append_eq (_ :: _ :: _) (List.cons_ne_nil _ _) hus
    obtain ⟨us, hother', rfl⟩ := exists_of_append_eq (_ :: _) (List.cons_ne_nil _ _) hrest
    obtain ⟨us, hbody, rfl⟩ := exists_of_append_eq [_] (List.cons_ne_nil _ _) hother'
    exact unfinished_ifElse hword hleft condition.completes hright (nearest rfl ▸ yes.completes)
      hother (ih hbody) _
  | print hword value =>
    obtain ⟨rfl, -⟩ := eq_of_append_eq (_ :: _) hus
    exact unfinished_print hword value.completes _
  | answer hword value =>
    obtain ⟨rfl, -⟩ := eq_of_append_eq (_ :: _) hus
    exact unfinished_answer hword value _
  | leave _ hword =>
    obtain ⟨rfl, -⟩ := eq_of_append_eq [_] hus
    exact unfinished_leave hword _
  | whileLoop hword hleft condition hright statement _ ih =>
    obtain ⟨t, vs, rfl, -⟩ := statement.begun
    obtain ⟨us, hrest, rfl⟩ := exists_of_append_eq (_ :: _ :: _) (List.cons_ne_nil _ _) hus
    obtain ⟨us, hbody, rfl⟩ := exists_of_append_eq [_] (List.cons_ne_nil _ _) hrest
    exact unfinished_whileLoop hword hleft condition.completes hright (ih hbody) _
  | block _ _ hclosing =>
    exact (notClosing hclosing (eq_of_append_eq (_ :: _) hus).2).elim
  | expressionStatement he =>
    obtain ⟨rfl, -⟩ := eq_of_append_eq _ hus
    exact unfinished_expressionStatement he.completes _
  | _ => trivial

end Grammar

/-- A program without its last semicolon is read with a fault, and without its last statement. -/
theorem parse_unfinished {tokens tokens' : List Token} {sign : Token}
    (ho : ∀ t ∈ (Token.untilEof tokens).1, t.Genuine) (hsign : sign.kind = .semicolon)
    (ht : (Token.untilEof tokens).1 = (Token.untilEof tokens').1 ++ [sign]) {first : RefId}
    (h : (parse tokens first).errors = []) : (parse tokens' first).errors ≠ [] ∧
      (parse tokens' first).statements = (parse tokens first).statements.dropLast := by
  obtain ⟨o, derives⟩ := derives_of_parse rfl ho h
  have ho' : ∀ t ∈ (Token.untilEof tokens').1, t.Genuine := fun t hm =>
    ho t (ht ▸ List.mem_append_left _ hm)
  obtain ⟨s, hs, he, -⟩ := parse_run rfl ho' first
  have ends : ∀ fs d, Parser.Ends (Parser.parseWithin d (.sequence false)) _ _ :=
    derives.unfinished ht hsign
  obtain ⟨s', hs', -, hf⟩ | ⟨s', hs'⟩ := ends [] (Parser.depthFor (Token.untilEof tokens').1.length)
  · injection hs.symm.trans hs' with hss hstate
    rw [he, hstate]
    exact ⟨fun hn => hf (List.map_eq_nil_iff.mp hn), hss⟩
  · cases hs.symm.trans hs'

end Lox
