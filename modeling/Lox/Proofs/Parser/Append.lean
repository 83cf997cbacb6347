import Lox.Proofs.Parser.Reading

/-!
Reading a longer text. What was read of some tokens without a fault is read alike when more tokens
stand behind them, if reading stopped before the last of them or closed what it had opened. So a
program without faults is read alike when another program follows it.
-/

namespace Lox

namespace Parser

variable {α β : Type}

/-- The state with more tokens at its end. -/
def State.extend (us : List Token) (s : State) : State := { s with rest := s.rest ++ us }

theorem State.Leads.faults_eq {s s₁ s₂ : State} (h : s.Leads s₁) (h' : s₁.Leads s₂)
    (he : s₂.faults = s.faults) : s₁.faults = s.faults :=
  (h.faults.eq_of_length_le (he ▸ h'.faults.length_le)).symm

/-- In the state, the second reader goes on as the first one does with more tokens behind. A reader
that is not closed may have looked for more where its tokens ended. -/
def Extends (us : List Token) (closed : Bool) (p q : Parser α) (s : State) : Prop :=
  match p s with
  | .ok a s' => s.Leads s' ∧ (s'.faults = s.faults → closed = true ∨ s'.rest ≠ [] ∨ us = [] →
      q (s.extend us) = .ok a (s'.extend us))
  | .error _ s' => s.Leads s'

/-- Where no token is left the reader does not succeed. -/
def Demands (p : Parser α) (s : State) : Prop := ∀ a s', p s = .ok a s' → s.rest ≠ []

section Rules

variable {us : List Token} {c : Bool} {p q : Parser α} {k l : α → Parser β} {s : State}

theorem Extends.leads (h : Extends us c p q s) {a : α} {s' : State} (hp : p s = .ok a s') :
    s.Leads s' := by
  rw [Extends, hp] at h
  exact h.1

theorem Extends.weaken (h : Extends us true p q s) : Extends us c p q s := by
  unfold Extends at h ⊢
  cases hp : p s with
  | ok a s' =>
    rw [hp] at h
    exact ⟨h.1, fun hf _ => h.2 hf (.inl rfl)⟩
  | error e s' =>
    rw [hp] at h
    exact h

/-- A reader that does not succeed is followed by any other. -/
theorem Extends.of_never {r : Parser α} (h : Extends us c p r s)
    (hn : ∀ a s', p s ≠ .ok a s') : Extends us c p q s := by
  unfold Extends at h ⊢
  cases hp : p s with
  | ok a s' => exact absurd hp (hn a s')
  | error e s' =>
    rw [hp] at h
    exact h

theorem Extends.pure (a : α) : Extends us c (Pure.pure a) (Pure.pure a) s :=
  ⟨State.Leads.refl s, fun _ _ => rfl⟩

theorem Extends.fail (token : Option Token) (complaint : Syntax.Complaint) :
    Extends us c (fail token complaint : Parser α) q s := State.Leads.refl s

/-- The general form of two readers in a row. -/
theorem Extends.bind_of {b : Bool} (hp : Extends us b p q s)
    (hk : ∀ a s', p s = .ok a s' → s.Leads s' → Extends us c (k a) (l a) s')
    (hc : c = true → ∀ a s', p s = .ok a s' → b = true ∨ Demands (k a) s') :
    Extends us c (p >>= k) (q >>= l) s := by
  unfold Extends at hp ⊢
  simp only [Bind.bind, EStateM.bind]
  cases hps : p s with
  | error e s' =>
    rw [hps] at hp
    exact hp
  | ok a s₁ =>
    rw [hps] at hp
    obtain ⟨h₁, hq⟩ := hp
    have hk := hk a s₁ hps h₁
    unfold Extends at hk
    cases hks : k a s₁ with
    | error e s₂ =>
      rw [hks] at hk
      simp only [hks]
      exact h₁.trans hk
    | ok r s₂ =>
      rw [hks] at hk
      obtain ⟨h₂, hl⟩ := hk
      simp only [hks]
      refine ⟨h₁.trans h₂, fun hf hr => ?_⟩
      have hf₁ := h₁.faults_eq h₂ hf
      have hr₁ : b = true ∨ s₁.rest ≠ [] ∨ us = [] := by
        obtain hr | hr | hr := hr
        · obtain hc | hd := hc hr a s₁ hps
          · exact .inl hc
          · exact .inr (.inl (hd r s₂ hks))
        · refine .inr (.inl fun h => hr ?_)
          exact List.suffix_nil.mp (h ▸ h₂.rest)
        · exact .inr (.inr hr)
      rw [hq hf₁ hr₁]
      exact hl (hf.trans hf₁.symm) hr

theorem Extends.bind (hp : Extends us c p q s)
    (hk : ∀ a s', s.Leads s' → Extends us c (k a) (l a) s') :
    Extends us c (p >>= k) (q >>= l) s :=
  hp.bind_of (fun a s' _ => hk a s') fun hc _ _ _ => .inl hc

/-- What was open before is closed by a reader that takes a token. -/
theorem Extends.bind_open (hp : Extends us false p q s)
    (hk : ∀ a s', s.Leads s' → Extends us c (k a) (l a) s')
    (hd : ∀ a s', s.Leads s' → Demands (k a) s') : Extends us c (p >>= k) (q >>= l) s :=
  hp.bind_of (fun a s' _ => hk a s') fun _ a s' h => .inr (hd a s' (hp.leads h))

theorem Extends.map (f : α → β) (hp : Extends us c p q s) : Extends us c (f <$> p) (f <$> q) s :=
  hp.bind (k := fun a => Pure.pure (f a)) (l := fun a => Pure.pure (f a)) fun _ _ _ => .pure _

theorem Demands.of_ne (h : s.rest ≠ []) : Demands p s := fun _ _ _ => h

theorem Demands.bind (h : Demands p s) : Demands (p >>= k) s := by
  intro b s₂ hb
  simp only [Bind.bind, EStateM.bind] at hb
  cases hp : p s with
  | ok a s₁ => exact h a s₁ hp
  | error e s₁ =>
    rw [hp] at hb
    cases hb

/-- A reader that takes no tokens may come first. -/
theorem Demands.after (hp : Extends us c p q s) (hk : ∀ a s', s.Leads s' → Demands (k a) s') :
    Demands (p >>= k) s := by
  intro b s₂ hb
  simp only [Bind.bind, EStateM.bind] at hb
  cases hps : p s with
  | ok a s₁ =>
    rw [hps] at hb
    have h₁ := hp.leads hps
    intro h
    exact hk a s₁ h₁ b s₂ hb (List.suffix_nil.mp (h ▸ h₁.rest))
  | error e s₁ =>
    rw [hps] at hb
    cases hb

theorem Extends.peek_bind {k l : Option Token → Parser β}
    (hk : ∀ t, s.rest.head? = t → Extends us c (k t) (l t) s)
    (hd : c = true → s.rest = [] → Demands (k none) s) :
    Extends us c (peek >>= k) (peek >>= l) s := by
  refine Extends.bind_of (b := false) ?_ ?_ ?_
  · refine ⟨State.Leads.refl s, fun _ hr => ?_⟩
    have hh : (s.rest ++ us).head? = s.rest.head? := by
      obtain hr | hr | rfl := hr
      · cases hr
      · obtain ⟨t, ts, hs⟩ := List.exists_cons_of_ne_nil hr
        rw [hs]
        rfl
      · rw [List.append_nil]
    exact congrArg (EStateM.Result.ok · (s.extend us)) hh
  · intro t s' hp _
    injection hp with ht hs
    subst ht hs
    exact hk _ rfl
  · intro hc t s' hp
    injection hp with ht hs
    subst ht hs
    rcases hs : s.rest with _ | ⟨t, ts⟩
    · exact .inr (hd hc hs)
    · exact .inr (.of_ne (by rw [hs]; exact List.cons_ne_nil t ts))

theorem Extends.skip (h : s.rest ≠ []) : Extends us c skip skip s := by
  obtain ⟨_ | ⟨t, ts⟩, n, fs⟩ := s
  · exact absurd rfl h
  · exact ⟨⟨List.suffix_cons t ts, Nat.le_refl n, List.prefix_refl fs⟩, fun _ _ => rfl⟩

theorem Extends.nextIs_bind {kind : Token.Kind} {k l : Bool → Parser β}
    (hk : ∀ b, Extends us c (k b) (l b) s)
    (hd : c = true → s.rest = [] → Demands (k false) s) :
    Extends us c (nextIs kind >>= k) (nextIs kind >>= l) s :=
  peek_bind (fun _ _ => hk _) hd

theorem Extends.atEnd_bind {k l : Bool → Parser β} (hk : ∀ b, Extends us c (k b) (l b) s)
    (hd : c = true → s.rest = [] → Demands (k true) s) :
    Extends us c (atEnd >>= k) (atEnd >>= l) s :=
  peek_bind (fun _ _ => hk _) hd

/-- A token that may be missing; if it is, the tokens behind must not begin with it either. -/
theorem Extends.accept?_bind {kind : Token.Kind} {k l : Option Token → Parser β}
    (hk : ∀ t s', s.Leads s' → (t.isNone → s' = s) → Extends us c (k t) (l t) s')
    (hd : c = true → s.rest = [] → Demands (k none) s ∨ ∀ t ∈ us.head?, t.kind ≠ kind) :
    Extends us c (accept? kind >>= k) (accept? kind >>= l) s := by
  obtain ⟨_ | ⟨t, ts⟩, n, fs⟩ := s
  · by_cases hu : ∀ t ∈ us.head?, t.kind ≠ kind
    · refine Extends.bind_of (b := true) ?_ ?_ fun _ _ _ _ => .inl rfl
      · refine ⟨State.Leads.refl _, fun _ _ => ?_⟩
        obtain _ | ⟨u, us⟩ := us
        · rfl
        · exact accept?_of_ne (hu u rfl) us n fs
      · intro t s' hp hl
        injection hp with ht hs
        subst ht hs
        exact hk _ _ hl fun _ => rfl
    · refine Extends.bind_of (b := false) ?_ ?_ ?_
      · refine ⟨State.Leads.refl _, fun _ hr => ?_⟩
        obtain hr | hr | hr := hr
        · cases hr
        · exact absurd rfl hr
        · subst hr
          rfl
      · intro t s' hp hl
        injection hp with ht hs
        subst ht hs
        exact hk _ _ hl fun _ => rfl
      · intro hc t s' hp
        injection hp with ht hs
        subst ht hs
        exact .inr ((hd hc rfl).resolve_right hu)
  · refine Extends.bind_of (b := true) ?_ ?_ fun _ _ _ _ => .inl rfl
    · by_cases h : t.kind = kind
      · have hl : State.Leads ⟨t :: ts, n, fs⟩ ⟨ts, n, fs⟩ :=
          ⟨List.suffix_cons t ts, Nat.le_refl n, List.prefix_refl fs⟩
        rw [Extends, accept?_of_eq h]
        exact ⟨hl, fun _ _ => accept?_of_eq h _ _ _⟩
      · rw [Extends, accept?_of_ne h]
        exact ⟨State.Leads.refl _, fun _ _ => accept?_of_ne h _ _ _⟩
    · intro o s' hp hl
      refine hk o s' hl fun ho => ?_
      by_cases h : t.kind = kind
      · rw [accept?_of_eq h] at hp
        injection hp with h₁ h₂
        rw [← h₁] at ho
        cases ho
      · rw [accept?_of_ne h] at hp
        injection hp with h₁ h₂
        exact h₂.symm

theorem Demands.expect (kind : Token.Kind) (what : String) : Demands (expect kind what) s := by
  intro t s' h hs
  obtain ⟨rest, n, fs⟩ := s
  have hs : rest = [] := hs
  subst hs
  change EStateM.Result.error _ _ = _ at h
  cases h

theorem Extends.expect (kind : Token.Kind) (what : String) :
    Extends us c (expect kind what) (expect kind what) s := by
  refine Extends.accept?_bind (fun t s' _ _ => ?_) fun _ h => .inl ?_
  · cases t with
    | none => exact State.Leads.refl s'
    | some t => exact .pure t
  · intro t s' hs
    change EStateM.Result.error _ _ = _ at hs
    cases hs

theorem Extends.expectName (what : String) :
    Extends us c (expectName what) (expectName what) s :=
  (Extends.expect .identifier what).bind fun t _ _ => .pure t.mark

theorem Demands.expectName (what : String) : Demands (expectName what) s :=
  (Demands.expect .identifier what).bind

theorem Extends.freshId : Extends us c freshId freshId s :=
  ⟨⟨List.suffix_refl _, Nat.le_succ _, List.prefix_refl _⟩, fun _ _ => rfl⟩

/-- What is reported is a fault. -/
theorem Extends.report_bind (token : Option Token) (complaint : Syntax.Complaint)
    {k : Unit → Parser β} {q r : Parser β} (hk : ∀ s', s.Leads s' → Extends us c (k ()) r s') :
    Extends us c (report token complaint >>= k) q s := by
  have hl : s.Leads ⟨s.rest, s.nextId, s.faults ++ [⟨token, complaint⟩]⟩ :=
    ⟨List.suffix_refl _, Nat.le_refl _, List.prefix_append _ _⟩
  have h := hk _ hl
  unfold Extends at h ⊢
  have hs : (report token complaint >>= k) s =
      k () ⟨s.rest, s.nextId, s.faults ++ [⟨token, complaint⟩]⟩ := rfl
  rw [hs]
  cases hks : k () ⟨s.rest, s.nextId, s.faults ++ [⟨token, complaint⟩]⟩ with
  | error e s' =>
    rw [hks] at h
    exact hl.trans h
  | ok b s' =>
    rw [hks] at h
    refine ⟨hl.trans h.1, fun hf => ?_⟩
    have hlen := h.1.faults.length_le
    simp only [hf, List.length_append, List.length_singleton] at hlen
    omega

theorem Extends.listed {item item' : Parser α} {others others' : Parser (List α)}
    (hi : Extends us false item item' s) (ho : ∀ s', Extends us false others others' s') :
    Extends us false (listed item others) (listed item' others') s := by
  refine hi.bind fun a s₁ _ => Extends.accept?_bind (fun comma s₂ _ _ => ?_) nofun
  cases comma with
  | none => exact .pure [a]
  | some _ => exact (ho s₂).bind fun others _ _ => .pure (a :: others)

theorem Extends.counted (before : Nat) (what : String) (h : ∀ s', Extends us false p q s') :
    Extends us false (counted before what p) (counted before what q) s := by
  unfold Parser.counted
  split
  · refine Extends.peek_bind (fun t _ => ?_) nofun
    exact Extends.report_bind t _ fun s₁ _ => h s₁
  · exact h s

theorem Extends.recover (hp : Extends us c p q s) :
    Extends us c (recover p) (recover q) s := by
  unfold Extends at hp ⊢
  rw [recover_run, recover_run]
  rcases hps : p s with ⟨a, s'⟩ | ⟨f | _, s'⟩
  · rw [hps] at hp
    refine ⟨hp.1, fun hf hr => ?_⟩
    rw [hp.2 hf hr]
  · rw [hps] at hp
    refine ⟨⟨(resume_suffix s'.rest).trans hp.rest, hp.nextId,
      hp.faults.trans (List.prefix_append _ _)⟩, fun hf => ?_⟩
    have hlen := hp.faults.length_le
    have hf : s'.faults ++ [f] = s.faults := hf
    rw [← hf, List.length_append, List.length_singleton] at hlen
    omega
  · rw [hps] at hp
    exact hp

end Rules

/-- The phrases that close what they open: what stands behind them is not looked at. -/
def Nonterminal.isClosed : Nonterminal → Bool
  | .declaration | .statement => true
  | _ => false

section Productions

variable {us : List Token} {phrase phrase' : (n : Nonterminal) → Parser n.Tree}
  (hp : ∀ n s, Extends us n.isClosed (phrase n) (phrase' n) s)
  (hd : ∀ s, Demands (phrase .statement) s) (hu : ∀ t ∈ us.head?, t.kind ≠ .else) (s : State)

include hp

theorem expression_extends : Extends us false (expression phrase) (expression phrase') s :=
  hp (.chain .comma) s

theorem operand_extends (level : Level) :
    Extends us false (operand phrase level) (operand phrase' level) s := by
  cases level with
  | comma => exact hp .assignment s
  | or => exact hp (.chain .and) s
  | and => exact hp .ternary s
  | equality => exact hp (.chain .comparison) s
  | comparison => exact hp (.chain .term) s
  | term => exact hp (.chain .factor) s
  | factor => exact hp .unary s

theorem sequence_extends (inBlock : Bool) :
    Extends us false (sequence phrase inBlock) (sequence phrase' inBlock) s := by
  have rest : Extends us false
      (do
        let first ← phrase .declaration
        let others ← phrase (.sequence inBlock)
        return first.toList ++ others)
      (do
        let first ← phrase' .declaration
        let others ← phrase' (.sequence inBlock)
        return first.toList ++ others) s := by
    apply (hp .declaration s).weaken.bind
    intro (first : Option (Stmt RefId)) s₁ _
    apply (hp (.sequence inBlock) s₁).bind
    intro (others : List (Stmt RefId)) s₂ _
    exact .pure _
  refine Extends.atEnd_bind (fun atEnd => ?_) nofun
  cases atEnd with
  | true => exact .pure []
  | false =>
    cases inBlock with
    | false => exact rest
    | true =>
      refine Extends.nextIs_bind (fun closes => ?_) nofun
      cases closes with
      | true => exact .pure []
      | false => exact rest

theorem block_extends : Extends us true (block phrase) (block phrase') s := by
  apply (hp (.sequence true) s).bind_open
  · intro (body : List (Stmt RefId)) s₁ _
    exact (Extends.expect .rightBrace _).bind fun _ _ _ => .pure body
  · intro (body : List (Stmt RefId)) s₁ _
    exact (Demands.expect .rightBrace _).bind

theorem parameters_extends (before : Nat) :
    Extends us false (parameters phrase before) (parameters phrase' before) s := by
  rw [parameters_eq, parameters_eq]
  exact .counted before _ fun s => .listed (.expectName "parameter name") (hp (.parameters (before + 1)))

theorem routine_extends (head owner : String) :
    Extends us true (routine phrase head owner) (routine phrase' head owner) s := by
  have rest (params : List Lexeme) (s : State) : Extends us true
      (do
        let _ ← expect .rightParen "')' after parameters"
        let _ ← expect .leftBrace ("'\x7b' before " ++ owner ++ " body")
        return ⟨params, ← block phrase⟩ : Parser (Routine RefId))
      (do
        let _ ← expect .rightParen "')' after parameters"
        let _ ← expect .leftBrace ("'\x7b' before " ++ owner ++ " body")
        return ⟨params, ← block phrase'⟩) s := by
    apply (Extends.expect .rightParen _).bind
    intro _ s₁ _
    apply (Extends.expect .leftBrace _).bind
    intro _ s₂ _
    exact (block_extends hp s₂).bind fun _ _ _ => .pure _
  apply (Extends.expect .leftParen _).bind
  intro _ s₁ _
  refine Extends.nextIs_bind (fun closes => ?_) fun _ _ => ?_
  · cases closes with
    | true => exact rest [] s₁
    | false =>
      apply (hp (.parameters 0) s₁).bind_open
      · exact fun params s₂ _ => rest params s₂
      · exact fun params s₂ _ => (Demands.expect .rightParen _).bind
  · exact .after (hp (.parameters 0) s₁) fun params s₂ _ => (Demands.expect .rightParen _).bind

theorem definition_extends (owner : String) :
    Extends us true (definition phrase owner) (definition phrase' owner) s := by
  apply (Extends.expectName (owner ++ " name")).bind
  intro name s₁ _
  exact (routine_extends hp s₁ (owner ++ " name") owner).bind fun _ _ _ => .pure _

omit hp in
theorem definition_demands (owner : String) : Demands (definition phrase owner) s :=
  (Demands.expectName _).bind

theorem lambda_extends (keyword : Token) :
    Extends us true (lambda phrase keyword) (lambda phrase' keyword) s :=
  (routine_extends hp s _ _).map _

theorem members_extends : Extends us false (members phrase) (members phrase') s := by
  have rest : Extends us false
      (do
        let ofClass ← accept? .class
        let method ← definition phrase "method"
        return (ofClass.isSome, method) :: (← phrase .members))
      (do
        let ofClass ← accept? .class
        let method ← definition phrase' "method"
        return (ofClass.isSome, method) :: (← phrase' .members)) s := by
    refine Extends.accept?_bind (fun ofClass s₁ _ _ => ?_) nofun
    apply (definition_extends hp s₁ "method").weaken.bind
    intro method s₂ _
    exact (hp .members s₂).bind fun others _ _ => .pure ((ofClass.isSome, method) :: others)
  refine Extends.atEnd_bind (fun atEnd => ?_) nofun
  cases atEnd with
  | true => exact .pure []
  | false =>
    refine Extends.nextIs_bind (fun closes => ?_) nofun
    cases closes with
    | true => exact .pure []
    | false => exact rest

theorem classBody_extends (name : Lexeme) (superclass : Option (RefId × Lexeme)) : Extends us true
    (classBody phrase name superclass) (classBody phrase' name superclass) s := by
  apply (Extends.expect .leftBrace _).bind
  intro _ s₁ _
  apply (hp .members s₁).bind_open
  · intro (ms : List (Bool × Definition RefId)) s₂ _
    exact (Extends.expect .rightBrace _).bind fun _ _ _ => .pure _
  · intro (ms : List (Bool × Definition RefId)) s₂ _
    exact (Demands.expect .rightBrace _).bind

theorem classDeclaration_extends :
    Extends us true (classDeclaration phrase) (classDeclaration phrase') s := by
  rw [classDeclaration_eq, classDeclaration_eq]
  apply (Extends.expectName "class name").bind
  intro name s₁ _
  refine Extends.accept?_bind (fun less s₂ _ _ => ?_) fun _ _ => .inl ?_
  · cases less with
    | none => exact classBody_extends hp s₂ name none
    | some _ =>
      apply (Extends.expectName "superclass name").bind
      intro superclass s₃ _
      exact Extends.freshId.bind fun id s₄ _ => classBody_extends hp s₄ name (some (id, superclass))
  · exact (Demands.expect .leftBrace _).bind

omit hp in
theorem closeVar_extends (name : Lexeme) (initial : Option (Expr RefId)) :
    Extends us true (closeVar name initial) (closeVar name initial) s :=
  (Extends.expect .semicolon _).bind fun _ _ _ => .pure _

theorem varDeclaration_extends :
    Extends us true (varDeclaration phrase) (varDeclaration phrase') s := by
  rw [varDeclaration_eq, varDeclaration_eq]
  apply (Extends.expectName "variable name").bind
  intro name s₁ _
  refine Extends.accept?_bind (fun equal s₂ _ _ => ?_) fun _ _ => .inl ?_
  · cases equal with
    | none => exact closeVar_extends s₂ name none
    | some _ =>
      apply ((expression_extends hp s₂).map some).bind_open
      · exact fun initial s₃ _ => closeVar_extends s₃ name initial
      · exact fun initial s₃ _ => (Demands.expect .semicolon _).bind
  · exact (Demands.expect .semicolon _).bind

theorem expressionStatement_extends :
    Extends us true (expressionStatement phrase) (expressionStatement phrase') s := by
  apply (expression_extends hp s).bind_open
  · intro e s₁ _
    exact (Extends.expect .semicolon _).bind fun _ _ _ => .pure _
  · exact fun e s₁ _ => (Demands.expect .semicolon _).bind

theorem expressionStatement_demands : Demands (expressionStatement phrase) s :=
  .after (expression_extends hp s) fun _ _ _ => (Demands.expect .semicolon _).bind

theorem optionalBefore_extends (closing : Token.Kind) :
    Extends us false (optionalBefore phrase closing) (optionalBefore phrase' closing) s := by
  refine Extends.nextIs_bind (fun closes => ?_) nofun
  cases closes with
  | true => exact .pure none
  | false => exact (expression_extends hp s).map some

theorem forClauses_extends (initial : Option (Stmt RefId)) :
    Extends us true (forClauses phrase initial) (forClauses phrase' initial) s := by
  apply (optionalBefore_extends hp s .semicolon).bind_open
  · intro condition s₁ _
    apply (Extends.expect .semicolon _).bind
    intro _ s₂ _
    apply (optionalBefore_extends hp s₂ .rightParen).bind_open
    · intro increment s₃ _
      apply (Extends.expect .rightParen _).bind
      intro _ s₄ _
      exact (hp .statement s₄).bind fun body _ _ => .pure _
    · exact fun increment s₃ _ => (Demands.expect .rightParen _).bind
  · exact fun condition s₁ _ => (Demands.expect .semicolon _).bind

theorem forStatement_extends :
    Extends us true (forStatement phrase) (forStatement phrase') s := by
  rw [forStatement_eq, forStatement_eq]
  apply (Extends.expect .leftParen _).bind
  intro _ s₁ _
  refine Extends.accept?_bind (fun semicolon s₂ _ _ => ?_) fun _ _ => .inl ?_
  · cases semicolon with
    | some _ => exact forClauses_extends hp s₂ none
    | none =>
      refine Extends.accept?_bind (fun var s₃ _ _ => ?_) fun _ _ => .inl ?_
      · cases var with
        | some _ =>
          exact ((varDeclaration_extends hp s₃).map some).bind
            fun initial s₄ _ => forClauses_extends hp s₄ initial
        | none =>
          exact ((expressionStatement_extends hp s₃).map some).bind
            fun initial s₄ _ => forClauses_extends hp s₄ initial
      · exact (expressionStatement_demands hp s₂).bind.bind
  · intro a s' h hs
    obtain ⟨tokens, n, fs⟩ := s₁
    have hs : tokens = [] := hs
    subst hs
    exact (expressionStatement_demands hp ⟨[], n, fs⟩).bind.bind a s' h rfl

include hu in
theorem ifStatement_extends : Extends us true (ifStatement phrase) (ifStatement phrase') s := by
  apply (Extends.expect .leftParen _).bind
  intro _ s₁ _
  apply (expression_extends hp s₁).bind_open
  · intro condition s₂ _
    apply (Extends.expect .rightParen _).bind
    intro _ s₃ _
    apply (hp .statement s₃).bind
    intro yes s₄ _
    refine Extends.accept?_bind (fun other s₅ _ _ => ?_) fun _ _ => .inr hu
    cases other with
    | none => exact .pure _
    | some _ => exact (hp .statement s₅).bind fun _ _ _ => .pure _
  · exact fun condition s₂ _ => (Demands.expect .rightParen _).bind

theorem whileStatement_extends :
    Extends us true (whileStatement phrase) (whileStatement phrase') s := by
  apply (Extends.expect .leftParen _).bind
  intro _ s₁ _
  apply (expression_extends hp s₁).bind_open
  · intro condition s₂ _
    apply (Extends.expect .rightParen _).bind
    intro _ s₃ _
    exact (hp .statement s₃).bind fun _ _ _ => .pure _
  · exact fun condition s₂ _ => (Demands.expect .rightParen _).bind

theorem printStatement_extends :
    Extends us true (printStatement phrase) (printStatement phrase') s := by
  apply (expression_extends hp s).bind_open
  · exact fun e s₁ _ => (Extends.expect .semicolon _).bind fun _ _ _ => .pure _
  · exact fun e s₁ _ => (Demands.expect .semicolon _).bind

theorem returnStatement_extends (keyword : Token) :
    Extends us true (returnStatement phrase keyword) (returnStatement phrase' keyword) s := by
  apply (optionalBefore_extends hp s .semicolon).bind_open
  · exact fun value s₁ _ =>
      (Extends.expect .semicolon _).bind fun _ _ _ => .pure _
  · exact fun value s₁ _ => (Demands.expect .semicolon _).bind

omit hp in
theorem breakStatement_extends (keyword : Token) :
    Extends us true (breakStatement keyword) (breakStatement keyword) s :=
  (Extends.expect .semicolon _).bind fun _ _ _ => .pure _

include hu in
theorem statement_extends : Extends us true (statement phrase) (statement phrase') s := by
  refine Extends.peek_bind (fun t ht => ?_) fun _ _ => expressionStatement_demands hp s
  cases t with
  | none => exact expressionStatement_extends hp s
  | some t =>
    have hs : s.rest ≠ [] := by
      intro h
      rw [h] at ht
      cases ht
    simp only
    cases t.kind with
    | «for» => exact (Extends.skip hs).bind fun _ s₁ _ => forStatement_extends hp s₁
    | «if» => exact (Extends.skip hs).bind fun _ s₁ _ => ifStatement_extends hp hu s₁
    | print => exact (Extends.skip hs).bind fun _ s₁ _ => printStatement_extends hp s₁
    | «return» => exact (Extends.skip hs).bind fun _ s₁ _ => returnStatement_extends hp s₁ t
    | «break» => exact (Extends.skip hs).bind fun _ s₁ _ => breakStatement_extends s₁ t
    | «while» => exact (Extends.skip hs).bind fun _ s₁ _ => whileStatement_extends hp s₁
    | leftBrace =>
      apply (Extends.skip hs).bind
      intro _ s₁ _
      exact (block_extends hp s₁).bind fun _ _ _ => .pure _
    | _ => exact expressionStatement_extends hp s

theorem statement_demands : Demands (statement phrase) s := by
  intro a s' h hs
  obtain ⟨rest, n, fs⟩ := s
  have hs : rest = [] := hs
  subst hs
  exact expressionStatement_demands hp _ a s' h rfl

include hd in
theorem declaration_extends :
    Extends us true (declaration phrase) (declaration phrase') s := by
  have function (s : State) (hs : s.rest ≠ []) : Extends us true
      (do skip; return .function (← definition phrase "function") : Parser (Stmt RefId))
      (do skip; return .function (← definition phrase' "function")) s := by
    apply (Extends.skip hs).bind
    intro _ s₁ _
    exact (definition_extends hp s₁ "function").bind fun _ _ _ => .pure _
  obtain ⟨_ | ⟨⟨kind, lexeme, line, literal⟩, ts⟩, k, fs⟩ := s
  · have h : Extends us true (phrase .statement) (phrase' .statement) ⟨[], k, fs⟩ :=
      hp .statement _
    exact h.of_never fun a s' hs => hd _ a s' hs rfl
  · have hs : (⟨kind, lexeme, line, literal⟩ :: ts : List Token) ≠ [] := List.cons_ne_nil _ _
    cases kind with
    | «class» =>
      have h : Extends us true (do skip; classDeclaration phrase) (do skip; classDeclaration phrase')
          ⟨⟨.class, lexeme, line, literal⟩ :: ts, k, fs⟩ :=
        (Extends.skip hs).bind fun _ s₁ _ => classDeclaration_extends hp s₁
      exact h
    | var =>
      have h : Extends us true (do skip; varDeclaration phrase) (do skip; varDeclaration phrase')
          ⟨⟨.var, lexeme, line, literal⟩ :: ts, k, fs⟩ :=
        (Extends.skip hs).bind fun _ s₁ _ => varDeclaration_extends hp s₁
      exact h
    | «fun» =>
      obtain _ | ⟨⟨kind, lexeme', line', literal'⟩, ts⟩ := ts
      · -- a lone `fun` is the start of nothing
        have h : Extends us true (declaration phrase)
            (do skip; return .function (← definition phrase' "function"))
            ⟨[⟨.fun, lexeme, line, literal⟩], k, fs⟩ := function ⟨_, k, fs⟩ hs
        refine h.of_never fun a s' h => ?_
        have hf : Demands (do return .function (← definition phrase "function") :
            Parser (Stmt RefId)) ⟨[], k, fs⟩ := (definition_demands _ _).bind
        exact hf a s' h rfl
      · cases kind with
        | leftParen => exact hp .statement _
        | _ => exact function ⟨_, k, fs⟩ hs
    | _ => exact hp .statement _

theorem assignment_extends : Extends us false (assignment phrase) (assignment phrase') s := by
  apply (hp (.chain .or) s).bind
  intro (left : Expr RefId) s₁ _
  refine Extends.accept?_bind (fun sign s₂ _ _ => ?_) nofun
  cases sign with
  | none => exact .pure left
  | some sign =>
    apply (hp .assignment s₂).bind
    intro (value : Expr RefId) s₃ _
    cases left with
    | «variable» ref name => exact .pure _
    | get object name => exact .pure _
    | _ => exact Extends.report_bind (some sign) _ fun s₄ _ => (.pure _ : Extends us false _ _ s₄)

theorem chain_extends (level : Level) :
    Extends us false (chain phrase level) (chain phrase' level) s :=
  (operand_extends hp s level).bind fun left s₁ _ => hp (.chainTail level left) s₁

theorem chainTail_extends (level : Level) (left : Expr RefId) :
    Extends us false (chainTail phrase level left) (chainTail phrase' level left) s := by
  refine Extends.peek_bind (fun t ht => ?_) nofun
  cases t with
  | none => exact .pure left
  | some t =>
    have hs : s.rest ≠ [] := by
      intro h
      rw [h] at ht
      cases ht
    simp only
    cases level.operator? t.kind with
    | none => exact .pure left
    | some op =>
      apply (Extends.skip hs).bind
      intro _ s₁ _
      apply (operand_extends hp s₁ level).bind
      exact fun right s₂ _ => hp (.chainTail level (op.apply t.mark left right)) s₂

theorem ternary_extends : Extends us false (ternary phrase) (ternary phrase') s := by
  apply (hp (.chain .equality) s).bind
  intro (condition : Expr RefId) s₁ _
  refine Extends.accept?_bind (fun question s₂ _ _ => ?_) nofun
  cases question with
  | none => exact .pure condition
  | some _ =>
    apply (expression_extends hp s₂).bind
    intro yes s₃ _
    apply (Extends.expect .colon _).bind
    intro _ s₄ _
    exact (hp .assignment s₄).bind fun _ _ _ => .pure _

theorem unary_extends : Extends us false (unary phrase) (unary phrase') s := by
  refine Extends.peek_bind (fun t ht => ?_) nofun
  cases t with
  | none => exact hp .call s
  | some t =>
    have hs : s.rest ≠ [] := by
      intro h
      rw [h] at ht
      cases ht
    simp only
    cases unaryOperator? t.kind with
    | none => exact hp .call s
    | some op =>
      apply (Extends.skip hs).bind
      exact fun _ s₁ _ => (hp .unary s₁).bind fun _ _ _ => .pure _

theorem call_extends : Extends us false (call phrase) (call phrase') s := by
  refine Extends.accept?_bind (fun keyword s₁ _ _ => ?_) nofun
  cases keyword with
  | none => exact (hp .primary s₁).bind fun e s₂ _ => hp (.callTail e) s₂
  | some keyword =>
    exact (lambda_extends hp s₁ keyword).weaken.bind fun e s₂ _ => hp (.callTail e) s₂

theorem closeCall_extends (callee : Expr RefId) (arguments : List (Expr RefId)) : Extends us false
    (closeCall phrase callee arguments) (closeCall phrase' callee arguments) s :=
  (Extends.expect .rightParen _).bind fun paren s₁ _ =>
    hp (.callTail (.call callee arguments paren.line)) s₁

theorem callTail_extends (callee : Expr RefId) :
    Extends us false (callTail phrase callee) (callTail phrase' callee) s := by
  rw [callTail_eq, callTail_eq]
  refine Extends.accept?_bind (fun paren s₁ _ _ => ?_) nofun
  cases paren with
  | some _ =>
    refine Extends.nextIs_bind (fun closes => ?_) nofun
    cases closes with
    | true => exact closeCall_extends hp s₁ callee []
    | false =>
      exact (hp (.arguments 0) s₁).bind fun arguments s₂ _ => closeCall_extends hp s₂ callee arguments
  | none =>
    refine Extends.accept?_bind (fun dot s₂ _ _ => ?_) nofun
    cases dot with
    | none => exact .pure callee
    | some _ =>
      exact (Extends.expectName _).bind fun name s₃ _ => hp (.callTail (.get callee name)) s₃

theorem arguments_extends (before : Nat) :
    Extends us false (arguments phrase before) (arguments phrase' before) s := by
  rw [arguments_eq, arguments_eq]
  exact .counted before _ fun s => .listed (hp .assignment s) (hp (.arguments (before + 1)))

theorem missingLeftOperand_extends (operator : Token) (level : Level) :
    Extends us false (missingLeftOperand phrase operator level)
      (missingLeftOperand phrase' operator level) s :=
  (operand_extends hp s level).bind fun _ _ _ => .fail _ _

omit hp in
theorem superReference_extends (keyword : Token) :
    Extends us false (superReference keyword) (superReference keyword) s := by
  apply (Extends.expect .dot _).bind
  intro _ s₁ _
  apply (Extends.expectName _).bind
  intro method s₂ _
  exact Extends.freshId.bind fun _ _ _ => .pure _

theorem primary_extends : Extends us false (primary phrase) (primary phrase') s := by
  refine Extends.peek_bind (fun t ht => ?_) nofun
  cases t with
  | none => exact .fail none _
  | some t =>
    have hs : s.rest ≠ [] := by
      intro h
      rw [h] at ht
      cases ht
    have literal (l : Literal) : Extends us false (do skip; return .literal l : Parser (Expr RefId))
        (do skip; return .literal l) s := (Extends.skip hs).bind fun _ _ _ => .pure _
    have missing (level : Level) : Extends us false (do skip; missingLeftOperand phrase t level)
        (do skip; missingLeftOperand phrase' t level) s :=
      (Extends.skip hs).bind fun _ s₁ _ => missingLeftOperand_extends hp s₁ t level
    simp only
    cases t.kind with
    | false | true | nil | number | string => exact literal _
    | super => exact (Extends.skip hs).bind fun _ s₁ _ => superReference_extends s₁ t
    | this | identifier =>
      exact (Extends.skip hs).bind fun _ s₁ _ => Extends.freshId.bind fun _ _ _ => .pure _
    | leftParen =>
      apply (Extends.skip hs).bind
      intro _ s₁ _
      apply (expression_extends hp s₁).bind
      intro e s₂ _
      exact (Extends.expect .rightParen _).bind fun _ _ _ => .pure _
    | comma => exact missing .comma
    | equalEqual | bangEqual => exact missing .equality
    | less | lessEqual | greater | greaterEqual => exact missing .comparison
    | plus => exact missing .term
    | star | slash => exact missing .factor
    | _ => exact .fail (some t) _

include hd hu in
theorem production_extends (n : Nonterminal) :
    Extends us n.isClosed (production phrase n) (production phrase' n) s := by
  cases n with
  | sequence inBlock => exact sequence_extends hp s inBlock
  | declaration => exact (declaration_extends hp hd s).recover
  | members => exact members_extends hp s
  | statement => exact statement_extends hp hu s
  | parameters before => exact parameters_extends hp s before
  | assignment => exact assignment_extends hp s
  | chain level => exact chain_extends hp s level
  | chainTail level left => exact chainTail_extends hp s level left
  | ternary => exact ternary_extends hp s
  | unary => exact unary_extends hp s
  | call => exact call_extends hp s
  | callTail callee => exact callTail_extends hp s callee
  | arguments before => exact arguments_extends hp s before
  | primary => exact primary_extends hp s

end Productions

section Within

variable (us : List Token) (hu : ∀ t ∈ us.head?, t.kind ≠ .else)

include hu

theorem parseWithin_extends_and_demands {depth depth' : Nat} (hd : depth ≤ depth') :
    (∀ n s, Extends us n.isClosed (parseWithin depth n) (parseWithin depth' n) s) ∧
      ∀ s, Demands (parseWithin depth .statement) s := by
  induction depth generalizing depth' with
  | zero => exact ⟨fun _ s => State.Leads.refl s, fun _ _ _ h => by cases h⟩
  | succ depth ih =>
    obtain _ | depth' := depth'
    · exact absurd hd (Nat.not_succ_le_zero depth)
    · have ih := ih (Nat.le_of_succ_le_succ hd)
      exact ⟨fun n s => production_extends ih.1 ih.2 hu s n, fun s => statement_demands ih.1 s⟩

/-- A phrase is read alike with more tokens behind and with more depth. -/
theorem parseWithin_extends {depth depth' : Nat} (hd : depth ≤ depth') (n : Nonterminal) (s : State) :
    Extends us n.isClosed (parseWithin depth n) (parseWithin depth' n) s :=
  (parseWithin_extends_and_demands us hu hd).1 n s

end Within

@[simp] theorem State.extend_nil (s : State) : s.extend [] = s := by
  simp only [State.extend, List.append_nil]

/-- More depth changes nothing for a phrase without faults. -/
theorem parseWithin_mono {depth depth' : Nat} (hd : depth ≤ depth') {n : Nonterminal} {s s' : State}
    {a : n.Tree} (h : parseWithin depth n s = .ok a s') (hf : s'.faults = s.faults) :
    parseWithin depth' n s = .ok a s' := by
  have hx := parseWithin_extends [] nofun hd n s
  unfold Extends at hx
  rw [h] at hx
  have hx := hx.2 hf (.inr (.inr rfl))
  rwa [State.extend_nil, State.extend_nil] at hx

theorem sequence_cons (phrase : (n : Nonterminal) → Parser n.Tree) {s : State} (hs : s.rest ≠ []) :
    sequence phrase false s =
      (do
        let first ← phrase .declaration
        let others ← phrase (.sequence false)
        return first.toList ++ others : Parser (List (Stmt RefId))) s := by
  obtain ⟨_ | ⟨t, ts⟩, k, fs⟩ := s
  · exact absurd rfl hs
  · rfl

theorem bind_ok {α β : Type} {p : Parser α} {k : α → Parser β} {s s' : State} {b : β}
    (h : (p >>= k) s = .ok b s') : ∃ a s₁, p s = .ok a s₁ ∧ k a s₁ = .ok b s' := by
  simp only [Bind.bind, EStateM.bind] at h
  split at h
  · exact ⟨_, _, ‹_›, h⟩
  · cases h

theorem bind_of_ok {α β : Type} {p : Parser α} {s s' : State} {a : α} (h : p s = .ok a s')
    (k : α → Parser β) : (p >>= k) s = k a s' := by
  simp only [Bind.bind, EStateM.bind, h]

/-- Declarations are read up to the end. -/
theorem rest_sequence {depth : Nat} {s s' : State} {ss : List (Stmt RefId)}
    (h : parseWithin depth (.sequence false) s = .ok ss s') : s'.rest = [] := by
  induction depth generalizing s ss with
  | zero => cases h
  | succ depth ih =>
    by_cases hr : s.rest = []
    · obtain ⟨tokens, k, fs⟩ := s
      have hr : tokens = [] := hr
      subst hr
      injection h with _ h₂
      subst h₂
      rfl
    · rw [parseWithin, production, sequence_cons _ hr] at h
      obtain ⟨first, t₁, _, h⟩ := bind_ok h
      obtain ⟨others, t₂, hothers, h⟩ := bind_ok h
      injection h with _ h₂
      subst h₂
      exact ih hothers

/-- Declarations without faults are read alike with other declarations behind them. -/
theorem sequence_append {us : List Token} (hu : ∀ t ∈ us.head?, t.kind ≠ .else) {depth : Nat}
    {s s₁ s₂ : State} {ss ss' : List (Stmt RefId)}
    (h : parseWithin depth (.sequence false) s = .ok ss s₁) (hf : s₁.faults = s.faults)
    (hs : s.Genuine) (hd : 32 * s.rest.length + 21 ≤ depth) {depth' : Nat}
    (h' : parseWithin depth' (.sequence false) (s₁.extend us) = .ok ss' s₂)
    (hf' : s₂.faults = s₁.faults) {more : Nat} (hle : depth ≤ more)
    (hle' : depth' + s.rest.length ≤ more) :
    parseWithin more (.sequence false) (s.extend us) = .ok (ss ++ ss') s₂ := by
  induction depth generalizing s ss more with
  | zero => omega
  | succ depth ih =>
    by_cases hr : s.rest = []
    · obtain ⟨tokens, k, fs⟩ := s
      have hr : tokens = [] := hr
      subst hr
      injection h with h₁ h₂
      subst h₁ h₂
      exact parseWithin_mono (by omega) h' hf'
    · obtain ⟨more, rfl⟩ : ∃ n, more = n + 1 := ⟨more - 1, by omega⟩
      rw [parseWithin, production, sequence_cons _ hr] at h
      obtain ⟨first, t₁, hfirst, h⟩ := bind_ok h
      obtain ⟨others, t₂, hothers, h⟩ := bind_ok h
      injection h with h₁ h₂
      subst h₁ h₂
      -- a declaration takes at least one token, which pays for the depth that it takes
      have hready : (Nonterminal.declaration).Ready depth s :=
        ⟨by change 32 * s.rest.length + 20 ≤ depth; omega, hs, trivial, fun _ => hr⟩
      have hy := parseWithin_yields depth .declaration s hready
      unfold Yields at hy
      rw [hfirst] at hy
      have hlen : t₁.rest.length + 1 ≤ s.rest.length := hy.2.gain
      have hx := parseWithin_extends us hu (Nat.le_of_succ_le_succ hle) .declaration s
      unfold Extends at hx
      rw [hfirst] at hx
      have hl := (parseWithin_extends us hu (Nat.le_refl depth) (.sequence false) t₁).leads hothers
      have hft : t₁.faults = s.faults := hx.1.faults_eq hl hf
      have hfirst' := hx.2 hft (.inl rfl)
      have hothers' : parseWithin more (.sequence false) (t₁.extend us) = .ok (others ++ ss') s₂ :=
        ih hothers (hf.trans hft.symm) (hx.1.genuine hs) (by omega) (by omega) (by omega)
      have hne : (s.extend us).rest ≠ [] := fun h => hr (List.append_eq_nil_iff.mp h).1
      rw [parseWithin, production, sequence_cons _ hne, bind_of_ok hfirst', bind_of_ok hothers',
        List.append_assoc]
      rfl

/-! No program begins with `else`. -/

/-- The phrase is given up where `else` stands. -/
def RefusesElse (p : Parser α) : Prop :=
  ∀ t ts k fs, t.kind = .else → ∃ e s', p ⟨t :: ts, k, fs⟩ = .error e s'

theorem RefusesElse.bind {p : Parser α} (h : RefusesElse p) (k : α → Parser β) :
    RefusesElse (p >>= k) := by
  intro t ts n fs ht
  obtain ⟨e, s', he⟩ := h t ts n fs ht
  refine ⟨e, s', ?_⟩
  simp only [Bind.bind, EStateM.bind, he]

/-- The phrases that an expression statement starts with. -/
def Nonterminal.leadsExpression : Nonterminal → Bool
  | .statement | .assignment | .chain _ | .ternary | .unary | .call | .primary => true
  | _ => false

theorem production_refusesElse {phrase : (n : Nonterminal) → Parser n.Tree}
    (hp : ∀ n, n.leadsExpression → RefusesElse (phrase n)) (n : Nonterminal)
    (hn : n.leadsExpression) : RefusesElse (production phrase n) := by
  have peeked {β : Type} {k : Option Token → Parser β} {q : Parser β} (hq : RefusesElse q)
      (hk : ∀ t, t.kind = .else → k (some t) = q) : RefusesElse (peek >>= k) := by
    intro t ts n fs ht
    obtain ⟨e, s', he⟩ := hq t ts n fs ht
    exact ⟨e, s', by rw [← hk t ht] at he; exact he⟩
  cases n with
  | statement =>
    have he : RefusesElse (expressionStatement phrase) := (hp (.chain .comma) rfl).bind _
    exact peeked he fun t ht => by simp only [ht]
  | assignment => exact (hp (.chain .or) rfl).bind _
  | chain level =>
    cases level with
    | comma => exact (hp .assignment rfl).bind _
    | or => exact (hp (.chain .and) rfl).bind _
    | and => exact (hp .ternary rfl).bind _
    | equality => exact (hp (.chain .comparison) rfl).bind _
    | comparison => exact (hp (.chain .term) rfl).bind _
    | term => exact (hp (.chain .factor) rfl).bind _
    | factor => exact (hp .unary rfl).bind _
  | ternary => exact (hp (.chain .equality) rfl).bind _
  | unary => exact peeked (hp .call rfl) fun t ht => by simp only [ht, unaryOperator?]
  | call =>
    intro t ts n fs ht
    obtain ⟨e, s', he⟩ := ((hp .primary rfl).bind fun e => phrase (.callTail e)) t ts n fs ht
    have hne : t.kind ≠ .fun := by rw [ht]; decide
    refine ⟨e, s', ?_⟩
    rw [production, call, bind_of_ok (accept?_of_ne hne ts n fs)]
    exact he
  | primary =>
    have he (t : Token) : RefusesElse (fail (some t) (.expected "expression") :
        Parser (Expr RefId)) := fun t ts n fs _ => ⟨_, _, rfl⟩
    intro t ts n fs ht
    obtain ⟨e, s', hs⟩ := he t t ts n fs ht
    refine ⟨e, s', ?_⟩
    rw [← hs, production, primary, bind_of_ok (show peek ⟨t :: ts, n, fs⟩ = .ok (some t) _ from rfl)]
    simp only [ht]
  | _ => cases hn

theorem parseWithin_refusesElse (depth : Nat) (n : Nonterminal) (hn : n.leadsExpression) :
    RefusesElse (parseWithin depth n) := by
  induction depth generalizing n with
  | zero => exact fun _ _ _ _ _ => ⟨_, _, rfl⟩
  | succ depth ih => exact production_refusesElse ih n hn

/-- Declarations that begin with `else` have a fault. -/
theorem faults_of_else {depth : Nat} {t : Token} {ts : List Token} {k : RefId} {fs : List Fault}
    (ht : t.kind = .else) {ss : List (Stmt RefId)} {s : State}
    (h : parseWithin depth (.sequence false) ⟨t :: ts, k, fs⟩ = .ok ss s) : s.faults ≠ fs := by
  obtain _ | depth := depth
  · cases h
  · rw [parseWithin, production, sequence_cons _ (List.cons_ne_nil t ts)] at h
    obtain ⟨first, s₁, hfirst, h⟩ := bind_ok h
    obtain ⟨others, s₂, hothers, h⟩ := bind_ok h
    injection h with h₁ h₂
    subst h₂
    obtain _ | depth := depth
    · cases hfirst
    · obtain ⟨e, s', he⟩ := parseWithin_refusesElse depth .statement rfl t ts k fs ht
      have hd : declaration (parseWithin depth) ⟨t :: ts, k, fs⟩ = .error e s' := by
        obtain ⟨kind, lexeme, line, literal⟩ := t
        have ht : kind = .else := ht
        subst ht
        exact he
      have hfirst : recover (declaration (parseWithin depth)) ⟨t :: ts, k, fs⟩ = .ok first s₁ :=
        hfirst
      rw [recover_run, hd] at hfirst
      have hl := (parseWithin_extends [] nofun (Nat.le_refl (depth + 1))
        (.sequence false) s₁).leads hothers
      have hs := parseWithin_extends [] nofun (Nat.le_refl depth) .statement
        ⟨t :: ts, k, fs⟩
      unfold Extends at hs
      rw [he] at hs
      cases e with
      | tooDeep => cases hfirst
      | fault f =>
        injection hfirst with h₁ h₂
        subst h₂
        have h₁ := hs.faults.length_le
        have h₂ := hl.faults.length_le
        intro hf
        simp only [hf, List.length_append, List.length_singleton] at h₁ h₂
        omega

end Parser

/-- Programs without faults, one behind the other, are read one after the other. -/
theorem parse_append {tokens tokens₁ tokens₂ : List Token}
    (ht : (Token.untilEof tokens).1 =
      (Token.untilEof tokens₁).1 ++ (Token.untilEof tokens₂).1)
    (ho : ∀ t ∈ (Token.untilEof tokens).1, t.Genuine) {first : RefId}
    (h₁ : (parse tokens₁ first).errors = [])
    (h₂ : (parse tokens₂ (parse tokens₁ first).nextId).errors = []) :
    parse tokens first =
      ⟨(parse tokens₁ first).statements ++
        (parse tokens₂ (parse tokens₁ first).nextId).statements, [],
        (parse tokens₂ (parse tokens₁ first).nextId).nextId⟩ := by
  have ho₁ : ∀ t ∈ (Token.untilEof tokens₁).1, t.Genuine :=
    fun t hm => ho t (ht ▸ List.mem_append_left _ hm)
  have ho₂ : ∀ t ∈ (Token.untilEof tokens₂).1, t.Genuine :=
    fun t hm => ho t (ht ▸ List.mem_append_right _ hm)
  obtain ⟨s₁, hs₁, he₁, hn₁, hl₁, _⟩ := parse_run rfl ho₁ first
  obtain ⟨s₂, hs₂, he₂, hn₂, hl₂, _⟩ := parse_run rfl ho₂ (parse tokens₁ first).nextId
  generalize parse tokens₁ first = p₁ at *
  generalize parse tokens₂ p₁.nextId = p₂ at *
  generalize (Token.untilEof tokens₁).1 = ts₁ at *
  generalize (Token.untilEof tokens₂).1 = ts₂ at *
  have hf₁ : s₁.faults = [] := List.map_eq_nil_iff.mp (he₁.symm.trans h₁)
  have hf₂ : s₂.faults = [] := List.map_eq_nil_iff.mp (he₂.symm.trans h₂)
  have hr₁ : s₁.rest = [] := Parser.rest_sequence hs₁
  have hu : ∀ t ∈ ts₂.head?, t.kind ≠ .else := by
    intro t ht he
    obtain ⟨ts, rfl⟩ := List.head?_eq_some_iff.mp ht
    exact Parser.faults_of_else he hs₂ hf₂
  have hx : s₁.extend ts₂ = ⟨ts₂, p₁.nextId, []⟩ := by
    rw [Parser.State.extend, hr₁, hf₁, hn₁, List.nil_append]
  have hle : Parser.depthFor ts₁.length ≤ Parser.depthFor (ts₁ ++ ts₂).length := by
    rw [List.length_append]
    unfold Parser.depthFor
    omega
  have hle' : Parser.depthFor ts₂.length + ts₁.length ≤ Parser.depthFor (ts₁ ++ ts₂).length := by
    rw [List.length_append]
    unfold Parser.depthFor
    omega
  have whole : Parser.parseWithin (Parser.depthFor (ts₁ ++ ts₂).length) (.sequence false)
      ⟨ts₁ ++ ts₂, first, []⟩ = .ok (p₁.statements ++ p₂.statements) s₂ :=
    Parser.sequence_append hu hs₁ hf₁ ho₁ (Parser.le_depthFor ts₁.length) (hx ▸ hs₂)
      (hf₂.trans hf₁.symm) hle hle'
  obtain ⟨body, endLine, hb⟩ : ∃ body endLine, Token.untilEof tokens = (body, endLine) :=
    ⟨_, _, rfl⟩
  have ht : body = ts₁ ++ ts₂ := by rw [← ht, hb]
  subst ht
  simp only [parse, hb, whole, hf₂, hn₂, List.map_nil]

end Lox
