import Lox.Proofs.Grammar.Accepted

/-!
What is read is derived. A phrase that is read without a fault has a best derivation over the tokens
that were read, and the tokens behind do not go on with it.
-/

namespace Lox

namespace Parser

variable {α β : Type}

/-- No fault is taken back, and if there is no new one then this holds of what is read. -/
def Faultless (p : Parser α) (s : State) (Q : α → State → Prop) : Prop :=
  match p s with
  | .ok a s' => s.faults <+: s'.faults ∧ (s'.faults = s.faults → Q a s')
  | .error _ s' => s.faults <+: s'.faults

namespace Faultless

variable {p : Parser α} {k : α → Parser β} {s : State} {Q : α → State → Prop}
  {R : β → State → Prop}

theorem pure {a : α} (h : Q a s) : Faultless (Pure.pure a) s Q := ⟨List.prefix_refl _, fun _ => h⟩

theorem fail (token : Option Token) (complaint : Syntax.Complaint) :
    Faultless (fail token complaint : Parser α) s Q := List.prefix_refl _

/-- What holds of the first phrase is known once there is no fault in the second one either. -/
theorem bind (hp : Faultless p s Q)
    (hk : ∀ a s₁, Faultless (k a) s₁ fun b s' => Q a s₁ → R b s') : Faultless (p >>= k) s R := by
  simp only [Faultless, Bind.bind, EStateM.bind] at hp ⊢
  cases h : p s with
  | error e s₁ =>
    rw [h] at hp
    exact hp
  | ok a s₁ =>
    rw [h] at hp
    have hk := hk a s₁
    simp only [Faultless] at hk ⊢
    cases h' : k a s₁ with
    | error e s' =>
      rw [h'] at hk
      exact hp.1.trans hk
    | ok b s' =>
      rw [h'] at hk
      refine ⟨hp.1.trans hk.1, fun he => ?_⟩
      have hl : s.faults.length = s₁.faults.length :=
        Nat.le_antisymm hp.1.length_le (he ▸ hk.1.length_le)
      have hs : s.faults = s₁.faults := hp.1.eq_of_length hl
      exact hk.2 (he.trans hs) (hp.2 hs.symm)

theorem mono {Q' : α → State → Prop} (hp : Faultless p s Q) (h : ∀ a s', Q a s' → Q' a s') :
    Faultless p s Q' := by
  simp only [Faultless] at hp ⊢
  cases h' : p s with
  | error e s' =>
    rw [h'] at hp
    exact hp
  | ok a s' =>
    rw [h'] at hp
    exact ⟨hp.1, fun he => h a s' (hp.2 he)⟩

theorem map {f : α → β} (hp : Faultless p s fun a => R (f a)) : Faultless (f <$> p) s R := by
  have h := hp.bind (k := fun a => Pure.pure (f a)) fun a s' => pure (Q := fun b s'' => R (f a) s' → R b s'') id
  exact h

theorem pure_bind {a : α} (hk : Faultless (k a) s R) : Faultless (Pure.pure a >>= k) s R := hk

theorem peek_bind {k : Option Token → Parser β} (hk : Faultless (k s.rest.head?) s R) :
    Faultless (peek >>= k) s R := hk

theorem get_bind {k : State → Parser β} (hk : Faultless (k s) s R) :
    Faultless (get >>= k) s R := hk

theorem skip_bind {k : Unit → Parser β}
    (hk : Faultless (k ()) ⟨s.rest.tail, s.nextId, s.faults⟩ R) :
    Faultless (skip >>= k) s R := hk

theorem freshId_bind {k : RefId → Parser β}
    (hk : Faultless (k s.nextId) ⟨s.rest, s.nextId + 1, s.faults⟩ R) :
    Faultless (freshId >>= k) s R := hk

theorem atEnd_bind {k : Bool → Parser β} (hk : ∀ b, Faultless (k b) s R) :
    Faultless (atEnd >>= k) s R := hk _

theorem nextIs_bind {kind : Token.Kind} {k : Bool → Parser β} (hk : ∀ b, Faultless (k b) s R) :
    Faultless (nextIs kind >>= k) s R := hk _

/-- A token that may be missing. -/
theorem accept?_bind {kind : Token.Kind} {k : Option Token → Parser β}
    (some : ∀ t ts, s.rest = t :: ts → t.kind = kind →
      Faultless (k (some t)) ⟨ts, s.nextId, s.faults⟩ R)
    (none : (∀ t ∈ s.rest.head?, t.kind ≠ kind) → Faultless (k none) s R) :
    Faultless (accept? kind >>= k) s R := by
  obtain ⟨rest, i, fs⟩ := s
  cases rest with
  | nil => exact none nofun
  | cons t ts =>
    by_cases h : t.kind = kind
    · have hk := some t ts rfl h
      simp only [Faultless, Bind.bind, EStateM.bind, accept?_of_eq h] at hk ⊢
      exact hk
    · have hk := none (by rintro u ⟨rfl⟩; exact h)
      simp only [Faultless, Bind.bind, EStateM.bind, accept?_of_ne h] at hk ⊢
      exact hk

theorem expect_bind {kind : Token.Kind} {what : String} {k : Token → Parser β}
    (hk : ∀ t ts, s.rest = t :: ts → t.kind = kind →
      Faultless (k t) ⟨ts, s.nextId, s.faults⟩ R) :
    Faultless (expect kind what >>= k) s R := by
  rw [expect, bind_assoc]
  exact accept?_bind (fun t ts hts ht => hk t ts hts ht) fun _ => List.prefix_refl _

theorem expectName_bind {what : String} {k : Lexeme → Parser β}
    (hk : ∀ t ts, s.rest = t :: ts → t.kind = .identifier →
      Faultless (k t.mark) ⟨ts, s.nextId, s.faults⟩ R) :
    Faultless (expectName what >>= k) s R := by
  rw [expectName, bind_assoc]
  exact expect_bind hk

/-- A reader that reports something has no answer without a fault. -/
theorem report_bind {token : Option Token} {complaint : Syntax.Complaint} {k : Unit → Parser β}
    {T : State → β → State → Prop} (hk : ∀ s, Faultless (k ()) s (T s)) :
    Faultless (report token complaint >>= k) s R := by
  have hk := hk ⟨s.rest, s.nextId, s.faults ++ [⟨token, complaint⟩]⟩
  have grows : s.faults <+: s.faults ++ [⟨token, complaint⟩] := List.prefix_append _ _
  have run : (report token complaint >>= k) s =
      k () ⟨s.rest, s.nextId, s.faults ++ [⟨token, complaint⟩]⟩ := rfl
  rw [Faultless] at hk ⊢
  rw [run]
  cases h : k () ⟨s.rest, s.nextId, s.faults ++ [⟨token, complaint⟩]⟩ with
  | error e s' =>
    rw [h] at hk
    exact grows.trans hk
  | ok b s' =>
    rw [h] at hk
    refine ⟨grows.trans hk.1, fun he => ?_⟩
    have hl := hk.1.length_le
    rw [he, List.length_append, List.length_singleton] at hl
    exact absurd hl (Nat.not_succ_le_self _)

theorem recover (hp : Faultless p s Q) :
    Faultless (recover p) s fun a s' => ∃ b, a = some b ∧ Q b s' := by
  simp only [Faultless, recover_run] at hp ⊢
  rcases h : p s with ⟨a, s'⟩ | ⟨f | _, s'⟩
  · rw [h] at hp
    exact ⟨hp.1, fun he => ⟨a, rfl, hp.2 he⟩⟩
  · rw [h] at hp
    refine ⟨hp.trans (List.prefix_append _ _), fun he => ?_⟩
    have hl := hp.length_le
    rw [← he, List.length_append, List.length_singleton] at hl
    exact absurd hl (Nat.not_succ_le_self _)
  · rw [h] at hp
    exact hp

end Faultless

end Parser

namespace Grammar

open Lox.Parser

/-- The phrase does not go on with these tokens. -/
def Symbol.Stops : Symbol → Bool → List Token → Prop
  | .declaration, o, rest | .statement, o, rest => StopsElse o rest
  | .expr tier, o, rest => tier.Stops o rest
  | _, _, _ => True

/-- Between the two states lies a phrase with that tree. -/
def Found (n : Symbol) (s : State) (a : n.Tree) (s' : State) : Prop :=
  ∃ ts o, s.rest = ts ++ s'.rest ∧ Derives true n o ts s.nextId a s'.nextId ∧ n.Stops o s'.rest

/-- The rest of an expression lies between the two states, whatever lies before them. -/
def FoundTail (tier inner : Tier) (start : Expr RefId) (s : State) (e : Expr RefId) (s' : State) :
    Prop :=
  ∀ {ts : List Token} {o : Bool} {i : RefId}, Derives true (.expr tier) o ts i start s.nextId →
    inner.Stops o s.rest → ∃ us o', s.rest = us ++ s'.rest ∧
      Derives true (.expr tier) o' (ts ++ us) i e s'.nextId ∧ tier.Stops o' s'.rest

/-- What a phrase that is read shows. -/
def Shown : (n : Nonterminal) → State → n.Tree → State → Prop
  | .sequence _, s, ss, s' => Found .declarations s ss s'
  | .declaration, s, a, s' => ∃ d, a = some d ∧ Found .declaration s d s'
  | .members, s, ms, s' => Found .members s (named false ms, named true ms) s'
  | .statement, s, a, s' => Found .statement s a s'
  | .parameters before, s, ps, s' => ∃ count, before + (count + 1) ≤ listBound ∧
      Found (.parameters (count + 1)) s ps s'
  | .assignment, s, e, s' => Found (.expr .assignment) s e s'
  | .chain level, s, e, s' => Found (.expr (.chain level)) s e s'
  | .chainTail level start, s, e, s' => FoundTail (.chain level) (operand level) start s e s'
  | .ternary, s, e, s' => Found (.expr .ternary) s e s'
  | .unary, s, e, s' => Found (.expr .unary) s e s'
  | .call, s, e, s' => Found (.expr .call) s e s'
  | .callTail start, s, e, s' => FoundTail .call .primary start s e s'
  | .arguments before, s, es, s' => ∃ count, before + (count + 1) ≤ listBound ∧
      Found (.arguments (count + 1)) s es s'
  | .primary, s, e, s' => Found (.expr .primary) s e s'

/-- A list that is read without a fault has not got too long. -/
theorem counted_found {α : Type} {list : Parser (List α)} {s : State} {before : Nat} {what : String}
    {Q : Nat → State → List α → State → Prop}
    (h : ∀ s, Faultless list s fun as s' =>
      ∃ count, (0 < count → before + (count + 1) ≤ listBound) ∧ Q count s as s') :
    Faultless (counted before what list) s fun as s' =>
      ∃ count, before + (count + 1) ≤ listBound ∧ Q count s as s' := by
  unfold Parser.counted
  by_cases hfull : maxListed ≤ before
  · rw [if_pos hfull]
    exact Faultless.peek_bind (Faultless.report_bind h)
  · rw [if_neg hfull]
    refine (h s).mono fun as s' found => ?_
    obtain ⟨count, hcount, found⟩ := found
    refine ⟨count, ?_, found⟩
    cases count with
    | zero => exact Nat.lt_of_not_le hfull
    | succ count => exact hcount (Nat.succ_pos count)

/-! Expressions. -/

/-- Where a tier stops, the next looser one stops unless it is the one that goes on there. -/
theorem Tier.Stops.looser {tier tier' : Tier} {o : Bool} {rest : List Token}
    (h : tier.Stops o rest) (hl : tier'.looseness = tier.looseness + 1)
    (hne : ∀ t ∈ rest.head?, pull t.kind ≠ tier'.looseness) : tier'.Stops o rest := by
  intro t ht
  have hp := hne t ht
  rw [hl] at hp ⊢
  exact ⟨Nat.lt_of_le_of_ne (h t ht).1 (Ne.symm hp), (h t ht).2⟩

theorem kind_of_pull_assignment {k : Token.Kind} (h : pull k = Tier.assignment.looseness) :
    k = .equal := by
  cases k <;> first | rfl | cases h

theorem kind_of_pull_ternary {k : Token.Kind} (h : pull k = Tier.ternary.looseness) :
    k = .question := by
  cases k <;> first | rfl | cases h

theorem kind_of_pull_call {k : Token.Kind} (h : pull k = Tier.call.looseness) :
    k = .leftParen ∨ k = .dot := by
  cases k <;> first | exact .inl rfl | exact .inr rfl | cases h

theorem pull_ne_unary (k : Token.Kind) : pull k ≠ Tier.unary.looseness := by
  cases k <;> decide

theorem exists_operator {level : Level} {k : Token.Kind}
    (h : pull k = (Tier.chain level).looseness) : ∃ op, (k, op) ∈ operators level := by
  have among : k ∈ (operators level).map Prod.fst := by
    revert h
    cases level <;> cases k <;> decide
  obtain ⟨⟨_, op⟩, hop, rfl⟩ := List.mem_map.mp among
  exact ⟨op, hop⟩

theorem looseness_chain (level : Level) :
    (Tier.chain level).looseness = (operand level).looseness + 1 := by
  cases level <;> rfl

/-- A name, or a property. -/
def isTarget : Expr RefId → Bool
  | .variable _ _ | .get _ _ => true
  | _ => false

/-- The tree of a target is that of a call. -/
def CallIfTarget (best : Bool) : (n : Symbol) → List Token → RefId → n.Tree → RefId → Prop
  | .expr tier, ts, i, e, j => tier.looseness < Tier.assignment.looseness → isTarget e →
      ∃ o, Derives best (.expr .call) o ts i e j
  | _, _, _, _, _ => True

theorem Derives.callIfTarget {best : Bool} {n : Symbol} {o : Bool} {ts : List Token} {i j : RefId}
    {a : n.Tree} (h : Derives best n o ts i a j) : CallIfTarget best n ts i a j := by
  induction h with
  | @operand level _ _ _ _ _ _ ih => exact fun hl => ih (Nat.lt_trans (looseness_operand level) hl)
  | @operation _ _ op => exact fun _ ht => by cases op <;> cases ht
  | logic | assign | set => exact fun hl => absurd hl (by decide)
  | equality _ ih => exact fun _ => ih (by decide)
  | ternary | unary => exact fun _ ht => nomatch ht
  | call h => exact fun _ _ => ⟨_, h⟩
  | primary h => exact fun _ _ => ⟨_, .primary h⟩
  | lambda | apply => exact fun _ ht => nomatch ht
  | get h hdot hname => exact fun _ _ => ⟨_, .get h hdot hname⟩
  | constant | literal | this | super | group => exact fun _ ht => nomatch ht
  | identifier i h => exact fun _ _ => ⟨_, .primary (.identifier i h)⟩
  | _ => trivial

theorem Derives.of_variable {best o : Bool} {ts : List Token} {i j ref : RefId} {name : Lexeme}
    (h : Derives best (.expr (.chain .or)) o ts i (.variable ref name) j) :
    ∃ t, ts = [t] ∧ t.kind = .identifier ∧ ref = i ∧ name = t.mark ∧ j = i + 1 := by
  obtain ⟨o', h⟩ := h.callIfTarget (by decide) rfl
  cases h with
  | primary h =>
    cases h with
    | identifier _ hname => exact ⟨_, rfl, hname, rfl, rfl, rfl⟩

theorem Derives.of_get {best o : Bool} {ts : List Token} {i j : RefId} {object : Expr RefId}
    {name : Lexeme} (h : Derives best (.expr (.chain .or)) o ts i (.get object name) j) :
    ∃ cs dot t o', ts = cs ++ [dot, t] ∧ dot.kind = .dot ∧ t.kind = .identifier ∧ name = t.mark ∧
      Derives best (.expr .call) o' cs i object j := by
  obtain ⟨o', h⟩ := h.callIfTarget (by decide) rfl
  cases h with
  | primary h => cases h
  | get h hdot hname => exact ⟨_, _, _, _, rfl, hdot, hname, rfl, h⟩

section Productions

variable {phrase : Phrases} (hp : ∀ n s, Faultless (phrase n) s (Shown n s)) (s : State)

include hp

theorem operand_found (level : Level) :
    Faultless (Parser.operand phrase level) s (Found (.expr (operand level)) s) := by
  cases level <;> exact hp _ s

theorem chain_found (level : Level) :
    Faultless (chain phrase level) s (Found (.expr (.chain level)) s) := by
  refine (operand_found hp s level).bind fun left s₁ => ?_
  refine (hp (.chainTail level left) s₁).mono fun e s' tail found => ?_
  obtain ⟨ts, o, hts, left, stops⟩ := found
  obtain ⟨us, o', hus, whole, stops⟩ := tail (.operand left) stops
  exact ⟨ts ++ us, o', by rw [hts, hus, List.append_assoc], whole, stops⟩

theorem chainTail_found (level : Level) (start : Expr RefId) :
    Faultless (chainTail phrase level start) s (FoundTail (.chain level) (operand level) start s) := by
  refine Faultless.peek_bind ?_
  obtain ⟨rest, j, fs⟩ := s
  cases rest with
  | nil => exact .pure fun left _ => ⟨[], _, rfl, by rwa [List.append_nil], nofun⟩
  | cons t rest =>
    dsimp only [List.head?_cons]
    cases h : level.operator? t.kind with
    | none =>
      refine .pure fun left stops => ⟨[], _, rfl, by rwa [List.append_nil], ?_⟩
      refine stops.looser (looseness_chain level) ?_
      rintro u ⟨rfl⟩ he
      obtain ⟨op, hop⟩ := exists_operator he
      rw [operator?_eq_some.mpr hop] at h
      cases h
    | some op =>
      have hsign := operator?_eq_some.mp h
      refine Faultless.skip_bind ((operand_found hp _ level).bind fun right s₁ => ?_)
      refine (hp (.chainTail level (op.apply t.mark start right)) s₁).mono fun e s' tail found => ?_
      obtain ⟨ts, o, hts, right, stops⟩ := found
      intro ls o' i left hstops
      have closed : level ≠ .comma → o' = false := fun hc => by
        cases o' with
        | false => rfl
        | true =>
          have hl := (Tier.stops_cons.mp hstops).2 rfl
          rw [pull_of_operator hsign] at hl
          revert hl
          cases level <;> first | decide | contradiction
      obtain ⟨us, o₁, hus, whole, stops⟩ := tail (.operation left (fun _ => closed) hsign right) stops
      refine ⟨t :: (ts ++ us), o₁, ?_, ?_, stops⟩
      · change rest = _ at hts
        rw [hts, hus]
        simp only [List.cons_append, List.append_assoc]
      · simpa only [List.append_assoc, List.cons_append] using whole

theorem assignment_found : Faultless (assignment phrase) s (Found (.expr .assignment) s) := by
  refine (hp (.chain .or) s).bind fun (left : Expr RefId) s₁ => ?_
  refine Faultless.accept?_bind (fun sign rest hrest hsign => ?_) fun hne => .pure fun found => ?_
  · refine (hp .assignment _).bind fun (value : Expr RefId) s₂ => ?_
    cases left with
    | «variable» ref name =>
      refine .pure fun hvalue hleft => ?_
      obtain ⟨ts, o, hts, left, -⟩ := hleft
      obtain ⟨us, o', hus, value, stops⟩ := hvalue
      obtain ⟨t, rfl, hname, rfl, rfl, hj⟩ := left.of_variable
      change Derives true _ _ _ s₁.nextId _ _ at value
      rw [hj] at value
      refine ⟨t :: sign :: us, o', ?_, .assign hname hsign value, stops⟩
      rw [hts, hrest, show rest = us ++ s₂.rest from hus]
      rfl
    | get object name =>
      refine .pure fun hvalue hleft => ?_
      obtain ⟨ts, o, hts, left, -⟩ := hleft
      obtain ⟨us, o', hus, value, stops⟩ := hvalue
      obtain ⟨cs, dot, t, o₁, rfl, hdot, hname, rfl, hobject⟩ := left.of_get
      refine ⟨cs ++ dot :: t :: sign :: us, o', ?_, .set hobject hdot hname hsign value, stops⟩
      rw [hts, hrest, show rest = us ++ s₂.rest from hus]
      simp only [List.append_assoc, List.cons_append, List.nil_append]
    | _ => exact Faultless.report_bind (T := fun _ _ _ => True) fun _ => .pure trivial
  · obtain ⟨ts, o, hts, left, stops⟩ := found
    refine ⟨ts, o, hts, .logic left, ?_⟩
    exact stops.looser rfl fun t ht he => hne t ht (kind_of_pull_assignment he)

theorem ternary_found : Faultless (ternary phrase) s (Found (.expr .ternary) s) := by
  refine (hp (.chain .equality) s).bind fun (c : Expr RefId) s₁ => ?_
  refine Faultless.accept?_bind (fun question rest hrest hquestion => ?_) fun hne =>
    .pure fun found => ?_
  · refine (hp (.chain .comma) _).bind fun (y : Expr RefId) s₂ => ?_
    refine Faultless.expect_bind fun colon rest' hrest' hcolon => ?_
    refine (hp .assignment _).bind fun (n : Expr RefId) s₃ => .pure fun hn hy hc => ?_
    obtain ⟨cs, o, hcs, condition, -⟩ := hc
    obtain ⟨ys, o', hys, yes, -⟩ := hy
    obtain ⟨ns, o₁, hns, no, stops⟩ := hn
    refine ⟨cs ++ question :: (ys ++ colon :: ns), true, ?_,
      .ternary condition hquestion yes hcolon no, fun t ht => ?_⟩
    · rw [hcs, hrest, show rest = ys ++ s₂.rest from hys, hrest',
        show rest' = ns ++ s₃.rest from hns]
      simp only [List.append_assoc, List.cons_append]
    · have hl := (stops t ht).1
      exact ⟨Nat.lt_trans (by decide) hl, fun _ => hl⟩
  · obtain ⟨ts, o, hts, condition, stops⟩ := found
    refine ⟨ts, false, hts, .equality condition, ?_⟩
    exact stops.of_closed.looser rfl fun t ht he => hne t ht (kind_of_pull_ternary he)

theorem unary_found : Faultless (unary phrase) s (Found (.expr .unary) s) := by
  have call : Faultless (phrase .call) s (Found (.expr .unary) s) := by
    refine (hp .call s).mono fun e s' found => ?_
    obtain ⟨ts, o, hts, call, stops⟩ := found
    refine ⟨ts, false, hts, .call call, ?_⟩
    exact stops.of_closed.looser rfl fun t _ => pull_ne_unary t.kind
  refine Faultless.peek_bind ?_
  obtain ⟨rest, j, fs⟩ := s
  cases rest with
  | nil => exact call
  | cons t rest =>
    dsimp only [List.head?_cons]
    cases h : unaryOperator? t.kind with
    | none => exact call
    | some op =>
      have hsign := unaryOperator?_eq_some.mp h
      refine Faultless.skip_bind ((hp .unary _).bind fun e s₁ => .pure fun found => ?_)
      obtain ⟨ts, o, hts, operand, stops⟩ := found
      refine ⟨t :: ts, false, ?_, .unary hsign operand, stops.of_closed⟩
      exact congrArg (t :: ·) hts

/-- What is read behind the opening brace of a block. -/
theorem block_found : Faultless (Parser.block phrase) s fun body s' => ∃ ts closing o,
    s.rest = ts ++ closing :: s'.rest ∧ closing.kind = .rightBrace ∧
      Derives true .declarations o ts s.nextId body s'.nextId := by
  refine (hp (.sequence true) s).bind fun (body : List (Stmt RefId)) s₁ => ?_
  refine Faultless.expect_bind fun closing rest hrest hclosing => .pure fun found => ?_
  obtain ⟨ts, o, hts, body, -⟩ := found
  exact ⟨ts, closing, o, by rw [hts, hrest], hclosing, body⟩

theorem parameters_found (before : Nat) :
    Faultless (Parser.parameters phrase before) s (Shown (.parameters before) s) := by
  rw [parameters_eq]
  refine counted_found (Q := fun count s ps s' => Found (.parameters (count + 1)) s ps s') fun s => ?_
  refine Faultless.expectName_bind fun name rest hrest hname => ?_
  refine Faultless.accept?_bind (fun sign rest' hrest' hsign => ?_) fun _ => .pure ?_
  · refine (hp (.parameters (before + 1)) _).bind fun (ps : List Lexeme) s₁ => .pure fun found => ?_
    obtain ⟨count, hcount, ts, o, hts, others, -⟩ := found
    have hrest' : rest = sign :: rest' := hrest'
    refine ⟨count + 1, fun _ => by omega, name :: sign :: ts, false, ?_,
      .parameters hname hsign others, trivial⟩
    rw [hrest, hrest', show rest' = ts ++ s₁.rest from hts]
    rfl
  · exact ⟨0, fun h => absurd h (Nat.lt_irrefl 0), [name], false, hrest,
      .parameter s.nextId hname, trivial⟩

theorem routine_found (head owner : String) :
    Faultless (Parser.routine phrase head owner) s (Found .routine s) := by
  have body (params : List Lexeme) (s : State) : Faultless
      (do
        let _ ← expect .rightParen "')' after parameters"
        let _ ← expect .leftBrace ("'\x7b' before " ++ owner ++ " body")
        return ⟨params, ← Parser.block phrase⟩ : Parser (Routine RefId)) s fun r s' =>
          ∀ {left : Token} {count : Nat} {ps : List Token} {i : RefId} {o : Bool},
            left.kind = .leftParen → count ≤ listBound →
              Derives true (.parameters count) o ps i params s.nextId →
                ∃ us, s.rest = us ++ s'.rest ∧
                  Derives true .routine false (left :: (ps ++ us)) i r s'.nextId := by
    refine Faultless.expect_bind fun right rest hrest hright => ?_
    refine Faultless.expect_bind fun opening rest' hrest' hopening => ?_
    refine (block_found hp _).bind fun body s₁ => .pure fun found left count ps i o hleft hcount params => ?_
    obtain ⟨ts, closing, o', hts, hclosing, body⟩ := found
    have hrest' : rest = opening :: rest' := hrest'
    refine ⟨right :: opening :: (ts ++ [closing]), ?_,
      .routine hleft hcount params hright hopening body hclosing⟩
    rw [hrest, hrest', show rest' = ts ++ closing :: s₁.rest from hts]
    simp only [List.cons_append, List.append_assoc, List.nil_append]
  refine Faultless.expect_bind fun left rest hrest hleft => Faultless.nextIs_bind fun closes => ?_
  cases closes with
  | true =>
    refine (body [] _).mono fun r s' found => ?_
    obtain ⟨us, hus, whole⟩ := found hleft (Nat.zero_le _) (.noParameter _)
    exact ⟨_, false, hrest.trans (congrArg (left :: ·) hus), whole, trivial⟩
  | false =>
    refine (hp (.parameters 0) _).bind fun (params : List Lexeme) s₁ => ?_
    refine (body params s₁).mono fun r s' found shown => ?_
    obtain ⟨count, hcount, ps, o, hps, params, -⟩ := shown
    rw [Nat.zero_add] at hcount
    obtain ⟨us, hus, whole⟩ := found hleft hcount params
    refine ⟨_, false, ?_, whole, trivial⟩
    rw [hrest, show rest = ps ++ s₁.rest from hps, hus, List.cons_append, List.append_assoc]

theorem lambda_found (word : Token) : Faultless (Parser.lambda phrase word) s fun e s' =>
    ∃ r, e = .lambda word.line r ∧ Found .routine s r s' :=
  .map ((routine_found hp s "'fun'" "lambda").mono fun r _ found => ⟨r, rfl, found⟩)

theorem call_found : Faultless (call phrase) s (Found (.expr .call) s) := by
  have onward {e : Expr RefId} {s₁ : State} (found : ∃ ts, s.rest = ts ++ s₁.rest ∧
      Derives true (.expr .call) false ts s.nextId e s₁.nextId) (e' : Expr RefId) (s' : State)
      (tail : FoundTail .call .primary e s₁ e' s') : Found (.expr .call) s e' s' := by
    obtain ⟨ts, hts, call⟩ := found
    obtain ⟨us, o, hus, whole, stops⟩ := tail call (stops_primary _)
    exact ⟨ts ++ us, o, by rw [hts, hus, List.append_assoc], whole, stops⟩
  refine Faultless.accept?_bind (fun word rest hrest hword => ?_) fun _ => ?_
  · refine (lambda_found hp _ word).bind fun e s₁ => ?_
    refine (hp (.callTail e) s₁).mono fun e' s' tail ⟨r, hr, ts, o, hts, routine, _⟩ => ?_
    subst hr
    refine onward ⟨word :: ts, ?_, .lambda hword routine⟩ e' s' tail
    exact hrest.trans (congrArg (word :: ·) hts)
  · refine (hp .primary s).bind fun (e : Expr RefId) s₁ => ?_
    refine (hp (.callTail e) s₁).mono fun e' s' tail found => ?_
    obtain ⟨ts, o, hts, primary, -⟩ := found
    exact onward ⟨ts, hts, .primary primary⟩ e' s' tail

theorem arguments_found (before : Nat) :
    Faultless (Parser.arguments phrase before) s (Shown (.arguments before) s) := by
  rw [arguments_eq]
  refine counted_found (Q := fun count s es s' => Found (.arguments (count + 1)) s es s') fun s => ?_
  refine (hp .assignment s).bind fun (e : Expr RefId) s₁ => ?_
  refine Faultless.accept?_bind (fun sign rest hrest hsign => ?_) fun _ => .pure fun found => ?_
  · refine (hp (.arguments (before + 1)) _).bind fun (es : List (Expr RefId)) s₂ =>
      .pure fun shown found => ?_
    obtain ⟨count, hcount, us, o', hus, others, -⟩ := shown
    obtain ⟨ts, o, hts, first, -⟩ := found
    refine ⟨count + 1, fun _ => by omega, ts ++ sign :: us, false, ?_,
      .arguments first hsign others, trivial⟩
    rw [hts, hrest, show rest = us ++ s₂.rest from hus]
    simp only [List.append_assoc, List.cons_append]
  · obtain ⟨ts, o, hts, only, -⟩ := found
    exact ⟨0, fun h => absurd h (Nat.lt_irrefl 0), ts, false, hts, .argument only, trivial⟩

theorem closeCall_found (callee : Expr RefId) (arguments : List (Expr RefId)) :
    Faultless (closeCall phrase callee arguments) s fun e s' =>
      ∀ {left : Token} {count : Nat} {ts as : List Token} {i j : RefId} {o o' : Bool},
        left.kind = .leftParen → count ≤ listBound → Derives true (.expr .call) o ts i callee j →
          Derives true (.arguments count) o' as j arguments s.nextId →
            ∃ us o₁, s.rest = us ++ s'.rest ∧
              Derives true (.expr .call) o₁ (ts ++ left :: (as ++ us)) i e s'.nextId ∧
                Tier.call.Stops o₁ s'.rest := by
  refine Faultless.expect_bind fun right rest hrest hright => ?_
  refine (hp (.callTail (.call callee arguments right.line)) _).mono fun e s' tail => ?_
  intro left count ts as i j o o' hleft hcount callee arguments
  obtain ⟨us, o₁, hus, whole, stops⟩ :=
    tail (.apply callee hleft hcount arguments hright) (stops_primary _)
  refine ⟨right :: us, o₁, hrest.trans (congrArg (right :: ·) hus), ?_, stops⟩
  simpa only [List.append_assoc, List.cons_append, List.nil_append] using whole

theorem callTail_found (start : Expr RefId) :
    Faultless (callTail phrase start) s (FoundTail .call .primary start s) := by
  rw [callTail_eq]
  refine Faultless.accept?_bind (fun left rest hrest hleft => ?_) fun notLeft => ?_
  · refine Faultless.nextIs_bind fun closes => ?_
    cases closes with
    | true =>
      refine (closeCall_found hp _ start []).mono fun e s' found => ?_
      intro ts o i callee _
      obtain ⟨us, o₁, hus, whole, stops⟩ := found hleft (Nat.zero_le _) callee (.noArgument _)
      exact ⟨left :: us, o₁, hrest.trans (congrArg (left :: ·) hus), whole, stops⟩
    | false =>
      refine (hp (.arguments 0) _).bind fun (es : List (Expr RefId)) s₁ => ?_
      refine (closeCall_found hp s₁ start es).mono fun e s' found shown => ?_
      obtain ⟨count, hcount, as, o', has, arguments, -⟩ := shown
      rw [Nat.zero_add] at hcount
      intro ts o i callee _
      obtain ⟨us, o₁, hus, whole, stops⟩ := found hleft hcount callee arguments
      refine ⟨left :: (as ++ us), o₁, ?_, whole, stops⟩
      rw [hrest, show rest = as ++ s₁.rest from has, hus, List.cons_append, List.append_assoc]
  · refine Faultless.accept?_bind (fun dot rest hrest hdot => ?_) fun notDot => ?_
    · refine Faultless.expectName_bind fun name rest' hrest' hname => ?_
      refine (hp (.callTail (.get start name.mark)) _).mono fun e s' tail => ?_
      intro ts o i object _
      have hrest' : rest = name :: rest' := hrest'
      obtain ⟨us, o', hus, whole, stops⟩ := tail (.get object hdot hname) (stops_primary _)
      refine ⟨dot :: name :: us, o', ?_, ?_, stops⟩
      · rw [hrest, hrest', show rest' = us ++ s'.rest from hus]
        rfl
      · simpa only [List.append_assoc, List.cons_append, List.nil_append] using whole
    · refine .pure fun call stops => ?_
      obtain rfl := call.closedIfTight (by decide)
      refine ⟨[], false, rfl, by rwa [List.append_nil], ?_⟩
      refine stops.looser rfl fun t ht he => ?_
      have hk : t.kind = .leftParen ∨ t.kind = .dot := kind_of_pull_call he
      exact hk.elim (notLeft t ht) (notDot t ht)

theorem missingLeftOperand_found (operator : Token) (level : Level)
    (Q : Expr RefId → State → Prop) :
    Faultless (missingLeftOperand phrase operator level) s Q :=
  (operand_found hp s level).bind fun _ _ => .fail _ _

theorem primary_found : Faultless (primary phrase) s (Found (.expr .primary) s) := by
  refine Faultless.peek_bind ?_
  obtain ⟨rest, i, fs⟩ := s
  cases rest with
  | nil => exact .fail none _
  | cons t rest =>
    have single {j : RefId} {e : Expr RefId} (h : Derives true (.expr .primary) false [t] i e j)
        (fs : List Fault) : Found (.expr .primary) ⟨t :: rest, i, fs⟩ e ⟨rest, j, fs⟩ :=
      ⟨[t], false, rfl, h, stops_primary rest⟩
    obtain ⟨kind, lexeme, line, literal⟩ := t
    cases kind with
    | «false» | «true» | nil =>
      exact Faultless.skip_bind (.pure (single (.constant i (by simp [constants])) fs))
    | number => exact Faultless.skip_bind (.pure (single (.literal i (.inl rfl)) fs))
    | string => exact Faultless.skip_bind (.pure (single (.literal i (.inr rfl)) fs))
    | this =>
      exact Faultless.skip_bind (Faultless.freshId_bind (.pure (single (.this i rfl) fs)))
    | identifier =>
      exact Faultless.skip_bind (Faultless.freshId_bind (.pure (single (.identifier i rfl) fs)))
    | super =>
      refine Faultless.skip_bind (Faultless.expect_bind fun dot ts hts hdot => ?_)
      refine Faultless.expectName_bind fun name us hus hname => ?_
      refine Faultless.freshId_bind (.pure ⟨[_, dot, name], false, ?_, .super i rfl hdot hname,
        stops_primary us⟩)
      rw [show rest = dot :: ts from hts, show ts = name :: us from hus]
      rfl
    | leftParen =>
      refine Faultless.skip_bind ((hp (.chain .comma) _).bind fun (e : Expr RefId) s₁ => ?_)
      refine Faultless.expect_bind fun right us hus hright => .pure fun found => ?_
      obtain ⟨ts, o, hts, inner, -⟩ := found
      refine ⟨⟨.leftParen, lexeme, line, literal⟩ :: (ts ++ [right]), false, ?_,
        .group rfl inner hright, stops_primary us⟩
      rw [show rest = ts ++ s₁.rest from hts, hus, List.cons_append, List.append_assoc]
      rfl
    | comma | equalEqual | bangEqual | less | lessEqual | greater | greaterEqual | plus | star
    | slash => exact Faultless.skip_bind (missingLeftOperand_found hp _ _ _ _)
    | _ => exact .fail _ _

/-! Statements. -/

theorem someExpression_found : Faultless (some <$> Parser.expression phrase) s fun a s' =>
    ∃ e, a = some e ∧ Found .expression s e s' :=
  .map ((hp (.chain .comma) s).mono fun (e : Expr RefId) _ found => ⟨e, rfl, found⟩)

theorem optionalBefore_found (closing : Token.Kind) :
    Faultless (optionalBefore phrase closing) s (Found .optionalExpression s) := by
  refine Faultless.nextIs_bind fun closes => ?_
  cases closes with
  | true => exact .pure ⟨[], false, rfl, .noExpression _, trivial⟩
  | false =>
    refine (someExpression_found hp s).mono fun a s' ⟨e, ha, ts, o, hts, expression, _⟩ => ?_
    subst ha
    exact ⟨ts, false, hts, .someExpression expression, trivial⟩

theorem expressionStatement_found :
    Faultless (Parser.expressionStatement phrase) s (Found .expressionStatement s) := by
  refine (hp (.chain .comma) s).bind fun (e : Expr RefId) s₁ => ?_
  refine Faultless.expect_bind fun sign us hus hsign => .pure fun found => ?_
  obtain ⟨ts, o, hts, expression, -⟩ := found
  refine ⟨ts ++ [sign], false, ?_, .expressionStatement expression hsign, trivial⟩
  rw [hts, hus, List.append_assoc]
  rfl

/-- A phrase lies between the two states once the word is put in front. -/
def FoundAfter (word : Token) (n : Symbol) (s : State) (a : n.Tree) (s' : State) : Prop :=
  Found n { s with rest := word :: s.rest } a s'

variable {word : Token}

theorem varDeclaration_found (hword : word.kind = .var) :
    Faultless (varDeclaration phrase) s (FoundAfter word .variableDeclaration s) := by
  refine Faultless.expectName_bind fun name ts hts hname => ?_
  refine Faultless.accept?_bind (fun equal us hus hequal => ?_) fun _ => ?_
  · refine (someExpression_found hp _).bind fun a s₁ => ?_
    refine Faultless.expect_bind fun sign vs hvs hsign => .pure fun found => ?_
    obtain ⟨e, rfl, es, o, hes, initial, -⟩ := found
    refine ⟨word :: name :: equal :: (es ++ [sign]), false, ?_,
      .assigned hword hname hequal initial hsign, trivial⟩
    change word :: s.rest = _
    rw [hts, show ts = equal :: us from hus, show us = es ++ s₁.rest from hes, hvs]
    simp only [List.cons_append, List.append_assoc, List.nil_append]
  · refine Faultless.pure_bind (Faultless.expect_bind fun sign us hus hsign => .pure ?_)
    refine ⟨[word, name, sign], false, ?_, .unassigned _ hword hname hsign, trivial⟩
    change word :: s.rest = _
    rw [hts, show ts = sign :: us from hus]
    rfl

theorem ifStatement_found (hword : word.kind = .if) :
    Faultless (ifStatement phrase) s (FoundAfter word .statement s) := by
  refine Faultless.expect_bind fun left ts hts hleft => ?_
  refine (hp (.chain .comma) _).bind fun (c : Expr RefId) s₁ => ?_
  refine Faultless.expect_bind fun right us hus hright => ?_
  refine (hp .statement _).bind fun (y : Stmt RefId) s₂ => ?_
  refine Faultless.accept?_bind (fun other vs hvs hother => ?_) fun notElse =>
    .pure fun hy hc => ?_
  · refine (hp .statement _).bind fun (n : Stmt RefId) s₃ => .pure fun hn hy hc => ?_
    obtain ⟨cs, o, hcs, condition, -⟩ := hc
    obtain ⟨ys, o', hys, yes, stops⟩ := hy
    obtain ⟨ns, o₁, hns, no, stops'⟩ := hn
    have nearest : o' = false := by
      cases o' with
      | false => rfl
      | true => exact absurd hother (stops rfl other (by rw [hvs]; rfl))
    refine ⟨word :: left :: (cs ++ right :: (ys ++ other :: ns)), o₁, ?_,
      .ifElse hword hleft condition hright yes (fun _ => nearest) hother no, stops'⟩
    change word :: s.rest = _
    rw [hts, show ts = cs ++ s₁.rest from hcs, hus, show us = ys ++ s₂.rest from hys, hvs,
      show vs = ns ++ s₃.rest from hns]
    simp only [List.cons_append, List.append_assoc]
  · obtain ⟨cs, o, hcs, condition, -⟩ := hc
    obtain ⟨ys, o', hys, yes, -⟩ := hy
    refine ⟨word :: left :: (cs ++ right :: ys), true, ?_,
      .ifOnly hword hleft condition hright yes, fun _ => notElse⟩
    change word :: s.rest = _
    rw [hts, show ts = cs ++ s₁.rest from hcs, hus, show us = ys ++ s₂.rest from hys]
    simp only [List.cons_append, List.append_assoc]

theorem whileStatement_found (hword : word.kind = .while) :
    Faultless (whileStatement phrase) s (FoundAfter word .statement s) := by
  refine Faultless.expect_bind fun left ts hts hleft => ?_
  refine (hp (.chain .comma) _).bind fun (c : Expr RefId) s₁ => ?_
  refine Faultless.expect_bind fun right us hus hright => ?_
  refine (hp .statement _).bind fun (body : Stmt RefId) s₂ => .pure fun hb hc => ?_
  obtain ⟨cs, o, hcs, condition, -⟩ := hc
  obtain ⟨bs, o', hbs, body, stops⟩ := hb
  refine ⟨word :: left :: (cs ++ right :: bs), o', ?_,
    .whileLoop hword hleft condition hright body, stops⟩
  change word :: s.rest = _
  rw [hts, show ts = cs ++ s₁.rest from hcs, hus, show us = bs ++ s₂.rest from hbs]
  simp only [List.cons_append, List.append_assoc]

theorem printStatement_found (hword : word.kind = .print) :
    Faultless (printStatement phrase) s (FoundAfter word .statement s) := by
  refine (hp (.chain .comma) _).bind fun (e : Expr RefId) s₁ => ?_
  refine Faultless.expect_bind fun sign us hus hsign => .pure fun found => ?_
  obtain ⟨ts, o, hts, value, -⟩ := found
  refine ⟨word :: (ts ++ [sign]), false, ?_, .print hword value hsign, nofun⟩
  change word :: s.rest = _
  rw [hts, hus, List.cons_append, List.append_assoc]
  rfl

theorem returnStatement_found (hword : word.kind = .return) :
    Faultless (returnStatement phrase word) s (FoundAfter word .statement s) := by
  refine (optionalBefore_found hp s .semicolon).bind fun e s₁ => ?_
  refine Faultless.expect_bind fun sign us hus hsign => .pure fun found => ?_
  obtain ⟨ts, o, hts, value, -⟩ := found
  refine ⟨word :: (ts ++ [sign]), false, ?_, .answer hword value hsign, nofun⟩
  change word :: s.rest = _
  rw [hts, hus, List.cons_append, List.append_assoc]
  rfl

omit hp in
theorem breakStatement_found (hword : word.kind = .break) :
    Faultless (breakStatement word) s (FoundAfter word .statement s) := by
  refine Faultless.expect_bind fun sign us hus hsign => .pure ?_
  exact ⟨[word, sign], false, congrArg (word :: ·) hus, .leave _ hword hsign, nofun⟩

theorem forClauses_found (hword : word.kind = .for) (initial : Option (Stmt RefId)) :
    Faultless (forClauses phrase initial) s fun a s' =>
      ∀ {left : Token} {as : List Token} {i : RefId} {o : Bool}, left.kind = .leftParen →
        Derives true .initializer o as i initial s.nextId →
          ∃ us o', s.rest = us ++ s'.rest ∧
            Derives true .statement o' (word :: left :: (as ++ us)) i a s'.nextId ∧
              StopsElse o' s'.rest := by
  refine (optionalBefore_found hp s .semicolon).bind fun condition s₁ => ?_
  refine Faultless.expect_bind fun sign ts hts hsign => ?_
  refine (optionalBefore_found hp _ .rightParen).bind fun increment s₂ => ?_
  refine Faultless.expect_bind fun right us hus hright => ?_
  refine (hp .statement _).bind fun (body : Stmt RefId) s₃ => .pure fun hb hn hc => ?_
  intro left as i o hleft first
  obtain ⟨cs, o₁, hcs, second, -⟩ := hc
  obtain ⟨es, o₂, hes, last, -⟩ := hn
  obtain ⟨bs, o₃, hbs, body, stops⟩ := hb
  refine ⟨cs ++ sign :: (es ++ right :: bs), o₃, ?_, ?_, stops⟩
  · rw [hcs, hts, show ts = es ++ s₂.rest from hes, hus, show us = bs ++ s₃.rest from hbs]
    simp only [List.cons_append, List.append_assoc]
  · rw [forLoop_eq]
    exact .forLoop hword hleft first second hsign last hright body

theorem forStatement_found (hword : word.kind = .for) :
    Faultless (forStatement phrase) s (FoundAfter word .statement s) := by
  rw [forStatement_eq]
  refine Faultless.expect_bind fun left ts hts hleft => ?_
  have onward {initial : Option (Stmt RefId)} {s₁ : State} (found : Found .initializer
      ⟨ts, s.nextId, s.faults⟩ initial s₁) (a : Stmt RefId) (s' : State)
      (rest : ∀ {left : Token} {as : List Token} {i : RefId} {o : Bool}, left.kind = .leftParen →
        Derives true .initializer o as i initial s₁.nextId →
          ∃ us o', s₁.rest = us ++ s'.rest ∧
            Derives true .statement o' (word :: left :: (as ++ us)) i a s'.nextId ∧
              StopsElse o' s'.rest) : FoundAfter word .statement s a s' := by
    obtain ⟨as, o, has, first, -⟩ := found
    obtain ⟨us, o', hus, whole, stops⟩ := rest hleft first
    refine ⟨word :: left :: (as ++ us), o', ?_, whole, stops⟩
    change word :: s.rest = _
    rw [hts, show ts = as ++ s₁.rest from has, hus]
    simp only [List.cons_append, List.append_assoc]
  refine Faultless.accept?_bind (fun sign us hus hsign => ?_) fun _ => ?_
  · refine (forClauses_found hp _ hword none).mono fun a s' rest => ?_
    have first : Found .initializer ⟨ts, s.nextId, s.faults⟩ none ⟨us, s.nextId, s.faults⟩ :=
      ⟨[sign], false, hus, .noInitializer _ hsign, trivial⟩
    exact onward first a s' rest
  · refine Faultless.accept?_bind (fun var us hus hvar => ?_) fun _ => ?_
    · refine (Faultless.map (f := some) (R := fun a s' => ∃ d, a = some d ∧
        FoundAfter var .variableDeclaration ⟨us, s.nextId, s.faults⟩ d s')
        ((varDeclaration_found hp _ hvar).mono fun d _ found => ⟨d, rfl, found⟩)).bind
          fun initial s₁ => ?_
      refine (forClauses_found hp s₁ hword initial).mono
        fun a s' rest ⟨d, hd, vs, o, hvs, declaration, _⟩ => ?_
      subst hd
      have hus : ts = var :: us := hus
      exact onward ⟨vs, false, hus.trans hvs, .variableInitializer declaration, trivial⟩ a s' rest
    · refine (Faultless.map (f := some) (R := fun a s' => ∃ d, a = some d ∧
        Found .expressionStatement ⟨ts, s.nextId, s.faults⟩ d s')
        ((expressionStatement_found hp _).mono fun d _ found => ⟨d, rfl, found⟩)).bind
          fun initial s₁ => ?_
      refine (forClauses_found hp s₁ hword initial).mono
        fun a s' rest ⟨d, hd, vs, o, hvs, expression, _⟩ => ?_
      subst hd
      exact onward ⟨vs, false, hvs, .expressionInitializer expression, trivial⟩ a s' rest

theorem statement_found : Faultless (Parser.statement phrase) s (Found .statement s) := by
  have expression : Faultless (Parser.expressionStatement phrase) s (Found .statement s) :=
    (expressionStatement_found hp s).mono fun a s' ⟨ts, o, hts, found, _⟩ =>
      ⟨ts, false, hts, .expression found, nofun⟩
  refine Faultless.peek_bind ?_
  obtain ⟨rest, i, fs⟩ := s
  cases rest with
  | nil => exact expression
  | cons t rest =>
    obtain ⟨kind, lexeme, line, literal⟩ := t
    cases kind with
    | «for» => exact Faultless.skip_bind (forStatement_found hp _ rfl)
    | «if» => exact Faultless.skip_bind (ifStatement_found hp _ rfl)
    | «print» => exact Faultless.skip_bind (printStatement_found hp _ rfl)
    | «return» => exact Faultless.skip_bind (returnStatement_found hp _ rfl)
    | «break» => exact Faultless.skip_bind (breakStatement_found _ rfl)
    | «while» => exact Faultless.skip_bind (whileStatement_found hp _ rfl)
    | leftBrace =>
      refine Faultless.skip_bind ((block_found hp _).bind fun body s₁ => .pure fun found => ?_)
      obtain ⟨ts, closing, o, hts, hclosing, body⟩ := found
      refine ⟨⟨.leftBrace, lexeme, line, literal⟩ :: (ts ++ [closing]), false, ?_,
        .block rfl body hclosing, nofun⟩
      rw [show rest = ts ++ closing :: s₁.rest from hts, List.cons_append, List.append_assoc]
      rfl
    | _ => exact expression

/-! Declarations. -/

theorem definition_found (owner : String) :
    Faultless (definition phrase owner) s (Found .function s) := by
  refine Faultless.expectName_bind fun name ts hts hname => ?_
  refine (routine_found hp _ _ _).bind fun r s₁ => .pure fun found => ?_
  obtain ⟨us, o, hus, routine, -⟩ := found
  exact ⟨name :: us, false, hts.trans (congrArg (name :: ·) hus), .function hname routine, trivial⟩

theorem members_found : Faultless (Parser.members phrase) s (Shown .members s) := by
  refine Faultless.atEnd_bind fun atEnd => Faultless.nextIs_bind fun closes => ?_
  have done : Faultless (Pure.pure [] : Parser (List (Bool × Definition RefId))) s
      (Shown .members s) := .pure ⟨[], false, rfl, .noMember _, trivial⟩
  have member : Faultless
      (do
        let ofClass ← accept? .class
        let method ← definition phrase "method"
        return (ofClass.isSome, method) :: (← phrase .members)) s (Shown .members s) := by
    refine Faultless.accept?_bind (fun word us hus hword => ?_) fun _ => ?_
    · refine (definition_found hp _ _).bind fun d s₁ => ?_
      refine (hp .members _).bind fun (ms : List (Bool × Definition RefId)) s₂ =>
        .pure fun others found => ?_
      obtain ⟨ts, o, hts, method, -⟩ := found
      obtain ⟨vs, o', hvs, others, -⟩ := others
      refine ⟨word :: (ts ++ vs), false, ?_, .classMethod hword method others, trivial⟩
      rw [hus, show us = ts ++ s₁.rest from hts, hvs, List.cons_append, List.append_assoc]
    · refine (definition_found hp _ _).bind fun d s₁ => ?_
      refine (hp .members _).bind fun (ms : List (Bool × Definition RefId)) s₂ =>
        .pure fun others found => ?_
      obtain ⟨ts, o, hts, method, -⟩ := found
      obtain ⟨vs, o', hvs, others, -⟩ := others
      refine ⟨ts ++ vs, false, ?_, .method method others, trivial⟩
      rw [hts, hvs, List.append_assoc]
  cases atEnd with
  | true => exact done
  | false =>
    cases closes with
    | true => exact done
    | false => exact member

theorem classBody_found (hword : word.kind = .class) (name : Lexeme)
    (superclass : Option (RefId × Lexeme)) : Faultless (classBody phrase name superclass) s
      fun a s' => ∀ {t : Token} {ts : List Token} {i : RefId} {o : Bool}, t.kind = .identifier →
        t.mark = name → Derives true .superclass o ts i superclass s.nextId →
          ∃ us, s.rest = us ++ s'.rest ∧
            Derives true .declaration false (word :: t :: (ts ++ us)) i a s'.nextId := by
  refine Faultless.expect_bind fun opening us hus hopening => ?_
  refine (hp .members _).bind fun (ms : List (Bool × Definition RefId)) s₁ => ?_
  refine Faultless.expect_bind fun closing vs hvs hclosing => .pure fun found => ?_
  obtain ⟨ms', o, hms, members, -⟩ := found
  intro t ts i o' ht hname above
  subst hname
  refine ⟨opening :: (ms' ++ [closing]), ?_,
    .classDeclaration hword ht above hopening members hclosing⟩
  rw [hus, show us = ms' ++ s₁.rest from hms, hvs, List.cons_append, List.append_assoc]
  rfl

theorem classDeclaration_found (hword : word.kind = .class) :
    Faultless (classDeclaration phrase) s (FoundAfter word .declaration s) := by
  rw [classDeclaration_eq]
  refine Faultless.expectName_bind fun name ts hts hname => ?_
  refine Faultless.accept?_bind (fun sign us hus hsign => ?_) fun _ => ?_
  · refine Faultless.expectName_bind fun above vs hvs habove => Faultless.freshId_bind ?_
    refine (classBody_found hp _ hword _ _).mono fun a s' rest => ?_
    obtain ⟨ws, hws, whole⟩ := rest hname rfl (.superclass _ hsign habove)
    refine ⟨_, false, ?_, whole, nofun⟩
    change word :: s.rest = _
    rw [hts, show ts = sign :: us from hus, show us = above :: vs from hvs,
      show vs = ws ++ s'.rest from hws]
    rfl
  · refine (classBody_found hp _ hword _ _).mono fun a s' rest => ?_
    obtain ⟨ws, hws, whole⟩ := rest hname rfl (.noSuperclass _)
    refine ⟨_, false, ?_, whole, nofun⟩
    change word :: s.rest = _
    rw [hts, show ts = ws ++ s'.rest from hws]
    rfl

theorem declaration_found : Faultless (Parser.declaration phrase) s (Found .declaration s) := by
  have statement : Faultless (phrase .statement) s (Found .declaration s) :=
    (hp .statement s).mono fun a s' ⟨ts, o, hts, found, stops⟩ => ⟨ts, o, hts, .statement found, stops⟩
  refine Faultless.get_bind ?_
  obtain ⟨rest, i, fs⟩ := s
  cases rest with
  | nil => exact statement
  | cons t rest =>
    have function (h : t.kind = .fun) : Faultless
        (do skip; return .function (← definition phrase "function") : Parser (Stmt RefId))
        ⟨t :: rest, i, fs⟩ (Found .declaration ⟨t :: rest, i, fs⟩) := by
      refine Faultless.skip_bind ((definition_found hp _ _).bind fun d s₁ => .pure fun found => ?_)
      obtain ⟨ts, o, hts, function, -⟩ := found
      exact ⟨t :: ts, false, congrArg (t :: ·) hts, .functionDeclaration h function, nofun⟩
    obtain ⟨kind, lexeme, line, literal⟩ := t
    cases kind with
    | «class» => exact Faultless.skip_bind (classDeclaration_found hp _ rfl)
    | «fun» =>
      cases rest with
      | nil => exact function rfl
      | cons u rest =>
        obtain ⟨kind, lexeme, line, literal⟩ := u
        cases kind with
        | leftParen => exact statement
        | _ => exact function rfl
    | var =>
      have run := varDeclaration_found hp ⟨rest, i, fs⟩
        (show Token.kind ⟨.var, lexeme, line, literal⟩ = .var from rfl)
      refine Faultless.skip_bind (run.mono fun a s' found => ?_)
      obtain ⟨ts, o, hts, declaration, -⟩ := found
      exact ⟨ts, false, hts, .variableDeclaration declaration, nofun⟩
    | _ => exact statement

theorem sequence_found (inBlock : Bool) :
    Faultless (Parser.sequence phrase inBlock) s (Found .declarations s) := by
  have done : Faultless (Pure.pure [] : Parser (List (Stmt RefId))) s (Found .declarations s) :=
    .pure ⟨[], false, rfl, .noDeclaration _, trivial⟩
  have more : Faultless
      (do
        let first ← phrase .declaration
        let others ← phrase (.sequence inBlock)
        return first.toList ++ others : Parser (List (Stmt RefId))) s (Found .declarations s) := by
    refine (hp .declaration s).bind fun (first : Option (Stmt RefId)) s₁ => ?_
    refine (hp (.sequence inBlock) s₁).bind fun (ss : List (Stmt RefId)) s₂ =>
      .pure fun others first => ?_
    obtain ⟨d, rfl, ts, o, hts, first, -⟩ := first
    obtain ⟨us, o', hus, others, -⟩ := others
    exact ⟨ts ++ us, false, by rw [hts, hus, List.append_assoc], .declarations first others, trivial⟩
  refine Faultless.atEnd_bind fun atEnd => Faultless.nextIs_bind fun closes => ?_
  cases atEnd with
  | true => exact done
  | false =>
    cases inBlock with
    | false => exact more
    | true =>
      cases closes with
      | true => exact done
      | false => exact more

theorem production_shows (n : Nonterminal) : Faultless (production phrase n) s (Shown n s) := by
  cases n with
  | sequence inBlock => exact sequence_found hp s inBlock
  | declaration => exact (declaration_found hp s).recover
  | members => exact members_found hp s
  | statement => exact statement_found hp s
  | parameters before => exact parameters_found hp s before
  | assignment => exact assignment_found hp s
  | chain level => exact chain_found hp s level
  | chainTail level start => exact chainTail_found hp s level start
  | ternary => exact ternary_found hp s
  | unary => exact unary_found hp s
  | call => exact call_found hp s
  | callTail start => exact callTail_found hp s start
  | arguments before => exact arguments_found hp s before
  | primary => exact primary_found hp s

end Productions

/-- What is read without a fault is derived. -/
theorem parseWithin_shows (depth : Nat) (n : Nonterminal) (s : State) :
    Faultless (parseWithin depth n) s (Shown n s) := by
  induction depth generalizing n s with
  | zero => exact List.prefix_refl _
  | succ depth ih => exact production_shows ih s n

end Grammar

end Lox
