import Lox.Proofs.Grammar.Lookahead

/-!
Every phrase of the grammar has a best derivation. An `else` that belongs to an outer `if` is given to
the nearest one in the branch before it, and an `and` or `or` behind a conditional expression is given
to the last branch of that.
-/

namespace Lox

namespace Grammar

open Lox.Parser (Level Infix)

/-! An `else` behind an open statement. -/

/-- The statement can take an `else` and another statement behind it. -/
def TakesElse : (n : Symbol) → Bool → List Token → RefId → RefId → Prop
  | .statement, true, ts, i, j => ∀ {other : Token} {us : List Token} {s : Stmt RefId} {o : Bool}
      {k : RefId}, other.kind = .else → Derives true .statement o us j s k →
        ∃ s' o', Derives true .statement o' (ts ++ other :: us) i s' k
  | _, _, _, _, _ => True

theorem Derives.takesElse {n : Symbol} {o : Bool} {ts : List Token} {i j : RefId} {a : n.Tree}
    (h : Derives true n o ts i a j) : TakesElse n o ts i j := by
  induction h with
  | @forLoop _ _ _ _ _ _ _ _ _ _ _ _ _ _ _ _ _ _ _ _ o hword hleft first second hsign last hright
      _ _ _ _ ih =>
    cases o with
    | false => trivial
    | true =>
      intro other us s o k hother hs
      obtain ⟨body, o', hbody⟩ := ih hother hs
      simp only [List.append_assoc, List.cons_append]
      exact ⟨_, _, .forLoop hword hleft first second hsign last hright hbody⟩
  | @ifOnly word left right cs ys i j k c y o o' hword hleft condition hright yes _ ih =>
    intro other us s o₁ l hother hs
    cases o' with
    | false =>
      simp only [List.append_assoc, List.cons_append]
      exact ⟨_, _, .ifElse hword hleft condition hright yes (fun _ => rfl) hother hs⟩
    | true =>
      obtain ⟨y', o₂, hy⟩ := ih hother hs
      simp only [List.append_assoc, List.cons_append]
      exact ⟨_, _, .ifOnly hword hleft condition hright hy⟩
  | @ifElse _ _ _ _ _ _ _ _ _ _ _ _ _ _ _ _ o hword hleft condition hright yes nearest hother _ _ _
      ih =>
    cases o with
    | false => trivial
    | true =>
      intro other us s o k hother' hs
      obtain ⟨n, o', hn⟩ := ih hother' hs
      simp only [List.append_assoc, List.cons_append]
      exact ⟨_, _, .ifElse hword hleft condition hright yes nearest hother hn⟩
  | @whileLoop _ _ _ _ _ _ _ _ _ _ _ o hword hleft condition hright _ _ ih =>
    cases o with
    | false => trivial
    | true =>
      intro other us s o k hother hs
      obtain ⟨body, o', hbody⟩ := ih hother hs
      simp only [List.append_assoc, List.cons_append]
      exact ⟨_, _, .whileLoop hword hleft condition hright hbody⟩
  | _ => trivial

/-! Expressions that no conditional one stands at the end of. -/

/-- Such an expression is tighter than a conditional one. -/
def ClosedIfTight : (n : Symbol) → Bool → Prop
  | .expr tier, o => tier.looseness < Tier.ternary.looseness → o = false
  | _, _ => True

theorem Derives.closedIfTight {best : Bool} {n : Symbol} {o : Bool} {ts : List Token} {i j : RefId}
    {a : n.Tree} (h : Derives best n o ts i a j) : ClosedIfTight n o := by
  induction h with
  | @operand level _ _ _ _ _ _ ih => exact fun hl => ih (Nat.lt_trans (looseness_operand level) hl)
  | @operation level _ _ _ _ _ _ _ _ _ _ _ _ _ _ _ _ ih =>
    exact fun hl => ih (Nat.lt_trans (looseness_operand level) hl)
  | logic | assign | set | ternary => exact fun hl => absurd hl (by decide)
  | equality | call | unary | primary | lambda | apply | get | constant | literal | this | identifier
  | super | group => exact fun _ => rfl
  | _ => trivial

theorem Derives.closed_of_level {best : Bool} {level : Level} {o : Bool} {ts : List Token}
    {i j : RefId} {e : Expr RefId} (h : Derives best (.expr (.chain level)) o ts i e j)
    (hc : level ≠ .comma) (ho : level ≠ .or) (ha : level ≠ .and) : o = false := by
  apply h.closedIfTight
  cases level <;> first | decide | contradiction

/-! An operator behind an open expression. -/

/-- An assignment, or what ends in one. -/
def Tier.endsInAssignment : Tier → Bool → Bool
  | .assignment, _ | .chain .or, true | .chain .and, true | .ternary, true => true
  | _, _ => false

/-- The expression can take a logical operator and its right operand behind it. -/
def TakesOperand : (n : Symbol) → Bool → List Token → RefId → RefId → Prop
  | .expr tier, o, ts, i, j => tier.endsInAssignment o → ∀ {level : Level} {sign : Token}
      {op : Infix} {us : List Token} {r : Expr RefId} {o' : Bool} {k : RefId},
      level = .or ∨ level = .and → (sign.kind, op) ∈ operators level →
        Derives true (.expr (operand level)) o' us j r k →
          ∃ e o₁, Derives true (.expr tier) o₁ (ts ++ sign :: us) i e k
  | _, _, _, _, _ => True

/-- Behind a closed expression the operator joins it or its last operand. -/
theorem Derives.takesOperand_of_closed {ts us : List Token} {i j k : RefId} {e r : Expr RefId}
    {o : Bool} {level : Level} {sign : Token} {op : Infix}
    (h : Derives true (.expr (.chain .or)) false ts i e j) (hl : level = .or ∨ level = .and)
    (hsign : (sign.kind, op) ∈ operators level)
    (hr : Derives true (.expr (Grammar.operand level)) o us j r k) :
    ∃ e' o', Derives true (.expr (.chain .or)) o' (ts ++ sign :: us) i e' k := by
  obtain rfl | rfl := hl
  · exact ⟨_, o, .operation h (fun _ _ => rfl) hsign hr⟩
  · have join {ls : List Token} {l : Expr RefId} {i : RefId}
        (hl : Derives true (.expr (.chain .and)) false ls i l j) :
        Derives true (.expr (.chain .and)) o (ls ++ sign :: us) i (op.apply sign.mark l r) k :=
      .operation hl (fun _ _ => rfl) hsign hr
    cases h with
    | operand only => exact ⟨_, o, .operand (join only)⟩
    | operation left farthest hsign' right =>
      simp only [List.append_assoc, List.cons_append]
      exact ⟨_, o, .operation left farthest hsign' (join right)⟩

theorem Derives.takesOperand {n : Symbol} {o : Bool} {ts : List Token} {i j : RefId} {a : n.Tree}
    (h : Derives true n o ts i a j) : TakesOperand n o ts i j := by
  induction h with
  | @operand level ts i j e o only ih =>
    intro ho level' sign op us r o' k hl hsign hr
    have hi : (Grammar.operand level).endsInAssignment o := by
      cases level <;> cases o <;> first | rfl | cases ho
    obtain ⟨e', o₁, he⟩ := ih hi hl hsign hr
    exact ⟨e', o₁, .operand he⟩
  | @operation level sign op ls rs i j k l r o o' left farthest hsign right _ ih =>
    intro ho level' sign' op' us r' o₁ m hl hsign' hr
    have hi : (Grammar.operand level).endsInAssignment o' := by
      cases level <;> cases o' <;> first | rfl | cases ho
    obtain ⟨e', o₂, he⟩ := ih hi hl hsign' hr
    simp only [List.append_assoc, List.cons_append]
    exact ⟨_, _, .operation left farthest hsign he⟩
  | @logic ts i j e o logic ih =>
    intro _ level' sign op us r o' k hl hsign hr
    have hx : ∃ e' o₁, Derives true (.expr (.chain .or)) o₁ (ts ++ sign :: us) i e' k := by
      cases o with
      | true => exact ih rfl hl hsign hr
      | false => exact logic.takesOperand_of_closed hl hsign hr
    obtain ⟨e', o₁, he⟩ := hx
    exact ⟨e', o₁, .logic he⟩
  | assign hname hequal _ ih =>
    intro _ level' sign op us r o' k hl hsign hr
    obtain ⟨e', o₁, he⟩ := ih rfl hl hsign hr
    exact ⟨_, o₁, .assign hname hequal he⟩
  | set hobject hdot hname hequal _ _ ih =>
    intro _ level' sign op us r o' k hl hsign hr
    obtain ⟨e', o₁, he⟩ := ih rfl hl hsign hr
    simp only [List.append_assoc, List.cons_append]
    exact ⟨_, _, .set hobject hdot hname hequal he⟩
  | ternary condition hquestion yes hcolon _ _ _ ih =>
    intro _ level' sign op us r o' k hl hsign hr
    obtain ⟨e', o₁, he⟩ := ih rfl hl hsign hr
    simp only [List.append_assoc, List.cons_append]
    exact ⟨_, _, .ternary condition hquestion yes hcolon he⟩
  | equality | call | unary | primary | lambda | apply | get | constant | literal | this | identifier
  | super | group => exact fun ho => nomatch ho
  | _ => trivial

/-- A best derivation is one of the grammar alone. -/
theorem Derives.of_best {best : Bool} {n : Symbol} {o : Bool} {ts : List Token} {i j : RefId}
    {a : n.Tree} (h : Derives best n o ts i a j) : Derives false n o ts i a j := by
  induction h with
  | noDeclaration i => exact .noDeclaration i
  | declarations _ _ ih ih' => exact .declarations ih ih'
  | classDeclaration hword hname _ hopening _ hclosing ih ih' =>
    exact .classDeclaration hword hname ih hopening ih' hclosing
  | functionDeclaration hword _ ih => exact .functionDeclaration hword ih
  | variableDeclaration _ ih => exact .variableDeclaration ih
  | statement _ ih => exact .statement ih
  | noSuperclass i => exact .noSuperclass i
  | superclass i hsign hname => exact .superclass i hsign hname
  | noMember i => exact .noMember i
  | method _ _ ih ih' => exact .method ih ih'
  | classMethod hword _ _ ih ih' => exact .classMethod hword ih ih'
  | function hname _ ih => exact .function hname ih
  | routine hleft hcount _ hright hopening _ hclosing ih ih' =>
    exact .routine hleft hcount ih hright hopening ih' hclosing
  | noParameter i => exact .noParameter i
  | parameter i hname => exact .parameter i hname
  | parameters hname hsign _ ih => exact .parameters hname hsign ih
  | unassigned i hword hname hsign => exact .unassigned i hword hname hsign
  | assigned hword hname hequal _ hsign ih => exact .assigned hword hname hequal ih hsign
  | expression _ ih => exact .expression ih
  | forLoop hword hleft _ _ hsign _ hright _ ih ih' ih₁ ih₂ =>
    exact .forLoop hword hleft ih ih' hsign ih₁ hright ih₂
  | ifOnly hword hleft _ hright _ ih ih' => exact .ifOnly hword hleft ih hright ih'
  | ifElse hword hleft _ hright _ _ hother _ ih ih' ih₁ =>
    exact .ifElse hword hleft ih hright ih' nofun hother ih₁
  | print hword _ hsign ih => exact .print hword ih hsign
  | answer hword _ hsign ih => exact .answer hword ih hsign
  | leave i hword hsign => exact .leave i hword hsign
  | whileLoop hword hleft _ hright _ ih ih' => exact .whileLoop hword hleft ih hright ih'
  | block hopening _ hclosing ih => exact .block hopening ih hclosing
  | expressionStatement _ hsign ih => exact .expressionStatement ih hsign
  | noInitializer i hsign => exact .noInitializer i hsign
  | variableInitializer _ ih => exact .variableInitializer ih
  | expressionInitializer _ ih => exact .expressionInitializer ih
  | noExpression i => exact .noExpression i
  | someExpression _ ih => exact .someExpression ih
  | operand _ ih => exact .operand ih
  | operation _ _ hsign _ ih ih' => exact .operation ih nofun hsign ih'
  | logic _ ih => exact .logic ih
  | assign hname hequal _ ih => exact .assign hname hequal ih
  | set _ hdot hname hequal _ ih ih' => exact .set ih hdot hname hequal ih'
  | equality _ ih => exact .equality ih
  | ternary _ hquestion _ hcolon _ ih ih' ih₁ => exact .ternary ih hquestion ih' hcolon ih₁
  | call _ ih => exact .call ih
  | unary hsign _ ih => exact .unary hsign ih
  | primary _ ih => exact .primary ih
  | lambda hword _ ih => exact .lambda hword ih
  | apply _ hleft hcount _ hright ih ih' => exact .apply ih hleft hcount ih' hright
  | get _ hdot hname ih => exact .get ih hdot hname
  | noArgument i => exact .noArgument i
  | argument _ ih => exact .argument ih
  | arguments _ hsign _ ih ih' => exact .arguments ih hsign ih'
  | constant i h => exact .constant i h
  | literal i h => exact .literal i h
  | this i h => exact .this i h
  | identifier i h => exact .identifier i h
  | super i h hdot hname => exact .super i h hdot hname
  | group hleft _ hright ih => exact .group hleft ih hright

/-! Best phrases of best parts, where more than one phrase can be made of them. -/

/-- The `else` goes to the nearest statement that can take it. -/
theorem Derives.exists_ifElse {word left right other : Token} {cs ys ns : List Token}
    {i j k l : RefId} {c : Expr RefId} {y n : Stmt RefId} {o o' o₁ : Bool}
    (yes : Derives true .statement o' ys j y k) (hword : word.kind = .if)
    (hleft : left.kind = .leftParen) (condition : Derives true .expression o cs i c j)
    (hright : right.kind = .rightParen) (hother : other.kind = .else)
    (no : Derives true .statement o₁ ns k n l) :
    ∃ s o₂, Derives true .statement o₂
      (word :: left :: (cs ++ right :: (ys ++ other :: ns))) i s l := by
  cases o' with
  | false => exact ⟨_, _, .ifElse hword hleft condition hright yes (fun _ => rfl) hother no⟩
  | true =>
    obtain ⟨y', o₂, yes'⟩ := yes.takesElse hother no
    exact ⟨_, _, .ifOnly hword hleft condition hright yes'⟩

/-- A logical operator goes to the last operand that can take it. Only a comma may follow an open
expression. -/
theorem Derives.exists_operation {level : Level} {sign : Token} {op : Infix} {ls rs : List Token}
    {i j k : RefId} {l r : Expr RefId} {o o' : Bool}
    (left : Derives true (.expr (.chain level)) o ls i l j) (hsign : (sign.kind, op) ∈ operators level)
    (right : Derives true (.expr (Grammar.operand level)) o' rs j r k) :
    ∃ e o₁, Derives true (.expr (.chain level)) o₁ (ls ++ sign :: rs) i e k := by
  cases o with
  | false => exact ⟨_, _, .operation left (fun _ _ => rfl) hsign right⟩
  | true =>
    by_cases hc : level = .comma
    · exact ⟨_, _, .operation left (fun _ h => absurd hc h) hsign right⟩
    · by_cases ho : level = .or
      · subst ho
        exact left.takesOperand rfl (.inl rfl) hsign right
      · by_cases ha : level = .and
        · subst ha
          exact left.takesOperand rfl (.inr rfl) hsign right
        · exact nomatch left.closed_of_level hc ho ha

/-- A phrase has a best derivation, over the same tokens and with the same numbers. -/
theorem Derives.exists_best {best : Bool} {n : Symbol} {o : Bool} {ts : List Token} {i j : RefId}
    {a : n.Tree} (h : Derives best n o ts i a j) : ∃ a' o', Derives true n o' ts i a' j := by
  induction h with
  | noDeclaration i => exact ⟨_, _, .noDeclaration i⟩
  | declarations _ _ ih ih' =>
    obtain ⟨s, o, hs⟩ := ih
    obtain ⟨ss, o', hss⟩ := ih'
    exact ⟨_, _, .declarations hs hss⟩
  | classDeclaration hword hname _ hopening _ hclosing ih ih' =>
    obtain ⟨above, o, ha⟩ := ih
    obtain ⟨⟨ms, cs⟩, o', hm⟩ := ih'
    exact ⟨_, _, .classDeclaration hword hname ha hopening hm hclosing⟩
  | functionDeclaration hword _ ih =>
    obtain ⟨d, o, hd⟩ := ih
    exact ⟨_, _, .functionDeclaration hword hd⟩
  | variableDeclaration _ ih =>
    obtain ⟨s, o, hs⟩ := ih
    exact ⟨_, _, .variableDeclaration hs⟩
  | statement _ ih =>
    obtain ⟨s, o, hs⟩ := ih
    exact ⟨_, _, .statement hs⟩
  | noSuperclass i => exact ⟨_, _, .noSuperclass i⟩
  | superclass i hsign hname => exact ⟨_, _, .superclass i hsign hname⟩
  | noMember i => exact ⟨_, _, .noMember i⟩
  | method _ _ ih ih' =>
    obtain ⟨d, o, hd⟩ := ih
    obtain ⟨⟨ms, cs⟩, o', hm⟩ := ih'
    exact ⟨_, _, .method hd hm⟩
  | classMethod hword _ _ ih ih' =>
    obtain ⟨d, o, hd⟩ := ih
    obtain ⟨⟨ms, cs⟩, o', hm⟩ := ih'
    exact ⟨_, _, .classMethod hword hd hm⟩
  | function hname _ ih =>
    obtain ⟨r, o, hr⟩ := ih
    exact ⟨_, _, .function hname hr⟩
  | routine hleft hcount _ hright hopening _ hclosing ih ih' =>
    obtain ⟨params, o, hp⟩ := ih
    obtain ⟨body, o', hb⟩ := ih'
    exact ⟨_, _, .routine hleft hcount hp hright hopening hb hclosing⟩
  | noParameter i => exact ⟨_, _, .noParameter i⟩
  | parameter i hname => exact ⟨_, _, .parameter i hname⟩
  | parameters hname hsign _ ih =>
    obtain ⟨params, o, hp⟩ := ih
    exact ⟨_, _, .parameters hname hsign hp⟩
  | unassigned i hword hname hsign => exact ⟨_, _, .unassigned i hword hname hsign⟩
  | assigned hword hname hequal _ hsign ih =>
    obtain ⟨e, o, he⟩ := ih
    exact ⟨_, _, .assigned hword hname hequal he hsign⟩
  | expression _ ih =>
    obtain ⟨s, o, hs⟩ := ih
    exact ⟨_, _, .expression hs⟩
  | forLoop hword hleft _ _ hsign _ hright _ ih ih' ih₁ ih₂ =>
    obtain ⟨initial, o, hi⟩ := ih
    obtain ⟨condition, o', hc⟩ := ih'
    obtain ⟨increment, o₁, hn⟩ := ih₁
    obtain ⟨body, o₂, hb⟩ := ih₂
    exact ⟨_, _, .forLoop hword hleft hi hc hsign hn hright hb⟩
  | ifOnly hword hleft _ hright _ ih ih' =>
    obtain ⟨c, o, hc⟩ := ih
    obtain ⟨y, o', hy⟩ := ih'
    exact ⟨_, _, .ifOnly hword hleft hc hright hy⟩
  | ifElse hword hleft _ hright _ _ hother _ ih ih' ih₁ =>
    obtain ⟨c, o, hc⟩ := ih
    obtain ⟨y, o', hy⟩ := ih'
    obtain ⟨n, o₁, hn⟩ := ih₁
    exact hy.exists_ifElse hword hleft hc hright hother hn
  | print hword _ hsign ih =>
    obtain ⟨e, o, he⟩ := ih
    exact ⟨_, _, .print hword he hsign⟩
  | answer hword _ hsign ih =>
    obtain ⟨e, o, he⟩ := ih
    exact ⟨_, _, .answer hword he hsign⟩
  | leave i hword hsign => exact ⟨_, _, .leave i hword hsign⟩
  | whileLoop hword hleft _ hright _ ih ih' =>
    obtain ⟨c, o, hc⟩ := ih
    obtain ⟨body, o', hb⟩ := ih'
    exact ⟨_, _, .whileLoop hword hleft hc hright hb⟩
  | block hopening _ hclosing ih =>
    obtain ⟨body, o, hb⟩ := ih
    exact ⟨_, _, .block hopening hb hclosing⟩
  | expressionStatement _ hsign ih =>
    obtain ⟨e, o, he⟩ := ih
    exact ⟨_, _, .expressionStatement he hsign⟩
  | noInitializer i hsign => exact ⟨_, _, .noInitializer i hsign⟩
  | variableInitializer _ ih =>
    obtain ⟨s, o, hs⟩ := ih
    exact ⟨_, _, .variableInitializer hs⟩
  | expressionInitializer _ ih =>
    obtain ⟨s, o, hs⟩ := ih
    exact ⟨_, _, .expressionInitializer hs⟩
  | noExpression i => exact ⟨_, _, .noExpression i⟩
  | someExpression _ ih =>
    obtain ⟨e, o, he⟩ := ih
    exact ⟨_, _, .someExpression he⟩
  | operand _ ih =>
    obtain ⟨e, o, he⟩ := ih
    exact ⟨_, _, .operand he⟩
  | operation _ _ hsign _ ih ih' =>
    obtain ⟨l, o, hl⟩ := ih
    obtain ⟨r, o', hr⟩ := ih'
    exact hl.exists_operation hsign hr
  | logic _ ih =>
    obtain ⟨e, o, he⟩ := ih
    exact ⟨_, _, .logic he⟩
  | assign hname hequal _ ih =>
    obtain ⟨e, o, he⟩ := ih
    exact ⟨_, _, .assign hname hequal he⟩
  | set _ hdot hname hequal _ ih ih' =>
    obtain ⟨object, o, ho⟩ := ih
    obtain ⟨e, o', he⟩ := ih'
    exact ⟨_, _, .set ho hdot hname hequal he⟩
  | equality _ ih =>
    obtain ⟨e, o, he⟩ := ih
    exact ⟨_, _, .equality he⟩
  | ternary _ hquestion _ hcolon _ ih ih' ih₁ =>
    obtain ⟨c, o, hc⟩ := ih
    obtain ⟨y, o', hy⟩ := ih'
    obtain ⟨n, o₁, hn⟩ := ih₁
    exact ⟨_, _, .ternary hc hquestion hy hcolon hn⟩
  | call _ ih =>
    obtain ⟨e, o, he⟩ := ih
    exact ⟨_, _, .call he⟩
  | unary hsign _ ih =>
    obtain ⟨e, o, he⟩ := ih
    exact ⟨_, _, .unary hsign he⟩
  | primary _ ih =>
    obtain ⟨e, o, he⟩ := ih
    exact ⟨_, _, .primary he⟩
  | lambda hword _ ih =>
    obtain ⟨r, o, hr⟩ := ih
    exact ⟨_, _, .lambda hword hr⟩
  | apply _ hleft hcount _ hright ih ih' =>
    obtain ⟨callee, o, hc⟩ := ih
    obtain ⟨arguments, o', ha⟩ := ih'
    exact ⟨_, _, .apply hc hleft hcount ha hright⟩
  | get _ hdot hname ih =>
    obtain ⟨object, o, ho⟩ := ih
    exact ⟨_, _, .get ho hdot hname⟩
  | noArgument i => exact ⟨_, _, .noArgument i⟩
  | argument _ ih =>
    obtain ⟨e, o, he⟩ := ih
    exact ⟨_, _, .argument he⟩
  | arguments _ hsign _ ih ih' =>
    obtain ⟨e, o, he⟩ := ih
    obtain ⟨es, o', hes⟩ := ih'
    exact ⟨_, _, .arguments he hsign hes⟩
  | constant i h => exact ⟨_, _, .constant i h⟩
  | literal i h => exact ⟨_, _, .literal i h⟩
  | this i h => exact ⟨_, _, .this i h⟩
  | identifier i h => exact ⟨_, _, .identifier i h⟩
  | super i h hdot hname => exact ⟨_, _, .super i h hdot hname⟩
  | group hleft _ hright ih =>
    obtain ⟨e, o, he⟩ := ih
    exact ⟨_, _, .group hleft he hright⟩

end Grammar

end Lox
