import Lox.Proofs.Parser.Primitives
import Lox.Proofs.Parser.Tidy
import Mathlib.Data.List.Nodup

/-!
What reading a phrase does. It takes tokens from the front, hands out the next identities and adds
complaints. With enough depth no phrase is given up for being too deep, every identity stands at one
reference at most, and the trees are tidy.
-/

namespace Lox

namespace Parser

/-- How reading changes a state. -/
structure State.Leads (s s' : State) : Prop where
  rest : s'.rest <:+ s.rest
  nextId : s.nextId ≤ s'.nextId
  faults : s.faults <+: s'.faults

def State.Genuine (s : State) : Prop := ∀ t ∈ s.rest, t.Genuine

/-- Counts an identity that is still to be handed out. -/
def State.unused (s : State) (id : RefId) : Nat := if s.nextId ≤ id then 1 else 0

/-- The identities of the later references are those of the earlier ones and those handed out in
between, each as often as it was there before. -/
def State.Spends (s : State) (before refs : List RefId) (s' : State) : Prop :=
  ∀ id, refs.count id + s'.unused id ≤ before.count id + s.unused id

namespace State

variable {s s' s'' : State} {before refs refs' : List RefId}

namespace Leads

theorem refl (s : State) : s.Leads s := ⟨List.suffix_refl _, Nat.le_refl _, List.prefix_refl _⟩

theorem trans (h : s.Leads s') (h' : s'.Leads s'') : s.Leads s'' :=
  ⟨h'.rest.trans h.rest, Nat.le_trans h.nextId h'.nextId, h.faults.trans h'.faults⟩

theorem length_le (h : s.Leads s') : s'.rest.length ≤ s.rest.length := h.rest.length_le

theorem unused_le (h : s.Leads s') (id : RefId) : s'.unused id ≤ s.unused id := by
  simp only [unused]
  split
  · rename_i hi
    exact Nat.le_of_eq (if_pos (Nat.le_trans h.nextId hi)).symm
  · exact Nat.zero_le _

theorem genuine (h : s.Leads s') (hs : s.Genuine) : s'.Genuine :=
  fun t ht => hs t (h.rest.subset ht)

end Leads

namespace Spends

/-- Identities may be lost. -/
theorem of_le (h : s.Leads s') : s.Spends [] [] s' := fun id =>
  Nat.add_le_add_left (h.unused_le id) 0

theorem of_eq (h : s'.nextId = s.nextId) (refs : List RefId) : s.Spends refs refs s' := by
  intro id
  simp only [unused, h, Nat.le_refl]

theorem trans (h : s.Spends before refs s') (h' : s'.Spends refs refs' s'') :
    s.Spends before refs' s'' := by
  intro id
  have := h id
  have := h' id
  omega

theorem append (h : s.Spends before refs s') (h' : s'.Spends [] refs' s'') :
    s.Spends before (refs ++ refs') s'' := by
  intro id
  have := h id
  have := h' id
  rw [List.count_append]
  rw [List.count_nil] at this
  omega

/-- The count alone matters, not the order. -/
theorem of_count (h : s.Spends before refs s') (hc : ∀ id, refs'.count id ≤ refs.count id) :
    s.Spends before refs' s' := by
  intro id
  have := h id
  have := hc id
  omega

end Spends

end State

variable {α β : Type}

/-- The reader is not given up for being too deep, and what it reads is as told. -/
def Yields (p : Parser α) (s : State) (Q : α → State → Prop) : Prop :=
  match p s with
  | .ok a s' => s.Leads s' ∧ Q a s'
  | .error (.fault _) s' => s.Leads s'
  | .error .tooDeep _ => False

namespace Yields

variable {p : Parser α} {k : α → Parser β} {s : State} {Q Q' : α → State → Prop}
  {R : β → State → Prop}

theorem pure {a : α} (h : Q a s) : Yields (Pure.pure a) s Q := ⟨State.Leads.refl s, h⟩

theorem fail (token : Option Token) (complaint : Syntax.Complaint) :
    Yields (fail token complaint : Parser α) s Q := State.Leads.refl s

theorem bind (hp : Yields p s Q)
    (hk : ∀ a s', s.Leads s' → Q a s' → Yields (k a) s' R) : Yields (p >>= k) s R := by
  simp only [Yields, Bind.bind, EStateM.bind] at hp ⊢
  rcases h : p s with ⟨a, s'⟩ | ⟨_ | _, s'⟩
  · rw [h] at hp
    have hk := hk a s' hp.1 hp.2
    simp only [Yields] at hk ⊢
    rcases h' : k a s' with ⟨b, s''⟩ | ⟨_ | _, s''⟩
    · rw [h'] at hk
      exact ⟨hp.1.trans hk.1, hk.2⟩
    · rw [h'] at hk
      exact hp.1.trans hk
    · rw [h'] at hk
      exact hk
  · rw [h] at hp
    exact hp
  · rw [h] at hp
    exact hp

theorem mono (hp : Yields p s Q) (h : ∀ a s', s.Leads s' → Q a s' → Q' a s') : Yields p s Q' := by
  simp only [Yields] at hp ⊢
  rcases h' : p s with ⟨a, s'⟩ | ⟨_ | _, s'⟩
  · rw [h'] at hp
    exact ⟨hp.1, h a s' hp.1 hp.2⟩
  · rw [h'] at hp
    exact hp
  · rw [h'] at hp
    exact hp

theorem map {f : α → β} (hp : Yields p s fun a => R (f a)) : Yields (f <$> p) s R := by
  have h := hp.bind (k := fun a => Pure.pure (f a)) fun a s' _ ha => pure (Q := R) ha
  exact h

theorem peek : Yields peek s fun t s' => t = s.rest.head? ∧ s' = s :=
  ⟨State.Leads.refl s, rfl, rfl⟩

theorem skip (h : s.rest ≠ []) : Yields skip s fun _ s' =>
    s'.nextId = s.nextId ∧ s'.rest.length + 1 ≤ s.rest.length := by
  obtain ⟨_ | ⟨t, ts⟩, k, fs⟩ := s
  · exact absurd rfl h
  · exact ⟨⟨List.suffix_cons t ts, Nat.le_refl k, List.prefix_refl fs⟩, rfl, Nat.le_refl _⟩

theorem nextIs (kind : Token.Kind) : Yields (nextIs kind) s fun _ s' => s' = s :=
  ⟨State.Leads.refl s, rfl⟩

theorem atEnd : Yields atEnd s fun b s' => s' = s ∧ (b = false → s.rest ≠ []) := by
  refine ⟨State.Leads.refl s, rfl, ?_⟩
  obtain ⟨_ | ⟨t, ts⟩, k, fs⟩ := s
  · exact fun h => nomatch h
  · exact fun _ => List.cons_ne_nil t ts

theorem accept? (kind : Token.Kind) : Yields (accept? kind) s fun t s' =>
    s'.nextId = s.nextId ∧ (t.isSome → s'.rest.length + 1 ≤ s.rest.length) ∧
      ∀ x, t = some x → x.kind = kind ∧ x ∈ s.rest := by
  obtain ⟨_ | ⟨t, ts⟩, k, fs⟩ := s
  · refine ⟨State.Leads.refl _, rfl, ?_, ?_⟩
    · exact fun h => nomatch h
    · exact fun _ h => nomatch h
  · by_cases h : t.kind = kind
    · rw [Yields, accept?_of_eq h]
      refine ⟨⟨List.suffix_cons t ts, Nat.le_refl k, List.prefix_refl fs⟩, rfl,
        fun _ => Nat.le_refl _, ?_⟩
      rintro x ⟨⟩
      exact ⟨h, List.mem_cons_self⟩
    · rw [Yields, accept?_of_ne h]
      refine ⟨State.Leads.refl _, rfl, ?_, ?_⟩
      · exact fun h => nomatch h
      · exact fun _ h => nomatch h

theorem report (token : Option Token) (complaint : Syntax.Complaint) :
    Yields (report token complaint) s fun _ s' => s'.rest = s.rest ∧ s'.nextId = s.nextId :=
  ⟨⟨List.suffix_refl _, Nat.le_refl _, List.prefix_append _ _⟩, rfl, rfl⟩

theorem freshId : Yields freshId s fun id s' => s'.rest = s.rest ∧ s.Spends [] [id] s' := by
  refine ⟨⟨List.suffix_refl _, Nat.le_succ _, List.prefix_refl _⟩, rfl, ?_⟩
  intro id
  change [s.nextId].count id + (if s.nextId + 1 ≤ id then 1 else 0) ≤
    0 + (if s.nextId ≤ id then 1 else 0)
  by_cases h : s.nextId = id
  · have h' : ¬ s.nextId + 1 ≤ id := fun hl => Nat.ne_of_lt hl h
    refine Nat.le_of_eq ?_
    rw [if_neg h', if_pos (Nat.le_of_eq h), h, List.count_singleton_self]
  · rw [List.count_singleton, if_neg (mt beq_iff_eq.mp h)]
    split
    · rename_i hl
      exact Nat.le_of_eq (congrArg (0 + ·) (if_pos (Nat.le_of_succ_le hl)).symm)
    · exact Nat.zero_le _

theorem expect (kind : Token.Kind) (what : String) : Yields (expect kind what) s fun t s' =>
    s'.nextId = s.nextId ∧ s'.rest.length + 1 ≤ s.rest.length ∧ t.kind = kind ∧ t ∈ s.rest := by
  apply (accept? kind).bind
  rintro t s' _ ⟨hk, hl, ht⟩
  cases t with
  | none => exact peek.bind fun _ _ _ _ => fail _ _
  | some t => exact pure ⟨hk, hl rfl, ht t rfl⟩

theorem expectName (what : String) (h : s.Genuine) : Yields (expectName what) s fun name s' =>
    s'.nextId = s.nextId ∧ s'.rest.length + 1 ≤ s.rest.length ∧ name.Ordinary := by
  apply (expect .identifier what).bind
  rintro t s' _ ⟨hk, hl, ht, hm⟩
  exact pure ⟨hk, hl, (h t hm).ordinary ht⟩

end Yields

theorem resume_suffix (ts : List Token) : resume ts <:+ ts := by
  induction ts with
  | nil => exact List.suffix_refl _
  | cons t ts ih =>
    rw [resume]
    split
    · exact List.suffix_cons t ts
    · exact ih.trans (List.suffix_cons t ts)

theorem length_resume_lt {ts : List Token} (h : ts ≠ []) : (resume ts).length < ts.length := by
  obtain _ | ⟨t, ts⟩ := ts
  · exact absurd rfl h
  · rw [resume]
    split
    · exact Nat.lt_succ_self _
    · exact Nat.lt_succ_of_le (resume_suffix ts).length_le

/-- What is given up takes at least one token too. -/
theorem Yields.recover {p : Parser α} {s : State} {Q : α → State → Prop} (hp : Yields p s Q)
    (h : s.rest ≠ []) : Yields (recover p) s fun o s' =>
      match o with
      | some a => Q a s'
      | none => s'.rest.length + 1 ≤ s.rest.length := by
  simp only [Yields, recover_run] at hp ⊢
  rcases h' : p s with ⟨a, s'⟩ | ⟨f | _, s'⟩
  · rw [h'] at hp
    exact hp
  · rw [h'] at hp
    have hr := resume_suffix s'.rest
    refine ⟨⟨hr.trans hp.rest, hp.nextId, hp.faults.trans (List.prefix_append _ _)⟩, ?_⟩
    by_cases hn : s'.rest = []
    · have : 0 < s.rest.length := List.length_pos_of_ne_nil h
      rw [hn]
      exact this
    · exact Nat.lt_of_lt_of_le (length_resume_lt hn) hp.length_le
  · rw [h'] at hp
    exact hp

/-! What each phrase is to yield. -/

def Level.rank : Level → Nat
  | .comma => 17
  | .or => 15
  | .and => 14
  | .equality => 12
  | .comparison => 11
  | .term => 10
  | .factor => 9

namespace Nonterminal

/-- How many phrases start at one token at most before it is taken. -/
def rank : Nonterminal → Nat
  | .sequence _ => 21
  | .declaration => 20
  | .statement => 19
  | .arguments _ => 18
  | .chain level => level.rank
  | .assignment => 16
  | .ternary => 13
  | .unary => 8
  | .call => 7
  | .primary => 6
  | .members | .parameters _ | .chainTail _ _ | .callTail _ => 5

theorem rank_pos (n : Nonterminal) : 0 < n.rank := by
  cases n with
  | chain level => cases level <;> decide
  | _ => exact Nat.succ_pos _

theorem rank_lt (n : Nonterminal) : n.rank < 32 := by
  cases n with
  | chain level => cases level <;> decide
  | _ => simp [rank]

/-- The least number of tokens that the phrase takes. -/
def gain : Nonterminal → Nat
  | .sequence _ | .members | .chainTail _ _ | .callTail _ => 0
  | _ => 1

/-- The references in what the phrase goes on with. -/
def carried : Nonterminal → List RefId
  | .chainTail _ e | .callTail e => e.references
  | _ => []

def CarriesTidy : Nonterminal → Prop
  | .chainTail _ e | .callTail e => e.Tidy
  | _ => True

def references : (n : Nonterminal) → n.Tree → List RefId
  | .sequence _, ss => Stmt.referencesAll ss
  | .declaration, s => Stmt.referencesAll s.toList
  | .members, ms => Definition.referencesAll (ms.map (·.2))
  | .statement, s => s.references
  | .parameters _, _ => []
  | .arguments _, as => Expr.referencesAll as
  | .assignment, e | .chain _, e | .chainTail _ _, e | .ternary, e | .unary, e | .call, e
  | .callTail _, e | .primary, e => e.references

def TidyTree : (n : Nonterminal) → n.Tree → Prop
  | .sequence _, ss => Stmt.TidyAll ss
  | .declaration, s => Stmt.TidyAll s.toList
  | .members, ms => Definition.TidyAll (ms.map (·.2))
  | .statement, s => s.Tidy ∧ s.isDeclaration = false
  | .parameters _, ps => ∀ p ∈ ps, p.Ordinary
  | .arguments _, as => Expr.TidyAll as
  | .assignment, e | .chain _, e | .chainTail _ _, e | .ternary, e | .unary, e | .call, e
  | .callTail _, e | .primary, e => e.Tidy

end Nonterminal

/-- What was read, by the tokens it takes at least, its references and its tidiness. -/
structure Reading (gain : Nat) (before refs : List RefId) (tidy : Prop) (s s' : State) : Prop where
  gain : s'.rest.length + gain ≤ s.rest.length
  spends : s.Spends before refs s'
  tidy : tidy

abbrev Nonterminal.Reads (n : Nonterminal) (s : State) (a : n.Tree) (s' : State) : Prop :=
  Reading n.gain n.carried (n.references a) (n.TidyTree a) s s'

section Listed

variable {item : Parser α} {others list : Parser (List α)} {s : State} {refs : List α → List RefId}
  {tidy : List α → Prop}

theorem Yields.listed (hs : s.Genuine) (refs_cons : ∀ a as, refs (a :: as) = refs [a] ++ refs as)
    (tidy_cons : ∀ a as, tidy [a] → tidy as → tidy (a :: as))
    (hi : Yields item s fun a => Reading 1 [] (refs [a]) (tidy [a]) s)
    (ho : ∀ s', s'.Genuine → s'.rest.length + 1 ≤ s.rest.length →
      Yields others s' fun as => Reading 1 [] (refs as) (tidy as) s') :
    Yields (listed item others) s fun as => Reading 1 [] (refs as) (tidy as) s := by
  refine hi.bind fun a s₁ h₁ first => ?_
  apply (Yields.accept? .comma).bind
  rintro comma s₂ h₂ ⟨k₂, _⟩
  have l := Nat.le_trans (Nat.succ_le_succ h₂.length_le) first.gain
  have k := first.spends.trans (.of_eq k₂ _)
  cases comma with
  | none => exact .pure ⟨l, k, first.tidy⟩
  | some _ =>
    apply (ho s₂ ((h₁.trans h₂).genuine hs) l).bind
    intro as s₃ h₃ rest
    refine .pure ⟨Nat.le_trans (Nat.succ_le_succ h₃.length_le) l, ?_,
      tidy_cons a as first.tidy rest.tidy⟩
    rw [refs_cons]
    exact k.append rest.spends

theorem Yields.counted (before : Nat) (what : String) (hs : s.Genuine)
    (h : ∀ s', s'.Genuine → s'.rest = s.rest →
      Yields list s' fun as => Reading 1 [] (refs as) (tidy as) s') :
    Yields (counted before what list) s fun as => Reading 1 [] (refs as) (tidy as) s := by
  unfold Parser.counted
  split
  · apply Yields.peek.bind
    rintro t s₁ _ ⟨_, rfl⟩
    apply (Yields.report t _).bind
    rintro _ s₂ h₂ ⟨r₂, k₂⟩
    apply (h s₂ (h₂.genuine hs) r₂).mono
    intro as s₃ _ hr
    exact ⟨r₂ ▸ hr.gain, (State.Spends.of_eq k₂ []).trans hr.spends, hr.tidy⟩
  · exact h s hs rfl

end Listed

/-- The phrase can be read from here within the depth. -/
structure Nonterminal.Ready (n : Nonterminal) (depth : Nat) (s : State) : Prop where
  deep : 32 * s.rest.length + n.rank ≤ depth
  genuine : s.Genuine
  carries : n.CarriesTidy
  starts : n = .declaration → s.rest ≠ []

/-- A phrase of lower rank may start at the same token. -/
theorem deep_of_rank_lt {len rank rank' depth : Nat} (h : 32 * len + rank ≤ depth + 1)
    (hr : rank' < rank) : 32 * len + rank' ≤ depth := by
  omega

/-- Any phrase may start behind that token. -/
theorem deep_of_lt {len len' rank depth : Nat} (h : 32 * len ≤ depth + 1) (hl : len' + 1 ≤ len)
    (hr : rank < 32) : 32 * len' + rank ≤ depth := by
  omega

/-! What trees are put together from. -/

theorem Infix.references_apply {ρ : Type} (op : Infix) (sign : Lexeme) (left right : Expr ρ) :
    (op.apply sign left right).references = left.references ++ right.references := by
  cases op <;> rfl

theorem Infix.tidy_apply {ρ : Type} (op : Infix) (sign : Lexeme) {left right : Expr ρ}
    (hl : left.Tidy) (hr : right.Tidy) : (op.apply sign left right).Tidy := by
  cases op <;> exact ⟨hl, hr⟩

theorem count_references_forLoop (initial : Option (Stmt RefId))
    (condition increment : Option (Expr RefId)) (body : Stmt RefId) (id : RefId) :
    (forLoop initial condition increment body).references.count id =
      (Stmt.referencesAll initial.toList).count id + (Expr.referencesAll condition.toList).count id +
        (Expr.referencesAll increment.toList).count id + body.references.count id := by
  cases initial <;> cases condition <;> cases increment <;>
    simp only [forLoop, Option.getD_none, Option.getD_some, Option.toList, Stmt.references,
      Stmt.referencesAll, Expr.references, Expr.referencesAll, List.append_nil, List.count_append,
      List.count_nil] <;>
    omega

theorem forLoop_tidy {initial : Option (Stmt RefId)} {condition increment : Option (Expr RefId)}
    {body : Stmt RefId} (hi : Stmt.TidyAll initial.toList) (hc : Expr.TidyAll condition.toList)
    (hn : Expr.TidyAll increment.toList) (hb : body.Tidy ∧ body.isDeclaration = false) :
    (forLoop initial condition increment body).Tidy := by
  have loop : (forLoop none condition increment body).Tidy := by
    have hc : (condition.getD (.literal (.bool true))).Tidy := by
      cases condition with
      | none => trivial
      | some e => exact hc.1
    cases increment with
    | none => exact ⟨hc, hb⟩
    | some e => exact ⟨hc, ⟨hb.1, hn.1, trivial⟩, rfl⟩
  cases initial with
  | none => exact loop
  | some s => exact ⟨hi.1, loop, trivial⟩

theorem isDeclaration_forLoop (initial : Option (Stmt RefId))
    (condition increment : Option (Expr RefId)) (body : Stmt RefId) :
    (forLoop initial condition increment body).isDeclaration = false := by
  cases initial <;> rfl

section Productions

variable {depth : Nat} {phrase : (n : Nonterminal) → Parser n.Tree}
  (hp : ∀ (n : Nonterminal) s, n.Ready depth s → Yields (phrase n) s (n.Reads s))
  {s : State} (hs : s.Genuine)

include hp hs

theorem expression_yields (hd : 32 * s.rest.length + 17 ≤ depth) :
    Yields (expression phrase) s fun e => Reading 1 [] e.references e.Tidy s :=
  hp (.chain .comma) s ⟨hd, hs, trivial, nofun⟩

theorem operand_yields (level : Level) (hd : 32 * s.rest.length + level.rank ≤ depth + 1) :
    Yields (operand phrase level) s fun e => Reading 1 [] e.references e.Tidy s := by
  cases level with
  | comma => exact hp .assignment s ⟨deep_of_rank_lt hd (by decide), hs, trivial, nofun⟩
  | or => exact hp (.chain .and) s ⟨deep_of_rank_lt hd (by decide), hs, trivial, nofun⟩
  | and => exact hp .ternary s ⟨deep_of_rank_lt hd (by decide), hs, trivial, nofun⟩
  | equality =>
    exact hp (.chain .comparison) s ⟨deep_of_rank_lt hd (by decide), hs, trivial, nofun⟩
  | comparison => exact hp (.chain .term) s ⟨deep_of_rank_lt hd (by decide), hs, trivial, nofun⟩
  | term => exact hp (.chain .factor) s ⟨deep_of_rank_lt hd (by decide), hs, trivial, nofun⟩
  | factor => exact hp .unary s ⟨deep_of_rank_lt hd (by decide), hs, trivial, nofun⟩

theorem sequence_yields (inBlock : Bool) (hd : 32 * s.rest.length + 21 ≤ depth + 1) :
    Yields (sequence phrase inBlock) s fun ss =>
      Reading 0 [] (Stmt.referencesAll ss) (Stmt.TidyAll ss) s := by
  have rest (hn : s.rest ≠ []) : Yields
      (do
        let first ← phrase .declaration
        let others ← phrase (.sequence inBlock)
        return first.toList ++ others) s fun ss =>
      Reading 0 [] (Stmt.referencesAll ss) (Stmt.TidyAll ss) s := by
    apply (hp .declaration s ⟨Nat.le_of_succ_le_succ hd, hs, trivial, fun _ => hn⟩).bind
    intro (first : Option (Stmt RefId)) s' hl hf
    have deep := deep_of_lt (Nat.le_of_add_right_le hd) hf.gain (by decide : 21 < 32)
    apply (hp (.sequence inBlock) s' ⟨deep, hl.genuine hs, trivial, nofun⟩).bind
    intro (others : List (Stmt RefId)) s'' hl' ho
    apply Yields.pure
    refine ⟨(hl.trans hl').length_le, ?_, Stmt.tidyAll_append hf.tidy ho.tidy⟩
    rw [Stmt.referencesAll_append]
    exact hf.spends.append ho.spends
  have none : Yields (pure [] : Parser (List (Stmt RefId))) s fun ss =>
      Reading 0 [] (Stmt.referencesAll ss) (Stmt.TidyAll ss) s :=
    Yields.pure ⟨Nat.le_refl _, State.Spends.of_eq rfl [], trivial⟩
  apply Yields.atEnd.bind
  rintro atEnd s' _ ⟨rfl, hn⟩
  cases atEnd with
  | true => exact none
  | false =>
    cases inBlock with
    | false => exact rest (hn rfl)
    | true =>
      apply (Yields.nextIs .rightBrace).bind
      rintro closes s' _ rfl
      cases closes with
      | true => exact none
      | false => exact rest (hn rfl)

theorem block_yields (hd : 32 * s.rest.length + 21 ≤ depth) :
    Yields (block phrase) s fun ss =>
      Reading 1 [] (Stmt.referencesAll ss) (Stmt.TidyAll ss) s := by
  apply (hp (.sequence true) s ⟨hd, hs, trivial, nofun⟩).bind
  intro (body : List (Stmt RefId)) s' _ hb
  apply (Yields.expect .rightBrace _).bind
  rintro _ s'' _ ⟨hk, hl, _⟩
  apply Yields.pure
  exact ⟨Nat.le_trans hl hb.gain, hb.spends.trans (.of_eq hk _), hb.tidy⟩

theorem parameters_yields (before : Nat) (hd : 32 * s.rest.length ≤ depth + 1) :
    Yields (parameters phrase before) s fun ps => Reading 1 [] [] (∀ p ∈ ps, p.Ordinary) s := by
  rw [parameters_eq]
  refine .counted before _ hs fun s₁ hs₁ same => .listed hs₁ (fun _ _ => rfl) ?_ ?_ ?_
  · exact fun p ps first others => List.forall_mem_cons.mpr ⟨first p List.mem_cons_self, others⟩
  · apply (Yields.expectName _ hs₁).mono
    rintro name s₂ _ ⟨k₂, l₂, hn⟩
    exact ⟨l₂, .of_eq k₂ [], List.forall_mem_singleton.mpr hn⟩
  · intro s₂ hs₂ l₂
    rw [same] at l₂
    exact hp (.parameters (before + 1)) s₂ ⟨deep_of_lt hd l₂ (by decide : 5 < 32), hs₂, trivial, nofun⟩

theorem routine_yields (head owner : String) (hd : 32 * s.rest.length ≤ depth + 1) :
    Yields (routine phrase head owner) s fun r => Reading 1 [] r.references r.Tidy s := by
  have rest {s₂ : State} (params : List Lexeme) (h₂ : s.Leads s₂) (k₂ : s.Spends [] [] s₂)
      (hn : ∀ p ∈ params, p.Ordinary) : Yields
      (do
        let _ ← expect .rightParen "')' after parameters"
        let _ ← expect .leftBrace ("'\x7b' before " ++ owner ++ " body")
        return ⟨params, ← block phrase⟩ : Parser (Routine RefId)) s₂ fun r =>
      Reading 1 [] r.references r.Tidy s := by
    apply (Yields.expect .rightParen _).bind
    rintro _ s₃ h₃ ⟨k₃, l₃, _⟩
    apply (Yields.expect .leftBrace _).bind
    rintro _ s₄ h₄ ⟨k₄, l₄, _⟩
    have h := (h₂.trans h₃).trans h₄
    have l := Nat.le_trans (Nat.succ_le_succ h₄.length_le) (Nat.le_trans l₃ h₂.length_le)
    apply (block_yields hp (h.genuine hs) (deep_of_lt hd l (by decide))).bind
    intro body s₅ h₅ hb
    apply Yields.pure
    exact ⟨Nat.le_trans (Nat.succ_le_succ h₅.length_le) l,
      (k₂.trans (.of_eq (k₄.trans k₃) [])).trans hb.spends, hn, hb.tidy⟩
  apply (Yields.expect .leftParen _).bind
  rintro _ s₁ h₁ ⟨k₁, l₁, _⟩
  apply (Yields.nextIs .rightParen).bind
  rintro closes s₁ _ rfl
  cases closes with
  | true => exact rest [] h₁ (.of_eq k₁ []) nofun
  | false =>
    have deep := deep_of_lt hd l₁ (by decide : 5 < 32)
    apply (hp (.parameters 0) s₁ ⟨deep, h₁.genuine hs, trivial, nofun⟩).bind
    intro (params : List Lexeme) s₂ h₂ hr
    exact rest params (h₁.trans h₂) ((State.Spends.of_eq k₁ []).trans hr.spends) hr.tidy

theorem definition_yields (owner : String) (hd : 32 * s.rest.length ≤ depth + 1) :
    Yields (definition phrase owner) s fun f => Reading 1 [] f.references f.Tidy s := by
  apply (Yields.expectName _ hs).bind
  rintro name s₁ h₁ ⟨k₁, l₁, hn⟩
  have deep : 32 * s₁.rest.length ≤ depth + 1 := by omega
  apply (routine_yields hp (h₁.genuine hs) _ _ deep).bind
  intro r s₂ h₂ hr
  apply Yields.pure
  exact ⟨Nat.le_trans (Nat.succ_le_succ h₂.length_le) l₁,
    (State.Spends.of_eq k₁ []).trans hr.spends, hn, hr.tidy⟩

theorem lambda_yields (keyword : Token) (hd : 32 * s.rest.length ≤ depth + 1) :
    Yields (lambda phrase keyword) s fun e => Reading 1 [] e.references e.Tidy s :=
  Yields.map (routine_yields hp hs _ _ hd)

theorem members_yields (hd : 32 * s.rest.length ≤ depth + 1) :
    Yields (members phrase) s fun ms => Reading 0 []
      (Definition.referencesAll (ms.map (·.2))) (Definition.TidyAll (ms.map (·.2))) s := by
  have rest : Yields
      (do
        let ofClass ← accept? .class
        let method ← definition phrase "method"
        return (ofClass.isSome, method) :: (← phrase .members)) s fun ms => Reading 0 []
      (Definition.referencesAll (ms.map (·.2))) (Definition.TidyAll (ms.map (·.2))) s := by
    apply (Yields.accept? .class).bind
    rintro ofClass s₁ h₁ ⟨k₁, _⟩
    have l₁ := h₁.length_le
    have deep : 32 * s₁.rest.length ≤ depth + 1 := by omega
    apply (definition_yields hp (h₁.genuine hs) "method" deep).bind
    intro method s₂ h₂ hm
    have l₂ := Nat.le_trans hm.gain l₁
    apply (hp .members s₂ ⟨deep_of_lt hd l₂ (by decide), (h₁.trans h₂).genuine hs, trivial,
      nofun⟩).bind
    intro (others : List (Bool × Definition RefId)) s₃ h₃ ho
    apply Yields.pure
    exact ⟨((h₁.trans h₂).trans h₃).length_le,
      ((State.Spends.of_eq k₁ []).trans hm.spends).append ho.spends, hm.tidy, ho.tidy⟩
  have none : Yields (pure [] : Parser (List (Bool × Definition RefId))) s fun ms => Reading 0 []
      (Definition.referencesAll (ms.map (·.2))) (Definition.TidyAll (ms.map (·.2))) s :=
    Yields.pure ⟨Nat.le_refl _, State.Spends.of_eq rfl [], trivial⟩
  apply Yields.atEnd.bind
  rintro atEnd s' _ ⟨rfl, _⟩
  cases atEnd with
  | true => exact none
  | false =>
    apply (Yields.nextIs .rightBrace).bind
    rintro closes s' _ rfl
    cases closes with
    | true => exact none
    | false => exact rest

theorem classBody_yields (hd : 32 * s.rest.length ≤ depth + 1) {s₁ : State} {name : Lexeme}
    {superclass : Option (RefId × Lexeme)} (h₁ : s.Leads s₁)
    (k₁ : s.Spends [] (superclass.toList.map (·.1)) s₁) (hn : name.Ordinary) :
    Yields (classBody phrase name superclass) s₁ fun c => Reading 1 [] c.references c.Tidy s := by
  apply (Yields.expect .leftBrace _).bind
  rintro _ s₂ h₂ ⟨k₂, l₂, _⟩
  have l₂ := Nat.le_trans l₂ h₁.length_le
  have h₂ := h₁.trans h₂
  apply (hp .members s₂ ⟨deep_of_lt hd l₂ (by decide), h₂.genuine hs, trivial, nofun⟩).bind
  intro (ms : List (Bool × Definition RefId)) s₃ h₃ hm
  apply (Yields.expect .rightBrace _).bind
  rintro _ s₄ h₄ ⟨k₄, _⟩
  apply Yields.pure
  refine ⟨Nat.le_trans (Nat.succ_le_succ (h₃.trans h₄).length_le) l₂, ?_, hn, ?_, ?_⟩
  · have h := ((k₁.trans (.of_eq k₂ _)).append hm.spends).trans (.of_eq k₄ _)
    apply h.of_count
    intro id
    simp only [Stmt.references, Nonterminal.references, List.count_append,
      Definition.count_referencesAll_filter ms id]
    omega
  · exact Definition.tidyAll_filter hm.tidy _
  · exact Definition.tidyAll_filter hm.tidy _

theorem classDeclaration_yields (hd : 32 * s.rest.length ≤ depth + 1) :
    Yields (classDeclaration phrase) s fun c => Reading 1 [] c.references c.Tidy s := by
  rw [classDeclaration_eq]
  apply (Yields.expectName _ hs).bind
  rintro name s₁ h₁ ⟨k₁, l₁, hn⟩
  apply (Yields.accept? .less).bind
  rintro less s₂ h₂ ⟨k₂, _⟩
  have h := h₁.trans h₂
  cases less with
  | none => exact classBody_yields hp hs hd h (.of_eq (k₂.trans k₁) []) hn
  | some _ =>
    apply (Yields.expectName _ (h.genuine hs)).bind
    rintro superclass s₃ h₃ ⟨k₃, _⟩
    apply Yields.freshId.bind
    rintro id s₄ h₄ ⟨_, k₄⟩
    exact classBody_yields hp hs hd ((h.trans h₃).trans h₄)
      ((State.Spends.of_eq (k₃.trans (k₂.trans k₁)) []).trans k₄) hn

theorem someExpression_yields (hd : 32 * s.rest.length + 17 ≤ depth) :
    Yields (some <$> expression phrase) s fun o =>
      Reading 0 [] (Expr.referencesAll o.toList) (Expr.TidyAll o.toList) s := by
  apply Yields.map
  apply (expression_yields hp hs hd).mono
  intro e s₁ h₁ he
  refine ⟨h₁.length_le, ?_, he.tidy, trivial⟩
  simp only [Option.toList, Expr.referencesAll, List.append_nil]
  exact he.spends

omit hp hs in
theorem closeVar_yields {s₁ : State} {name : Lexeme} {initial : Option (Expr RefId)}
    (k₁ : s.Spends [] (Expr.referencesAll initial.toList) s₁)
    (l₁ : s₁.rest.length + 1 ≤ s.rest.length) (hn : name.Ordinary)
    (hi : Expr.TidyAll initial.toList) :
    Yields (closeVar name initial) s₁ fun v => Reading 1 [] v.references v.Tidy s := by
  apply (Yields.expect .semicolon _).bind
  rintro _ s₂ h₂ ⟨k₂, _⟩
  apply Yields.pure
  have k := k₁.trans (.of_eq k₂ _)
  have l := Nat.le_trans (Nat.succ_le_succ h₂.length_le) l₁
  cases initial with
  | none => exact ⟨l, k, hn⟩
  | some e =>
    simp only [Option.toList, Expr.referencesAll, List.append_nil] at k
    exact ⟨l, k, hn, hi.1⟩

theorem varDeclaration_yields (hd : 32 * s.rest.length ≤ depth + 1) :
    Yields (varDeclaration phrase) s fun v => Reading 1 [] v.references v.Tidy s := by
  rw [varDeclaration_eq]
  apply (Yields.expectName _ hs).bind
  rintro name s₁ h₁ ⟨k₁, l₁, hn⟩
  apply (Yields.accept? .equal).bind
  rintro equal s₂ h₂ ⟨k₂, _⟩
  have h := h₁.trans h₂
  have l₂ := Nat.le_trans (Nat.succ_le_succ h₂.length_le) l₁
  cases equal with
  | none => exact closeVar_yields (.of_eq (k₂.trans k₁) []) l₂ hn trivial
  | some _ =>
    apply (someExpression_yields hp (h.genuine hs) (deep_of_lt hd l₂ (by decide))).bind
    intro initial s₃ h₃ hi
    exact closeVar_yields ((State.Spends.of_eq (k₂.trans k₁) []).trans hi.spends)
      (Nat.le_trans (Nat.succ_le_succ h₃.length_le) l₂) hn hi.tidy

theorem optionalBefore_yields (closing : Token.Kind) (hd : 32 * s.rest.length + 17 ≤ depth) :
    Yields (optionalBefore phrase closing) s fun o =>
      Reading 0 [] (Expr.referencesAll o.toList) (Expr.TidyAll o.toList) s := by
  apply (Yields.nextIs closing).bind
  rintro closes s' _ rfl
  cases closes with
  | true => exact Yields.pure ⟨Nat.le_refl _, .of_eq rfl [], trivial⟩
  | false => exact someExpression_yields hp hs hd

theorem expressionStatement_yields (hd : 32 * s.rest.length + 17 ≤ depth) :
    Yields (expressionStatement phrase) s fun t =>
      Reading 1 [] t.references (t.Tidy ∧ t.isDeclaration = false) s := by
  apply (expression_yields hp hs hd).bind
  intro e s₁ h₁ he
  apply (Yields.expect .semicolon _).bind
  rintro _ s₂ h₂ ⟨k₂, _⟩
  apply Yields.pure
  exact ⟨Nat.le_trans (Nat.succ_le_succ h₂.length_le) he.gain, he.spends.trans (.of_eq k₂ _),
    he.tidy, rfl⟩

theorem printStatement_yields (hd : 32 * s.rest.length + 17 ≤ depth) :
    Yields (printStatement phrase) s fun t =>
      Reading 1 [] t.references (t.Tidy ∧ t.isDeclaration = false) s := by
  apply (expression_yields hp hs hd).bind
  intro e s₁ h₁ he
  apply (Yields.expect .semicolon _).bind
  rintro _ s₂ h₂ ⟨k₂, _⟩
  apply Yields.pure
  exact ⟨Nat.le_trans (Nat.succ_le_succ h₂.length_le) he.gain, he.spends.trans (.of_eq k₂ _),
    he.tidy, rfl⟩

theorem returnStatement_yields (keyword : Token) (hd : 32 * s.rest.length + 17 ≤ depth) :
    Yields (returnStatement phrase keyword) s fun t =>
      Reading 1 [] t.references (t.Tidy ∧ t.isDeclaration = false) s := by
  apply (optionalBefore_yields hp hs .semicolon hd).bind
  intro value s₁ h₁ he
  apply (Yields.expect .semicolon _).bind
  rintro _ s₂ h₂ ⟨k₂, l₂, _⟩
  apply Yields.pure
  have l := Nat.le_trans l₂ he.gain
  have k := he.spends.trans (.of_eq k₂ _)
  cases value with
  | none => exact ⟨l, k, trivial, rfl⟩
  | some e =>
    simp only [Option.toList, Expr.referencesAll, List.append_nil] at k
    exact ⟨l, k, he.tidy.1, rfl⟩

omit hp hs in
theorem breakStatement_yields (keyword : Token) : Yields (breakStatement keyword) s fun t =>
    Reading 1 [] t.references (t.Tidy ∧ t.isDeclaration = false) s := by
  apply (Yields.expect .semicolon _).bind
  rintro _ s₁ _ ⟨k₁, l₁, _⟩
  exact Yields.pure ⟨l₁, .of_eq k₁ [], trivial, rfl⟩

theorem whileStatement_yields (hd : 32 * s.rest.length ≤ depth + 1) :
    Yields (whileStatement phrase) s fun t =>
      Reading 1 [] t.references (t.Tidy ∧ t.isDeclaration = false) s := by
  apply (Yields.expect .leftParen _).bind
  rintro _ s₁ h₁ ⟨k₁, l₁, _⟩
  apply (expression_yields hp (h₁.genuine hs) (deep_of_lt hd l₁ (by decide))).bind
  intro condition s₂ h₂ hc
  apply (Yields.expect .rightParen _).bind
  rintro _ s₃ h₃ ⟨k₃, l₃, _⟩
  have h := (h₁.trans h₂).trans h₃
  have l := Nat.le_trans l₃ (h₁.trans h₂).length_le
  apply (hp .statement s₃ ⟨deep_of_lt hd l (by decide), h.genuine hs, trivial, nofun⟩).bind
  intro (body : Stmt RefId) s₄ h₄ hb
  apply Yields.pure
  exact ⟨Nat.le_trans (Nat.succ_le_succ h₄.length_le) l,
    (((State.Spends.of_eq k₁ []).trans hc.spends).trans (.of_eq k₃ _)).append hb.spends,
    ⟨hc.tidy, hb.tidy⟩, rfl⟩

theorem ifStatement_yields (hd : 32 * s.rest.length ≤ depth + 1) :
    Yields (ifStatement phrase) s fun t =>
      Reading 1 [] t.references (t.Tidy ∧ t.isDeclaration = false) s := by
  apply (Yields.expect .leftParen _).bind
  rintro _ s₁ h₁ ⟨k₁, l₁, _⟩
  apply (expression_yields hp (h₁.genuine hs) (deep_of_lt hd l₁ (by decide))).bind
  intro condition s₂ h₂ hc
  apply (Yields.expect .rightParen _).bind
  rintro _ s₃ h₃ ⟨k₃, l₃, _⟩
  have h := (h₁.trans h₂).trans h₃
  have l := Nat.le_trans l₃ (h₁.trans h₂).length_le
  have k := ((State.Spends.of_eq k₁ []).trans hc.spends).trans (.of_eq k₃ _)
  apply (hp .statement s₃ ⟨deep_of_lt hd l (by decide), h.genuine hs, trivial, nofun⟩).bind
  intro (yes : Stmt RefId) s₄ h₄ hy
  have l := Nat.le_trans (Nat.succ_le_succ h₄.length_le) l
  have k := k.append hy.spends
  apply (Yields.accept? .else).bind
  rintro other s₅ h₅ ⟨k₅, _⟩
  have h := (h.trans h₄).trans h₅
  have l := Nat.le_trans (Nat.succ_le_succ h₅.length_le) l
  have k := k.trans (.of_eq k₅ _)
  cases other with
  | none => exact Yields.pure ⟨l, k, ⟨hc.tidy, hy.tidy⟩, rfl⟩
  | some _ =>
    apply (hp .statement s₅ ⟨deep_of_lt hd l (by decide), h.genuine hs, trivial, nofun⟩).bind
    intro (no : Stmt RefId) s₆ h₆ hn
    apply Yields.pure
    exact ⟨Nat.le_trans (Nat.succ_le_succ h₆.length_le) l, k.append hn.spends,
      ⟨hc.tidy, hy.tidy, hn.tidy⟩, rfl⟩

theorem forClauses_yields (hd : 32 * s.rest.length ≤ depth + 1) {s₁ : State}
    {initial : Option (Stmt RefId)} (h₁ : s.Leads s₁)
    (k₁ : s.Spends [] (Stmt.referencesAll initial.toList) s₁)
    (l₁ : s₁.rest.length + 1 ≤ s.rest.length) (hi : Stmt.TidyAll initial.toList) :
    Yields (forClauses phrase initial) s₁ fun t s' =>
      Reading 1 [] t.references (t.Tidy ∧ t.isDeclaration = false) s s' ∧
        ∃ initial condition increment body,
          t = forLoop initial condition increment body ∧ body.isDeclaration = false := by
  apply (optionalBefore_yields hp (h₁.genuine hs) .semicolon
    (deep_of_lt hd l₁ (by decide : 17 < 32))).bind
  intro condition s₂ h₂ hc
  apply (Yields.expect .semicolon _).bind
  rintro _ s₃ h₃ ⟨k₃, _⟩
  have h := (h₁.trans h₂).trans h₃
  have l := Nat.le_trans (Nat.succ_le_succ (h₂.trans h₃).length_le) l₁
  have k := (k₁.append hc.spends).trans (.of_eq k₃ _)
  apply (optionalBefore_yields hp (h.genuine hs) .rightParen
    (deep_of_lt hd l (by decide))).bind
  intro increment s₄ h₄ hn
  apply (Yields.expect .rightParen _).bind
  rintro _ s₅ h₅ ⟨k₅, _⟩
  have h := (h.trans h₄).trans h₅
  have l := Nat.le_trans (Nat.succ_le_succ (h₄.trans h₅).length_le) l
  have k := (k.append hn.spends).trans (.of_eq k₅ _)
  apply (hp .statement s₅ ⟨deep_of_lt hd l (by decide), h.genuine hs, trivial, nofun⟩).bind
  intro (body : Stmt RefId) s₆ h₆ hb
  apply Yields.pure
  refine ⟨⟨Nat.le_trans (Nat.succ_le_succ h₆.length_le) l, ?_, ?_, ?_⟩,
    initial, condition, increment, body, rfl, hb.tidy.2⟩
  · apply (k.append hb.spends).of_count
    intro id
    rw [count_references_forLoop]
    simp only [Nonterminal.references, List.count_append]
    omega
  · exact forLoop_tidy hi hc.tidy hn.tidy hb.tidy
  · exact isDeclaration_forLoop initial condition increment body

/-- What is read is the loop that its parts make, and its body is no declaration. -/
theorem forStatement_loop (hd : 32 * s.rest.length ≤ depth + 1) :
    Yields (forStatement phrase) s fun t s' =>
      Reading 1 [] t.references (t.Tidy ∧ t.isDeclaration = false) s s' ∧
        ∃ initial condition increment body,
          t = forLoop initial condition increment body ∧ body.isDeclaration = false := by
  rw [forStatement_eq]
  apply (Yields.expect .leftParen _).bind
  rintro _ s₁ h₁ ⟨k₁, l₁, _⟩
  apply (Yields.accept? .semicolon).bind
  rintro semicolon s₂ h₂ ⟨k₂, _⟩
  have h := h₁.trans h₂
  have l := Nat.le_trans (Nat.succ_le_succ h₂.length_le) l₁
  cases semicolon with
  | some _ => exact forClauses_yields hp hs hd h (.of_eq (k₂.trans k₁) []) l trivial
  | none =>
    apply (Yields.accept? .var).bind
    rintro var s₃ h₃ ⟨k₃, _⟩
    have h := h.trans h₃
    have l := Nat.le_trans (Nat.succ_le_succ h₃.length_le) l
    have initial {p : Parser (Stmt RefId)} (hv : Yields p s₃ fun t =>
        Reading 1 [] t.references t.Tidy s₃) : Yields (some <$> p) s₃ fun o =>
          Reading 0 [] (Stmt.referencesAll o.toList) (Stmt.TidyAll o.toList) s₃ := by
      apply Yields.map
      apply hv.mono
      intro t s₄ h₄ ht
      refine ⟨h₄.length_le, ?_, ht.tidy, trivial⟩
      simp only [Option.toList, Stmt.referencesAll, List.append_nil]
      exact ht.spends
    have k := State.Spends.of_eq (k₃.trans (k₂.trans k₁)) []
    cases var with
    | some _ =>
      have deep : 32 * s₃.rest.length ≤ depth + 1 := by omega
      apply (initial (varDeclaration_yields hp (h.genuine hs) deep)).bind
      intro o s₄ h₄ ho
      exact forClauses_yields hp hs hd (h.trans h₄) (k.trans ho.spends)
        (Nat.le_trans (Nat.succ_le_succ h₄.length_le) l) ho.tidy
    | none =>
      have he := expressionStatement_yields hp (h.genuine hs) (deep_of_lt hd l (by decide))
      apply (initial (he.mono fun t s₄ _ ht => ⟨ht.gain, ht.spends, ht.tidy.1⟩)).bind
      intro o s₄ h₄ ho
      exact forClauses_yields hp hs hd (h.trans h₄) (k.trans ho.spends)
        (Nat.le_trans (Nat.succ_le_succ h₄.length_le) l) ho.tidy

theorem forStatement_yields (hd : 32 * s.rest.length ≤ depth + 1) :
    Yields (forStatement phrase) s fun t =>
      Reading 1 [] t.references (t.Tidy ∧ t.isDeclaration = false) s :=
  (forStatement_loop hp hs hd).mono fun _ _ _ h => h.1

theorem statement_yields (hd : 32 * s.rest.length + 19 ≤ depth + 1) :
    Yields (statement phrase) s fun t =>
      Reading 1 [] t.references (t.Tidy ∧ t.isDeclaration = false) s := by
  have expression := expressionStatement_yields hp hs (by omega)
  -- behind a keyword
  have behind {p : Parser (Stmt RefId)} (hn : s.rest ≠ [])
      (h : ∀ s₁ : State, s₁.Genuine → s₁.rest.length + 1 ≤ s.rest.length →
        Yields p s₁ fun t => Reading 1 [] t.references (t.Tidy ∧ t.isDeclaration = false) s₁) :
      Yields (do skip; p) s fun t =>
        Reading 1 [] t.references (t.Tidy ∧ t.isDeclaration = false) s := by
    apply (Yields.skip hn).bind
    rintro _ s₁ h₁ ⟨k₁, l₁⟩
    apply (h s₁ (h₁.genuine hs) l₁).mono
    intro t s₂ _ ht
    exact ⟨Nat.le_trans ht.gain h₁.length_le, (State.Spends.of_eq k₁ []).trans ht.spends, ht.tidy⟩
  apply Yields.peek.bind
  rintro t s₁ _ ⟨ht, rfl⟩
  cases t with
  | none => exact expression
  | some t =>
    have hn : s₁.rest ≠ [] := by
      intro h
      rw [h] at ht
      cases ht
    dsimp only
    cases t.kind with
    | «for» => exact behind hn fun s₂ h l => forStatement_yields hp h (by omega)
    | «if» => exact behind hn fun s₂ h l => ifStatement_yields hp h (by omega)
    | print => exact behind hn fun s₂ h l => printStatement_yields hp h (by omega)
    | «return» => exact behind hn fun s₂ h l => returnStatement_yields hp h t (by omega)
    | «break» => exact behind hn fun s₂ _ _ => breakStatement_yields t
    | «while» => exact behind hn fun s₂ h l => whileStatement_yields hp h (by omega)
    | leftBrace =>
      apply behind hn
      intro s₂ h l
      apply (block_yields hp h (by omega)).bind
      intro body s₃ _ hb
      exact Yields.pure ⟨hb.gain, hb.spends, hb.tidy, rfl⟩
    | _ => exact expression

theorem declaration_yields (hd : 32 * s.rest.length + 20 ≤ depth + 1) :
    Yields (declaration phrase) s fun t => Reading 1 [] t.references t.Tidy s := by
  have statement : Yields (phrase .statement) s fun (t : Stmt RefId) =>
      Reading 1 [] t.references t.Tidy s :=
    (hp .statement s ⟨deep_of_rank_lt hd (by decide), hs, trivial, nofun⟩).mono
      fun _ _ _ ht => ⟨ht.gain, ht.spends, ht.tidy.1⟩
  have behind {p : Parser (Stmt RefId)} (hn : s.rest ≠ [])
      (h : ∀ s₁ : State, s₁.Genuine → 32 * s₁.rest.length ≤ depth + 1 →
        Yields p s₁ fun t => Reading 1 [] t.references t.Tidy s₁) :
      Yields (do skip; p) s fun t => Reading 1 [] t.references t.Tidy s := by
    apply (Yields.skip hn).bind
    rintro _ s₁ h₁ ⟨k₁, l₁⟩
    apply (h s₁ (h₁.genuine hs) (by omega)).mono
    intro t s₂ _ ht
    exact ⟨Nat.le_trans ht.gain h₁.length_le, (State.Spends.of_eq k₁ []).trans ht.spends, ht.tidy⟩
  have function (hn : s.rest ≠ []) : Yields
      (do skip; return Stmt.function (← definition phrase "function")) s
      fun t => Reading 1 [] t.references t.Tidy s := by
    apply behind hn
    intro s₁ h d
    apply (definition_yields hp h "function" d).bind
    intro f s₂ _ hf
    exact Yields.pure ⟨hf.gain, hf.spends, hf.tidy⟩
  obtain ⟨_ | ⟨⟨kind, lexeme, line, literal⟩, ts⟩, k, fs⟩ := s
  · exact statement
  · have hn {t : Token} {ts : List Token} : t :: ts ≠ [] := List.cons_ne_nil t ts
    cases kind with
    | «class» => exact behind hn fun s₁ h d => classDeclaration_yields hp h d
    | var => exact behind hn fun s₁ h d => varDeclaration_yields hp h d
    | «fun» =>
      obtain _ | ⟨⟨kind, lexeme', line', literal'⟩, ts⟩ := ts
      · exact function hn
      · cases kind with
        | leftParen => exact statement
        | _ => exact function hn
    | _ => exact statement

theorem assignment_yields (hd : 32 * s.rest.length + 16 ≤ depth + 1) :
    Yields (assignment phrase) s fun e => Reading 1 [] e.references e.Tidy s := by
  apply (hp (.chain .or) s ⟨deep_of_rank_lt hd (by decide), hs, trivial, nofun⟩).bind
  intro (left : Expr RefId) s₁ h₁ hl
  apply (Yields.accept? .equal).bind
  rintro sign s₂ h₂ ⟨k₂, _⟩
  have l := Nat.le_trans (Nat.succ_le_succ h₂.length_le) hl.gain
  have k := hl.spends.trans (.of_eq k₂ _)
  cases sign with
  | none => exact Yields.pure ⟨l, k, hl.tidy⟩
  | some sign =>
    have deep := deep_of_lt (Nat.le_of_add_right_le hd) l (by decide : 16 < 32)
    apply (hp .assignment s₂ ⟨deep, (h₁.trans h₂).genuine hs, trivial, nofun⟩).bind
    intro (value : Expr RefId) s₃ h₃ hv
    have l := Nat.le_trans (Nat.succ_le_succ h₃.length_le) l
    -- the target keeps its own references
    have target : Yields
        (do report (some sign) .invalidTarget; return left : Parser (Expr RefId)) s₃ fun e =>
        Reading 1 [] e.references e.Tidy s := by
      apply (Yields.report _ _).bind
      rintro _ s₄ h₄ ⟨r₄, k₄⟩
      apply Yields.pure
      refine ⟨by rw [r₄]; exact l, ?_, hl.tidy⟩
      apply ((k.append hv.spends).trans (.of_eq k₄ _)).of_count
      intro id
      rw [List.count_append]
      exact Nat.le_add_right _ _
    cases left with
    | «variable» ref name => exact Yields.pure ⟨l, k.append hv.spends, hl.tidy, hv.tidy⟩
    | get object name => exact Yields.pure ⟨l, k.append hv.spends, hl.tidy, hv.tidy⟩
    | _ => exact target

theorem chain_yields (level : Level) (hd : 32 * s.rest.length + level.rank ≤ depth + 1) :
    Yields (chain phrase level) s fun e => Reading 1 [] e.references e.Tidy s := by
  apply (operand_yields hp hs level hd).bind
  intro left s₁ h₁ hl
  have deep := deep_of_lt (Nat.le_of_add_right_le hd) hl.gain (by decide : 5 < 32)
  apply (hp (.chainTail level left) s₁ ⟨deep, h₁.genuine hs, hl.tidy, nofun⟩).mono
  intro (e : Expr RefId) s₂ h₂ he
  exact ⟨Nat.le_trans (Nat.succ_le_succ h₂.length_le) hl.gain, hl.spends.trans he.spends, he.tidy⟩

theorem chainTail_yields (level : Level) (left : Expr RefId) (ht : left.Tidy)
    (hd : 32 * s.rest.length + 5 ≤ depth + 1) : Yields (chainTail phrase level left) s fun e =>
      Reading 0 left.references e.references e.Tidy s := by
  have done : Yields (pure left : Parser (Expr RefId)) s fun e =>
      Reading 0 left.references e.references e.Tidy s :=
    Yields.pure ⟨Nat.le_refl _, .of_eq rfl _, ht⟩
  apply Yields.peek.bind
  rintro t s₁ _ ⟨hm, rfl⟩
  cases t with
  | none => exact done
  | some t =>
    have hn : s₁.rest ≠ [] := by
      intro h
      rw [h] at hm
      cases hm
    dsimp only
    cases level.operator? t.kind with
    | none => exact done
    | some op =>
      apply (Yields.skip hn).bind
      rintro _ s₂ h₂ ⟨k₂, l₂⟩
      have hd := Nat.le_of_add_right_le hd
      have operand_deep : 32 * s₂.rest.length + level.rank ≤ depth + 1 :=
        Nat.le_succ_of_le (deep_of_lt hd l₂ (by cases level <;> decide))
      apply (operand_yields hp (h₂.genuine hs) level operand_deep).bind
      intro right s₃ h₃ hr
      have l := Nat.le_trans (Nat.succ_le_succ h₃.length_le) l₂
      apply (hp (.chainTail level (op.apply t.mark left right)) s₃
        ⟨deep_of_lt hd l (by decide : 5 < 32), (h₂.trans h₃).genuine hs,
          Infix.tidy_apply op _ ht hr.tidy, nofun⟩).mono
      intro (e : Expr RefId) s₄ h₄ he
      have k : s₃.Spends (op.apply t.mark left right).references e.references s₄ := he.spends
      rw [Infix.references_apply] at k
      exact ⟨((h₂.trans h₃).trans h₄).length_le,
        ((State.Spends.of_eq k₂ left.references).append hr.spends).trans k, he.tidy⟩

theorem ternary_yields (hd : 32 * s.rest.length + 13 ≤ depth + 1) :
    Yields (ternary phrase) s fun e => Reading 1 [] e.references e.Tidy s := by
  apply (hp (.chain .equality) s ⟨deep_of_rank_lt hd (by decide), hs, trivial, nofun⟩).bind
  intro (condition : Expr RefId) s₁ h₁ hc
  apply (Yields.accept? .question).bind
  rintro question s₂ h₂ ⟨k₂, _⟩
  have h := h₁.trans h₂
  have l := Nat.le_trans (Nat.succ_le_succ h₂.length_le) hc.gain
  have k := hc.spends.trans (.of_eq k₂ _)
  cases question with
  | none => exact Yields.pure ⟨l, k, hc.tidy⟩
  | some _ =>
    have hd := Nat.le_of_add_right_le hd
    apply (expression_yields hp (h.genuine hs) (deep_of_lt hd l (by decide))).bind
    intro yes s₃ h₃ hy
    apply (Yields.expect .colon _).bind
    rintro _ s₄ h₄ ⟨k₄, _⟩
    have h := (h.trans h₃).trans h₄
    have l := Nat.le_trans (Nat.succ_le_succ (h₃.trans h₄).length_le) l
    have k := (k.append hy.spends).trans (.of_eq k₄ _)
    apply (hp .assignment s₄ ⟨deep_of_lt hd l (by decide), h.genuine hs, trivial, nofun⟩).bind
    intro (no : Expr RefId) s₅ h₅ hn
    exact Yields.pure ⟨Nat.le_trans (Nat.succ_le_succ h₅.length_le) l, k.append hn.spends,
      hc.tidy, hy.tidy, hn.tidy⟩

theorem unary_yields (hd : 32 * s.rest.length + 8 ≤ depth + 1) :
    Yields (unary phrase) s fun e => Reading 1 [] e.references e.Tidy s := by
  have call := hp .call s ⟨deep_of_rank_lt hd (by decide), hs, trivial, nofun⟩
  apply Yields.peek.bind
  rintro t s₁ _ ⟨hm, rfl⟩
  cases t with
  | none => exact call
  | some t =>
    have hn : s₁.rest ≠ [] := by
      intro h
      rw [h] at hm
      cases hm
    dsimp only
    cases unaryOperator? t.kind with
    | none => exact call
    | some op =>
      apply (Yields.skip hn).bind
      rintro _ s₂ h₂ ⟨k₂, l₂⟩
      have deep := deep_of_lt (Nat.le_of_add_right_le hd) l₂ (by decide : 8 < 32)
      apply (hp .unary s₂ ⟨deep, h₂.genuine hs, trivial, nofun⟩).bind
      intro (e : Expr RefId) s₃ h₃ he
      exact Yields.pure ⟨Nat.le_trans (Nat.succ_le_succ h₃.length_le) l₂,
        (State.Spends.of_eq k₂ []).trans he.spends, he.tidy⟩

theorem call_yields (hd : 32 * s.rest.length + 7 ≤ depth + 1) :
    Yields (call phrase) s fun e => Reading 1 [] e.references e.Tidy s := by
  have tail {s₁ : State} {callee : Expr RefId} (h₁ : s.Leads s₁)
      (hr : Reading 1 [] callee.references callee.Tidy s s₁) :
      Yields (phrase (.callTail callee)) s₁ fun (e : Expr RefId) =>
        Reading 1 [] e.references e.Tidy s := by
    have deep := deep_of_lt (Nat.le_of_add_right_le hd) hr.gain (by decide : 5 < 32)
    apply (hp (.callTail callee) s₁ ⟨deep, h₁.genuine hs, hr.tidy, nofun⟩).mono
    intro (e : Expr RefId) s₂ h₂ he
    exact ⟨Nat.le_trans (Nat.succ_le_succ h₂.length_le) hr.gain, hr.spends.trans he.spends,
      he.tidy⟩
  apply (Yields.accept? .fun).bind
  rintro keyword s₁ h₁ ⟨k₁, l₁, _⟩
  cases keyword with
  | none =>
    have deep : 32 * s₁.rest.length + 6 ≤ depth := by
      have := h₁.length_le
      omega
    apply (hp .primary s₁ ⟨deep, h₁.genuine hs, trivial, nofun⟩).bind
    intro (e : Expr RefId) s₂ h₂ he
    exact tail (h₁.trans h₂) ⟨Nat.le_trans he.gain h₁.length_le,
      (State.Spends.of_eq k₁ []).trans he.spends, he.tidy⟩
  | some keyword =>
    have l₁ := l₁ rfl
    apply (lambda_yields hp (h₁.genuine hs) keyword (by omega)).bind
    intro e s₂ h₂ he
    exact tail (h₁.trans h₂) ⟨Nat.le_trans he.gain h₁.length_le,
      (State.Spends.of_eq k₁ []).trans he.spends, he.tidy⟩

theorem arguments_yields (before : Nat) (hd : 32 * s.rest.length + 18 ≤ depth + 1) :
    Yields (arguments phrase before) s fun as =>
      Reading 1 [] (Expr.referencesAll as) (Expr.TidyAll as) s := by
  rw [arguments_eq]
  refine .counted before _ hs fun s₁ hs₁ same => .listed hs₁ ?_ ?_ ?_ ?_
  · intro e es
    simp only [Expr.referencesAll, List.append_nil]
  · exact fun e es first others => ⟨first.1, others⟩
  · rw [← same] at hd
    apply (hp .assignment s₁ ⟨deep_of_rank_lt hd (by decide), hs₁, trivial, fun h => by cases h⟩).mono
    intro (e : Expr RefId) s₂ _ he
    refine ⟨he.gain, ?_, he.tidy, trivial⟩
    simp only [Expr.referencesAll, List.append_nil]
    exact he.spends
  · intro s₂ hs₂ l₂
    rw [same] at l₂
    have deep := deep_of_lt (Nat.le_of_add_right_le hd) l₂ (by decide : 18 < 32)
    exact hp (.arguments (before + 1)) s₂ ⟨deep, hs₂, trivial, fun h => by cases h⟩

theorem closeCall_yields (hd : 32 * s.rest.length ≤ depth + 1) {s₁ : State} {callee : Expr RefId}
    {arguments : List (Expr RefId)} (h₁ : s.Leads s₁)
    (k₁ : s.Spends callee.references (callee.references ++ Expr.referencesAll arguments) s₁)
    (l₁ : s₁.rest.length + 1 ≤ s.rest.length) (ht : callee.Tidy) (ha : Expr.TidyAll arguments) :
    Yields (closeCall phrase callee arguments) s₁ fun e =>
      Reading 0 callee.references e.references e.Tidy s := by
  apply (Yields.expect .rightParen _).bind
  rintro paren s₂ h₂ ⟨k₂, _⟩
  have h := h₁.trans h₂
  have l := Nat.le_trans (Nat.succ_le_succ h₂.length_le) l₁
  apply (hp (.callTail (.call callee arguments paren.line)) s₂
    ⟨deep_of_lt hd l (by decide : 5 < 32), h.genuine hs, ⟨ht, ha⟩, fun h => by cases h⟩).mono
  intro (e : Expr RefId) s₃ h₃ he
  exact ⟨(h.trans h₃).length_le, (k₁.trans (.of_eq k₂ _)).trans he.spends, he.tidy⟩

theorem callTail_yields (callee : Expr RefId) (ht : callee.Tidy)
    (hd : 32 * s.rest.length + 5 ≤ depth + 1) : Yields (callTail phrase callee) s fun e =>
      Reading 0 callee.references e.references e.Tidy s := by
  have hd := Nat.le_of_add_right_le hd
  rw [callTail_eq]
  apply (Yields.accept? .leftParen).bind
  rintro paren s₁ h₁ ⟨k₁, l₁, _⟩
  cases paren with
  | some _ =>
    have l₁ := l₁ rfl
    apply (Yields.nextIs .rightParen).bind
    rintro closes s₁ _ rfl
    cases closes with
    | true =>
      have k : s.Spends callee.references (callee.references ++ Expr.referencesAll []) s₁ := by
        rw [Expr.referencesAll, List.append_nil]
        exact .of_eq k₁ _
      exact closeCall_yields hp hs hd h₁ k l₁ ht trivial
    | false =>
      apply (hp (.arguments 0) s₁
        ⟨deep_of_lt hd l₁ (by decide), h₁.genuine hs, trivial, fun h => by cases h⟩).bind
      intro (as : List (Expr RefId)) s₂ h₂ ha
      exact closeCall_yields hp hs hd (h₁.trans h₂) ((State.Spends.of_eq k₁ _).append ha.spends)
        (Nat.le_trans (Nat.succ_le_succ h₂.length_le) l₁) ht ha.tidy
  | none =>
    apply (Yields.accept? .dot).bind
    rintro dot s₂ h₂ ⟨k₂, l₂, _⟩
    have h := h₁.trans h₂
    cases dot with
    | none => exact Yields.pure ⟨h.length_le, .of_eq (k₂.trans k₁) _, ht⟩
    | some _ =>
      apply (Yields.expectName _ (h.genuine hs)).bind
      rintro name s₃ h₃ ⟨k₃, l₃, _⟩
      have h := h.trans h₃
      have l := Nat.le_trans l₃ (h₁.trans h₂).length_le
      apply (hp (.callTail (.get callee name)) s₃
        ⟨deep_of_lt hd l (by decide : 5 < 32), h.genuine hs, ht, fun h => by cases h⟩).mono
      intro (e : Expr RefId) s₄ h₄ he
      exact ⟨(h.trans h₄).length_le,
        (State.Spends.of_eq (k₃.trans (k₂.trans k₁)) _).trans he.spends, he.tidy⟩

theorem missingLeftOperand_yields {Q : Expr RefId → State → Prop} (operator : Token)
    (level : Level) (hd : 32 * s.rest.length + level.rank ≤ depth + 1) :
    Yields (missingLeftOperand phrase operator level) s Q :=
  (operand_yields hp hs level hd).bind fun _ _ _ _ => Yields.fail _ _

omit hp in
theorem superReference_yields (keyword : Token) (hw : keyword.lexeme = "super") :
    Yields (superReference keyword) s fun e => Reading 0 [] e.references e.Tidy s := by
  apply (Yields.expect .dot _).bind
  rintro _ s₁ h₁ ⟨k₁, _⟩
  apply (Yields.expectName _ (h₁.genuine hs)).bind
  rintro method s₂ h₂ ⟨k₂, _⟩
  apply Yields.freshId.bind
  rintro id s₃ h₃ ⟨_, k₃⟩
  exact Yields.pure ⟨((h₁.trans h₂).trans h₃).length_le,
    (State.Spends.of_eq (k₂.trans k₁) []).trans k₃, hw⟩

theorem primary_yields (hd : 32 * s.rest.length + 6 ≤ depth + 1) :
    Yields (primary phrase) s fun e => Reading 1 [] e.references e.Tidy s := by
  have hd := Nat.le_of_add_right_le hd
  apply Yields.peek.bind
  rintro t s₁ _ ⟨hm, rfl⟩
  cases t with
  | none => exact Yields.fail _ _
  | some t =>
    have hn : s₁.rest ≠ [] := by
      intro h
      rw [h] at hm
      cases hm
    have behind {p : Parser (Expr RefId)} (h : ∀ s₂ : State, s₂.Genuine →
        s₂.rest.length + 1 ≤ s₁.rest.length → Yields p s₂ fun e =>
          Reading 0 [] e.references e.Tidy s₂) :
        Yields (do skip; p) s₁ fun e => Reading 1 [] e.references e.Tidy s₁ := by
      apply (Yields.skip hn).bind
      rintro _ s₂ h₂ ⟨k₂, l₂⟩
      apply (h s₂ (h₂.genuine hs) l₂).mono
      intro e s₃ h₃ he
      exact ⟨Nat.le_trans (Nat.succ_le_succ h₃.length_le) l₂,
        (State.Spends.of_eq k₂ []).trans he.spends, he.tidy⟩
    have literal (l : Literal) := behind (p := pure (.literal l)) fun s₂ _ _ =>
      Yields.pure ⟨Nat.le_refl _, .of_eq rfl [], trivial⟩
    have missing (level : Level) := behind fun s₂ h l =>
      missingLeftOperand_yields hp h t level
        (Nat.le_succ_of_le (deep_of_lt hd l (by cases level <;> decide)))
    have ht : t.Genuine := hs t (List.mem_of_mem_head? (Option.mem_def.mpr hm.symm))
    have reference (e : RefId → Expr RefId) (he : ∀ id, (e id).references = [id] ∧ (e id).Tidy) :=
      behind (p := do return e (← freshId)) fun s₂ _ _ => by
        apply Yields.freshId.bind
        rintro id s₃ h₃ ⟨_, k₃⟩
        exact Yields.pure ⟨h₃.length_le, by rw [(he id).1]; exact k₃, (he id).2⟩
    dsimp only
    cases hk : t.kind with
    | false | true | nil | number | string => exact literal _
    | super => exact behind fun s₂ h _ => superReference_yields h t (ht.text_super hk)
    | this => exact reference (.this · t.mark) fun _ => ⟨rfl, ht.text_this hk⟩
    | identifier => exact reference (.variable · t.mark) fun _ => ⟨rfl, ht.ordinary hk⟩
    | leftParen =>
      apply behind
      intro s₂ h l
      apply (expression_yields hp h (deep_of_lt hd l (by decide))).bind
      intro e s₃ h₃ he
      apply (Yields.expect .rightParen _).bind
      rintro _ s₄ h₄ ⟨k₄, _⟩
      exact Yields.pure ⟨(h₃.trans h₄).length_le, he.spends.trans (.of_eq k₄ _), he.tidy⟩
    | comma => exact missing .comma
    | equalEqual | bangEqual => exact missing .equality
    | less | lessEqual | greater | greaterEqual => exact missing .comparison
    | plus => exact missing .term
    | star | slash => exact missing .factor
    | _ => exact Yields.fail _ _

omit hs in
theorem production_yields (n : Nonterminal) (h : n.Ready (depth + 1) s) :
    Yields (production phrase n) s (n.Reads s) := by
  obtain ⟨hd, hs, hc, hn⟩ := h
  cases n with
  | sequence inBlock => exact sequence_yields hp hs inBlock hd
  | declaration =>
    apply ((declaration_yields hp hs hd).recover (hn rfl)).mono
    intro (o : Option (Stmt RefId)) s' h' ho
    cases o with
    | none => exact ⟨ho, .of_le h', trivial⟩
    | some t =>
      refine ⟨ho.gain, ?_, ho.tidy, trivial⟩
      simp only [Nonterminal.references, Option.toList, Stmt.referencesAll, List.append_nil]
      exact ho.spends
  | members => exact members_yields hp hs (Nat.le_of_add_right_le hd)
  | statement => exact statement_yields hp hs hd
  | parameters before => exact parameters_yields hp hs before (Nat.le_of_add_right_le hd)
  | assignment => exact assignment_yields hp hs hd
  | chain level => exact chain_yields hp hs level hd
  | chainTail level left => exact chainTail_yields hp hs level left hc hd
  | ternary => exact ternary_yields hp hs hd
  | unary => exact unary_yields hp hs hd
  | call => exact call_yields hp hs hd
  | callTail callee => exact callTail_yields hp hs callee hc hd
  | arguments before => exact arguments_yields hp hs before hd
  | primary => exact primary_yields hp hs hd

omit hp hs in
theorem parseWithin_yields (depth : Nat) (n : Nonterminal) (s : State) (h : n.Ready depth s) :
    Yields (parseWithin depth n) s (n.Reads s) := by
  induction depth generalizing n s with
  | zero =>
    have := n.rank_pos
    have := h.deep
    omega
  | succ depth ih => exact production_yields ih n h

end Productions

/-! Whole programs. -/

/-- The reader reports what is wrong and is never given up for it. -/
def Reports (p : Parser α) : Prop := ∀ s f s', p s ≠ .error (.fault f) s'

namespace Reports

theorem pure (a : α) : Reports (Pure.pure a : Parser α) := by
  intro s f s' h
  change EStateM.Result.ok _ _ = _ at h
  cases h

theorem tooDeep : Reports (throw Stop.tooDeep : Parser α) := by
  intro s f s' h
  change EStateM.Result.error Stop.tooDeep _ = _ at h
  cases h

theorem bind {p : Parser α} {k : α → Parser β} (hp : Reports p) (hk : ∀ a, Reports (k a)) :
    Reports (p >>= k) := by
  intro s f s' h
  simp only [Bind.bind, EStateM.bind] at h
  split at h
  · exact hk _ _ f s' h
  · rename_i e s₁ h'
    cases h
    exact hp s f s' h'

theorem atEnd : Reports atEnd := by
  intro s f s' h
  change EStateM.Result.ok _ _ = _ at h
  cases h

theorem nextIs (kind : Token.Kind) : Reports (nextIs kind) := by
  intro s f s' h
  change EStateM.Result.ok _ _ = _ at h
  cases h

theorem recover (p : Parser α) : Reports (recover p) := by
  intro s f s' h
  rw [recover_run] at h
  split at h <;> cases h

end Reports

theorem sequence_reports (depth : Nat) (inBlock : Bool) :
    Reports (parseWithin depth (.sequence inBlock)) := by
  induction depth with
  | zero => exact Reports.tooDeep
  | succ depth ih =>
    have declaration : Reports (parseWithin depth .declaration) := by
      cases depth with
      | zero => exact Reports.tooDeep
      | succ depth => exact Reports.recover _
    have rest : Reports (do
        let first ← parseWithin depth .declaration
        let others ← parseWithin depth (.sequence inBlock)
        return first.toList ++ others : Parser (List (Stmt RefId))) :=
      declaration.bind fun _ => ih.bind fun _ => Reports.pure _
    apply Reports.atEnd.bind
    intro atEnd
    cases atEnd with
    | true => exact Reports.pure _
    | false =>
      cases inBlock with
      | false => exact rest
      | true =>
        apply (Reports.nextIs .rightBrace).bind
        intro closes
        cases closes with
        | true => exact Reports.pure _
        | false => exact rest

end Parser

theorem parse_of_untilEof {tokens body : List Token} {endLine : Nat}
    (ht : Token.untilEof tokens = (body, endLine)) (first : RefId) : parse tokens first =
      match Parser.parseWithin (Parser.depthFor body.length) (.sequence false) ⟨body, first, []⟩ with
      | .ok statements s => ⟨statements, s.faults.map (·.toError endLine), s.nextId⟩
      | .error _ s => ⟨[], s.faults.map (·.toError endLine), s.nextId⟩ := by
  unfold parse
  generalize Token.untilEof tokens = cut at ht ⊢
  subst ht
  rfl

/-- The program that is read, and the state that its reading ends in. -/
theorem parse_run {tokens body : List Token} {endLine : Nat}
    (ht : Token.untilEof tokens = (body, endLine))
    (ho : ∀ t ∈ body, t.Genuine) (first : RefId) :
    ∃ s : Parser.State,
      Parser.parseWithin (Parser.depthFor body.length) (.sequence false) ⟨body, first, []⟩ =
        .ok (parse tokens first).statements s ∧
      (parse tokens first).errors = s.faults.map (·.toError endLine) ∧
      (parse tokens first).nextId = s.nextId ∧
      (⟨body, first, []⟩ : Parser.State).Leads s ∧
      Parser.Reading 0 [] (Stmt.referencesAll (parse tokens first).statements)
        (Stmt.TidyAll (parse tokens first).statements) ⟨body, first, []⟩ s := by
  have hy := Parser.parseWithin_yields (Parser.depthFor body.length) (.sequence false)
    ⟨body, first, []⟩ ⟨Parser.le_depthFor body.length, ho, trivial, nofun⟩
  unfold Parser.Yields at hy
  rw [parse_of_untilEof ht]
  rcases h : Parser.parseWithin (Parser.depthFor body.length) (.sequence false)
    ⟨body, first, []⟩ with ⟨ss, s⟩ | ⟨f | _, s⟩
  · rw [h] at hy
    exact ⟨s, rfl, rfl, rfl, hy.1, hy.2⟩
  · exact absurd h (Parser.sequence_reports _ false _ f s)
  · rw [h] at hy
    exact hy.elim

section

variable {tokens : List Token}
  (ho : ∀ t ∈ (Token.untilEof tokens).1, t.Genuine) (first : RefId)

include ho

theorem parse_tidy : Stmt.TidyAll (parse tokens first).statements := by
  obtain ⟨s, _, _, _, _, hr⟩ := parse_run rfl ho first
  exact hr.tidy

/-- No two references of a program have the same identity. -/
theorem nodup_references_parse : (Stmt.referencesAll (parse tokens first).statements).Nodup := by
  obtain ⟨s, _, _, _, _, hr⟩ := parse_run rfl ho first
  rw [List.nodup_iff_count_le_one]
  intro id
  have h := hr.spends id
  have h' : Parser.State.unused ⟨(Token.untilEof tokens).1, first, []⟩ id ≤ 1 := by
    unfold Parser.State.unused
    split
    · exact Nat.le_refl 1
    · exact Nat.zero_le 1
  rw [List.count_nil] at h
  omega

/-- The identities of references are new. -/
theorem references_parse : ∀ id ∈ Stmt.referencesAll (parse tokens first).statements,
    first ≤ id ∧ id < (parse tokens first).nextId := by
  obtain ⟨s, _, _, hn, _, hr⟩ := parse_run rfl ho first
  intro id hi
  have h := hr.spends id
  have hc := List.count_pos_iff.mpr hi
  rw [List.count_nil] at h
  unfold Parser.State.unused at h
  rw [hn]
  constructor
  · by_contra hl
    rw [if_neg hl] at h
    omega
  · by_contra hl
    have hl : s.nextId ≤ id := Nat.le_of_not_lt hl
    rw [if_pos hl] at h
    split at h <;> omega

end

end Lox
