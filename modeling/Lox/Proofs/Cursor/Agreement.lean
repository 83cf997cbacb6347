import Lox.Proofs.Cursor.Reader
import Lox.Proofs.Parser.Reading

/-!
Reading with a cursor and reading from the front of what is left. The tokens before the first end mark
are those that are read; what is left of them lies behind the cursor. Two readers agree where they give
the same answer, or the same complaint, and stand at the same token afterwards. The one with the cursor
looks at no token outside of the list, and the rounds that it puts on record lie one behind another.
-/

namespace Lox

namespace Cursor

/-- Tokens up to a first end mark, the mark, and whatever stands behind it. -/
structure Tape where
  body : List Token
  mark : Token
  beyond : List Token
  proper : ∀ t ∈ body, t.kind ≠ .eof
  isMark : mark.kind = .eof

def Tape.tokens (T : Tape) : List Token := T.body ++ T.mark :: T.beyond

theorem closed_cons (t : Token) {ts : List Token} (h : ts ≠ []) :
    Token.closed (t :: ts) = t :: Token.closed ts := by
  obtain ⟨u, us, rfl⟩ := List.exists_cons_of_ne_nil h
  rw [Token.closed, Token.closed, List.getLast?_cons_cons]
  split <;> rfl

theorem exists_tape (tokens : List Token) : ∃ T : Tape, T.tokens = Token.closed tokens ∧
    Token.untilEof tokens = (T.body, T.mark.line) ∧ T.body.length ≤ tokens.length := by
  have proper : ∀ t ∈ ([] : List Token), t.kind ≠ .eof := fun _ h => absurd h List.not_mem_nil
  induction tokens with
  | nil => exact ⟨⟨[], .eof 1, [], proper, rfl⟩, rfl, rfl, Nat.le_refl _⟩
  | cons t ts ih =>
    by_cases ht : t.kind = .eof
    · cases ts with
      | nil =>
        refine ⟨⟨[], t, [], proper, ht⟩, ?_, ?_, Nat.zero_le _⟩
        · simp [Token.closed, Tape.tokens, ht]
        · simp [Token.untilEof, ht]
      | cons u us =>
        refine ⟨⟨[], t, Token.closed (u :: us), proper, ht⟩, ?_, ?_, Nat.zero_le _⟩
        · exact (closed_cons t (List.cons_ne_nil u us)).symm
        · simp [Token.untilEof, ht]
    · cases ts with
      | nil =>
        refine ⟨⟨[t], .eof t.line, [], List.forall_mem_singleton.mpr ht, rfl⟩, ?_, ?_, Nat.le_refl _⟩
        · simp [Token.closed, Tape.tokens, ht]
        · simp [Token.untilEof, ht, Token.eof]
      | cons u us =>
        obtain ⟨T, closed, until_, within⟩ := ih
        refine ⟨⟨t :: T.body, T.mark, T.beyond, List.forall_mem_cons.mpr ⟨ht, T.proper⟩, T.isMark⟩,
          ?_, ?_, Nat.succ_le_succ within⟩
        · rw [closed_cons t (List.cons_ne_nil u us), ← closed]
          rfl
        · simp [Token.untilEof, ht, until_]

/-- The cursor stands in front of what is left, with the same numbers given out and the same complaints
made. -/
structure Stands (T : Tape) (q : State) (s : Parser.State) : Prop where
  tokens : q.tokens = T.tokens
  position : q.position ≤ T.body.length
  rest : s.rest = T.body.drop q.position
  nextId : s.nextId = q.nextId
  errors : q.errors = s.faults.map (·.toError T.mark.line)

def State.moved (q : State) : State := { q with position := q.position + 1 }

section Run

variable {T : Tape} {q : State} {s : Parser.State} {t : Token} {ts : List Token} {k : RefId}
  {fs : List Parser.Fault} {kind : Token.Kind}

theorem Stands.length (st : Stands T q s) : s.rest.length + q.position = T.body.length := by
  rw [st.rest, List.length_drop, Nat.sub_add_cancel st.position]

theorem Stands.kind_ne (st : Stands T q ⟨t :: ts, k, fs⟩) : t.kind ≠ .eof :=
  have left : t :: ts = T.body.drop q.position := st.rest
  T.proper t (List.mem_of_mem_drop (left ▸ List.mem_cons_self))

theorem Stands.moved (st : Stands T q ⟨t :: ts, k, fs⟩) : Stands T q.moved ⟨ts, k, fs⟩ where
  tokens := st.tokens
  position := by
    have := st.length
    simp only [List.length_cons] at this
    simp only [State.moved]
    omega
  rest := by
    have tail := congrArg List.tail st.rest
    rwa [List.tail_drop] at tail
  nextId := st.nextId
  errors := st.errors

theorem look_run {place : Nat} (h : q.tokens[place]? = some t) : look place q = .ok t q := by
  have got : (get : Cursor State) q = .ok q q := rfl
  simp only [look, Bind.bind, EStateM.bind, got, h]
  rfl

theorem look_body (st : Stands T q s) {place : Nat} (h : place ≤ T.body.length) :
    look place q = .ok ((T.body.drop place).head?.getD T.mark) q := by
  refine look_run ?_
  rw [st.tokens, Tape.tokens, List.head?_drop]
  obtain h | rfl := Nat.lt_or_eq_of_le h
  · rw [List.getElem?_append_left h, List.getElem?_eq_getElem h]
    rfl
  · rw [List.getElem?_append_right (Nat.le_refl _), Nat.sub_self, List.getElem?_eq_none (Nat.le_refl _)]
    rfl

theorem peek_run (st : Stands T q s) : peek q = .ok (s.rest.head?.getD T.mark) q := by
  have inside : q.position ≤ q.tokens.length - 1 := by
    rw [st.tokens, Tape.tokens, List.length_append, List.length_cons]
    exact Nat.le_trans st.position (Nat.le_sub_one_of_lt (by omega))
  change look (min q.position (q.tokens.length - 1)) q = _
  rw [Nat.min_eq_left inside, look_body st st.position, st.rest]

theorem check_run (st : Stands T q s) (kind : Token.Kind) :
    check kind q = .ok ((s.rest.head?.getD T.mark).kind == kind) q := by
  simp only [check, Bind.bind, EStateM.bind, peek_run st]
  rfl

theorem isAtEnd_run (st : Stands T q s) : isAtEnd q = .ok s.rest.isEmpty q := by
  rw [isAtEnd, check_run st]
  obtain ⟨_ | ⟨t, ts⟩, k, fs⟩ := s
  · simp [T.isMark]
  · simp [st.kind_ne]

theorem previous_run (st : Stands T q s) : ∃ t, previous q = .ok t q :=
  ⟨_, look_body st (Nat.le_trans (Nat.sub_le _ _) st.position)⟩

/-- Behind a token the cursor can look back at it. -/
theorem previous_moved (st : Stands T q ⟨t :: ts, k, fs⟩) : previous q.moved = .ok t q.moved := by
  have looked := look_body st.moved st.position
  rw [← st.rest] at looked
  exact looked

theorem previous_bind {β : Type} (st : Stands T q ⟨t :: ts, k, fs⟩) (l : Token → Cursor β) :
    (previous >>= l) q.moved = l t q.moved := by
  simp only [Bind.bind, EStateM.bind, previous_moved st]

theorem advance_run (st : Stands T q ⟨t :: ts, k, fs⟩) : advance q = .ok t q.moved := by
  simp only [advance, Bind.bind, EStateM.bind, isAtEnd_run st]
  exact previous_moved st

theorem advance_end (st : Stands T q ⟨[], k, fs⟩) : ∃ t, advance q = .ok t q := by
  obtain ⟨t, ht⟩ := previous_run st
  refine ⟨t, ?_⟩
  simp only [advance, Bind.bind, EStateM.bind, isAtEnd_run st]
  exact ht

theorem advanceIf_of_eq (st : Stands T q ⟨t :: ts, k, fs⟩) (h : t.kind = kind) :
    advanceIf kind q = .ok true q.moved := by
  simp only [advanceIf, Bind.bind, EStateM.bind, check_run st, List.head?_cons, Option.getD_some,
    beq_iff_eq.mpr h, if_true, advance_run st]
  rfl

theorem check_of_ne (st : Stands T q s) (hk : kind ≠ .eof) (h : ∀ t ∈ s.rest.head?, t.kind ≠ kind) :
    check kind q = .ok false q := by
  have other : ((s.rest.head?.getD T.mark).kind == kind) = false := by
    rw [beq_eq_false_iff_ne]
    cases hs : s.rest.head? with
    | none => exact T.isMark ▸ hk.symm
    | some t => exact h t hs
  rw [check_run st, other]

theorem advanceIf_of_ne (st : Stands T q s) (hk : kind ≠ .eof)
    (h : ∀ t ∈ s.rest.head?, t.kind ≠ kind) : advanceIf kind q = .ok false q := by
  simp only [advanceIf, Bind.bind, EStateM.bind, check_of_ne st hk h]
  rfl

section Turn

variable {β : Type} (yes no : Cursor β)

/-- A turn at a token of the kind. -/
theorem advanceIf_cons (st : Stands T q ⟨t :: ts, k, fs⟩) (kind : Token.Kind) :
    (do if ← advanceIf kind then yes else no : Cursor β) q =
      if t.kind = kind then yes q.moved else no q := by
  by_cases same : t.kind = kind
  · simp only [Bind.bind, EStateM.bind, advanceIf_of_eq st same, same, if_true]
  · have other := beq_eq_false_iff_ne.mpr same
    simp only [advanceIf, Bind.bind, EStateM.bind, check_run st, List.head?_cons, Option.getD_some,
      other, same, Bool.false_eq_true, if_false]
    rfl

theorem advanceIf_nil (st : Stands T q ⟨[], k, fs⟩) (hk : kind ≠ .eof) :
    (do if ← advanceIf kind then yes else no : Cursor β) q = no q := by
  simp only [Bind.bind, EStateM.bind, advanceIf_of_ne st hk (fun _ h => nomatch h), Bool.false_eq_true, if_false]

end Turn

theorem accept?_of_eq (st : Stands T q ⟨t :: ts, k, fs⟩) (h : t.kind = kind) :
    accept? kind q = .ok (some t) q.moved := by
  simp only [accept?, Bind.bind, EStateM.bind, advanceIf_of_eq st h, if_true, Functor.map, EStateM.map,
    previous_moved st]

theorem consume_of_eq (st : Stands T q ⟨t :: ts, k, fs⟩) (h : t.kind = kind) (what : String) :
    consume kind what q = .ok t q.moved := by
  simp only [consume, Bind.bind, EStateM.bind, check_run st, List.head?_cons, Option.getD_some,
    beq_iff_eq.mpr h, if_true, advance_run st]

theorem consume_of_ne (st : Stands T q s) (hk : kind ≠ .eof) (h : ∀ t ∈ s.rest.head?, t.kind ≠ kind)
    (what : String) :
    consume kind what q = fail (s.rest.head?.getD T.mark) (.expected what) q := by
  simp only [consume, Bind.bind, EStateM.bind, check_of_ne st hk h, Bool.false_eq_true, if_false,
    peek_run st]

theorem accept?_of_ne (st : Stands T q s) (hk : kind ≠ .eof)
    (h : ∀ t ∈ s.rest.head?, t.kind ≠ kind) : accept? kind q = .ok none q := by
  simp only [accept?, Bind.bind, EStateM.bind, advanceIf_of_ne st hk h]
  rfl

end Run

/-- The rounds that were put on record between the two states began at this place or behind it, each at
another token. Each ended further on, and where the cursor now stands or before. -/
def Proceeds (low : Nat) (q q' : State) : Prop :=
  ∃ rounds, q'.rounds = q.rounds ++ rounds ∧ (rounds.map (·.1)).Nodup ∧
    ∀ r ∈ rounds, low ≤ r.1 ∧ r.1 < r.2 ∧ r.2 ≤ q'.position

section Proceeds

variable {low low' : Nat} {q q₁ q₂ : State}

theorem Proceeds.of_eq (h : q₁.rounds = q.rounds) : Proceeds low q q₁ :=
  ⟨[], h.trans (List.append_nil _).symm, List.nodup_nil, nofun⟩

theorem Proceeds.weaken (h : Proceeds low q q₁) (hl : low' ≤ low) : Proceeds low' q q₁ := by
  obtain ⟨rounds, put, nodup, within⟩ := h
  exact ⟨rounds, put, nodup, fun r hr => ⟨Nat.le_trans hl (within r hr).1, (within r hr).2⟩⟩

theorem Proceeds.further (h : Proceeds low q q₁) (rounds : q₂.rounds = q₁.rounds)
    (position : q₁.position ≤ q₂.position) : Proceeds low q q₂ := by
  obtain ⟨new, put, nodup, within⟩ := h
  exact ⟨new, rounds.trans put, nodup, fun r hr =>
    ⟨(within r hr).1, (within r hr).2.1, Nat.le_trans (within r hr).2.2 position⟩⟩

theorem Proceeds.trans (h : Proceeds low q q₁) (h' : Proceeds low' q₁ q₂) (hl : low ≤ low')
    (before : q₁.position ≤ low') (after : q₁.position ≤ q₂.position) : Proceeds low q q₂ := by
  obtain ⟨rounds, put, nodup, within⟩ := h
  obtain ⟨rounds', put', nodup', within'⟩ := h'
  refine ⟨rounds ++ rounds', ?_, ?_, ?_⟩
  · rw [put', put, List.append_assoc]
  · rw [List.map_append, List.nodup_append]
    refine ⟨nodup, nodup', fun a ha b hb => ?_⟩
    obtain ⟨r, hr, rfl⟩ := List.mem_map.mp ha
    obtain ⟨r', hr', rfl⟩ := List.mem_map.mp hb
    have := within r hr
    have := within' r' hr'
    omega
  · intro r hr
    obtain hr | hr := List.mem_append.mp hr
    · have := within r hr
      omega
    · have := within' r hr
      omega

end Proceeds

variable {α β γ : Type}

/-- The outcomes of two readers. An answer takes at least so many tokens, and the rounds on the way begin
behind as many. -/
inductive Agrees (T : Tape) (gain : Nat) (q : State) :
    EStateM.Result Stop State α → EStateM.Result Parser.Stop Parser.State α → Prop
  | answer {a : α} {q' : State} {s' : Parser.State} (stands : Stands T q' s')
      (taken : q.position + gain ≤ q'.position) (proceeds : Proceeds (q.position + gain) q q') :
      Agrees T gain q (.ok a q') (.ok a s')
  | fault {f : Parser.Fault} {q' : State} {s' : Parser.State} (stands : Stands T q' s')
      (taken : q.position ≤ q'.position) (proceeds : Proceeds (q.position + gain) q q') :
      Agrees T gain q (.error (.error (f.toError T.mark.line)) q') (.error (.fault f) s')

namespace Agrees

variable {T : Tape} {gain : Nat} {q : State} {s : Parser.State} {t : Token} {ts : List Token}
  {k : RefId} {fs : List Parser.Fault} {r : EStateM.Result Stop State α}
  {r' : EStateM.Result Parser.Stop Parser.State α}

theorem weaken (h : Agrees T gain q r r') {gain' : Nat} (hg : gain' ≤ gain) :
    Agrees T gain' q r r' := by
  cases h with
  | answer stands taken proceeds =>
    exact .answer stands (by omega) (proceeds.weaken (by omega))
  | fault stands taken proceeds => exact .fault stands taken (proceeds.weaken (by omega))

/-- Where the reading began matters only by the position and the rounds. -/
theorem since {q₀ : State} (h : Agrees T gain q r r') (position : q.position = q₀.position)
    (rounds : q.rounds = q₀.rounds) : Agrees T gain q₀ r r' := by
  have moved {low : Nat} {q' : State} (h : Proceeds low q q') : Proceeds low q₀ q' := by
    unfold Proceeds at h ⊢
    rwa [← rounds]
  cases h with
  | answer stands taken proceeds =>
    exact .answer stands (position ▸ taken) (position ▸ moved proceeds)
  | fault stands taken proceeds =>
    exact .fault stands (position ▸ taken) (position ▸ moved proceeds)

/-- What is read behind a token. -/
theorem behind (h : Agrees T 0 q.moved r r') : Agrees T 1 q r r' := by
  have moved : q.moved.position = q.position + 1 := rfl
  cases h with
  | answer stands taken proceeds =>
    exact .answer stands (by omega) proceeds
  | fault stands taken proceeds => exact .fault stands (by omega) proceeds

/-- What is read further on. -/
theorem further {q₁ : State} (h : Agrees T 0 q₁ r r') (taken : q.position + gain ≤ q₁.position)
    (proceeds : Proceeds (q.position + gain) q q₁) : Agrees T gain q r r' := by
  cases h with
  | answer stands taken' proceeds' =>
    exact .answer stands (by omega) (proceeds.trans proceeds' (by omega) (by omega) (by omega))
  | fault stands taken' proceeds' =>
    exact .fault stands (by omega) (proceeds.trans proceeds' (by omega) (by omega) (by omega))

theorem bind {c : Cursor α} {p : Parser α} {l : α → Cursor β} {m : α → Parser β}
    (h : Agrees T gain q (c q) (p s)) (hl : ∀ a q' s', Stands T q' s' →
      q.position + gain ≤ q'.position → Agrees T 0 q' (l a q') (m a s')) :
    Agrees T gain q ((c >>= l) q) ((p >>= m) s) := by
  simp only [Bind.bind, EStateM.bind]
  generalize c q = r at h
  generalize p s = r' at h
  cases h with
  | answer stands taken proceeds => exact (hl _ _ _ stands taken).further taken proceeds
  | fault stands taken proceeds => exact .fault stands taken proceeds

end Agrees

/-- The readers agree wherever the cursor stands, if enough nested calls are left for the tokens that
are. -/
def Follows (T : Tape) (depth budget gain : Nat) (c : Cursor α) (p : Parser α) : Prop :=
  ∀ q s, Stands T q s → 32 * s.rest.length + budget ≤ depth → Agrees T gain q (c q) (p s)

/-- The readers agree behind a token, where every phrase may begin anew. -/
abbrev Behind (T : Tape) (depth : Nat) (c : Cursor α) (p : Parser α) : Prop := Follows T depth 32 0 c p

namespace Follows

variable {T : Tape} {depth budget gain : Nat} {c : Cursor α} {p : Parser α} {l : α → Cursor β}
  {m : α → Parser β} {kind : Token.Kind}

theorem mono (h : Follows T depth budget gain c p) {budget' gain' : Nat} (hb : budget ≤ budget')
    (hg : gain' ≤ gain) : Follows T depth budget' gain' c p :=
  fun q s st deep => (h q s st (by omega)).weaken hg

theorem behind (h : Follows T depth budget gain c p) (hb : budget ≤ 32) : Behind T depth c p :=
  h.mono hb (Nat.zero_le gain)

theorem bind {budget' : Nat} (h : Follows T depth budget gain c p)
    (hl : ∀ a, Follows T depth budget' 0 (l a) (m a)) (hb : budget' ≤ budget + 32 * gain) :
    Follows T depth budget gain (c >>= l) (p >>= m) := by
  intro q s st deep
  refine (h q s st deep).bind fun a q' s' st' taken => hl a q' s' st' ?_
  have := st.length
  have := st'.length
  omega

/-- Going on behind a phrase that takes a token. -/
theorem first (h : Follows T depth budget 1 c p) (hl : ∀ a, Behind T depth (l a) (m a)) :
    Follows T depth budget 1 (c >>= l) (p >>= m) := h.bind hl (Nat.le_add_left 32 budget)

theorem pure (a : α) : Follows T depth budget 0 (Pure.pure a) (Pure.pure a) :=
  fun _ _ st _ => .answer st (Nat.le_refl _) (.of_eq rfl)

theorem either {b : Bool} {c' : Cursor α} {p' : Parser α} (yes : Follows T depth budget gain c p)
    (no : Follows T depth budget gain c' p') :
    Follows T depth budget gain (if b then c else c') (if b then p else p') := by
  cases b with
  | true => exact yes
  | false => exact no

theorem map (h : Follows T depth budget gain c p) (f : α → β) :
    Follows T depth budget gain (f <$> c) (f <$> p) := by
  have rest (a : α) : Follows T depth 0 0 (Pure.pure (f a)) (Pure.pure (f a)) := pure (f a)
  have mapped := h.bind rest (Nat.zero_le _)
  exact mapped

/-! The steps that both readers take. -/

/-- What is next is a token of the body, or else the mark. -/
theorem peek {l : Token → Cursor β} {m : Option Token → Parser β} (hl : ∀ o : Option Token,
      (∀ t ∈ o, t.kind ≠ .eof) → Follows T depth budget gain (l (o.getD T.mark)) (m o)) :
    Follows T depth budget gain (Cursor.peek >>= l) (Parser.peek >>= m) := by
  intro q s st deep
  have proper : ∀ t ∈ s.rest.head?, t.kind ≠ .eof := fun t ht =>
    T.proper t (List.mem_of_mem_drop (st.rest ▸ List.mem_of_mem_head? ht))
  have next := hl s.rest.head? proper q s st deep
  simp only [Bind.bind, EStateM.bind, peek_run st]
  exact next

theorem errorAt_getD {o : Option Token} (h : ∀ t ∈ o, t.kind ≠ .eof) (complaint : Syntax.Complaint) :
    errorAt (o.getD T.mark) complaint = Parser.Fault.toError T.mark.line ⟨o, complaint⟩ := by
  cases o with
  | none => simp [errorAt, Parser.Fault.toError, T.isMark]
  | some t => simp [errorAt, Parser.Fault.toError, h t rfl]

theorem fail {o : Option Token} (h : ∀ t ∈ o, t.kind ≠ .eof) (complaint : Syntax.Complaint) :
    Follows T depth budget gain (Cursor.fail (o.getD T.mark) complaint : Cursor α)
      (Parser.fail o complaint) := by
  intro q s st _
  have stopped : Agrees T gain q (α := α) (.error _ q) (.error (.fault ⟨o, complaint⟩) s) :=
    .fault st (Nat.le_refl _) (.of_eq rfl)
  rw [← errorAt_getD h] at stopped
  exact stopped

/-- A token of the kind is taken, or there is a complaint about the token that is next. -/
theorem consume (hk : kind ≠ .eof) (what : String) :
    Follows T depth budget 1 (Cursor.consume kind what) (Parser.expect kind what) := by
  have complaint {o : Option Token} (h : ∀ t ∈ o, t.kind ≠ .eof) : Follows T depth budget 1
      (Cursor.fail (o.getD T.mark) (.expected what) : Cursor Token) (Parser.fail o (.expected what)) :=
    fail h _
  rintro q ⟨_ | ⟨t, ts⟩, k, fs⟩ st deep
  · rw [consume_of_ne st hk fun _ h => nomatch h]
    exact complaint (o := none) (fun _ h => nomatch h) q _ st deep
  · by_cases h : t.kind = kind
    · simp only [consume_of_eq st h, Parser.expect, Bind.bind, EStateM.bind, Parser.accept?_of_eq h]
      exact .answer st.moved (Nat.le_refl _) (.of_eq rfl)
    · simp only [consume_of_ne st hk fun u hu => Option.some.inj hu ▸ h, Parser.expect, Bind.bind,
        EStateM.bind, Parser.accept?_of_ne h]
      exact complaint (o := some t) (fun u hu => Option.some.inj hu ▸ st.kind_ne) q _ st deep

theorem consumeName (what : String) :
    Follows T depth budget 1 (Cursor.consumeName what) (Parser.expectName what) :=
  (consume (by decide) what).first fun t => pure t.mark

/-- Behind a token enough calls are left for any phrase. -/
theorem deep_behind {t : Token} {ts : List Token} {k k' : RefId} {fs fs' : List Parser.Fault}
    (h : 32 * (⟨t :: ts, k, fs⟩ : Parser.State).rest.length + budget ≤ depth) :
    32 * (⟨ts, k', fs'⟩ : Parser.State).rest.length + 32 ≤ depth := by
  simp only [List.length_cons] at h ⊢
  omega

/-- What is next decides. -/
theorem ahead {l : Token → Cursor β} {m : Option Token → Parser β}
    (ends : Follows T depth budget gain (l T.mark) (m none))
    (next : ∀ q t ts k fs, Stands T q ⟨t :: ts, k, fs⟩ →
      32 * (⟨t :: ts, k, fs⟩ : Parser.State).rest.length + budget ≤ depth →
      Agrees T gain q (l t q) (m (some t) ⟨t :: ts, k, fs⟩)) :
    Follows T depth budget gain (Cursor.peek >>= l) (Parser.peek >>= m) := by
  rintro q ⟨_ | ⟨t, ts⟩, k, fs⟩ st deep
  · have run := ends q _ st deep
    simp only [Bind.bind, EStateM.bind, peek_run st]
    exact run
  · have run := next q t ts k fs st deep
    simp only [Bind.bind, EStateM.bind, peek_run st]
    exact run

section Taken

variable {t : Token} {ts : List Token} {k : RefId} {fs : List Parser.Fault} {q : State}

/-- Behind a token that both have taken. -/
theorem moved (h : Behind T depth c p) (st : Stands T q ⟨t :: ts, k, fs⟩)
    (deep : 32 * (⟨t :: ts, k, fs⟩ : Parser.State).rest.length + budget ≤ depth) :
    Agrees T 1 q (c q.moved) (p ⟨ts, k, fs⟩) :=
  (h q.moved _ st.moved (deep_behind deep)).behind

/-- The token that is next is taken by both. -/
theorem taken {l : Token → Cursor α} (h : Behind T depth (l t) p) (st : Stands T q ⟨t :: ts, k, fs⟩)
    (deep : 32 * (⟨t :: ts, k, fs⟩ : Parser.State).rest.length + budget ≤ depth) :
    Agrees T 1 q ((advance >>= l) q) ((do Parser.skip; p) ⟨t :: ts, k, fs⟩) := by
  simp only [Bind.bind, EStateM.bind, advance_run st]
  exact h.moved st deep

end Taken

section Choice

variable (hg : gain ≤ 1) {m : Option Token → Parser β}

include hg

/-- One way behind a token of the kind, and another one without it. -/
theorem choice (view : Option Token → α)
    (taken : ∀ {q t ts k fs}, Stands T q ⟨t :: ts, k, fs⟩ → t.kind = kind →
      c q = .ok (view (some t)) q.moved)
    (left : ∀ {q s}, Stands T q s → (∀ t ∈ s.rest.head?, t.kind ≠ kind) → c q = .ok (view none) q)
    (yes : ∀ t, t.kind = kind → Behind T depth (l (view (some t))) (m (some t)))
    (no : Follows T depth budget gain (l (view none)) (m none)) :
    Follows T depth budget gain (c >>= l) (Parser.accept? kind >>= m) := by
  rintro q ⟨_ | ⟨t, ts⟩, k, fs⟩ st deep
  · simp only [Bind.bind, EStateM.bind, left st fun _ h => nomatch h]
    exact no q _ st deep
  · by_cases h : t.kind = kind
    · simp only [Bind.bind, EStateM.bind, taken st h, Parser.accept?_of_eq h]
      exact ((yes t h).moved st deep).weaken hg
    · simp only [Bind.bind, EStateM.bind, Parser.accept?_of_ne h,
        left st fun u hu => Option.some.inj hu ▸ h]
      exact no q _ st deep

theorem branch (hk : kind ≠ .eof) {l : Bool → Cursor β}
    (yes : ∀ t, Behind T depth (l true) (m (some t)))
    (no : Follows T depth budget gain (l false) (m none)) :
    Follows T depth budget gain (advanceIf kind >>= l) (Parser.accept? kind >>= m) :=
  choice hg Option.isSome advanceIf_of_eq (advanceIf_of_ne · hk) (fun t _ => yes t) no

theorem accept? (hk : kind ≠ .eof) {l : Option Token → Cursor β}
    (yes : ∀ t, t.kind = kind → Behind T depth (l (some t)) (m (some t)))
    (no : Follows T depth budget gain (l none) (m none)) :
    Follows T depth budget gain (Cursor.accept? kind >>= l) (Parser.accept? kind >>= m) :=
  choice hg id accept?_of_eq (accept?_of_ne · hk) yes no

end Choice

end Follows

namespace Behind

variable {T : Tape} {depth : Nat} {c c' : Cursor α} {p p' : Parser α} {l : α → Cursor β}
  {m : α → Parser β} {kind : Token.Kind}

theorem next (h : Behind T depth c p) (hl : ∀ a, Behind T depth (l a) (m a)) :
    Behind T depth (c >>= l) (p >>= m) := h.bind hl (Nat.le_refl 32)

/-- Two ways that go on alike. -/
theorem joined {b : Bool} (yes : Behind T depth c p) (no : Behind T depth c' p')
    (hl : ∀ a, Behind T depth (l a) (m a)) :
    Behind T depth (if b then c >>= l else c' >>= l) (if b then p >>= m else p' >>= m) :=
  .either (yes.next hl) (no.next hl)

theorem consume (hk : kind ≠ .eof) (what : String) :
    Behind T depth (Cursor.consume kind what) (Parser.expect kind what) :=
  (Follows.consume hk what).behind (Nat.le_refl 32)

theorem consumeName (what : String) :
    Behind T depth (Cursor.consumeName what) (Parser.expectName what) :=
  (Follows.consumeName what).behind (Nat.le_refl 32)

end Behind

/-- The readers give the same answer and take nothing. -/
def Still (T : Tape) (c : Cursor α) (p : Parser α) : Prop :=
  ∀ q s, Stands T q s → ∃ a q' s', c q = .ok a q' ∧ p s = .ok a s' ∧ Stands T q' s' ∧
    q'.position = q.position ∧ q'.rounds = q.rounds

namespace Still

variable {T : Tape} {depth budget gain : Nat} {c : Cursor α} {p : Parser α} {l : α → Cursor β}
  {m : α → Parser β} {kind : Token.Kind}

theorem bind (h : Still T c p) (hl : ∀ a, Follows T depth budget gain (l a) (m a)) :
    Follows T depth budget gain (c >>= l) (p >>= m) := by
  intro q s st deep
  obtain ⟨a, q', s', hc, hp, st', position, rounds⟩ := h q s st
  have length : s'.rest.length = s.rest.length := by
    have := st.length
    have := st'.length
    omega
  have next := hl a q' s' st' (length ▸ deep)
  simp only [Bind.bind, EStateM.bind, hc, hp]
  exact next.since position rounds

theorem report {o : Option Token} (h : ∀ t ∈ o, t.kind ≠ .eof) (complaint : Syntax.Complaint) :
    Still T (Cursor.report (o.getD T.mark) complaint) (Parser.report o complaint) := by
  intro q s st
  refine ⟨(), _, _, rfl, rfl, ⟨st.tokens, st.position, st.rest, st.nextId, ?_⟩, rfl, rfl⟩
  simp [st.errors, Follows.errorAt_getD h]

theorem freshId : Still T Cursor.freshId Parser.freshId := by
  intro q s st
  have handed : Cursor.freshId q = .ok s.nextId { q with nextId := s.nextId + 1 } := by
    rw [st.nextId]
    rfl
  exact ⟨_, _, _, handed, rfl, ⟨st.tokens, st.position, st.rest, rfl, st.errors⟩, rfl, rfl⟩

theorem check (hk : kind ≠ .eof) : Still T (Cursor.check kind) (Parser.nextIs kind) := by
  intro q s st
  have same : ((s.rest.head?.getD T.mark).kind == kind) = s.rest.head?.any (·.kind == kind) := by
    cases s.rest.head? with
    | none => simp [T.isMark, hk.symm]
    | some t => rfl
  exact ⟨_, _, _, check_run st kind, congrArg (EStateM.Result.ok · s) same.symm, st, rfl, rfl⟩

theorem isAtEnd : Still T Cursor.isAtEnd Parser.atEnd := by
  intro q s st
  have same : s.rest.isEmpty = s.rest.head?.isNone := by cases s.rest <;> rfl
  exact ⟨_, _, _, isAtEnd_run st, congrArg (EStateM.Result.ok · s) same.symm, st, rfl, rfl⟩

end Still

end Cursor

end Lox
