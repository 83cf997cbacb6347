import Lox.Proofs.Source.Ending

/-!
The lexical grammar. What a lexeme is, and in front of which text each piece of a program ends, is said
here without a scanner: a lexeme is as long as it can be, and what opens a comment is none. Every text
has one partition into such pieces. Scanning finds it, and makes a token of each lexeme and an error of
each faulty piece.
-/

namespace Lox

namespace Source

/-- The operators as they are written. -/
def operators : List (List Char × Token.Kind) :=
  [(['('], .leftParen), ([')'], .rightParen), (['{'], .leftBrace), (['}'], .rightBrace),
    ([','], .comma), (['.'], .dot), (['-'], .minus), (['+'], .plus), ([';'], .semicolon),
    (['/'], .slash), (['*'], .star), (['?'], .question), ([':'], .colon),
    (['!'], .bang), (['!', '='], .bangEqual), (['='], .equal), (['=', '='], .equalEqual),
    (['>'], .greater), (['>', '='], .greaterEqual), (['<'], .less), (['<', '='], .lessEqual)]

/-- One digit or more. -/
def IsDigits (cs : List Char) : Prop := cs ≠ [] ∧ ∀ c ∈ cs, c.isDigit

/-- A letter, and then letters and digits. -/
def IsWord : List Char → Prop
  | [] => False
  | c :: cs => isLetter c ∧ ∀ d ∈ cs, isWordChar d

/-- The lexical grammar. -/
inductive IsLexeme : Token.Kind → List Char → Prop
  | operator {text kind} (h : (text, kind) ∈ operators) : IsLexeme kind text
  | string {inside} (h : '"' ∉ inside) : IsLexeme .string ('"' :: inside ++ ['"'])
  | whole {digits} (h : IsDigits digits) : IsLexeme .number digits
  | fraction {digits behind} (h : IsDigits digits) (hb : IsDigits behind) :
      IsLexeme .number (digits ++ '.' :: behind)
  | keyword {text kind} (h : IsWord text) (hk : (String.ofList text, kind) ∈ Token.Kind.keywords) :
      IsLexeme kind text
  | identifier {text} (h : IsWord text) (hk : ∀ kind, (String.ofList text, kind) ∉ Token.Kind.keywords) :
      IsLexeme .identifier text

def OpensComment (cs : List Char) : Prop := ∃ ds, cs = '/' :: '/' :: ds ∨ cs = '/' :: '*' :: ds

/-- The piece begins a text that goes on with the given rest. -/
inductive Piece.Begins (rest : List Char) : Piece → Prop
  | blank {c} (h : c ∈ [' ', '\t', '\r', '\n']) : Begins rest ⟨.blank, [c]⟩
  | lineComment {text} (h : '\n' ∉ text) (line : ∀ c ∈ rest.head?, c = '\n') :
      Begins rest ⟨.comment, '/' :: '/' :: text⟩
  /-- The closing is the first one. -/
  | blockComment {text} (first : ¬ ['*', '/'] <:+: text ++ ['*']) :
      Begins rest ⟨.comment, '/' :: '*' :: text ++ ['*', '/']⟩
  | lexeme {kind text} (h : IsLexeme kind text) (apart : ¬ OpensComment (text ++ rest))
      (longest : ∀ kind' text', IsLexeme kind' text' → text' <+: text ++ rest →
        text'.length ≤ text.length) : Begins rest ⟨.lexeme kind, text⟩
  | unexpected {c} (blank : c ∉ [' ', '\t', '\r', '\n']) (quote : c ≠ '"')
      (none : ∀ kind text, IsLexeme kind text → ¬ text <+: c :: rest) :
      Begins rest ⟨.unexpected, [c]⟩
  | unterminatedString {text} (h : '"' ∉ text) (last : rest = []) :
      Begins rest ⟨.unterminatedString, '"' :: text⟩
  | unterminatedComment {text} (h : ¬ ['*', '/'] <:+: text) (last : rest = []) :
      Begins rest ⟨.unterminatedComment, '/' :: '*' :: text⟩

/-- The text is made of these pieces, one after another. -/
inductive Partition : List Char → List Piece → Prop
  | nil : Partition [] []
  | cons {p : Piece} {rest ps} (h : p.Begins rest) (ht : Partition rest ps) :
      Partition (p.text ++ rest) (p :: ps)

theorem Partition.flatten_text {cs : List Char} {ps : List Piece} (h : Partition cs ps) :
    (ps.map Piece.text).flatten = cs := by
  induction h with
  | nil => rfl
  | cons _ _ ih => rw [List.map_cons, List.flatten_cons, ih]

/-! Characters. What a lexeme starts with decides what it is. -/

theorem isBlank_iff {c : Char} : isBlank c ↔ c ∈ [' ', '\t', '\r', '\n'] := by
  simp [isBlank, or_assoc]

theorem isLetter_of_isDigit {c : Char} (h : c.isDigit) : isLetter c = false := by
  by_contra hl
  rw [Bool.not_eq_false, isLetter_iff] at hl
  have digit : 48 ≤ c.toNat ∧ c.toNat ≤ 57 := Char.isDigit_iff_toNat.mp h
  rcases hl with (letter | letter) | rfl
  · omega
  · omega
  · revert h
    decide

theorem operators_head : ∀ e ∈ operators, ∀ c ∈ e.1.head?, isBlank c = false ∧ c ≠ '"' ∧
    c.isDigit = false ∧ isLetter c = false := by
  have all : operators.all fun e => e.1.head?.all fun c =>
      !isBlank c && c != '"' && !c.isDigit && !isLetter c := by decide
  intro e he c hc
  have := (Option.all_eq_true _ _).mp (List.all_eq_true.mp all e he) c hc
  simpa [and_assoc] using this

theorem ofWord_of_mem_keywords {s : String} {kind : Token.Kind} (h : (s, kind) ∈ Token.Kind.keywords) :
    Token.Kind.ofWord s = kind := by
  have all : ∀ e ∈ Token.Kind.keywords, Token.Kind.ofWord e.1 = e.2 := by decide
  exact all _ h

theorem ofWord_of_notMem_keywords {s : String} (h : ∀ kind, (s, kind) ∉ Token.Kind.keywords) :
    Token.Kind.ofWord s = .identifier := by
  unfold Token.Kind.ofWord
  cases hl : Token.Kind.keywords.lookup s with
  | none => rfl
  | some kind =>
    obtain ⟨before, after, he, _⟩ := List.lookup_eq_some_iff.mp hl
    exact absurd (he ▸ List.mem_append_right before List.mem_cons_self) (h kind)

theorem isLexeme_ofWord {text : List Char} (h : IsWord text) :
    IsLexeme (.ofWord (String.ofList text)) text := by
  by_cases hk : ∃ kind, (String.ofList text, kind) ∈ Token.Kind.keywords
  · obtain ⟨kind, hk⟩ := hk
    exact ofWord_of_mem_keywords hk ▸ .keyword h hk
  · have hk kind (hm : (String.ofList text, kind) ∈ Token.Kind.keywords) : False := hk ⟨kind, hm⟩
    exact ofWord_of_notMem_keywords hk ▸ .identifier h hk

namespace IsLexeme

variable {kind : Token.Kind} {c : Char} {cs : List Char}

/-- The forms that a lexeme can have, by its first character. -/
theorem cases_head {text : List Char} (h : IsLexeme kind text) : ∃ c cs, text = c :: cs ∧
    ((text, kind) ∈ operators ∨
      c = '"' ∧ kind = .string ∧ (∃ inside, cs = inside ++ ['"'] ∧ '"' ∉ inside) ∨
      c.isDigit ∧ kind = .number ∧ (IsDigits text ∨
        ∃ digits behind, text = digits ++ '.' :: behind ∧ IsDigits digits ∧ IsDigits behind) ∨
      isLetter c ∧ IsWord text ∧ kind = .ofWord (String.ofList text)) := by
  have digit {c : Char} {cs : List Char} (h : IsDigits (c :: cs)) : c.isDigit :=
    h.2 c List.mem_cons_self
  have word {c : Char} {cs : List Char} (h : IsWord (c :: cs)) : isLetter c := h.1
  cases h with
  | operator h =>
    have nonempty : ∀ e ∈ operators, e.1 ≠ [] := by decide
    obtain ⟨c, cs, rfl⟩ := List.exists_cons_of_ne_nil (nonempty _ h)
    exact ⟨c, cs, rfl, .inl h⟩
  | @string inside h => exact ⟨_, _, rfl, .inr (.inl ⟨rfl, rfl, inside, rfl, h⟩)⟩
  | whole h =>
    obtain ⟨c, cs, rfl⟩ := List.exists_cons_of_ne_nil h.1
    exact ⟨c, cs, rfl, .inr (.inr (.inl ⟨digit h, rfl, .inl h⟩))⟩
  | fraction h hb =>
    obtain ⟨c, cs, rfl⟩ := List.exists_cons_of_ne_nil h.1
    exact ⟨c, _, rfl, .inr (.inr (.inl ⟨digit h, rfl, .inr ⟨_, _, rfl, h, hb⟩⟩))⟩
  | keyword h hk =>
    obtain _ | ⟨c, cs⟩ := text
    · exact h.elim
    · exact ⟨c, cs, rfl, .inr (.inr (.inr ⟨word h, h, (ofWord_of_mem_keywords hk).symm⟩))⟩
  | identifier h hk =>
    obtain _ | ⟨c, cs⟩ := text
    · exact h.elim
    · exact ⟨c, cs, rfl, .inr (.inr (.inr ⟨word h, h, (ofWord_of_notMem_keywords hk).symm⟩))⟩

theorem of_quote (h : IsLexeme kind ('"' :: cs)) :
    kind = .string ∧ ∃ inside, cs = inside ++ ['"'] ∧ '"' ∉ inside := by
  obtain ⟨c, cs, he, hm | ⟨rfl, hs⟩ | ⟨hd, _⟩ | ⟨hl, _⟩⟩ := h.cases_head
  · exact absurd rfl (operators_head _ hm '"' rfl).2.1
  · cases he
    exact hs
  · cases he
    cases hd
  · cases he
    cases hl

theorem of_digit (hc : c.isDigit) (h : IsLexeme kind (c :: cs)) : kind = .number ∧
    (IsDigits (c :: cs) ∨ ∃ digits behind, c :: cs = digits ++ '.' :: behind ∧ IsDigits digits ∧
      IsDigits behind) := by
  obtain ⟨d, ds, he, hm | ⟨rfl, _⟩ | ⟨_, hn⟩ | ⟨hl, _⟩⟩ := h.cases_head
  · have := (operators_head _ hm c rfl).2.2.1
    rw [hc] at this
    cases this
  · cases he
    cases hc
  · exact hn
  · cases he
    rw [isLetter_of_isDigit hc] at hl
    cases hl

theorem of_letter (hc : isLetter c) (h : IsLexeme kind (c :: cs)) :
    IsWord (c :: cs) ∧ kind = .ofWord (String.ofList (c :: cs)) := by
  obtain ⟨d, ds, he, hm | ⟨rfl, _⟩ | ⟨hd, _⟩ | ⟨_, hw⟩⟩ := h.cases_head
  · have := (operators_head _ hm c rfl).2.2.2
    rw [hc] at this
    cases this
  · cases he
    cases hc
  · cases he
    rw [isLetter_of_isDigit hd] at hc
    cases hc
  · exact hw

theorem of_other (hq : c ≠ '"') (hd : c.isDigit = false) (hl : isLetter c = false)
    (h : IsLexeme kind (c :: cs)) : (c :: cs, kind) ∈ operators := by
  obtain ⟨d, ds, he, hm | ⟨rfl, _⟩ | ⟨hd', _⟩ | ⟨hl', _⟩⟩ := h.cases_head
  · exact hm
  · cases he
    exact absurd rfl hq
  · cases he
    rw [hd] at hd'
    cases hd'
  · cases he
    rw [hl] at hl'
    cases hl'

theorem not_isBlank (h : IsLexeme kind (c :: cs)) : isBlank c = false := by
  by_contra hb
  have hb : isBlank c := by simpa using hb
  have plain : ∀ d ∈ [' ', '\t', '\r', '\n'], d ≠ '"' ∧ d.isDigit = false ∧ isLetter d = false := by
    simp only [List.forall_mem_cons, List.not_mem_nil, false_implies, implies_true]
    decide
  obtain ⟨hq, hd, hl⟩ := plain c (isBlank_iff.mp hb)
  have := (operators_head _ (h.of_other hq hd hl) c rfl).1
  rw [hb] at this
  cases this

theorem exists_inside {text : List Char} (h : IsLexeme .string text) :
    ∃ inside, text = '"' :: inside ++ ['"'] := by
  have operator : ∀ e ∈ operators, e.2 ≠ .string := by decide
  have keyword : ∀ e ∈ Token.Kind.keywords, e.2 ≠ .string := by decide
  cases h with
  | operator h => exact (operator _ h rfl).elim
  | string => exact ⟨_, rfl⟩
  | keyword _ hk => exact (keyword _ hk rfl).elim

/-- A text is the lexeme of one kind only. -/
theorem kind_unique {text : List Char} {kind' : Token.Kind} (h : IsLexeme kind text)
    (h' : IsLexeme kind' text) : kind = kind' := by
  obtain ⟨c, cs, rfl, _⟩ := h.cases_head
  by_cases hq : c = '"'
  · subst hq
    exact h.of_quote.1.trans h'.of_quote.1.symm
  · cases hd : c.isDigit with
    | true => exact (h.of_digit hd).1.trans (h'.of_digit hd).1.symm
    | false =>
      cases hl : isLetter c with
      | true => exact (h.of_letter hl).2.trans (h'.of_letter hl).2.symm
      | false =>
        have one : ∀ e ∈ operators, ∀ e' ∈ operators, e.1 = e'.1 → e.2 = e'.2 := by decide
        exact one _ (h.of_other hq hd hl) _ (h'.of_other hq hd hl) rfl

end IsLexeme

/-! What is taken off a text. -/

section Span

variable {α : Type} {p : α → Bool} {xs ys rest : List α}

theorem span_of_all (h : ∀ x ∈ xs, p x) (hr : ∀ y ∈ rest.head?, p y = false) :
    (xs ++ rest).span p = (xs, rest) := by
  rw [List.span_eq_takeWhile_dropWhile, List.takeWhile_append_of_pos h,
    List.dropWhile_append_of_pos h]
  cases rest with
  | nil => simp
  | cons y rest =>
    have hy : ¬ p y = true := by simp [hr y rfl]
    rw [List.takeWhile_cons_of_neg hy, List.dropWhile_cons_of_neg hy, List.append_nil]

theorem span_spec (p : α → Bool) (xs : List α) : (xs.span p).1 ++ (xs.span p).2 = xs ∧
    (∀ x ∈ (xs.span p).1, p x) ∧ ∀ y ∈ (xs.span p).2.head?, p y = false := by
  rw [List.span_eq_takeWhile_dropWhile]
  refine ⟨List.takeWhile_append_dropWhile, fun x hx => ?_, fun y hy => ?_⟩
  · exact List.all_eq_true.mp List.all_takeWhile x hx
  · have h := List.head?_dropWhile_not p xs
    rw [hy] at h
    simpa using h

/-- Of all that can be taken off a text the span is the longest. -/
theorem length_le_span (h : ∀ x ∈ ys, p x) (hp : ys <+: xs) : ys.length ≤ (xs.span p).1.length := by
  obtain ⟨more, rfl⟩ := hp
  rw [List.span_eq_takeWhile_dropWhile, List.takeWhile_append_of_pos h, List.length_append]
  exact Nat.le_add_right _ _

end Span

/-- A number in front of the text either is within the digits there, or takes all of them and the
point. -/
theorem IsLexeme.length_or_point {kind : Token.Kind} {c : Char}
    {text cs taken rest : List Char} (h : IsLexeme kind text) (hc : c.isDigit) (hp : text <+: c :: cs)
    (hs : (c :: cs).span Char.isDigit = (taken, rest)) :
    text.length ≤ taken.length ∨ ∃ behind, text = taken ++ '.' :: behind ∧ IsDigits behind ∧
      '.' :: behind <+: rest := by
  obtain ⟨d, ds, rfl, _⟩ := h.cases_head
  obtain ⟨rfl, _⟩ := List.cons_prefix_cons.mp hp
  obtain ⟨_, hd | ⟨front, behind, he, hf, hb⟩⟩ := h.of_digit hc
  · left
    have := length_le_span hd.2 hp
    rwa [hs] at this
  · right
    rw [he] at hp
    obtain ⟨more, hm⟩ := hp
    rw [List.append_assoc, List.cons_append] at hm
    rw [← hm, span_of_all hf.2 (by simp)] at hs
    cases hs
    exact ⟨behind, he, hb, more, rfl⟩

/-- Whether the text is cut, and where: behind the first `*/`. -/
theorem cutAtClose?_spec (cs : List Char) :
    match cutAtClose? cs with
    | none => ¬ ['*', '/'] <:+: cs
    | some (inside, rest) => ∃ text, inside = text ++ ['*', '/'] ∧ inside ++ rest = cs ∧
      ¬ ['*', '/'] <:+: text ++ ['*'] := by
  fun_induction cutAtClose? cs with
  | case1 cs => exact ⟨[], rfl, rfl, by decide⟩
  | case2 => simp
  | case3 c cs hn ih =>
    have start {ds : List Char} (hp : ds <+: cs) : ¬ ['*', '/'] <+: c :: ds := by
      rintro ⟨more, he⟩
      injection he with hc hd
      obtain ⟨further, rfl⟩ := hp
      exact hn _ hc.symm (by rw [← hd]; rfl)
    cases h : cutAtClose? cs with
    | none =>
      rw [h] at ih
      rw [Option.map_none, List.infix_cons_iff]
      exact fun hi => hi.elim (start List.prefix_rfl) ih
    | some cut =>
      obtain ⟨inside, rest⟩ := cut
      rw [h] at ih
      obtain ⟨text, rfl, rfl, first⟩ := ih
      refine ⟨c :: text, rfl, rfl, ?_⟩
      rw [List.cons_append, List.infix_cons_iff]
      refine fun hi => hi.elim (start ?_) first
      exact ⟨'/' :: rest, by simp⟩

theorem cutAtClose?_of_first {text : List Char} (first : ¬ ['*', '/'] <:+: text ++ ['*'])
    (rest : List Char) :
    cutAtClose? (text ++ '*' :: '/' :: rest) = some (text ++ ['*', '/'], rest) := by
  induction text with
  | nil => rfl
  | cons c text ih =>
    rw [List.cons_append, List.infix_cons_iff, not_or] at first
    rw [List.cons_append, cutAtClose?_cons, ih first.2]
    · rfl
    · rintro cs rfl he
      cases text with
      | nil => cases he
      | cons d text =>
        injection he with hd
        exact first.1 ⟨text ++ ['*'], by rw [hd]; rfl⟩

namespace Piece

/-- The piece is cut off the text, and begins it. -/
def Cuts (r : Piece × List Char) (cs : List Char) : Prop := r.1.text ++ r.2 = cs ∧ r.1.Begins r.2

variable {c : Char} {cs : List Char}

theorem not_opensComment (hc : c ≠ '/') : ¬ OpensComment (c :: cs) := by
  rintro ⟨ds, he | he⟩
  · exact hc (List.cons.inj he).1
  · exact hc (List.cons.inj he).1

theorem string_cuts (cs : List Char) : Cuts (string cs) ('"' :: cs) := by
  obtain ⟨whole, inside, _⟩ := span_spec (· != '"') cs
  have plain : '"' ∉ (cs.span (· != '"')).1 := fun hm => by simpa using inside _ hm
  rcases hs : cs.span (· != '"') with ⟨taken, _ | ⟨q, rest⟩⟩
  · rw [hs] at whole plain
    simp only [string, hs]
    exact ⟨congrArg ('"' :: ·) whole, .unterminatedString plain rfl⟩
  · have hq : q = '"' := by
      have := (span_spec (· != '"') cs).2.2
      rw [hs] at this
      simpa using this q rfl
    subst hq
    rw [hs] at whole plain
    simp only [string, hs]
    refine ⟨by rw [← whole]; simp, .lexeme (.string plain) (not_opensComment (by decide)) ?_⟩
    intro kind text h hp
    obtain ⟨c, cs', rfl, _⟩ := h.cases_head
    obtain ⟨rfl, hp⟩ := List.cons_prefix_cons.mp hp
    obtain ⟨_, inside', rfl, hi⟩ := h.of_quote
    obtain ⟨more, he⟩ := hp
    have starts : inside' <+: cs := ⟨'"' :: more, by rw [← whole]; simpa using he⟩
    have shorter : inside'.length ≤ taken.length := by
      have := length_le_span (p := (· != '"'))
        (fun x hx => by simpa using fun he : x = '"' => hi (he ▸ hx)) starts
      rwa [hs] at this
    simpa using shorter

theorem number_cuts (hc : c.isDigit) (cs : List Char) : Cuts (number (c :: cs)) (c :: cs) := by
  have apart (rest : List Char) : ¬ OpensComment (c :: rest) :=
    not_opensComment fun he => by rw [he] at hc; cases hc
  obtain ⟨whole, digits, stops⟩ := span_spec Char.isDigit (c :: cs)
  rcases hs : (c :: cs).span Char.isDigit with ⟨taken, rest⟩
  rw [hs] at whole digits stops
  have first : IsDigits taken := by
    refine ⟨?_, digits⟩
    rintro rfl
    obtain rfl : rest = c :: cs := whole
    have := stops c rfl
    rw [hc] at this
    cases this
  by_cases hp : ∃ d zs, rest = '.' :: d :: zs ∧ d.isDigit
  · obtain ⟨d, zs, rfl, hd⟩ := hp
    rw [number_point hs, if_pos hd]
    obtain ⟨whole', digits', _⟩ := span_spec Char.isDigit (d :: zs)
    have second : IsDigits ((d :: zs).span Char.isDigit).1 := by
      refine ⟨fun he => ?_, digits'⟩
      have := length_le_span (p := Char.isDigit) (by simpa using hd) (⟨zs, rfl⟩ : [d] <+: d :: zs)
      rw [he] at this
      cases this
    have all : (taken ++ '.' :: ((d :: zs).span Char.isDigit).1) ++ ((d :: zs).span Char.isDigit).2 =
        c :: cs := by
      rw [List.append_assoc, List.cons_append, whole', whole]
    refine ⟨all, .lexeme (.fraction first second) (all ▸ apart cs) ?_⟩
    intro kind text h hp
    rw [all] at hp
    obtain within | ⟨behind, rfl, hb, hr⟩ := h.length_or_point hc hp hs
    · exact Nat.le_trans within (by simp)
    · have := length_le_span hb.2 (List.cons_prefix_cons.mp hr).2
      simpa using this
  · have same : number (c :: cs) = (⟨.lexeme .number, taken⟩, rest) := by
      by_cases h : ∃ d zs, rest = '.' :: d :: zs
      · obtain ⟨d, zs, rfl⟩ := h
        rw [number_point hs, if_neg fun hd => hp ⟨d, zs, rfl, hd⟩]
      · exact number_whole hs fun d zs he => h ⟨d, zs, he⟩
    rw [same]
    refine ⟨whole, .lexeme (.whole first) (whole ▸ apart cs) ?_⟩
    intro kind text h hpre
    rw [whole] at hpre
    obtain within | ⟨behind, rfl, hb, hr⟩ := h.length_or_point hc hpre hs
    · exact within
    · obtain ⟨d, behind, rfl⟩ := List.exists_cons_of_ne_nil hb.1
      obtain ⟨more, rfl⟩ := hr
      exact absurd ⟨d, behind ++ more, rfl, hb.2 d List.mem_cons_self⟩ hp

theorem word_cuts (hc : isLetter c) (cs : List Char) : Cuts (word (c :: cs)) (c :: cs) := by
  have hw : isWordChar c := by rw [isWordChar, hc, Bool.true_or]
  have split : (c :: cs).span isWordChar = (c :: (cs.span isWordChar).1, (cs.span isWordChar).2) := by
    rw [List.span_eq_takeWhile_dropWhile, List.takeWhile_cons_of_pos hw,
      List.dropWhile_cons_of_pos hw, List.span_eq_takeWhile_dropWhile]
  obtain ⟨whole, letters, _⟩ := span_spec isWordChar cs
  have all : (c :: (cs.span isWordChar).1) ++ (cs.span isWordChar).2 = c :: cs :=
    congrArg (c :: ·) whole
  rw [word, split]
  refine ⟨all, .lexeme (isLexeme_ofWord ⟨hc, letters⟩) ?_ ?_⟩
  · exact not_opensComment fun he => by rw [he] at hc; cases hc
  · intro kind text h hp
    rw [all] at hp
    obtain ⟨d, ds, rfl, _⟩ := h.cases_head
    obtain ⟨rfl, tail⟩ := List.cons_prefix_cons.mp hp
    simpa using length_le_span (h.of_letter hc).1.2 tail

/-- The operators that begin with a character. -/
theorem mem_operators_iff (c : Char) (cs : List Char) (kind : Token.Kind) :
    (c :: cs, kind) ∈ operators ↔ (cs = [] ∧ Token.Kind.ofChar? c = some kind) ∨
      (cs = ['='] ∧ ∃ shorter, Token.Kind.ofChar? c = some shorter ∧ shorter.withEqual? = some kind) := by
  constructor
  · have all : ∀ e ∈ operators, (e.1.tail = [] ∧ e.1.head?.bind Token.Kind.ofChar? = some e.2) ∨
        (e.1.tail = ['='] ∧ (e.1.head?.bind Token.Kind.ofChar?).bind Token.Kind.withEqual? = some e.2) := by
      decide
    intro h
    refine (all _ h).imp_right fun ⟨ht, hk⟩ => ⟨ht, Option.bind_eq_some_iff.mp hk⟩
  · rintro (⟨rfl, h⟩ | ⟨rfl, shorter, h, hs⟩)
    · unfold Token.Kind.ofChar? at h
      split at h <;> cases h <;> decide
    · unfold Token.Kind.ofChar? at h
      split at h <;> cases h <;> cases hs <;> decide

theorem other_cuts (hb : isBlank c = false) (hq : c ≠ '"') (hd : c.isDigit = false)
    (hl : isLetter c = false) (apart : ¬ OpensComment (c :: cs)) : Cuts (other c cs) (c :: cs) := by
  have found {kind : Token.Kind} {text : List Char} (h : IsLexeme kind text) (hp : text <+: c :: cs) :
      ∃ ds, text = c :: ds ∧ ds <+: cs ∧ (c :: ds, kind) ∈ operators := by
    obtain ⟨d, ds, rfl, _⟩ := h.cases_head
    obtain ⟨rfl, tail⟩ := List.cons_prefix_cons.mp hp
    exact ⟨ds, rfl, tail, h.of_other hq hd hl⟩
  unfold other
  cases ho : Token.Kind.ofChar? c with
  | none =>
    refine ⟨rfl, .unexpected (fun hm => ?_) hq fun kind text h hp => ?_⟩
    · rw [isBlank_iff.mpr hm] at hb
      cases hb
    · obtain ⟨ds, rfl, _, hm⟩ := found h hp
      obtain ⟨_, h⟩ | ⟨_, _, h, _⟩ := (mem_operators_iff c ds kind).mp hm
      · rw [ho] at h
        cases h
      · rw [ho] at h
        cases h
  | some kind =>
    dsimp only
    unfold operator
    split
    · rename_i longer rest hw
      refine ⟨rfl, .lexeme (.operator ?_) apart fun kind' text h hp => ?_⟩
      · exact (mem_operators_iff _ _ _).mpr (.inr ⟨rfl, kind, ho, hw⟩)
      · obtain ⟨ds, rfl, _, hm⟩ := found h hp
        obtain ⟨rfl, _⟩ | ⟨rfl, _⟩ := (mem_operators_iff c ds kind').mp hm
        · exact Nat.le_succ 1
        · exact Nat.le_refl 2
    · rename_i hn
      refine ⟨rfl, .lexeme (.operator ?_) apart fun kind' text h hp => ?_⟩
      · exact (mem_operators_iff _ _ _).mpr (.inl ⟨rfl, ho⟩)
      · obtain ⟨ds, rfl, hds, hm⟩ := found h hp
        obtain ⟨rfl, _⟩ | ⟨rfl, shorter, hs, hw⟩ := (mem_operators_iff c ds kind').mp hm
        · exact Nat.le_refl 1
        · obtain ⟨more, rfl⟩ := hds
          rw [ho] at hs
          cases hs
          exact absurd rfl (hn _ more hw)

theorem lineComment_cuts (cs : List Char) :
    Cuts (lineComment ('/' :: '/' :: cs)) ('/' :: '/' :: cs) := by
  obtain ⟨whole, inside, stops⟩ := span_spec (· != '\n') cs
  have split : ('/' :: '/' :: cs).span (· != '\n') =
      ('/' :: '/' :: (cs.span (· != '\n')).1, (cs.span (· != '\n')).2) := by
    rw [List.span_eq_takeWhile_dropWhile, List.takeWhile_cons_of_pos (by decide),
      List.takeWhile_cons_of_pos (by decide), List.dropWhile_cons_of_pos (by decide),
      List.dropWhile_cons_of_pos (by decide), List.span_eq_takeWhile_dropWhile]
  rw [lineComment, split]
  refine ⟨congrArg ('/' :: '/' :: ·) whole, .lineComment (fun hm => ?_) fun c hc => ?_⟩
  · simpa using inside _ hm
  · simpa using stops c hc

theorem blockComment_cuts (cs : List Char) : Cuts (blockComment cs) ('/' :: '*' :: cs) := by
  have cut := cutAtClose?_spec cs
  unfold blockComment
  cases h : cutAtClose? cs with
  | none =>
    rw [h] at cut
    exact ⟨by simp, .unterminatedComment cut rfl⟩
  | some r =>
    obtain ⟨inside, rest⟩ := r
    rw [h] at cut
    obtain ⟨text, rfl, rfl, first⟩ := cut
    exact ⟨rfl, .blockComment first⟩

theorem next_cuts (c : Char) (cs : List Char) : Cuts (next c cs) (c :: cs) := by
  by_cases hc : c = '/'
  · subst hc
    by_cases h₁ : ∃ ds, cs = '/' :: ds
    · obtain ⟨ds, rfl⟩ := h₁
      exact lineComment_cuts ds
    · by_cases h₂ : ∃ ds, cs = '*' :: ds
      · obtain ⟨ds, rfl⟩ := h₂
        exact blockComment_cuts ds
      · rw [next_slash (fun ds he => h₁ ⟨ds, he⟩) fun ds he => h₂ ⟨ds, he⟩]
        refine other_cuts rfl (by decide) rfl (by decide) ?_
        rintro ⟨ds, he | he⟩
        · exact h₁ ⟨ds, (List.cons.inj he).2⟩
        · exact h₂ ⟨ds, (List.cons.inj he).2⟩
  · rw [next_of_ne hc]
    split
    · exact ⟨rfl, .blank (isBlank_iff.mp ‹_›)⟩
    · split
      · rename_i hb hq
        obtain rfl := beq_iff_eq.mp hq
        exact string_cuts cs
      · split
        · exact number_cuts ‹_› cs
        · split
          · exact word_cuts ‹_› cs
          · rename_i hb hq hd hl
            exact other_cuts (by simpa using hb) (by simpa using hq) (by simpa using hd)
              (by simpa using hl) (not_opensComment hc)

theorem Begins.text_ne_nil {p : Piece} {rest : List Char} (h : p.Begins rest) : p.text ≠ [] := by
  cases h with
  | lexeme h =>
    obtain ⟨c, cs, rfl, _⟩ := h.cases_head
    exact List.cons_ne_nil c cs
  | _ => exact List.cons_ne_nil _ _

theorem lineComment_of_line {text rest : List Char} (h : '\n' ∉ text)
    (line : ∀ c ∈ rest.head?, c = '\n') :
    next '/' ('/' :: (text ++ rest)) = (⟨.comment, '/' :: '/' :: text⟩, rest) := by
  have split : ('/' :: '/' :: text ++ rest).span (· != '\n') = ('/' :: '/' :: text, rest) := by
    refine span_of_all ?_ fun y hy => by simp [line y hy]
    intro x hx
    rw [bne_iff_ne]
    rintro rfl
    simp [h] at hx
  rw [List.cons_append, List.cons_append] at split
  rw [next_slash_slash, lineComment, split]

theorem string_of_open {text : List Char} (h : '"' ∉ text) :
    next '"' text = (⟨.unterminatedString, '"' :: text⟩, []) := by
  have split : (text ++ []).span (· != '"') = (text, []) :=
    span_of_all (fun x hx => bne_iff_ne.mpr fun he => h (he ▸ hx)) nofun
  rw [List.append_nil] at split
  simp only [next_quote, string, split]

/-- What no lexeme begins is cut as such. -/
theorem next_of_none (blank : isBlank c = false) (quote : c ≠ '"')
    (none : ∀ kind text, IsLexeme kind text → ¬ text <+: c :: cs) :
    next c cs = (⟨.unexpected, [c]⟩, cs) := by
  have start {kind : Token.Kind} (h : IsLexeme kind [c]) : False := none _ _ h ⟨cs, rfl⟩
  have slash : c ≠ '/' := by
    rintro rfl
    exact start (.operator (show (['/'], .slash) ∈ operators by decide))
  rw [next_of_ne slash, if_neg (by simp [blank]), if_neg (by simpa using quote), if_neg, if_neg, other]
  · cases h : Token.Kind.ofChar? c with
    | none => rfl
    | some kind => exact (start (.operator ((mem_operators_iff c [] kind).mpr (.inl ⟨rfl, h⟩)))).elim
  · exact fun hl => start (isLexeme_ofWord ⟨hl, List.forall_mem_nil _⟩)
  · exact fun hd => start (.whole ⟨List.cons_ne_nil _ _, by simpa using hd⟩)

/-- Two pieces that begin one text are the same if the first of them is a lexeme. -/
theorem Begins.eq_of_lexeme {kind : Token.Kind} {text rest : List Char} {q : Piece} {s : List Char}
    (h : IsLexeme kind text) (apart : ¬ OpensComment (text ++ rest))
    (longest : ∀ kind' text', IsLexeme kind' text' → text' <+: text ++ rest →
      text'.length ≤ text.length) (hq : q.Begins s) (he : q.text ++ s = text ++ rest) :
    q = ⟨.lexeme kind, text⟩ := by
  have within : text <+: q.text ++ s := he ▸ List.prefix_append text rest
  obtain ⟨c, cs, rfl, _⟩ := h.cases_head
  cases hq with
  | blank hb =>
    cases he
    rw [← isBlank_iff, h.not_isBlank] at hb
    cases hb
  | lineComment _ _ => exact (apart ⟨_, .inl he.symm⟩).elim
  | blockComment _ => exact (apart ⟨_, .inr he.symm⟩).elim
  | unterminatedComment _ _ => exact (apart ⟨_, .inr he.symm⟩).elim
  | unexpected _ _ none => exact (none kind _ h within).elim
  | @unterminatedString text' ht last =>
    subst last
    obtain ⟨rfl, tail⟩ := List.cons_prefix_cons.mp within
    obtain ⟨_, inside, rfl, _⟩ := h.of_quote
    rw [List.append_eq, List.append_nil] at tail
    exact (ht (tail.subset (by simp))).elim
  | @lexeme kind' text' h' apart' longest' =>
    have shorter := longest kind' text' h' (he ▸ List.prefix_append text' s)
    have longer := longest' kind _ h within
    obtain ⟨rfl, -⟩ := List.append_inj he (Nat.le_antisymm shorter longer)
    rw [h.kind_unique h']

/-- No other piece could be cut off. -/
theorem Begins.next_eq {p : Piece} {rest : List Char} (h : p.Begins rest)
    (he : p.text ++ rest = c :: cs) : next c cs = (p, rest) := by
  cases h with
  | @blank b h =>
    obtain ⟨rfl, rfl⟩ := List.cons.inj he
    have slash : b ≠ '/' := by
      rintro rfl
      revert h
      decide
    rw [next_of_ne slash, if_pos (isBlank_iff.mpr h)]
    rfl
  | lineComment h line =>
    obtain ⟨rfl, rfl⟩ := List.cons.inj he
    exact lineComment_of_line h line
  | @blockComment text first =>
    have cut := cutAtClose?_of_first first rest
    have he : '/' :: '*' :: (text ++ '*' :: '/' :: rest) = c :: cs := by simpa using he
    obtain ⟨rfl, rfl⟩ := List.cons.inj he
    rw [next_slash_star, Piece.blockComment, cut]
    rfl
  | unexpected blank quote none =>
    obtain ⟨rfl, rfl⟩ := List.cons.inj he
    refine next_of_none ?_ quote none
    rw [← isBlank_iff] at blank
    simpa using blank
  | unterminatedString h last =>
    subst last
    rw [List.append_nil] at he
    obtain ⟨rfl, rfl⟩ := List.cons.inj he
    exact string_of_open h
  | @unterminatedComment text h last =>
    subst last
    rw [List.append_nil] at he
    obtain ⟨rfl, rfl⟩ := List.cons.inj he
    have cut := cutAtClose?_spec text
    rw [next_slash_star, Piece.blockComment]
    cases hc : cutAtClose? text with
    | none => rfl
    | some r =>
      obtain ⟨inside, rest⟩ := r
      rw [hc] at cut
      obtain ⟨front, rfl, rfl, _⟩ := cut
      exact absurd ⟨front, rest, by simp⟩ h
  | @lexeme kind text h apart longest =>
    obtain ⟨whole, begins⟩ := next_cuts c cs
    have same := Begins.eq_of_lexeme h apart longest begins (whole.trans he.symm)
    refine Prod.ext same ?_
    rw [same, ← he] at whole
    exact List.append_cancel_left whole

end Piece

theorem partition_pieces (cs : List Char) : Partition cs (pieces cs) := by
  induction hn : cs.length using Nat.strongRecOn generalizing cs with
  | ind n ih =>
    cases cs with
    | nil => exact .nil
    | cons c cs =>
      obtain ⟨whole, begins⟩ := Piece.next_cuts c cs
      have shorter : (Piece.next c cs).2.length < n := by
        rw [← hn]
        exact Nat.lt_succ_of_le (Piece.length_next_le c cs)
      have rest := ih _ shorter _ rfl
      have all := Partition.cons begins rest
      rw [whole] at all
      rwa [pieces_cons]

theorem Partition.eq_pieces {cs : List Char} {ps : List Piece} (h : Partition cs ps) :
    ps = pieces cs := by
  induction h with
  | nil => rfl
  | @cons p rest ps begins _ ih =>
    obtain ⟨c, cs, he⟩ := List.exists_cons_of_ne_nil
      (List.append_ne_nil_of_left_ne_nil begins.text_ne_nil rest)
    rw [he, pieces_cons, begins.next_eq he, ← ih]

/-- A point without a digit behind it is no part of a number, and `/*/` is still open. -/
example : (pieces "7./*/**/".toList).map Piece.kind =
    [.lexeme .number, .lexeme .dot, .comment] := by decide

/-! Tokens and errors. -/

/-- The token is that of the piece. A string stands for what is between its quotes. -/
structure Piece.Spells (p : Piece) (t : Token) : Prop where
  kind : p.kind = .lexeme t.kind
  text : t.lexeme = String.ofList p.text
  string : t.kind = .string → ∃ inside, p.text = '"' :: inside ++ ['"'] ∧
    t.literal = some (.string (String.ofList inside))

/-- The fault is that of the piece. -/
inductive Piece.Faults : Piece → Fault → Prop
  | unexpected (c : Char) : Faults ⟨.unexpected, [c]⟩ (.unexpectedCharacter c)
  | unterminatedString (text : List Char) : Faults ⟨.unterminatedString, text⟩ .unterminatedString
  | unterminatedComment (text : List Char) :
      Faults ⟨.unterminatedComment, text⟩ .unterminatedComment

def Piece.Kind.isLexeme : Piece.Kind → Bool
  | .lexeme _ => true
  | _ => false

def Piece.Kind.isFaulty : Piece.Kind → Bool
  | .unexpected | .unterminatedString | .unterminatedComment => true
  | _ => false

theorem IsLexeme.spells {kind : Token.Kind} {text : List Char} (h : IsLexeme kind text) (line : Nat) :
    Piece.Spells ⟨.lexeme kind, text⟩ ⟨kind, String.ofList text, line, Piece.literal? kind text⟩ := by
  refine ⟨rfl, rfl, fun (hk : kind = .string) => ?_⟩
  subst hk
  obtain ⟨inside, rfl⟩ := h.exists_inside
  exact ⟨inside, rfl, by simp [Piece.literal?]⟩

theorem spells_lexemesFrom {cs : List Char} {ps : List Piece} (h : Partition cs ps) (line : Nat) :
    List.Forall₂ Piece.Spells (ps.filter (·.kind.isLexeme)) (lexemesFrom line ps) := by
  induction h generalizing line with
  | nil => exact .nil
  | @cons p rest ps begins _ ih =>
    have ih := ih (line + p.newlines)
    cases begins with
    | lexeme hl => exact .cons (hl.spells line) ih
    | _ => exact ih

theorem faults_errorsFrom {cs : List Char} {ps : List Piece} (h : Partition cs ps) (line : Nat) :
    List.Forall₂ Piece.Faults (ps.filter (·.kind.isFaulty)) ((errorsFrom line ps).map (·.fault)) := by
  induction h generalizing line with
  | nil => exact .nil
  | @cons p rest ps begins _ ih =>
    have ih := ih (line + p.newlines)
    cases begins with
    | unexpected => exact .cons (.unexpected _) ih
    | unterminatedString => exact .cons (.unterminatedString _) ih
    | unterminatedComment => exact .cons (.unterminatedComment _) ih
    | _ => exact ih

end Source

/-- Scanning cuts a text into the pieces of its only partition. The tokens are the lexemes of it, in
order, with one end mark behind them, and the errors are its faulty pieces, in order. -/
theorem scan_partition (source : String) : ∃ ps lexemes line,
    (∀ qs, Source.Partition source.toList qs ↔ qs = ps) ∧
    (ps.map Source.Piece.text).flatten = source.toList ∧
    (scan source).tokens = lexemes ++ [Token.eof line] ∧ (∀ t ∈ lexemes, t.kind ≠ .eof) ∧
    List.Forall₂ Source.Piece.Spells (ps.filter (·.kind.isLexeme)) lexemes ∧
    List.Forall₂ Source.Piece.Faults (ps.filter (·.kind.isFaulty))
      ((scan source).errors.map (·.fault)) := by
  have h := Source.partition_pieces source.toList
  refine ⟨_, _, _, fun qs => ⟨fun hq => hq.eq_pieces, fun he => he ▸ h⟩, h.flatten_text,
    tokens_scan source, fun t ht => (genuine_lexemes source t ht).1, Source.spells_lexemesFrom h 1, ?_⟩
  exact Source.faults_errorsFrom h 1

end Lox
