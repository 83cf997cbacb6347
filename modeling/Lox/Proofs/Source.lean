import Lox.Proofs.Parser.Shift
import Lox.Proofs.Parser.Tidy
import Lox.Source
import Mathlib.Data.List.TakeDrop

/-!
Cutting texts. A text that ends in no open string or comment is cut alone as it is in front of a new
line, so the tokens of two texts on lines of their own are those of the first and then those of the
second one, further down.
-/

namespace Lox

namespace Source

/-- Whether the piece ends by itself, and not with the text only. -/
def Piece.Kind.isTerminated : Piece.Kind → Bool
  | .unterminatedString | .unterminatedComment => false
  | _ => true

def Piece.isLineComment (p : Piece) : Bool :=
  match p.kind, p.text with
  | .comment, '/' :: '/' :: _ => true
  | _, _ => false

theorem isLetter_iff {c : Char} : isLetter c ↔
    (65 ≤ c.toNat ∧ c.toNat ≤ 90 ∨ 97 ≤ c.toNat ∧ c.toNat ≤ 122) ∨ c = '_' := by
  have letter : isLetter c = (decide (c.val ≥ 65 ∧ c.val ≤ 90) ||
      (decide (c.val ≥ 97) && decide (c.val ≤ 122)) || c == '_') := rfl
  simp [letter, UInt32.le_iff_toNat_le]

/-- Whether the character is no part of a piece in front of it, unless that is a comment. -/
def separates (c : Char) : Bool :=
  !isWordChar c && c != '=' && c != '/' && c != '*' && c != '.'

theorem separates_iff {c : Char} : separates c ↔
    isWordChar c = false ∧ c ≠ '=' ∧ c ≠ '/' ∧ c ≠ '*' ∧ c ≠ '.' := by
  simp only [separates, Bool.and_eq_true, Bool.not_eq_true', bne_iff_ne, and_assoc]

theorem isDigit_of_separates {c : Char} (h : separates c) : c.isDigit = false :=
  (Bool.or_eq_false_iff.mp (separates_iff.mp h).1).2

section Span

variable {α : Type} {p : α → Bool}

/-- What is taken off a text stops where it did before the text went on, unless it took all of it. -/
theorem span_append {xs : List α} {y : α} {rest : List α} (h : (xs.span p).2 = y :: rest)
    (ys : List α) : (xs ++ ys).span p = ((xs.span p).1, y :: rest ++ ys) := by
  simp only [List.span_eq_takeWhile_dropWhile] at h ⊢
  induction xs with
  | nil => cases h
  | cons x xs ih =>
    cases hx : p x with
    | true =>
      rw [List.dropWhile_cons_of_pos hx] at h
      have ih := ih h
      simp only [Prod.mk.injEq] at ih
      simp only [List.cons_append, List.takeWhile_cons_of_pos hx, List.dropWhile_cons_of_pos hx,
        ih.1, ih.2]
    | false =>
      have hx : ¬ p x = true := by simp [hx]
      rw [List.dropWhile_cons_of_neg hx] at h
      cases h
      simp only [List.cons_append, List.takeWhile_cons_of_neg hx, List.dropWhile_cons_of_neg hx]

/-- It also stops at what cannot be taken. -/
theorem span_append_cons {y : α} (hy : p y = false) (xs ys : List α) :
    (xs ++ y :: ys).span p = ((xs.span p).1, (xs.span p).2 ++ y :: ys) := by
  have hy : ¬ p y = true := by simp [hy]
  simp only [List.span_eq_takeWhile_dropWhile]
  induction xs with
  | nil => simp only [List.nil_append, List.takeWhile_cons_of_neg hy,
      List.dropWhile_cons_of_neg hy, List.takeWhile_nil, List.dropWhile_nil]
  | cons x xs ih =>
    simp only [Prod.mk.injEq] at ih
    cases hx : p x with
    | true =>
      simp only [List.cons_append, List.takeWhile_cons_of_pos hx, List.dropWhile_cons_of_pos hx,
        ih.1, ih.2]
    | false =>
      have hx : ¬ p x = true := by simp [hx]
      simp only [List.cons_append, List.takeWhile_cons_of_neg hx, List.dropWhile_cons_of_neg hx]

end Span

theorem cutAtClose?_cons {c : Char} {cs : List Char} (h : ∀ cs', c = '*' → cs ≠ '/' :: cs') :
    cutAtClose? (c :: cs) = (cutAtClose? cs).map fun (inside, rest) => (c :: inside, rest) := by
  rw [cutAtClose?]
  exact h

theorem cutAtClose?_append {xs inside rest : List Char} (h : cutAtClose? xs = some (inside, rest))
    (ys : List Char) : cutAtClose? (xs ++ ys) = some (inside, rest ++ ys) := by
  fun_induction cutAtClose? xs generalizing inside with
  | case1 cs =>
    cases h
    rfl
  | case2 => cases h
  | case3 c cs hn ih =>
    obtain ⟨⟨inside', rest'⟩, h', he⟩ := Option.map_eq_some_iff.mp h
    cases he
    rw [List.cons_append, cutAtClose?_cons, ih h']
    · rfl
    · intro cs' hc he
      obtain _ | ⟨d, cs⟩ := cs
      · cases h'
      · cases he
        exact hn cs hc rfl

namespace Piece

variable {c : Char} {cs ds : List Char}

theorem string_append (h : (string cs).1.kind.isTerminated) :
    string (cs ++ ds) = ((string cs).1, (string cs).2 ++ ds) := by
  rcases hs : cs.span (· != '"') with ⟨inside, _ | ⟨q, rest⟩⟩
  · simp only [string, hs] at h
    cases h
  · have hq : (cs.span (· != '"')).2 = q :: rest := by rw [hs]
    have hs' := span_append hq ds
    simp only [string, hs, hs', List.cons_append]

theorem number_point {whole rest : List Char} {d : Char}
    (hs : cs.span Char.isDigit = (whole, '.' :: d :: rest)) :
    number cs = if d.isDigit then
      (⟨.lexeme .number, whole ++ '.' :: ((d :: rest).span Char.isDigit).1⟩,
        ((d :: rest).span Char.isDigit).2)
      else (⟨.lexeme .number, whole⟩, '.' :: d :: rest) := by
  simp only [number, hs]

theorem number_whole {whole rest : List Char} (hs : cs.span Char.isDigit = (whole, rest))
    (h : ∀ d zs, rest ≠ '.' :: d :: zs) : number cs = (⟨.lexeme .number, whole⟩, rest) := by
  simp only [number, hs]

theorem blockComment_append (h : (blockComment cs).1.kind.isTerminated) :
    blockComment (cs ++ ds) = ((blockComment cs).1, (blockComment cs).2 ++ ds) := by
  rcases hs : cutAtClose? cs with _ | ⟨inside, rest⟩
  · simp only [blockComment, hs] at h
    cases h
  · simp only [blockComment, hs, cutAtClose?_append hs ds]

/-- The pieces of no special start: operators, and what no piece can start with. -/
def other (c : Char) (cs : List Char) : Piece × List Char :=
  match Token.Kind.ofChar? c with
  | some kind => operator kind c cs
  | none => (⟨.unexpected, [c]⟩, cs)

theorem operator_of_ne {x : Char} (hx : x ≠ '=') (kind : Token.Kind) (c : Char) (xs : List Char) :
    operator kind c (x :: xs) = (⟨.lexeme kind, [c]⟩, x :: xs) := by
  unfold operator
  split
  · rename_i h
    exact absurd (List.cons.inj h).1 hx
  · rfl

theorem next_slash_slash (cs : List Char) :
    next '/' ('/' :: cs) = lineComment ('/' :: '/' :: cs) := rfl

theorem isLineComment_lineComment (cs : List Char) :
    (lineComment ('/' :: '/' :: cs)).1.isLineComment := by
  rw [lineComment, List.span_eq_takeWhile_dropWhile, List.takeWhile_cons_of_pos (by decide),
    List.takeWhile_cons_of_pos (by decide)]
  rfl

theorem next_slash (h₁ : ∀ ds, cs ≠ '/' :: ds) (h₂ : ∀ ds, cs ≠ '*' :: ds) :
    next '/' cs = other '/' cs := by
  have hd : isBlank '/' = false ∧ ('/' == '"') = false ∧ '/'.isDigit = false ∧
    isLetter '/' = false := by decide
  simp only [next, hd, Bool.false_eq_true, if_false]
  split
  · exact absurd rfl (h₁ _)
  · exact absurd rfl (h₂ _)
  · rfl

theorem next_of_ne (hc : c ≠ '/') : next c cs =
    if isBlank c then (⟨.blank, [c]⟩, cs)
    else if c == '"' then string cs
    else if c.isDigit then number (c :: cs)
    else if isLetter c then word (c :: cs)
    else other c cs := by
  unfold next
  split
  · rfl
  · split
    · rfl
    · split
      · rfl
      · split
        · rfl
        · split
          · exact absurd rfl hc
          · exact absurd rfl hc
          · rfl

section Separator

variable {y : Char} (hy : separates y)

include hy

theorem number_append : number (cs ++ y :: ds) = ((number cs).1, (number cs).2 ++ y :: ds) := by
  have hd := isDigit_of_separates hy
  have digits (xs : List Char) := span_append_cons hd xs ds
  rcases hs : cs.span Char.isDigit with ⟨whole, rest⟩
  have hs' : (cs ++ y :: ds).span Char.isDigit = (whole, rest ++ y :: ds) := by
    rw [digits, hs]
  by_cases h : ∃ d zs, rest = '.' :: d :: zs
  · obtain ⟨d, zs, rfl⟩ := h
    have hz := digits (d :: zs)
    rw [List.cons_append] at hz
    rw [List.cons_append, List.cons_append] at hs'
    rw [number_point hs, number_point hs', hz]
    cases d.isDigit <;> rfl
  · have h : ∀ d zs, rest ≠ '.' :: d :: zs := fun d zs he => h ⟨d, zs, he⟩
    rw [number_whole hs h]
    by_cases hp : rest = ['.']
    · subst hp
      rw [List.singleton_append] at hs'
      rw [number_point hs', hd]
      rfl
    · apply number_whole hs'
      intro d zs he
      obtain _ | ⟨x, _ | ⟨z, rest⟩⟩ := rest
      · exact (separates_iff.mp hy).2.2.2.2 (List.cons.inj he).1
      · cases he
        exact hp rfl
      · cases he
        exact h _ _ rfl

theorem word_append : word (cs ++ y :: ds) = ((word cs).1, (word cs).2 ++ y :: ds) := by
  simp only [word, span_append_cons (separates_iff.mp hy).1]

theorem operator_append (kind : Token.Kind) : operator kind c (cs ++ y :: ds) =
    ((operator kind c cs).1, (operator kind c cs).2 ++ y :: ds) := by
  obtain _ | ⟨d, cs⟩ := cs
  · have alone : operator kind c [] = (⟨.lexeme kind, [c]⟩, []) := by
      unfold operator
      cases kind.withEqual? <;> rfl
    rw [List.nil_append, operator_of_ne (separates_iff.mp hy).2.1, alone]
    rfl
  · by_cases hd : d = '='
    · subst hd
      unfold operator
      cases kind.withEqual? <;> rfl
    · rw [List.cons_append, operator_of_ne hd, operator_of_ne hd]
      rfl

theorem other_append : other c (cs ++ y :: ds) = ((other c cs).1, (other c cs).2 ++ y :: ds) := by
  unfold other
  cases Token.Kind.ofChar? c with
  | none => rfl
  | some kind => exact operator_append hy kind

omit hy in
/-- A line comment ends with the line. -/
theorem lineComment_append (h : y = '\n' ∨ (lineComment cs).2 ≠ []) :
    lineComment (cs ++ y :: ds) = ((lineComment cs).1, (lineComment cs).2 ++ y :: ds) := by
  obtain rfl | h := h
  · simp only [lineComment, span_append_cons (p := (· != '\n')) (y := '\n') rfl]
  · obtain ⟨z, rest, hz⟩ := List.exists_cons_of_ne_nil h
    have hs := span_append (p := (· != '\n')) hz (y :: ds)
    unfold lineComment at hz ⊢
    rw [hs, hz]

theorem next_append (h : (next c cs).1.kind.isTerminated)
    (hl : y = '\n' ∨ (next c cs).1.isLineComment = false ∨ (next c cs).2 ≠ []) :
    next c (cs ++ y :: ds) = ((next c cs).1, (next c cs).2 ++ y :: ds) := by
  by_cases hc : c = '/'
  · subst hc
    obtain ⟨_, _, hslash, hstar, _⟩ := separates_iff.mp hy
    rcases cs with _ | ⟨d, cs⟩
    · have h₁ (ys : List Char) : y :: ds ≠ '/' :: ys := fun he => hslash (List.cons.inj he).1
      have h₂ (ys : List Char) : y :: ds ≠ '*' :: ys := fun he => hstar (List.cons.inj he).1
      have h₃ : next '/' [] = other '/' [] := next_slash nofun nofun
      have h₄ : other '/' ([] ++ y :: ds) = _ := other_append hy
      rw [List.nil_append, next_slash h₁ h₂, h₃]
      exact h₄
    · by_cases h₁ : d = '/'
      · subst h₁
        have hl : y = '\n' ∨ (lineComment ('/' :: '/' :: cs)).2 ≠ [] := by
          obtain hl | hl | hl := hl
          · exact .inl hl
          · rw [next_slash_slash, isLineComment_lineComment] at hl
            cases hl
          · exact .inr hl
        have h : lineComment ('/' :: '/' :: cs ++ y :: ds) = _ := lineComment_append hl
        exact h
      · by_cases h₂ : d = '*'
        · subst h₂
          exact blockComment_append h
        · have h₁' (xs ys : List Char) : d :: xs ≠ '/' :: ys := fun he => h₁ (List.cons.inj he).1
          have h₂' (xs ys : List Char) : d :: xs ≠ '*' :: ys := fun he => h₂ (List.cons.inj he).1
          rw [List.cons_append, next_slash (h₁' _) (h₂' _), next_slash (h₁' _) (h₂' _)]
          have h : other '/' (d :: cs ++ y :: ds) = _ := other_append hy
          exact h
  · rw [next_of_ne hc] at h
    rw [next_of_ne hc, next_of_ne hc]
    split
    · rfl
    · split
      · rename_i hb hq
        rw [if_neg hb, if_pos hq] at h
        exact string_append h
      · split
        · have h : number (c :: cs ++ y :: ds) = _ := number_append hy
          exact h
        · split
          · have h : word (c :: cs ++ y :: ds) = _ := word_append hy
            exact h
          · exact other_append hy

end Separator

/-! Every piece takes at least a character. -/

theorem length_span_le (p : Char → Bool) (cs : List Char) : (cs.span p).2.length ≤ cs.length := by
  rw [List.span_eq_takeWhile_dropWhile]
  exact (List.dropWhile_suffix p).length_le

theorem length_span_cons_le {p : Char → Bool} (hc : p c) (cs : List Char) :
    ((c :: cs).span p).2.length ≤ cs.length := by
  rw [List.span_eq_takeWhile_dropWhile, List.dropWhile_cons_of_pos hc]
  exact (List.dropWhile_suffix p).length_le

theorem length_cutAtClose?_le {inside rest : List Char} (h : cutAtClose? cs = some (inside, rest)) :
    rest.length ≤ cs.length := by
  fun_induction cutAtClose? cs generalizing inside with
  | case1 cs =>
    cases h
    exact Nat.le_add_right _ 2
  | case2 => cases h
  | case3 c cs _ ih =>
    obtain ⟨⟨inside', rest'⟩, h', he⟩ := Option.map_eq_some_iff.mp h
    cases he
    exact Nat.le_succ_of_le (ih h')

theorem length_string_le (cs : List Char) : (string cs).2.length ≤ cs.length := by
  have h := length_span_le (· != '"') cs
  rcases hs : cs.span (· != '"') with ⟨inside, _ | ⟨q, rest⟩⟩
  · simp only [string, hs]
    exact Nat.zero_le _
  · rw [hs] at h
    simp only [string, hs]
    exact Nat.le_of_succ_le h

theorem length_number_le (hc : c.isDigit) (cs : List Char) :
    (number (c :: cs)).2.length ≤ cs.length := by
  have h := length_span_cons_le (p := Char.isDigit) hc cs
  rcases hs : (c :: cs).span Char.isDigit with ⟨whole, rest⟩
  rw [hs] at h
  by_cases hp : ∃ d zs, rest = '.' :: d :: zs
  · obtain ⟨d, zs, rfl⟩ := hp
    rw [number_point hs]
    split
    · have := length_span_le Char.isDigit (d :: zs)
      exact Nat.le_trans this (Nat.le_of_succ_le h)
    · exact h
  · rw [number_whole hs fun d zs he => hp ⟨d, zs, he⟩]
    exact h

theorem length_blockComment_le (cs : List Char) : (blockComment cs).2.length ≤ cs.length := by
  rcases hs : cutAtClose? cs with _ | ⟨inside, rest⟩
  · simp only [blockComment, hs]
    exact Nat.zero_le _
  · simp only [blockComment, hs]
    exact length_cutAtClose?_le hs

theorem length_other_le (c : Char) (cs : List Char) : (other c cs).2.length ≤ cs.length := by
  unfold other
  split
  · unfold operator
    split
    · exact Nat.le_succ _
    · exact Nat.le_refl _
  · exact Nat.le_refl _

theorem length_next_le (c : Char) (cs : List Char) : (next c cs).2.length ≤ cs.length := by
  by_cases hc : c = '/'
  · subst hc
    by_cases h₁ : ∃ ds, cs = '/' :: ds
    · obtain ⟨ds, rfl⟩ := h₁
      simp only [next_slash_slash, lineComment]
      exact length_span_cons_le (p := (· != '\n')) (by decide) _
    · by_cases h₂ : ∃ ds, cs = '*' :: ds
      · obtain ⟨ds, rfl⟩ := h₂
        exact Nat.le_succ_of_le (length_blockComment_le ds)
      · rw [next_slash (fun ds he => h₁ ⟨ds, he⟩) fun ds he => h₂ ⟨ds, he⟩]
        exact length_other_le _ _
  · rw [next_of_ne hc]
    split
    · exact Nat.le_refl _
    · split
      · exact length_string_le cs
      · split
        · exact length_number_le ‹_› cs
        · split
          · rename_i hl
            apply length_span_cons_le (p := isWordChar)
            rw [isWordChar, hl, Bool.true_or]
          · exact length_other_le c cs

end Piece

theorem piecesWithin_eq {n m : Nat} {cs : List Char} (hn : cs.length ≤ n) (hm : cs.length ≤ m) :
    piecesWithin n cs = piecesWithin m cs := by
  induction n generalizing m cs with
  | zero =>
    rw [List.length_eq_zero_iff.mp (Nat.le_zero.mp hn)]
    cases m <;> rfl
  | succ n ih =>
    obtain _ | ⟨c, cs⟩ := cs
    · cases m <;> rfl
    · obtain _ | m := m
      · cases hm
      · have hl := Piece.length_next_le c cs
        have h := ih (Nat.le_trans hl (Nat.le_of_succ_le_succ hn))
          (Nat.le_trans hl (Nat.le_of_succ_le_succ hm))
        simp only [piecesWithin, h]

theorem pieces_cons (c : Char) (cs : List Char) :
    pieces (c :: cs) = (Piece.next c cs).1 :: pieces (Piece.next c cs).2 := by
  have h : piecesWithin cs.length (Piece.next c cs).2 = pieces (Piece.next c cs).2 :=
    piecesWithin_eq (Piece.length_next_le c cs) (Nat.le_refl _)
  rw [← h]
  rfl

/-- Whether the text ends within a line comment. -/
def endsInLineComment (cs : List Char) : Bool := (pieces cs).getLast?.any Piece.isLineComment

theorem getLast?_pieces {c : Char} {cs : List Char} (h : (Piece.next c cs).2 ≠ []) :
    (pieces (c :: cs)).getLast? = (pieces (Piece.next c cs).2).getLast? := by
  obtain ⟨d, ds, hd⟩ := List.exists_cons_of_ne_nil h
  rw [pieces_cons, hd, pieces_cons, List.getLast?_cons_cons]

/-- What no piece goes on with is cut by itself, and so is a text on lines of its own. -/
theorem pieces_append {y : Char} (hy : separates y) {cs : List Char}
    (h : ∀ p ∈ pieces cs, p.kind.isTerminated) (hl : y = '\n' ∨ endsInLineComment cs = false)
    (ds : List Char) : pieces (cs ++ y :: ds) = pieces cs ++ pieces (y :: ds) := by
  induction hn : cs.length using Nat.strongRecOn generalizing cs with
  | ind n ih =>
    obtain _ | ⟨c, cs⟩ := cs
    · rfl
    · have hlength := Piece.length_next_le c cs
      by_cases hr : (Piece.next c cs).2 = []
      · have single : pieces (c :: cs) = [(Piece.next c cs).1] := by
          rw [pieces_cons, hr]
          rfl
        have hl := hl.imp_right fun hl => by simpa [endsInLineComment, single] using hl
        rw [single] at h ⊢
        rw [List.cons_append, pieces_cons, Piece.next_append hy (h _ List.mem_cons_self)
          (hl.imp_right .inl), hr]
        rfl
      · have hl := hl.imp_right fun hl => by
          rwa [endsInLineComment, getLast?_pieces hr] at hl
        rw [pieces_cons] at h ⊢
        rw [List.cons_append, pieces_cons,
          Piece.next_append hy (h _ List.mem_cons_self) (.inr (.inr hr)), List.cons_append]
        congr 1
        apply ih _ _ _ hl rfl
        · rw [← hn]
          exact Nat.lt_succ_of_le hlength
        · exact fun p hp => h p (List.mem_cons_of_mem _ hp)

/-! Tokens. -/

/-- What is never the kind of a lexeme, or not of one with that text. -/
def Piece.Proper (p : Piece) : Prop :=
  ∀ kind, p.kind = .lexeme kind →
    kind ≠ .eof ∧ (kind.findsVariable → Token.Kind.ofWord (String.ofList p.text) = kind)

namespace Piece

theorem proper_of_kind {p : Piece} {kind : Token.Kind} (h : p.kind = .lexeme kind)
    (he : kind ≠ .eof) (hf : kind.findsVariable = false) : p.Proper := by
  intro k hk
  rw [h] at hk
  cases hk
  exact ⟨he, fun h => by rw [hf] at h; cases h⟩

theorem ofWord_ne_eof (s : String) : Token.Kind.ofWord s ≠ .eof := by
  unfold Token.Kind.ofWord
  cases h : Token.Kind.keywords.lookup s with
  | none => decide
  | some kind =>
    have hm : ∀ entry ∈ Token.Kind.keywords, entry.2 ≠ .eof := by decide
    obtain ⟨before, after, he, _⟩ := List.lookup_eq_some_iff.mp h
    apply hm (s, kind)
    rw [he]
    exact List.mem_append_right before List.mem_cons_self

theorem ofChar?_proper {c : Char} {kind : Token.Kind} (h : Token.Kind.ofChar? c = some kind) :
    kind ≠ .eof ∧ kind.findsVariable = false := by
  unfold Token.Kind.ofChar? at h
  split at h <;> cases h <;> decide

theorem withEqual?_proper {kind longer : Token.Kind} (h : kind.withEqual? = some longer) :
    longer ≠ .eof ∧ longer.findsVariable = false := by
  unfold Token.Kind.withEqual? at h
  split at h <;> cases h <;> decide

theorem proper_other (c : Char) (cs : List Char) : (other c cs).1.Proper := by
  unfold other
  split
  · rename_i kind hk
    unfold operator
    split
    · rename_i longer rest hl
      exact proper_of_kind rfl (withEqual?_proper hl).1 (withEqual?_proper hl).2
    · exact proper_of_kind rfl (ofChar?_proper hk).1 (ofChar?_proper hk).2
  · exact nofun

theorem proper_string (cs : List Char) : (string cs).1.Proper := by
  unfold string
  split
  · exact proper_of_kind rfl (by decide) (by decide)
  · exact nofun

theorem proper_number (cs : List Char) : (number cs).1.Proper := by
  rcases hs : cs.span Char.isDigit with ⟨whole, rest⟩
  by_cases hp : ∃ d zs, rest = '.' :: d :: zs
  · obtain ⟨d, zs, rfl⟩ := hp
    rw [number_point hs]
    split <;> exact proper_of_kind rfl (by decide) (by decide)
  · rw [number_whole hs fun d zs he => hp ⟨d, zs, he⟩]
    exact proper_of_kind rfl (by decide) (by decide)

theorem proper_word (cs : List Char) : (word cs).1.Proper := by
  intro kind hk
  cases hk
  exact ⟨ofWord_ne_eof _, fun _ => rfl⟩

theorem proper_blockComment (cs : List Char) : (blockComment cs).1.Proper := by
  unfold blockComment
  split <;> exact nofun

theorem proper_next (c : Char) (cs : List Char) : (next c cs).1.Proper := by
  by_cases hc : c = '/'
  · subst hc
    by_cases h₁ : ∃ ds, cs = '/' :: ds
    · obtain ⟨ds, rfl⟩ := h₁
      exact nofun
    · by_cases h₂ : ∃ ds, cs = '*' :: ds
      · obtain ⟨ds, rfl⟩ := h₂
        exact proper_blockComment ds
      · rw [next_slash (fun ds he => h₁ ⟨ds, he⟩) fun ds he => h₂ ⟨ds, he⟩]
        exact proper_other _ _
  · rw [next_of_ne hc]
    split
    · exact nofun
    · split
      · exact proper_string cs
      · split
        · exact proper_number _
        · split
          · exact proper_word _
          · exact proper_other c cs

end Piece

theorem proper_pieces (cs : List Char) : ∀ p ∈ pieces cs, p.Proper := by
  induction hn : cs.length using Nat.strongRecOn generalizing cs with
  | ind n ih =>
    obtain _ | ⟨c, cs⟩ := cs
    · exact fun p hp => nomatch hp
    · rw [pieces_cons]
      intro p hp
      cases hp with
      | head => exact Piece.proper_next c cs
      | tail _ hp =>
        apply ih _ _ _ rfl p hp
        rw [← hn]
        exact Nat.lt_succ_of_le (Piece.length_next_le c cs)

/-- The tokens of pieces without the end mark. -/
def lexemesFrom (line : Nat) : List Piece → List Token
  | [] => []
  | p :: ps => (p.token? line).toList ++ lexemesFrom (line + p.newlines) ps

def newlinesIn : List Piece → Nat
  | [] => 0
  | p :: ps => p.newlines + newlinesIn ps

theorem newlinesIn_append (ps qs : List Piece) :
    newlinesIn (ps ++ qs) = newlinesIn ps + newlinesIn qs := by
  induction ps with
  | nil => exact (Nat.zero_add _).symm
  | cons p ps ih => rw [List.cons_append, newlinesIn, newlinesIn, ih, Nat.add_assoc]

theorem tokensFrom_eq (line : Nat) (ps : List Piece) :
    tokensFrom line ps = lexemesFrom line ps ++ [Token.eof (line + newlinesIn ps)] := by
  induction ps generalizing line with
  | nil => rfl
  | cons p ps ih =>
    rw [tokensFrom, lexemesFrom, newlinesIn, ih, List.append_assoc, Nat.add_assoc]

theorem lexemesFrom_append (line : Nat) (ps qs : List Piece) :
    lexemesFrom line (ps ++ qs) = lexemesFrom line ps ++ lexemesFrom (line + newlinesIn ps) qs := by
  induction ps generalizing line with
  | nil => rfl
  | cons p ps ih =>
    rw [List.cons_append, lexemesFrom, lexemesFrom, newlinesIn, ih, List.append_assoc,
      Nat.add_assoc]

theorem errorsFrom_append (line : Nat) (ps qs : List Piece) :
    errorsFrom line (ps ++ qs) = errorsFrom line ps ++ errorsFrom (line + newlinesIn ps) qs := by
  induction ps generalizing line with
  | nil => rfl
  | cons p ps ih =>
    rw [List.cons_append, errorsFrom, errorsFrom, newlinesIn, ih, List.append_assoc, Nat.add_assoc]

theorem Piece.token?_add (p : Piece) (line n : Nat) :
    p.token? (line + n) = (p.token? line).map (Token.onLine (· + n)) := by
  unfold Piece.token?
  split <;> rfl

theorem lexemesFrom_add (line n : Nat) (ps : List Piece) :
    lexemesFrom (line + n) ps = (lexemesFrom line ps).map (Token.onLine (· + n)) := by
  induction ps generalizing line with
  | nil => rfl
  | cons p ps ih =>
    rw [lexemesFrom, lexemesFrom, Piece.token?_add, List.map_append, ← ih, Nat.add_right_comm]
    cases p.token? line <;> rfl

/-- The same error further down. -/
def Error.onLine (g : Nat → Nat) (e : Error) : Error := { e with line := g e.line }

theorem Piece.error?_add (p : Piece) (line n : Nat) :
    p.error? (line + n) = (p.error? line).map (Error.onLine (· + n)) := by
  simp only [Piece.error?, Nat.add_right_comm line n]
  split <;> rfl

theorem errorsFrom_add (line n : Nat) (ps : List Piece) :
    errorsFrom (line + n) ps = (errorsFrom line ps).map (Error.onLine (· + n)) := by
  induction ps generalizing line with
  | nil => rfl
  | cons p ps ih =>
    rw [errorsFrom, errorsFrom, Piece.error?_add, List.map_append, ← ih, Nat.add_right_comm]
    cases p.error? line <;> rfl

def Fault.leavesOpen : Fault → Bool
  | .unterminatedString | .unterminatedComment => true
  | .unexpectedCharacter _ => false

theorem isTerminated_of_errorsFrom {line : Nat} {ps : List Piece}
    (h : ∀ e ∈ errorsFrom line ps, e.fault.leavesOpen = false) :
    ∀ p ∈ ps, p.kind.isTerminated := by
  induction ps generalizing line with
  | nil => exact fun p hp => nomatch hp
  | cons p ps ih =>
    rw [errorsFrom, List.forall_mem_append] at h
    intro q hq
    cases hq with
    | head =>
      obtain ⟨kind, text⟩ := p
      cases kind with
      | unterminatedString | unterminatedComment => cases h.1 _ List.mem_cons_self
      | _ => rfl
    | tail _ hq => exact ih h.2 q hq

theorem genuine_lexemesFrom {line : Nat} {ps : List Piece} (h : ∀ p ∈ ps, p.Proper) :
    ∀ t ∈ lexemesFrom line ps, t.kind ≠ .eof ∧ t.Genuine := by
  induction ps generalizing line with
  | nil => exact fun t ht => nomatch ht
  | cons p ps ih =>
    intro t ht
    rw [lexemesFrom, List.mem_append, Option.mem_toList] at ht
    rcases ht with ht | ht
    · have hp := h p List.mem_cons_self
      unfold Piece.token? at ht
      split at ht
      · rename_i kind hk
        cases ht
        exact hp kind hk
      · cases ht
    · exact ih (fun q hq => h q (List.mem_cons_of_mem _ hq)) t ht

theorem line_lexemesFrom {line : Nat} {ps : List Piece} :
    ∀ t ∈ lexemesFrom line ps, line ≤ t.line := by
  induction ps generalizing line with
  | nil => exact fun t ht => nomatch ht
  | cons p ps ih =>
    intro t ht
    rw [lexemesFrom, List.mem_append, Option.mem_toList] at ht
    rcases ht with ht | ht
    · unfold Piece.token? at ht
      split at ht
      · cases ht
        exact Nat.le_refl line
      · cases ht
    · exact Nat.le_trans (Nat.le_add_right line p.newlines) (ih t ht)

end Source

/-- The tokens of a text without the end mark. -/
def lexemes (source : String) : List Token := Source.lexemesFrom 1 (Source.pieces source.toList)

/-- The number of lines of a text. -/
def lineCount (source : String) : Nat := Source.newlinesIn (Source.pieces source.toList) + 1

theorem errors_scan (source : String) :
    (scan source).errors = Source.errorsFrom 1 (Source.pieces source.toList) := rfl

theorem isTerminated_of_errors_scan {source : String} (h : (scan source).errors = []) :
    ∀ p ∈ Source.pieces source.toList, p.kind.isTerminated := by
  rw [errors_scan] at h
  exact Source.isTerminated_of_errorsFrom (h ▸ List.forall_mem_nil _)

theorem tokens_scan (source : String) :
    (scan source).tokens = lexemes source ++ [Token.eof (lineCount source)] := by
  rw [lineCount, Nat.add_comm]
  exact Source.tokensFrom_eq 1 _

theorem genuine_lexemes (source : String) : ∀ t ∈ lexemes source, t.kind ≠ .eof ∧ t.Genuine :=
  Source.genuine_lexemesFrom (Source.proper_pieces _)

theorem line_lexemes (source : String) : ∀ t ∈ lexemes source, 1 ≤ t.line :=
  Source.line_lexemesFrom

theorem untilEof_scan (source : String) :
    Token.untilEof (scan source).tokens = (lexemes source, lineCount source) := by
  rw [tokens_scan]
  exact Token.untilEof_append_mark (fun t ht => (genuine_lexemes source t ht).1) rfl []

section Append

variable {first : String} (h : ∀ p ∈ Source.pieces first.toList, p.kind.isTerminated)
  (second : String)

include h

theorem pieces_scan_append : Source.pieces (first ++ "\n" ++ second).toList =
    Source.pieces first.toList ++ ⟨.blank, ['\n']⟩ :: Source.pieces second.toList := by
  have hn : ⟨.blank, ['\n']⟩ :: Source.pieces second.toList =
    Source.pieces ('\n' :: second.toList) := (Source.pieces_cons '\n' _).symm
  rw [String.toList_append, String.toList_append, List.append_assoc, hn]
  exact Source.pieces_append rfl h (.inl rfl) _

/-- The tokens of two texts on lines of their own. -/
theorem lexemes_append : lexemes (first ++ "\n" ++ second) =
    lexemes first ++ (lexemes second).map (Token.onLine (· + lineCount first)) := by
  rw [lexemes, pieces_scan_append h, Source.lexemesFrom_append]
  congr 1
  rw [lexemes, ← Source.lexemesFrom_add, lineCount]
  rfl

theorem lineCount_append :
    lineCount (first ++ "\n" ++ second) = lineCount second + lineCount first := by
  have newline : Source.Piece.newlines ⟨.blank, ['\n']⟩ = 1 := rfl
  rw [lineCount, pieces_scan_append h, Source.newlinesIn_append, Source.newlinesIn, newline,
    lineCount, lineCount]
  omega

theorem errors_scan_append : (scan (first ++ "\n" ++ second)).errors =
    (scan first).errors ++ (scan second).errors.map (.onLine (· + lineCount first)) := by
  rw [errors_scan, pieces_scan_append h, Source.errorsFrom_append, errors_scan, errors_scan]
  congr 1
  rw [← Source.errorsFrom_add, lineCount]
  rfl

end Append

end Lox
