import Lox.Proofs.Source
import Lox.Text.Blank
import Mathlib.Data.List.TakeWhile

/-!
The ends of lines. Blanks at the end of a line make no token. A semicolon there makes one, unless the
line ends in a comment, which takes the semicolon up.
-/

namespace Lox

namespace Text

theorem toNat_of_isBlank {c : Char} (h : isBlank c) : c.toNat ≤ 32 ∨ 128 ≤ c.toNat := by
  simp only [isBlank, blankRanges, List.any_cons, List.any_nil, Bool.or_eq_true, Bool.and_eq_true,
    decide_eq_true_eq, Bool.false_eq_true, or_false] at h
  omega

theorem isWordChar_of_isBlank {c : Char} (h : isBlank c) : Source.isWordChar c = false := by
  have hn := toNat_of_isBlank h
  by_contra hw
  simp only [Bool.not_eq_false, Source.isWordChar, Bool.or_eq_true, Source.isLetter_iff,
    Char.isDigit_iff_toNat, Char.reduceToNat] at hw
  rcases hw with ((letter | letter) | rfl) | digit
  · omega
  · omega
  · cases h
  · omega

theorem separates_of_isBlank {c : Char} (h : isBlank c) : Source.separates c := by
  rw [Source.separates_iff]
  refine ⟨isWordChar_of_isBlank h, ?_, ?_, ?_, ?_⟩
  all_goals
    rintro rfl
    cases h

theorem exists_trimEnd (s : String) :
    ∃ w, s.toList = (trimEnd s).toList ++ w ∧ ∀ c ∈ w, isBlank c := by
  refine ⟨(s.toList.reverse.takeWhile isBlank).reverse, ?_, fun c hc => ?_⟩
  · rw [trimEnd, dropEnd, String.toList_ofList, ← List.reverse_append,
      List.takeWhile_append_dropWhile, List.reverse_reverse]
  · exact List.all_eq_true.mp List.all_takeWhile c (List.mem_reverse.mp hc)

end Text

namespace Source

/-- The kinds of pieces that need no end mark. -/
def Piece.Kind.isPlain : Piece.Kind → Bool
  | .blank | .lexeme _ | .unexpected => true
  | _ => false

namespace Piece

theorem isPlain_number (cs : List Char) : (number cs).1.kind.isPlain := by
  rcases hs : cs.span Char.isDigit with ⟨whole, rest⟩
  by_cases hp : ∃ d zs, rest = '.' :: d :: zs
  · obtain ⟨d, zs, rfl⟩ := hp
    rw [number_point hs]
    split <;> rfl
  · rw [number_whole hs fun d zs he => hp ⟨d, zs, he⟩]
    rfl

theorem isPlain_other (c : Char) (cs : List Char) : (other c cs).1.kind.isPlain := by
  unfold other
  split
  · unfold operator
    split <;> rfl
  · rfl

theorem isPlain_next {c : Char} (hc : c ≠ '/') (hq : c ≠ '"') (cs : List Char) :
    (next c cs).1.kind.isPlain := by
  rw [next_of_ne hc]
  split
  · rfl
  · rw [if_neg (by simpa using hq)]
    split
    · exact isPlain_number _
    · split
      · rfl
      · exact isPlain_other c cs

theorem next_quote (cs : List Char) : next '"' cs = string cs := rfl

theorem next_slash_star (cs : List Char) : next '/' ('*' :: cs) = blockComment cs := rfl

theorem isLineComment_iff {p : Piece} :
    p.isLineComment ↔ p.kind = .comment ∧ ∃ text, p.text = '/' :: '/' :: text := by
  obtain ⟨kind, text⟩ := p
  unfold isLineComment
  split
  · rename_i h₁ h₂
    exact ⟨fun _ => ⟨h₁, _, h₂⟩, fun _ => rfl⟩
  · rename_i h
    refine ⟨nofun, fun ⟨hk, text, ht⟩ => ?_⟩
    exact (h text hk ht).elim

/-- Only two slashes start a line comment. -/
theorem exists_of_isLineComment {c : Char} {cs : List Char} (h : (next c cs).1.isLineComment) :
    c = '/' ∧ ∃ ds, cs = '/' :: ds := by
  obtain ⟨hk, text, ht⟩ := isLineComment_iff.mp h
  by_cases hc : c = '/'
  · subst hc
    refine ⟨rfl, ?_⟩
    by_contra h₁
    by_cases h₂ : ∃ ds, cs = '*' :: ds
    · obtain ⟨ds, rfl⟩ := h₂
      have starts : ∃ inside, (blockComment ds).1.text = '/' :: '*' :: inside := by
        unfold blockComment
        split <;> exact ⟨_, rfl⟩
      obtain ⟨inside, hi⟩ := starts
      rw [next_slash_star, hi] at ht
      cases ht
    · have plain := isPlain_other '/' cs
      rw [← next_slash (fun ds he => h₁ ⟨ds, he⟩) fun ds he => h₂ ⟨ds, he⟩, hk] at plain
      cases plain
  · by_cases hq : c = '"'
    · subst hq
      rw [next_quote, string] at hk
      split at hk <;> cases hk
    · have plain := isPlain_next hc hq cs
      rw [hk] at plain
      cases plain

theorem lineComment_of_notMem {cs : List Char} (h : '\n' ∉ cs) :
    lineComment cs = (⟨.comment, cs⟩, []) := by
  have all : ∀ c ∈ cs, c != '\n' := fun c hc => bne_iff_ne.mpr fun he => h (he ▸ hc)
  rw [lineComment, List.span_eq_takeWhile_dropWhile, List.takeWhile_eq_self_iff.mpr all,
    List.dropWhile_eq_nil_iff.mpr all]

theorem notMem_of_lineComment {cs : List Char} (h : (lineComment cs).2 = []) : '\n' ∉ cs := by
  rw [lineComment, List.span_eq_takeWhile_dropWhile] at h
  have all := List.dropWhile_eq_nil_iff.mp h
  exact fun hm => absurd (all _ hm) (by decide)

end Piece

/-! Comments at the end of a line take up what stands behind them on it. -/

theorem pieces_absorb {y : Char} (hy : separates y) {cs us : List Char}
    (h : ∀ p ∈ pieces cs, p.kind.isTerminated) (he : endsInLineComment cs)
    (hn : '\n' ∉ y :: us) :
    ∃ ps text, pieces cs = ps ++ [⟨.comment, text⟩] ∧
      pieces (cs ++ y :: us) = ps ++ [⟨.comment, text ++ y :: us⟩] := by
  induction hlength : cs.length using Nat.strongRecOn generalizing cs with
  | ind n ih =>
    obtain _ | ⟨c, cs⟩ := cs
    · cases he
    · by_cases hr : (Piece.next c cs).2 = []
      · have single : pieces (c :: cs) = [(Piece.next c cs).1] := by
          rw [pieces_cons, hr]
          rfl
        have hline : (Piece.next c cs).1.isLineComment := by
          simpa [endsInLineComment, single] using he
        obtain ⟨rfl, ds, rfl⟩ := Piece.exists_of_isLineComment hline
        rw [Piece.next_slash_slash] at hr
        have inside := Piece.notMem_of_lineComment hr
        have outside : '\n' ∉ '/' :: '/' :: ds ++ y :: us := fun hm =>
          (List.mem_append.mp hm).elim inside hn
        refine ⟨[], '/' :: '/' :: ds, ?_, ?_⟩
        · rw [single, Piece.next_slash_slash, Piece.lineComment_of_notMem inside]
          rfl
        · rw [List.cons_append, List.cons_append, pieces_cons, Piece.next_slash_slash]
          have whole := Piece.lineComment_of_notMem outside
          rw [List.cons_append, List.cons_append] at whole
          rw [whole]
          rfl
      · have shorter := Piece.length_next_le c cs
        rw [endsInLineComment, getLast?_pieces hr] at he
        rw [pieces_cons] at h
        obtain ⟨ps, text, hcs, hus⟩ := ih (Piece.next c cs).2.length (by simp at hlength; omega)
          (fun p hp => h p (List.mem_cons_of_mem _ hp)) he rfl
        refine ⟨(Piece.next c cs).1 :: ps, text, ?_, ?_⟩
        · rw [pieces_cons, hcs, List.cons_append]
        · rw [List.cons_append, pieces_cons,
            Piece.next_append hy (h _ List.mem_cons_self) (.inr (.inr hr)), hus, List.cons_append]

/-- What a line comment takes up makes no token. -/
theorem lexemesFrom_absorb {y : Char} (hy : separates y) {cs us : List Char}
    (h : ∀ p ∈ pieces cs, p.kind.isTerminated) (he : endsInLineComment cs)
    (hn : '\n' ∉ y :: us) (line : Nat) :
    lexemesFrom line (pieces (cs ++ y :: us)) = lexemesFrom line (pieces cs) ∧
      ∀ p ∈ pieces (cs ++ y :: us), p.kind.isTerminated := by
  obtain ⟨ps, text, hcs, hus⟩ := pieces_absorb hy h he hn
  refine ⟨?_, fun p hp => ?_⟩
  · rw [hcs, hus, lexemesFrom_append, lexemesFrom_append]
    rfl
  · rw [hus, List.mem_append, List.mem_singleton] at hp
    obtain hp | rfl := hp
    · exact h p (hcs ▸ List.mem_append_left _ hp)
    · rfl

/-! Blanks. -/

theorem Piece.next_blank {c : Char} (hc : Text.isBlank c) (cs : List Char) :
    (next c cs).2 = cs ∧ ∀ line, (next c cs).1.token? line = none := by
  have hw := Text.isWordChar_of_isBlank hc
  obtain ⟨letter, digit⟩ := Bool.or_eq_false_iff.mp hw
  have hslash : c ≠ '/' := by
    rintro rfl
    cases hc
  have quote : (c == '"') = false := by
    rw [beq_eq_false_iff_ne]
    rintro rfl
    cases hc
  have operator : Token.Kind.ofChar? c = none := by
    unfold Token.Kind.ofChar?
    split <;> first | rfl | cases hc
  simp only [next_of_ne hslash, quote, digit, letter, other, operator, Bool.false_eq_true, if_false]
  split <;> exact ⟨rfl, fun _ => rfl⟩

theorem lexemesFrom_blanks {w : List Char} (hw : ∀ c ∈ w, Text.isBlank c) (line : Nat) :
    lexemesFrom line (pieces w) = [] := by
  induction w generalizing line with
  | nil => rfl
  | cons c w ih =>
    obtain ⟨rest, token⟩ := Piece.next_blank (hw c List.mem_cons_self) w
    rw [pieces_cons, lexemesFrom, token, rest, ih fun d hd => hw d (List.mem_cons_of_mem _ hd)]
    rfl

/-- A text up to the end of its first line, and the rest. -/
theorem exists_line (w : List Char) :
    ∃ u v, w = u ++ v ∧ '\n' ∉ u ∧ ∀ y ∈ v.head?, y = '\n' := by
  refine ⟨w.takeWhile (· != '\n'), w.dropWhile (· != '\n'),
    List.takeWhile_append_dropWhile.symm, fun hm => ?_, fun y hy => ?_⟩
  · exact absurd (List.all_eq_true.mp List.all_takeWhile _ hm) (by decide)
  · have stops := List.head?_dropWhile_not (· != '\n') w
    rw [Option.mem_def.mp hy] at stops
    exact bne_eq_false_iff_eq.mp stops

theorem lexemesFrom_append_apart {cs w : List Char} (h : ∀ p ∈ pieces cs, p.kind.isTerminated)
    (hw : ∀ c ∈ w, Text.isBlank c)
    (hl : (∀ y ∈ w.head?, y = '\n') ∨ endsInLineComment cs = false) (line : Nat) :
    lexemesFrom line (pieces (cs ++ w)) = lexemesFrom line (pieces cs) := by
  cases w with
  | nil => rw [List.append_nil]
  | cons y us =>
    have hy := Text.separates_of_isBlank (hw y List.mem_cons_self)
    rw [pieces_append hy h (hl.imp_left fun hl => hl y rfl), lexemesFrom_append,
      lexemesFrom_blanks hw, List.append_nil]

/-- Blanks behind a text make no token. -/
theorem lexemesFrom_append_blanks {cs w : List Char} (h : ∀ p ∈ pieces cs, p.kind.isTerminated)
    (hw : ∀ c ∈ w, Text.isBlank c) (line : Nat) :
    lexemesFrom line (pieces (cs ++ w)) = lexemesFrom line (pieces cs) := by
  cases he : endsInLineComment cs with
  | false => exact lexemesFrom_append_apart h hw (.inr he) line
  | true =>
    -- the comment goes on up to the end of its line
    obtain ⟨u, v, rfl, hu, hv⟩ := exists_line w
    have read : lexemesFrom line (pieces (cs ++ u)) = lexemesFrom line (pieces cs) ∧
        ∀ p ∈ pieces (cs ++ u), p.kind.isTerminated := by
      cases u with
      | nil =>
        rw [List.append_nil]
        exact ⟨rfl, h⟩
      | cons y us =>
        exact lexemesFrom_absorb (Text.separates_of_isBlank (hw y List.mem_cons_self)) h he hu line
    rw [← List.append_assoc, lexemesFrom_append_apart read.2
      (fun c hc => hw c (List.mem_append_right u hc)) (.inl hv), read.1]

/-! What is left open by a text is also left open by a longer one without quotes and slashes. -/

theorem cutAtClose?_append_none {cs ds : List Char} (h : cutAtClose? cs = none) (hd : '/' ∉ ds) :
    cutAtClose? (cs ++ ds) = none := by
  have never (ds : List Char) (hd : '/' ∉ ds) : cutAtClose? ds = none := by
    induction ds with
    | nil => rfl
    | cons d ds ih =>
      rw [cutAtClose?_cons, ih fun hm => hd (List.mem_cons_of_mem d hm)]
      · rfl
      · rintro ds' - rfl
        exact hd (List.mem_cons_of_mem d List.mem_cons_self)
  fun_induction cutAtClose? cs with
  | case1 => cases h
  | case2 => exact never ds hd
  | case3 c cs hn ih =>
    rw [List.cons_append, cutAtClose?_cons, ih (Option.map_eq_none_iff.mp h)]
    · rfl
    · rintro cs' rfl he
      cases cs with
      | nil => exact hd ((List.nil_append ds).symm.trans he ▸ List.mem_cons_self)
      | cons d cs =>
        injection he with hslash
        exact hn cs rfl (hslash ▸ rfl)

theorem Piece.string_unterminated_iff {cs : List Char} :
    (string cs).1.kind.isTerminated = false ↔ '"' ∉ cs := by
  have hnil : (cs.span (· != '"')).2 = [] ↔ '"' ∉ cs := by
    simp only [List.span_eq_takeWhile_dropWhile, List.dropWhile_eq_nil_iff, bne_iff_ne]
    exact ⟨fun h hm => h _ hm rfl, fun h c hc he => h (he ▸ hc)⟩
  rw [← hnil]
  rcases hs : cs.span (· != '"') with ⟨inside, _ | ⟨q, rest⟩⟩
  · simp only [string, hs, Kind.isTerminated]
  · simp only [string, hs, Kind.isTerminated, reduceCtorEq]

theorem Piece.next_append_unterminated {c : Char} {cs ds : List Char}
    (h : (next c cs).1.kind.isTerminated = false) (hq : '"' ∉ ds) (hs : '/' ∉ ds) :
    (next c (cs ++ ds)).1.kind.isTerminated = false := by
  have plain {kind : Kind} (hp : kind.isPlain) : ¬ kind.isTerminated = false := by
    cases kind <;> cases hp <;> exact Bool.noConfusion
  by_cases hc : c = '/'
  · subst hc
    by_cases h₁ : ∃ ds, cs = '/' :: ds
    · obtain ⟨cs, rfl⟩ := h₁
      cases h
    · by_cases h₂ : ∃ ds, cs = '*' :: ds
      · obtain ⟨cs, rfl⟩ := h₂
        rw [next_slash_star, blockComment] at h
        have hn : cutAtClose? cs = none := by
          split at h
          · cases h
          · assumption
        rw [List.cons_append, next_slash_star, blockComment, cutAtClose?_append_none hn hs]
        rfl
      · rw [next_slash (fun ds he => h₁ ⟨ds, he⟩) fun ds he => h₂ ⟨ds, he⟩] at h
        exact absurd h (plain (isPlain_other '/' cs))
  · by_cases hquote : c = '"'
    · subst hquote
      rw [next_quote, string_unterminated_iff] at h ⊢
      exact fun hm => (List.mem_append.mp hm).elim h hq
    · exact absurd h (plain (isPlain_next hc hquote cs))

/-- A text that leaves nothing open left nothing open before. -/
theorem isTerminated_of_append {y : Char} (hy : separates y) {cs us : List Char}
    (hq : '"' ∉ y :: us) (hs : '/' ∉ y :: us)
    (h : ∀ p ∈ pieces (cs ++ y :: us), p.kind.isTerminated) :
    ∀ p ∈ pieces cs, p.kind.isTerminated := by
  induction hn : cs.length using Nat.strongRecOn generalizing cs with
  | ind n ih =>
    obtain _ | ⟨c, cs⟩ := cs
    · exact nofun
    · rw [List.cons_append, pieces_cons] at h
      have first : (Piece.next c cs).1.kind.isTerminated := by
        by_contra hf
        rw [Bool.not_eq_true] at hf
        have hf := Piece.next_append_unterminated hf hq hs
        rw [h _ List.mem_cons_self] at hf
        cases hf
      rw [pieces_cons]
      by_cases hr : (Piece.next c cs).2 = []
      · rw [hr]
        exact List.forall_mem_singleton.mpr first
      · have shorter := Piece.length_next_le c cs
        rw [Piece.next_append hy first (.inr (.inr hr))] at h
        refine List.forall_mem_cons.mpr ⟨first, ih _ ?_ ?_ rfl⟩
        · rw [← hn]
          exact Nat.lt_succ_of_le shorter
        · exact fun p hp => h p (List.mem_cons_of_mem _ hp)

theorem lexemesFrom_line_le {line : Nat} {ps : List Piece} :
    ∀ t ∈ lexemesFrom line ps, t.line ≤ line + newlinesIn ps := by
  induction ps generalizing line with
  | nil => exact fun _ h => absurd h List.not_mem_nil
  | cons p ps ih =>
    intro t ht
    rw [lexemesFrom, List.mem_append, Option.mem_toList] at ht
    rcases ht with ht | ht
    · unfold Piece.token? at ht
      split at ht
      · cases ht
        exact Nat.le_add_right line _
      · cases ht
    · have below := ih t ht
      rwa [Nat.add_assoc] at below

end Source

theorem lexemes_line_le (source : String) : ∀ t ∈ lexemes source, t.line ≤ lineCount source := by
  intro t ht
  rw [lineCount, Nat.add_comm]
  exact Source.lexemesFrom_line_le t ht

/-- A semicolon on the line. -/
def Token.semicolon (line : Nat) : Token := ⟨.semicolon, ";", line, none⟩

/-- Whether what is written behind the text on its last line belongs to a comment. -/
def endsInComment (source : String) : Bool := Source.endsInLineComment source.toList

section Longer

variable {front whole : String} {y : Char} {us : List Char}
  (hw : whole.toList = front.toList ++ y :: us) (hy : Source.separates y) (hq : '"' ∉ y :: us)
  (hs : '/' ∉ y :: us) (h : (scan whole).errors = [])

include hw hy hq hs h

/-- A text without faults leaves nothing open in a text that it goes on from. -/
theorem isTerminated_of_longer : ∀ p ∈ Source.pieces front.toList, p.kind.isTerminated := by
  have all := isTerminated_of_errors_scan h
  rw [hw] at all
  exact Source.isTerminated_of_append hy hq hs all

theorem errors_scan_of_longer (hl : y = '\n' ∨ endsInComment front = false) :
    (scan front).errors = [] := by
  have terminated := isTerminated_of_longer hw hy hq hs h
  rw [errors_scan, hw, Source.pieces_append hy terminated hl, Source.errorsFrom_append] at h
  exact (List.append_eq_nil_iff.mp h).1

end Longer

section Line

variable {line : String}

/-- A semicolon behind the line, unless a comment takes it up. -/
theorem scan_semicolon_behind (h : (scan line).errors = []) (he : endsInComment line = false) :
    lexemes (line ++ ";") = lexemes line ++ [Token.semicolon (lineCount line)] ∧
      (scan (line ++ ";")).errors = [] := by
  have hp : Source.pieces (line ++ ";").toList =
      Source.pieces line.toList ++ [⟨.lexeme .semicolon, [';']⟩] := by
    rw [String.toList_append]
    exact Source.pieces_append rfl (isTerminated_of_errors_scan h) (.inr he) []
  constructor
  · rw [lexemes, hp, Source.lexemesFrom_append, lineCount, Nat.add_comm _ 1]
    rfl
  · rw [errors_scan] at h
    rw [errors_scan, hp, Source.errorsFrom_append, h]
    rfl

theorem lexemes_semicolon_absorbed
    (h : ∀ p ∈ Source.pieces line.toList, p.kind.isTerminated) (he : endsInComment line) :
    lexemes (line ++ ";") = lexemes line := by
  rw [lexemes, String.toList_append]
  exact (Source.lexemesFrom_absorb rfl h he (by decide) 1).1

theorem isTerminated_of_semicolon_behind (h : (scan (line ++ ";")).errors = []) :
    ∀ p ∈ Source.pieces line.toList, p.kind.isTerminated := by
  have hw : (line ++ ";").toList = line.toList ++ [';'] := String.toList_append
  exact isTerminated_of_longer hw rfl (by decide) (by decide) h

theorem errors_scan_of_semicolon_behind (h : (scan (line ++ ";")).errors = [])
    (he : endsInComment line = false) : (scan line).errors = [] := by
  have hw : (line ++ ";").toList = line.toList ++ [';'] := String.toList_append
  exact errors_scan_of_longer hw rfl (by decide) (by decide) h (.inr he)

/-- A semicolon below the line. -/
theorem lexemes_semicolon_below (h : (scan line).errors = []) :
    lexemes (line ++ "\n;") = lexemes line ++ [Token.semicolon (lineCount line + 1)] := by
  have hs : lexemes ";" = [Token.semicolon 1] := rfl
  have happ : line ++ "\n;" = line ++ "\n" ++ ";" := by
    rw [String.append_assoc]
    rfl
  rw [happ, lexemes_append (isTerminated_of_errors_scan h), hs, Nat.add_comm _ 1]
  rfl

theorem errors_scan_of_below (h : (scan (line ++ "\n;")).errors = []) : (scan line).errors = [] := by
  have hw : (line ++ "\n;").toList = line.toList ++ ['\n', ';'] := String.toList_append
  exact errors_scan_of_longer hw rfl (by decide) (by decide) h (.inl rfl)

/-- Blanks at the end of a line make no token. -/
theorem lexemes_trimEnd (h : ∀ p ∈ Source.pieces (Text.trimEnd line).toList, p.kind.isTerminated) :
    lexemes (Text.trimEnd line) = lexemes line := by
  obtain ⟨w, hw, blank⟩ := Text.exists_trimEnd line
  rw [lexemes, lexemes, hw, Source.lexemesFrom_append_blanks h blank]

section Trim

variable (h : (scan line).errors = [])

include h

theorem isTerminated_trimEnd :
    ∀ p ∈ Source.pieces (Text.trimEnd line).toList, p.kind.isTerminated := by
  obtain ⟨_ | ⟨y, us⟩, hw, blank⟩ := Text.exists_trimEnd line
  · have terminated := isTerminated_of_errors_scan h
    rwa [hw, List.append_nil] at terminated
  · have hy := Text.separates_of_isBlank (blank y List.mem_cons_self)
    exact isTerminated_of_longer hw hy (fun hm => nomatch blank _ hm) (fun hm => nomatch blank _ hm) h

theorem errors_scan_trimEnd (he : endsInComment (Text.trimEnd line) = false) :
    (scan (Text.trimEnd line)).errors = [] := by
  obtain ⟨_ | ⟨y, us⟩, hw, blank⟩ := Text.exists_trimEnd line
  · rw [List.append_nil] at hw
    rw [errors_scan, hw] at h
    rw [errors_scan]
    exact h
  · have hy := Text.separates_of_isBlank (blank y List.mem_cons_self)
    exact errors_scan_of_longer hw hy (fun hm => nomatch blank _ hm) (fun hm => nomatch blank _ hm) h
      (.inr he)

end Trim

end Line

end Lox
