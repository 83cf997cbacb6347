import Lox.Proofs.Printer.Reading
import Lox.Proofs.Sexp

/-!
The text of a program. It tells the symbolic expressions of the statements, as strings stand between
quotes and all else is written in words, and these tell the tree. So no two programs are printed the
same that differ in more than references, lines, and the writing of `inf`.
-/

namespace Lox

variable {ρ : Type}

namespace Sexp

theorem isPlain_of_isWordChar {c : Char} (h : Source.isWordChar c) : isPlain c := by
  have apart {d : Char} (hd : Source.isWordChar d = false) : (c == d) = false := by
    rw [beq_eq_false_iff_ne]
    rintro rfl
    rw [h] at hd
    cases hd
  rw [isPlain, apart rfl, apart rfl, apart rfl, apart rfl, apart rfl]
  rfl

theorem isAtom_of_isWordChar {text : List Char} (h : text ≠ [])
    (plain : ∀ c ∈ text, c = '.' ∨ Source.isWordChar c) : IsAtom text := by
  refine .word h fun c hc => ?_
  obtain rfl | word := plain c hc
  · rfl
  · exact isPlain_of_isWordChar word

def isWord (s : String) : Bool := !s.toList.isEmpty && s.toList.all isPlain

theorem isAtom_of_isWord {s : String} (h : isWord s) : IsAtom s.toList := by
  rw [isWord, Bool.and_eq_true, Bool.not_eq_true', List.isEmpty_eq_false_iff, List.all_eq_true] at h
  exact .word h.1 h.2

theorem clear_form {head : String} {items : List Sexp} (h : isWord head) (hi : ClearAll items) :
    (form head items).Clear := ⟨isAtom_of_isWord h, hi⟩

theorem ClearAll.append {es fs : List Sexp} (he : ClearAll es) (hf : ClearAll fs) :
    ClearAll (es ++ fs) := by
  induction es with
  | nil => exact hf
  | cons e es ih => exact ⟨he.1, ih he.2⟩

end Sexp

open Sexp (clear_form)

theorem Parser.isWord_prefix (op : UnaryOp) {s : Lexeme} (h : s.Is op.kind) : Sexp.isWord s.text := by
  have all : ∀ p ∈ prefixes, Sexp.isWord p.1 := by decide
  exact all (s.text, op) (mem_prefixes op h)

theorem Parser.isWord_infix (op : Infix) {s : Lexeme} (h : s.Is op.kind) : Sexp.isWord s.text := by
  have all : ∀ p ∈ infixes, Sexp.isWord p.1 := by decide
  exact all (s.text, op) (mem_infixes op h)

theorem Source.IsLexeme.isAtom_identifier {text : List Char} (h : IsLexeme .identifier text) :
    Sexp.IsAtom text := by
  obtain ⟨word, -⟩ := h.isWord
  cases text with
  | nil => exact word.elim
  | cons c cs =>
    refine Sexp.isAtom_of_isWordChar (List.cons_ne_nil c cs) (List.forall_mem_cons.mpr ⟨.inr ?_, ?_⟩)
    · rw [isWordChar, word.1, Bool.true_or]
    · exact fun d hd => .inr (word.2 d hd)

theorem Source.IsLexeme.isAtom_number {text : List Char} (h : IsLexeme .number text) :
    Sexp.IsAtom text := by
  have digit {digits : List Char} (h : IsDigits digits) : ∀ c ∈ digits, c = '.' ∨ isWordChar c :=
    fun c hc => .inr (by rw [isWordChar, h.2 c hc, Bool.or_true])
  obtain ⟨c, cs, rfl, digits⟩ := h.starts_with_digit
  refine Sexp.isAtom_of_isWordChar (List.cons_ne_nil c cs) ?_
  obtain ⟨-, whole | ⟨front, behind, same, hf, hb⟩⟩ := h.of_digit digits
  · exact digit whole
  · rw [same]
    exact List.forall_mem_append.mpr ⟨digit hf, List.forall_mem_cons.mpr ⟨.inl rfl, digit hb⟩⟩

theorem Lexeme.clear_toSexp {n : Lexeme} (h : n.Is .identifier) : n.toSexp.Clear :=
  Source.IsLexeme.isAtom_identifier h

theorem Lexeme.clear_toSexps {ps : List Lexeme} (h : ∀ p ∈ ps, p.Is .identifier) :
    Sexp.ClearAll (ps.map Lexeme.toSexp) := by
  induction ps with
  | nil => trivial
  | cons p ps ih =>
    rw [List.forall_mem_cons] at h
    exact ⟨Lexeme.clear_toSexp h.1, ih h.2⟩

theorem Literal.clear_toSexp {v : Literal} (h : v.Legible) : v.toSexp.Clear := by
  cases v with
  | nil => exact Sexp.isAtom_of_isWord (s := "nil") (by decide)
  | bool b => cases b <;> exact Sexp.isAtom_of_isWord (by decide)
  | string s =>
    change Sexp.IsAtom ("\"" ++ s ++ "\"").toList
    rw [String.toList_append, String.toList_append]
    exact .quoted h
  | number x =>
    change Sexp.IsAtom (Numeral.display x).toList
    obtain below | infinite : Numeral.rank x < _ ∨ _ := Nat.lt_or_eq_of_le h
    · exact (Numeral.isLexeme_display below).isAtom_number
    · rw [Numeral.display_of_eq infinite]
      exact Sexp.isAtom_of_isWord rfl

mutual

theorem Expr.clear_toSexp : ∀ {e : Expr ρ}, e.Legible → e.toSexp.Clear
  | .literal _, h => Literal.clear_toSexp h
  | .variable _ _, h => Lexeme.clear_toSexp h
  | .this _ _, _ => Sexp.isAtom_of_isWord (s := "this") rfl
  | .assign _ _ _, h =>
    clear_form rfl ⟨Lexeme.clear_toSexp h.1, Expr.clear_toSexp h.2, trivial⟩
  | .super _ _ _, h => clear_form rfl ⟨Lexeme.clear_toSexp h.2, trivial⟩
  | .unary op _ _, h =>
    clear_form (Parser.isWord_prefix op h.1) ⟨Expr.clear_toSexp h.2, trivial⟩
  | .binary op _ _ _, h =>
    clear_form (Parser.isWord_infix (.binary op) h.1)
      ⟨Expr.clear_toSexp h.2.1, Expr.clear_toSexp h.2.2, trivial⟩
  | .logical op _ _ _, h =>
    clear_form (Parser.isWord_infix (.logical op) h.1)
      ⟨Expr.clear_toSexp h.2.1, Expr.clear_toSexp h.2.2, trivial⟩
  | .ternary _ _ _, h =>
    clear_form rfl ⟨Expr.clear_toSexp h.1, Expr.clear_toSexp h.2.1, Expr.clear_toSexp h.2.2, trivial⟩
  | .group _, h => clear_form rfl ⟨Expr.clear_toSexp h, trivial⟩
  | .call _ _ _, h => clear_form rfl ⟨Expr.clear_toSexp h.1, Expr.clear_toSexps h.2⟩
  | .get _ _, h => clear_form rfl ⟨Expr.clear_toSexp h.2, Lexeme.clear_toSexp h.1, trivial⟩
  | .set _ _ _, h =>
    clear_form rfl
      ⟨Expr.clear_toSexp h.2.1, Lexeme.clear_toSexp h.1, Expr.clear_toSexp h.2.2, trivial⟩
  | .lambda _ _, h => clear_form rfl (Routine.clear_toSexps h)

theorem Expr.clear_toSexps : ∀ {es : List (Expr ρ)}, Expr.LegibleAll es →
    Sexp.ClearAll (Expr.toSexps es)
  | [], _ => trivial
  | _ :: _, h => ⟨Expr.clear_toSexp h.1, Expr.clear_toSexps h.2⟩

theorem Stmt.clear_toSexp : ∀ {s : Stmt ρ}, s.Legible → s.toSexp.Clear
  | .expr _, h | .print _, h => clear_form rfl ⟨Expr.clear_toSexp h, trivial⟩
  | .var _ none, h => clear_form rfl ⟨Lexeme.clear_toSexp h, trivial⟩
  | .var _ (some _), h =>
    clear_form rfl
      ⟨Lexeme.clear_toSexp h.1, Sexp.isAtom_of_isWord (s := "=") rfl, Expr.clear_toSexp h.2, trivial⟩
  | .block _, h => clear_form rfl (Stmt.clear_toSexps h)
  | .if _ _ none, h => clear_form rfl ⟨Expr.clear_toSexp h.1, Stmt.clear_toSexp h.2, trivial⟩
  | .if _ _ (some _), h =>
    clear_form rfl ⟨Expr.clear_toSexp h.1, Stmt.clear_toSexp h.2.1, Stmt.clear_toSexp h.2.2, trivial⟩
  | .while _ _, h => clear_form rfl ⟨Expr.clear_toSexp h.1, Stmt.clear_toSexp h.2, trivial⟩
  | .break _, _ | .return _ none, _ => clear_form rfl trivial
  | .return _ (some _), h => clear_form rfl ⟨Expr.clear_toSexp h.2, trivial⟩
  | .function ⟨_, _⟩, h => clear_form rfl ⟨Lexeme.clear_toSexp h.1, Routine.clear_toSexps h.2⟩
  | .class _ none _ _, h =>
    clear_form rfl ⟨Lexeme.clear_toSexp h.1,
      (Definition.clear_toSexps rfl h.2.2.1).append (Definition.clear_toSexps rfl h.2.2.2)⟩
  | .class _ (some _) _ _, h =>
    clear_form rfl ⟨Lexeme.clear_toSexp h.1, Sexp.isAtom_of_isWord (s := "<") rfl,
      Lexeme.clear_toSexp (h.2.1 _ rfl),
      (Definition.clear_toSexps rfl h.2.2.1).append (Definition.clear_toSexps rfl h.2.2.2)⟩

theorem Stmt.clear_toSexps : ∀ {ss : List (Stmt ρ)}, Stmt.LegibleAll ss →
    Sexp.ClearAll (Stmt.toSexps ss)
  | [], _ => trivial
  | _ :: _, h => ⟨Stmt.clear_toSexp h.1, Stmt.clear_toSexps h.2⟩

theorem Routine.clear_toSexps : ∀ {r : Routine ρ}, r.Legible → Sexp.ClearAll r.toSexps
  | ⟨_, _⟩, h => ⟨Lexeme.clear_toSexps h.1, Stmt.clear_toSexps h.2⟩

theorem Definition.clear_toSexps {keyword : String} (hk : Sexp.isWord keyword) :
    ∀ {ds : List (Definition ρ)}, Definition.LegibleAll ds →
      Sexp.ClearAll (Definition.toSexps keyword ds)
  | [], _ => trivial
  | ⟨_, _⟩ :: _, h =>
    ⟨clear_form hk ⟨Lexeme.clear_toSexp h.1.1, Routine.clear_toSexps h.1.2⟩,
      Definition.clear_toSexps hk h.2⟩

end

/-- Programs with the same text are the same but for references and lines, and for infinite constants
in the place of variables. -/
theorem bareAll_eq_of_programText {ρ' : Type} {p : List (Stmt ρ)} {p' : List (Stmt ρ')}
    (h : Stmt.LegibleAll p) (h' : Stmt.LegibleAll p') (same : programText p = programText p') :
    Stmt.bareAll p = Stmt.bareAll p' := by
  have lines {ρ : Type} (p : List (Stmt ρ)) :
      p.map Stmt.text = (Stmt.toSexps p).map Sexp.render := by
    induction p with
    | nil => rfl
    | cons s p ih => exact congrArg (s.text :: ·) ih
  rw [programText, programText, lines, lines] at same
  have same := Sexp.lines_unique (Stmt.clear_toSexps h) (Stmt.clear_toSexps h') same
  calc Stmt.bareAll p
    _ = Sexp.toStmts (Stmt.toSexps p) := (Stmt.toStmts_toSexps h).symm
    _ = Sexp.toStmts (Stmt.toSexps p') := by rw [same]
    _ = Stmt.bareAll p' := Stmt.toStmts_toSexps h'

/-- What is printed is unambiguous. Of two texts that are read without a fault, if the trees are printed
the same then they are the same but for references and lines, and for constants too great for a number
in the place of variables with the name `inf`. -/
theorem programText_unambiguous (source source' : String) (first first' : RefId)
    (h : (parse (scan source).tokens first).errors = [])
    (h' : (parse (scan source').tokens first').errors = [])
    (same : programText (parse (scan source).tokens first).statements =
      programText (parse (scan source').tokens first').statements) :
    Stmt.bareAll (parse (scan source).tokens first).statements =
      Stmt.bareAll (parse (scan source').tokens first').statements :=
  bareAll_eq_of_programText (legible_parse source first h) (legible_parse source' first' h') same

/-- The lines, the references and the zeros of a number are not printed. -/
theorem bareAll_spread : Stmt.bareAll (parse (scan "print 1 - x;").tokens 0).statements =
    Stmt.bareAll (parse (scan "\nprint 1.0\n- x;").tokens 7).statements :=
  programText_unambiguous _ _ 0 7 (by decide +kernel) (by decide +kernel) (by decide +kernel)

end Lox
