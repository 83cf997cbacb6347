import Lox.Proofs.Printer.Legible
import Lox.Syntax.Printer

/-!
The symbolic expression of a tree can be read back. It tells all of the tree but its references and
lines, and whether `inf` is a variable or a constant that is too great for a number.
-/

namespace Lox

variable {ρ : Type}

/-! Trees without what is not printed. -/

def Lexeme.bare (l : Lexeme) : Lexeme := ⟨l.text, 0⟩

/-- The constant. For one too great for a number, the variable that is printed the same. -/
def Literal.bare : Literal → Expr Unit
  | .number x => if x.isInf then .variable () ⟨"inf", 0⟩ else .literal (.number x)
  | v => .literal v

mutual

/-- The tree without its references and lines, and with a variable where a constant is infinite. -/
def Expr.bare : Expr ρ → Expr Unit
  | .literal v => v.bare
  | .variable _ n => .variable () n.bare
  | .assign _ n e => .assign () n.bare e.bare
  | .this _ k => .this () k.bare
  | .super _ k m => .super () k.bare m.bare
  | .unary op s e => .unary op s.bare e.bare
  | .binary op s l r => .binary op s.bare l.bare r.bare
  | .logical op s l r => .logical op s.bare l.bare r.bare
  | .ternary c y n => .ternary c.bare y.bare n.bare
  | .group e => .group e.bare
  | .call c as _ => .call c.bare (Expr.bareAll as) 0
  | .get o n => .get o.bare n.bare
  | .set o n e => .set o.bare n.bare e.bare
  | .lambda _ r => .lambda 0 r.bare

def Expr.bareAll : List (Expr ρ) → List (Expr Unit)
  | [] => []
  | e :: es => e.bare :: Expr.bareAll es

def Stmt.bare : Stmt ρ → Stmt Unit
  | .expr e => .expr e.bare
  | .print e => .print e.bare
  | .var n none => .var n.bare none
  | .var n (some e) => .var n.bare (some e.bare)
  | .block b => .block (Stmt.bareAll b)
  | .if c y none => .if c.bare y.bare none
  | .if c y (some n) => .if c.bare y.bare (some n.bare)
  | .while c b => .while c.bare b.bare
  | .break k => .break k.bare
  | .return k none => .return k.bare none
  | .return k (some e) => .return k.bare (some e.bare)
  | .function d => .function d.bare
  | .class n s ms cs =>
    .class n.bare (s.map fun p => ((), p.2.bare)) (Definition.bareAll ms) (Definition.bareAll cs)

def Stmt.bareAll : List (Stmt ρ) → List (Stmt Unit)
  | [] => []
  | s :: ss => s.bare :: Stmt.bareAll ss

def Routine.bare : Routine ρ → Routine Unit
  | ⟨ps, b⟩ => ⟨ps.map Lexeme.bare, Stmt.bareAll b⟩

def Definition.bare : Definition ρ → Definition Unit
  | ⟨n, r⟩ => ⟨n.bare, r.bare⟩

def Definition.bareAll : List (Definition ρ) → List (Definition Unit)
  | [] => []
  | d :: ds => d.bare :: Definition.bareAll ds

end

/-! How operators are written. -/

def Parser.prefixes : List (String × UnaryOp) := [("!", .not), ("-", .negate)]

def Parser.infixes : List (String × Infix) :=
  [(",", .binary .comma), ("==", .binary .equal), ("!=", .binary .notEqual), ("+", .binary .add),
    ("-", .binary (.numeric .subtract)), ("*", .binary (.numeric .multiply)),
    ("/", .binary (.numeric .divide)), ("<", .binary (.numeric .less)),
    ("<=", .binary (.numeric .lessEqual)), (">", .binary (.numeric .greater)),
    (">=", .binary (.numeric .greaterEqual)), ("and", .logical .and), ("or", .logical .or)]

theorem Parser.mem_prefixes (op : UnaryOp) {s : Lexeme} (h : s.Is op.kind) :
    (s.text, op) ∈ prefixes := by
  have all : ∀ p ∈ prefixes, (p.1, p.2.kind) ∈ Token.Kind.words := by decide
  have among : op ∈ prefixes.map Prod.snd := by cases op <;> decide
  obtain ⟨⟨word, _⟩, hp, rfl⟩ := List.mem_map.mp among
  exact (h.eq_word (all _ hp)).symm ▸ hp

theorem Parser.mem_infixes (op : Infix) {s : Lexeme} (h : s.Is op.kind) :
    (s.text, op) ∈ infixes := by
  have all : ∀ p ∈ infixes, (p.1, p.2.kind) ∈ Token.Kind.words := by decide
  have among : op ∈ infixes.map Prod.snd := by
    cases op with
    | binary op =>
      cases op with
      | numeric op => cases op <;> decide
      | _ => decide
    | logical op => cases op <;> decide
  obtain ⟨⟨word, _⟩, hp, rfl⟩ := List.mem_map.mp among
  exact (h.eq_word (all _ hp)).symm ▸ hp

/-! Reading. What no tree is printed as is read as anything. -/

instance : Inhabited (Expr Unit) := ⟨.literal .nil⟩

instance : Inhabited (Stmt Unit) := ⟨.block []⟩

instance : Inhabited Sexp := ⟨.list []⟩

def Sexp.name : Sexp → Lexeme
  | .atom s => ⟨s, 0⟩
  | .list _ => ⟨"", 0⟩

def Sexp.names : Sexp → List Lexeme
  | .atom _ => []
  | .list items => items.map name

/-- The number that is written so. -/
noncomputable def Numeral.ofDisplay (s : String) : Float :=
  Function.invFunOn display {x | rank x < infiniteRank} s

def Expr.ofWord (kind : Token.Kind) (s : String) : Expr Unit :=
  match kind with
  | .nil => .literal .nil
  | .true => .literal (.bool true)
  | .false => .literal (.bool false)
  | .this => .this () ⟨s, 0⟩
  | _ => .variable () ⟨s, 0⟩

noncomputable def Expr.ofAtom (s : String) : Expr Unit :=
  match s.toList with
  | [] => default
  | c :: cs =>
    if c = '"' then .literal (.string (String.ofList cs.dropLast))
    else if c.isDigit then .literal (.number (Numeral.ofDisplay s))
    else .ofWord (Token.Kind.ofWord s) s

/-- The expression of a list, by its head. Its other items stand here as they are, and read as
expressions and as statements. -/
def Expr.ofForm (head : String) (items : List Sexp) (es : List (Expr Unit))
    (ss : List (Stmt Unit)) : Expr Unit :=
  match head with
  | "=" => .assign () items[0]!.name es[1]!
  | "super" => .super () ⟨head, 0⟩ items[0]!.name
  | "ternary" => .ternary es[0]! es[1]! es[2]!
  | "group" => .group es[0]!
  | "call" => .call es[0]! es.tail 0
  | "." => .get es[0]! items[1]!.name
  | "set" => .set es[0]! items[1]!.name es[2]!
  | "lambda" => .lambda 0 ⟨items[0]!.names, ss.tail⟩
  | _ =>
    match es with
    | [e] => .unary ((Parser.prefixes.lookup head).getD .not) ⟨head, 0⟩ e
    | _ => ((Parser.infixes.lookup head).getD (.binary .comma)).apply ⟨head, 0⟩ es[0]! es[1]!

/-- The superclass that stands behind the name of a class. -/
def Sexp.parent : List Sexp → Option (Unit × Lexeme)
  | _ :: .atom _ :: s :: _ => some ((), s.name)
  | _ => none

def Stmt.ofForm (head : String) (items : List Sexp) (es : List (Expr Unit)) (ss : List (Stmt Unit))
    (methods classMethods : List (Definition Unit)) : Stmt Unit :=
  match head with
  | ";" => .expr es[0]!
  | "print" => .print es[0]!
  | "var" => .var items[0]!.name es[2]?
  | "block" => .block ss
  | "if" => .if es[0]! ss[1]! ss[2]?
  | "while" => .while es[0]! ss[1]!
  | "return" => .return ⟨head, 0⟩ es[0]?
  | "fun" => .function ⟨items[0]!.name, ⟨items[1]!.names, ss.drop 2⟩⟩
  | "class" => .class items[0]!.name (Sexp.parent items) methods classMethods
  | _ => .break ⟨head, 0⟩

namespace Sexp

mutual

noncomputable def toExpr : Sexp → Expr Unit
  | .list (.atom head :: items) => .ofForm head items (toExprs items) (toStmts items)
  | .list _ => default
  | .atom s => .ofAtom s

noncomputable def toExprs : List Sexp → List (Expr Unit)
  | [] => []
  | e :: es => e.toExpr :: toExprs es

noncomputable def toStmt : Sexp → Stmt Unit
  | .list (.atom head :: items) =>
    .ofForm head items (toExprs items) (toStmts items) (toDefinitions "fun" items)
      (toDefinitions "class" items)
  | _ => default

noncomputable def toStmts : List Sexp → List (Stmt Unit)
  | [] => []
  | e :: es => e.toStmt :: toStmts es

/-- The definition, if it has this keyword. -/
noncomputable def toDefinition? (keyword : String) : Sexp → Option (Definition Unit)
  | .list (.atom head :: items) =>
    if head = keyword then some ⟨items[0]!.name, ⟨items[1]!.names, (toStmts items).drop 2⟩⟩
    else none
  | _ => none

noncomputable def toDefinitions (keyword : String) : List Sexp → List (Definition Unit)
  | [] => []
  | e :: es => (e.toDefinition? keyword).toList ++ toDefinitions keyword es

end

end Sexp

/-! Atoms. -/

theorem Numeral.ofDisplay_display {x : Float} (h : rank x < infiniteRank) :
    ofDisplay (display x) = x := injOn_display.leftInvOn_invFunOn h

theorem Expr.ofAtom_word {s : String} (h : Source.IsWord s.toList) :
    Expr.ofAtom s = .ofWord (Token.Kind.ofWord s) s := by
  rw [Expr.ofAtom]
  generalize s.toList = cs at h
  cases cs with
  | nil => exact h.elim
  | cons c cs =>
    have letter : Source.isLetter c := h.1
    have quote : c ≠ '"' := by
      rintro rfl
      cases letter
    have digit : ¬ c.isDigit = true := fun digit => by
      rw [Source.isLetter_of_isDigit digit] at letter
      cases letter
    exact (if_neg quote).trans (if_neg digit)

theorem Expr.ofAtom_digit {s : String} {c : Char} {cs : List Char} (hs : s.toList = c :: cs)
    (h : c.isDigit) : Expr.ofAtom s = .literal (.number (Numeral.ofDisplay s)) := by
  have quote : c ≠ '"' := by
    rintro rfl
    cases h
  rw [Expr.ofAtom, hs]
  exact (if_neg quote).trans (if_pos h)

instance : DecidablePred Source.IsWord := fun text =>
  decidable_of_iff ((text.head?.any Source.isLetter && text.tail.all Source.isWordChar) = true) (by
    cases text with
    | nil => simp [Source.IsWord]
    | cons c cs => simp [Source.IsWord])

theorem Source.IsLexeme.isWord {text : List Char} (h : IsLexeme .identifier text) :
    IsWord text ∧ Token.Kind.ofWord (String.ofList text) = .identifier := by
  have operator : ∀ e ∈ operators, e.2 ≠ .identifier := by decide
  obtain ⟨c, cs, rfl, hm | ⟨-, kind, -⟩ | ⟨-, kind, -⟩ | ⟨-, word, kind⟩⟩ := h.cases_head
  · exact (operator _ hm rfl).elim
  · cases kind
  · cases kind
  · exact ⟨word, kind.symm⟩

theorem Lexeme.toExpr_toSexp {n : Lexeme} (h : n.Is .identifier) :
    n.toSexp.toExpr = .variable () n.bare := by
  obtain ⟨word, kind⟩ := Source.IsLexeme.isWord h
  rw [String.ofList_toList] at kind
  calc n.toSexp.toExpr
    _ = .ofWord (Token.Kind.ofWord n.text) n.text := Expr.ofAtom_word word
    _ = .variable () n.bare := by rw [kind]; rfl

theorem Source.IsLexeme.starts_with_digit {text : List Char} (h : IsLexeme .number text) :
    ∃ c cs, text = c :: cs ∧ c.isDigit := by
  have operator : ∀ e ∈ operators, e.2 ≠ .number := by decide
  have keyword : ∀ e ∈ Token.Kind.keywords, e.2 ≠ .number := by decide
  have digit {digits : List Char} (h : IsDigits digits) (rest : List Char) :
      ∃ c cs, digits ++ rest = c :: cs ∧ c.isDigit := by
    obtain ⟨c, cs, rfl⟩ := List.exists_cons_of_ne_nil h.1
    exact ⟨c, cs ++ rest, rfl, h.2 c List.mem_cons_self⟩
  cases h with
  | operator h => exact (operator _ h rfl).elim
  | whole h => simpa using digit h []
  | fraction h _ => exact digit h _
  | keyword _ hk => exact (keyword _ hk rfl).elim

theorem Literal.toExpr_toSexp {v : Literal} (h : v.Legible) : v.toSexp.toExpr = v.bare := by
  cases v with
  | nil => exact Expr.ofAtom_word (s := "nil") (by decide)
  | bool b =>
    cases b with
    | true => exact Expr.ofAtom_word (s := "true") (by decide)
    | false => exact Expr.ofAtom_word (s := "false") (by decide)
  | string s =>
    have text : ("\"" ++ s ++ "\"").toList = '"' :: (s.toList ++ ['"']) := by
      rw [String.toList_append, String.toList_append]
      rfl
    rw [toSexp, Sexp.toExpr, Expr.ofAtom, text]
    change Expr.literal (.string (String.ofList (s.toList ++ ['"']).dropLast)) = _
    rw [List.dropLast_concat, String.ofList_toList]
    rfl
  | number x =>
    change Expr.ofAtom (Numeral.display x) = _
    have place : Numeral.rank x ≤ Numeral.infiniteRank := h
    rw [bare]
    split
    · rename_i infinite
      rw [Numeral.display_of_eq ((Numeral.isInf_iff place).mp infinite)]
      exact Expr.ofAtom_word (s := "inf") (by decide)
    · rename_i finite
      have below := lt_of_le_of_ne place fun same => finite ((Numeral.isInf_iff place).mpr same)
      obtain ⟨c, cs, text, digit⟩ := (Numeral.isLexeme_display below).starts_with_digit
      rw [Expr.ofAtom_digit text digit, Numeral.ofDisplay_display below]

theorem Expr.ofForm_prefix {s : String} {op : UnaryOp} (h : (s, op) ∈ Parser.prefixes)
    (items : List Sexp) (e : Expr Unit) (ss : List (Stmt Unit)) :
    Expr.ofForm s items [e] ss = .unary op ⟨s, 0⟩ e := by
  have all : ∀ p ∈ Parser.prefixes, Expr.ofForm p.1 items [e] ss = .unary p.2 ⟨p.1, 0⟩ e := by
    simp only [Parser.prefixes, List.forall_mem_cons]
    exact ⟨rfl, rfl, List.forall_mem_nil _⟩
  exact all _ h

theorem Expr.ofForm_infix {s : String} {op : Parser.Infix} (h : (s, op) ∈ Parser.infixes)
    (items : List Sexp) (l r : Expr Unit) (ss : List (Stmt Unit)) :
    Expr.ofForm s items [l, r] ss = op.apply ⟨s, 0⟩ l r := by
  have all : ∀ p ∈ Parser.infixes, Expr.ofForm p.1 items [l, r] ss = p.2.apply ⟨p.1, 0⟩ l r := by
    simp only [Parser.infixes, List.forall_mem_cons]
    exact ⟨rfl, rfl, rfl, rfl, rfl, rfl, rfl, rfl, rfl, rfl, rfl, rfl, rfl, List.forall_mem_nil _⟩
  exact all _ h

/-! Trees. -/

theorem Sexp.names_toSexp (ps : List Lexeme) :
    (Sexp.list (ps.map Lexeme.toSexp)).names = ps.map Lexeme.bare := by
  rw [names, List.map_map]
  rfl

theorem Sexp.toDefinitions_append (keyword : String) (es fs : List Sexp) :
    toDefinitions keyword (es ++ fs) = toDefinitions keyword es ++ toDefinitions keyword fs := by
  induction es with
  | nil => rfl
  | cons e es ih => rw [List.cons_append, toDefinitions, toDefinitions, ih, List.append_assoc]

theorem Sexp.toDefinitions_of_ne {keyword other : String} (h : other ≠ keyword)
    (ds : List (Definition ρ)) : toDefinitions keyword (Definition.toSexps other ds) = [] := by
  induction ds with
  | nil => rfl
  | cons d ds ih =>
    obtain ⟨n, r⟩ := d
    have none : (Definition.toSexp other ⟨n, r⟩).toDefinition? keyword = none := if_neg h
    rw [Definition.toSexps, toDefinitions, none, ih]
    rfl

/-- The methods of a class are told from its class methods. -/
theorem Sexp.toDefinitions_members (ms cs : List (Definition ρ)) :
    toDefinitions "fun" (Definition.toSexps "fun" ms ++ Definition.toSexps "class" cs) =
        toDefinitions "fun" (Definition.toSexps "fun" ms) ∧
      toDefinitions "class" (Definition.toSexps "fun" ms ++ Definition.toSexps "class" cs) =
        toDefinitions "class" (Definition.toSexps "class" cs) := by
  have functions : toDefinitions "class" (Definition.toSexps "fun" ms) = [] :=
    toDefinitions_of_ne (by decide) ms
  have classes : toDefinitions "fun" (Definition.toSexps "class" cs) = [] :=
    toDefinitions_of_ne (by decide) cs
  rw [toDefinitions_append, toDefinitions_append, functions, classes]
  exact ⟨List.append_nil _, List.nil_append _⟩

theorem Sexp.parent_members (n : Lexeme) (ms cs : List (Definition ρ)) :
    parent (n.toSexp :: (Definition.toSexps "fun" ms ++ Definition.toSexps "class" cs)) = none := by
  cases ms with
  | nil =>
    cases cs with
    | nil => rfl
    | cons d cs =>
      cases d
      rfl
  | cons d ms =>
    cases d
    rfl

mutual

/-- A tree is read from what it is printed as. -/
theorem Expr.toExpr_toSexp : ∀ {e : Expr ρ}, e.Legible → e.toSexp.toExpr = e.bare
  | .literal v, h => Literal.toExpr_toSexp h
  | .variable r n, h => Lexeme.toExpr_toSexp h
  | .assign r n e, h => by
    rw [Expr.bare, ← Expr.toExpr_toSexp h.2]
    rfl
  | .this r k, h => by
    have text : k.text = "this" := Lexeme.Is.eq_word h (by decide)
    rw [Expr.bare, Lexeme.bare, text]
    exact Expr.ofAtom_word (s := "this") (by decide)
  | .super r k m, h => by
    have text : k.text = "super" := h.1.eq_word (by decide)
    rw [Expr.bare, Lexeme.bare, text]
    rfl
  | .unary op s e, h => by
    rw [Expr.bare, ← Expr.toExpr_toSexp h.2]
    exact Expr.ofForm_prefix (Parser.mem_prefixes op h.1) _ _ _
  | .binary op s l r, h => by
    rw [Expr.bare, ← Expr.toExpr_toSexp h.2.1, ← Expr.toExpr_toSexp h.2.2]
    exact Expr.ofForm_infix (Parser.mem_infixes (.binary op) h.1) _ _ _ _
  | .logical op s l r, h => by
    rw [Expr.bare, ← Expr.toExpr_toSexp h.2.1, ← Expr.toExpr_toSexp h.2.2]
    exact Expr.ofForm_infix (Parser.mem_infixes (.logical op) h.1) _ _ _ _
  | .ternary c y n, h => by
    rw [Expr.bare, ← Expr.toExpr_toSexp h.1, ← Expr.toExpr_toSexp h.2.1,
      ← Expr.toExpr_toSexp h.2.2]
    rfl
  | .group e, h => by
    have inner : e.Legible := h
    rw [Expr.bare, ← Expr.toExpr_toSexp inner]
    rfl
  | .call c as line, h => by
    rw [Expr.bare, ← Expr.toExpr_toSexp h.1, ← Expr.toExprs_toSexps h.2]
    rfl
  | .get o n, h => by
    rw [Expr.bare, ← Expr.toExpr_toSexp h.2]
    rfl
  | .set o n e, h => by
    rw [Expr.bare, ← Expr.toExpr_toSexp h.2.1, ← Expr.toExpr_toSexp h.2.2]
    rfl
  | .lambda line ⟨ps, b⟩, h => by
    rw [Expr.bare, Routine.bare, ← Stmt.toStmts_toSexps h.2, ← Sexp.names_toSexp]
    rfl

theorem Expr.toExprs_toSexps : ∀ {es : List (Expr ρ)}, Expr.LegibleAll es →
    Sexp.toExprs (Expr.toSexps es) = Expr.bareAll es
  | [], _ => rfl
  | e :: es, h => by
    rw [Expr.bareAll, ← Expr.toExpr_toSexp h.1, ← Expr.toExprs_toSexps h.2]
    rfl

theorem Stmt.toStmt_toSexp : ∀ {s : Stmt ρ}, s.Legible → s.toSexp.toStmt = s.bare
  | .expr e, h | .print e, h => by
    have value : e.Legible := h
    rw [Stmt.bare, ← Expr.toExpr_toSexp value]
    rfl
  | .var n none, h => rfl
  | .var n (some e), h => by
    rw [Stmt.bare, ← Expr.toExpr_toSexp h.2]
    rfl
  | .block b, h => by
    have body : Stmt.LegibleAll b := h
    rw [Stmt.bare, ← Stmt.toStmts_toSexps body]
    rfl
  | .if c y none, h => by
    rw [Stmt.bare, ← Expr.toExpr_toSexp h.1, ← Stmt.toStmt_toSexp h.2]
    rfl
  | .if c y (some n), h => by
    rw [Stmt.bare, ← Expr.toExpr_toSexp h.1, ← Stmt.toStmt_toSexp h.2.1,
      ← Stmt.toStmt_toSexp h.2.2]
    rfl
  | .while c b, h => by
    rw [Stmt.bare, ← Expr.toExpr_toSexp h.1, ← Stmt.toStmt_toSexp h.2]
    rfl
  | .break k, h => by
    have text : k.text = "break" := Lexeme.Is.eq_word h (by decide)
    rw [Stmt.bare, Lexeme.bare, text]
    rfl
  | .return k none, h => by
    have text : k.text = "return" := Lexeme.Is.eq_word h (by decide)
    rw [Stmt.bare, Lexeme.bare, text]
    rfl
  | .return k (some e), h => by
    have text : k.text = "return" := h.1.eq_word (by decide)
    rw [Stmt.bare, Lexeme.bare, text, ← Expr.toExpr_toSexp h.2]
    rfl
  | .function ⟨n, ⟨ps, b⟩⟩, h => by
    rw [Stmt.bare, Definition.bare, Routine.bare, ← Stmt.toStmts_toSexps h.2.2,
      ← Sexp.names_toSexp]
    rfl
  | .class n none ms cs, h => by
    obtain ⟨methods, classMethods⟩ := Sexp.toDefinitions_members ms cs
    rw [Stmt.bare, ← Definition.toDefinitions_toSexps "fun" h.2.2.1,
      ← Definition.toDefinitions_toSexps "class" h.2.2.2, ← methods, ← classMethods]
    exact congrArg (Stmt.class n.bare · _ _) (Sexp.parent_members n ms cs)
  | .class n (some (r, s)) ms cs, h => by
    obtain ⟨methods, classMethods⟩ := Sexp.toDefinitions_members ms cs
    rw [Stmt.bare, ← Definition.toDefinitions_toSexps "fun" h.2.2.1,
      ← Definition.toDefinitions_toSexps "class" h.2.2.2, ← methods, ← classMethods]
    rfl

theorem Stmt.toStmts_toSexps : ∀ {ss : List (Stmt ρ)}, Stmt.LegibleAll ss →
    Sexp.toStmts (Stmt.toSexps ss) = Stmt.bareAll ss
  | [], _ => rfl
  | s :: ss, h => by
    rw [Stmt.bareAll, ← Stmt.toStmt_toSexp h.1, ← Stmt.toStmts_toSexps h.2]
    rfl

theorem Definition.toDefinitions_toSexps (keyword : String) : ∀ {ds : List (Definition ρ)},
    Definition.LegibleAll ds →
    Sexp.toDefinitions keyword (Definition.toSexps keyword ds) = Definition.bareAll ds
  | [], _ => rfl
  | ⟨n, ⟨ps, b⟩⟩ :: ds, h => by
    rw [Definition.bareAll, Definition.bare, Routine.bare, ← Stmt.toStmts_toSexps h.1.2.2,
      ← Sexp.names_toSexp, ← Definition.toDefinitions_toSexps keyword h.2]
    rw [Definition.toSexps, Sexp.toDefinitions]
    exact congrArg (Option.toList · ++ _) (if_pos rfl)

end

end Lox
