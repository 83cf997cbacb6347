import Lox.Sexp
import Lox.Proofs.Source.Partition

/-!
Symbolic expressions can be read back from their text. That takes atoms that can be told from what
stands around them: words, and texts between quotes, in which there may be anything but quotes. Of two
such expressions with the same text each has its parts where the other has them.
-/

namespace Lox

namespace Sexp

open Source (span_of_all)

/-- The characters of a word. -/
def isPlain (c : Char) : Bool := !(c == ' ' || c == '\n' || c == '(' || c == ')' || c == '"')

/-- A word, or a text between quotes. -/
inductive IsAtom : List Char → Prop
  | word {cs} (h : cs ≠ []) (plain : ∀ c ∈ cs, isPlain c) : IsAtom cs
  | quoted {inside} (h : '"' ∉ inside) : IsAtom ('"' :: inside ++ ['"'])

mutual

/-- Each atom is a word or a quoted text. -/
def Clear : Sexp → Prop
  | .atom s => IsAtom s.toList
  | .list items => ClearAll items

def ClearAll : List Sexp → Prop
  | [] => True
  | e :: es => e.Clear ∧ ClearAll es

end

def chars (e : Sexp) : List Char := e.render.toList

/-- The expressions one after another, with a character between them. -/
def joined (between : Char) : List Sexp → List Char
  | [] => []
  | [e] => e.chars
  | e :: es => e.chars ++ between :: joined between es

theorem chars_atom (s : String) : (atom s).chars = s.toList := by rw [chars, render]

theorem toList_renderItems (items : List Sexp) : (renderItems items).toList = joined ' ' items := by
  induction items with
  | nil => rfl
  | cons e es ih =>
    cases es with
    | nil => rfl
    | cons f es =>
      rw [renderItems, String.toList_append, String.toList_append, ih]
      · simp [joined, chars]
      · exact List.cons_ne_nil f es

theorem chars_list (items : List Sexp) : (list items).chars = '(' :: joined ' ' items ++ [')'] := by
  rw [chars, render, String.toList_append, String.toList_append, toList_renderItems]
  rfl

/-- Does not go on with a word. -/
def Apart (rest : List Char) : Prop := ∀ c ∈ rest.head?, isPlain c = false

theorem IsAtom.unique {cs cs' rest rest' : List Char} (h : IsAtom cs) (h' : IsAtom cs')
    (apart : Apart rest) (apart' : Apart rest') (same : cs ++ rest = cs' ++ rest') :
    cs = cs' ∧ rest = rest' := by
  have quote {c : Char} {cs rest inside : List Char} (plain : ∀ x ∈ c :: cs, isPlain x)
      (same : c :: cs ++ rest = '"' :: inside) : False := by
    obtain ⟨rfl, -⟩ := List.cons.inj same
    have := plain '"' List.mem_cons_self
    revert this
    decide
  cases h with
  | word ne plain =>
    cases h' with
    | word ne' plain' =>
      have cut := span_of_all plain apart
      rw [same, span_of_all plain' apart'] at cut
      exact Prod.mk.inj cut.symm
    | quoted =>
      obtain ⟨c, cs, rfl⟩ := List.exists_cons_of_ne_nil ne
      exact (quote plain same).elim
  | @quoted inside none =>
    cases h' with
    | word ne' plain' =>
      obtain ⟨c, cs, rfl⟩ := List.exists_cons_of_ne_nil ne'
      exact (quote plain' same.symm).elim
    | @quoted inside' none' =>
      have free {inside : List Char} (none : '"' ∉ inside) : ∀ c ∈ inside, (c != '"') = true :=
        fun c hc => bne_iff_ne.mpr fun he => none (he ▸ hc)
      have closes (rest : List Char) : ∀ c ∈ ('"' :: rest).head?, (c != '"') = false := by
        rintro _ ⟨⟩
        rfl
      have same : inside ++ '"' :: rest = inside' ++ '"' :: rest' := by simpa using same
      have cut := span_of_all (free none) (closes rest)
      rw [same, span_of_all (free none') (closes rest')] at cut
      obtain ⟨rfl, hrest⟩ := Prod.mk.inj cut
      exact ⟨rfl, (List.cons.inj hrest).2.symm⟩

/-- No expression starts like the end of a list. -/
theorem Clear.starts {e : Sexp} (h : e.Clear) : ∃ c cs, e.chars = c :: cs ∧ c ≠ ')' := by
  cases e with
  | list items => exact ⟨'(', _, chars_list items, by decide⟩
  | atom s =>
    have atom : IsAtom s.toList := h
    rw [chars_atom]
    generalize s.toList = cs at atom
    cases atom with
    | quoted => exact ⟨'"', _, rfl, by decide⟩
    | word ne plain =>
      obtain ⟨c, cs, rfl⟩ := List.exists_cons_of_ne_nil ne
      refine ⟨c, cs, rfl, ?_⟩
      rintro rfl
      have := plain ')' List.mem_cons_self
      revert this
      decide

/-- No atom starts like a list. -/
theorem Clear.atom_ne_list {s : String} (h : Clear (.atom s)) {rest cs : List Char} :
    s.toList ++ rest ≠ '(' :: cs := by
  intro same
  have atom : IsAtom s.toList := h
  generalize s.toList = text at atom same
  cases atom with
  | quoted => cases same
  | word ne plain =>
    obtain ⟨c, text, rfl⟩ := List.exists_cons_of_ne_nil ne
    obtain ⟨rfl, -⟩ := List.cons.inj same
    have := plain '(' List.mem_cons_self
    revert this
    decide

/-- What follows the first expression of some. -/
def behind (between : Char) : List Sexp → List Char
  | [] => []
  | es => between :: joined between es

theorem joined_cons (between : Char) (e : Sexp) (es : List Sexp) :
    joined between (e :: es) = e.chars ++ behind between es := by
  cases es with
  | nil => rw [joined, behind, List.append_nil]
  | cons f es => rfl

/-- Ends a list, or the text. -/
def Closes (rest : List Char) : Prop := ∀ c ∈ rest.head?, c = ')'

theorem Closes.apart {rest : List Char} (h : Closes rest) : Apart rest :=
  fun c hc => h c hc ▸ by decide

theorem apart_behind {between : Char} (hb : isPlain between = false) (es : List Sexp)
    {rest : List Char} (h : Closes rest) : Apart (behind between es ++ rest) := by
  cases es with
  | nil => exact h.apart
  | cons e es =>
    rintro _ ⟨⟩
    exact hb

mutual

/-- Of two texts that go on behind an expression each, the expression is the same if the texts are. -/
theorem chars_unique : ∀ {e e' : Sexp} {rest rest' : List Char}, e.Clear → e'.Clear → Apart rest →
    Apart rest' → e.chars ++ rest = e'.chars ++ rest' → e = e' ∧ rest = rest'
  | .atom s, .atom s', rest, rest', h, h', apart, apart', same => by
    rw [chars_atom, chars_atom] at same
    obtain ⟨text, rest⟩ := IsAtom.unique h h' apart apart' same
    exact ⟨congrArg atom (String.toList_inj.mp text), rest⟩
  | .atom s, .list items, rest, rest', h, h', apart, apart', same => by
    rw [chars_atom, chars_list] at same
    exact (h.atom_ne_list same).elim
  | .list items, .atom s, rest, rest', h, h', apart, apart', same => by
    rw [chars_atom, chars_list] at same
    exact (h'.atom_ne_list same.symm).elim
  | .list items, .list items', rest, rest', h, h', apart, apart', same => by
    rw [chars_list, chars_list, List.append_assoc, List.append_assoc] at same
    have closes (rest : List Char) : Closes (')' :: rest) := by
      rintro _ ⟨⟩
      rfl
    obtain ⟨items, rest⟩ := joined_unique (by decide) h h' (closes rest) (closes rest')
      (List.cons.inj same).2
    exact ⟨congrArg list items, (List.cons.inj rest).2⟩

theorem joined_unique {between : Char} (hb : isPlain between = false ∧ between ≠ ')') :
    ∀ {es es' : List Sexp} {rest rest' : List Char}, ClearAll es → ClearAll es' → Closes rest →
      Closes rest' → joined between es ++ rest = joined between es' ++ rest' →
      es = es' ∧ rest = rest'
  | [], [], rest, rest', h, h', closes, closes', same => ⟨rfl, same⟩
  | [], e' :: es', rest, rest', h, h', closes, closes', same => by
    obtain ⟨c, cs, starts, hc⟩ := h'.1.starts
    rw [joined_cons, starts] at same
    rw [show rest = _ from same] at closes
    exact absurd (closes c rfl) hc
  | e :: es, [], rest, rest', h, h', closes, closes', same => by
    obtain ⟨c, cs, starts, hc⟩ := h.1.starts
    rw [joined_cons, starts] at same
    rw [show rest' = _ from same.symm] at closes'
    exact absurd (closes' c rfl) hc
  | e :: es, e' :: es', rest, rest', h, h', closes, closes', same => by
    rw [joined_cons, joined_cons, List.append_assoc, List.append_assoc] at same
    obtain ⟨rfl, others⟩ := chars_unique h.1 h'.1 (apart_behind hb.1 es closes)
      (apart_behind hb.1 es' closes') same
    have ends {e : Sexp} {es : List Sexp} {rest rest' : List Char} (closes : Closes rest)
        (same : rest = behind between (e :: es) ++ rest') : False := by
      rw [same] at closes
      exact hb.2 (closes between rfl)
    cases es with
    | nil =>
      cases es' with
      | nil => exact ⟨rfl, others⟩
      | cons f' es' => exact (ends closes others).elim
    | cons f es =>
      cases es' with
      | nil => exact (ends closes' others.symm).elim
      | cons f' es' =>
        obtain ⟨behind, rest⟩ := joined_unique hb h.2 h'.2 closes closes' (List.cons.inj others).2
        exact ⟨behind ▸ rfl, rest⟩

end

/-- Lines of expressions are told from their text. -/
theorem lines_unique {es es' : List Sexp} (h : ClearAll es) (h' : ClearAll es')
    (same : "\n".intercalate (es.map render) = "\n".intercalate (es'.map render)) : es = es' := by
  have text (es : List Sexp) :
      ("\n".intercalate (es.map render)).toList = joined '\n' es := by
    induction es with
    | nil => rfl
    | cons e es ih =>
      cases es with
      | nil => rw [List.map_singleton, String.intercalate_singleton, joined, chars]
      | cons f es =>
        rw [List.map_cons, List.map_cons, String.intercalate_cons_cons, ← List.map_cons,
          String.toList_append, String.toList_append, ih]
        simp [joined, chars]
  have closes : Closes [] := nofun
  refine (joined_unique (by decide : isPlain '\n' = false ∧ '\n' ≠ ')') h h' closes closes ?_).1
  rw [← text, same, text]

end Sexp

end Lox
