import Lox.Numeral.Reading
import Lox.Report
import Lox.Token

/-!
Source texts. A text is cut into pieces that lose none of its characters: blanks, comments, lexemes
and faults. Its tokens are its lexemes, closed by one end mark, and its errors are its faults; both
take their lines from the newlines in the pieces before them.
-/

namespace Lox

namespace Source

/-- The piece kinds. Only the last piece of a text can be unterminated. -/
inductive Piece.Kind where
  | blank
  | comment
  | lexeme (kind : Token.Kind)
  | unexpected
  | unterminatedString
  | unterminatedComment
  deriving Repr, DecidableEq

structure Piece where
  kind : Piece.Kind
  text : List Char
  deriving Repr, DecidableEq

def isBlank (c : Char) : Bool := c == ' ' || c == '\t' || c == '\r' || c == '\n'

def isLetter (c : Char) : Bool := c.isAlpha || c == '_'

def isWordChar (c : Char) : Bool := isLetter c || c.isDigit

/-- A text cut behind the first `*/` in it. -/
def cutAtClose? : List Char → Option (List Char × List Char)
  | '*' :: '/' :: cs => some (['*', '/'], cs)
  | [] => none
  | c :: cs => (cutAtClose? cs).map fun (inside, rest) => (c :: inside, rest)

namespace Piece

def string (cs : List Char) : Piece × List Char :=
  match cs.span (· != '"') with
  | (inside, _ :: rest) => (⟨.lexeme .string, '"' :: inside ++ ['"']⟩, rest)
  | (inside, []) => (⟨.unterminatedString, '"' :: inside⟩, [])

/-- A point belongs to a number only with a digit behind it. -/
def number (cs : List Char) : Piece × List Char :=
  let (whole, rest) := cs.span Char.isDigit
  match rest with
  | '.' :: d :: rest' =>
    if d.isDigit then
      let (fraction, rest'') := (d :: rest').span Char.isDigit
      (⟨.lexeme .number, whole ++ '.' :: fraction⟩, rest'')
    else (⟨.lexeme .number, whole⟩, rest)
  | _ => (⟨.lexeme .number, whole⟩, rest)

def word (cs : List Char) : Piece × List Char :=
  let (letters, rest) := cs.span isWordChar
  (⟨.lexeme (.ofWord (String.ofList letters)), letters⟩, rest)

def lineComment (cs : List Char) : Piece × List Char :=
  let (text, rest) := cs.span (· != '\n')
  (⟨.comment, text⟩, rest)

/-- A block comment, from behind its opening. -/
def blockComment (cs : List Char) : Piece × List Char :=
  match cutAtClose? cs with
  | some (inside, rest) => (⟨.comment, '/' :: '*' :: inside⟩, rest)
  | none => (⟨.unterminatedComment, '/' :: '*' :: cs⟩, [])

def operator (kind : Token.Kind) (c : Char) (cs : List Char) : Piece × List Char :=
  match kind.withEqual?, cs with
  | some longer, '=' :: rest => (⟨.lexeme longer, [c, '=']⟩, rest)
  | _, _ => (⟨.lexeme kind, [c]⟩, cs)

/-- The piece that starts with `c`, and the text behind it. -/
def next (c : Char) (cs : List Char) : Piece × List Char :=
  if isBlank c then (⟨.blank, [c]⟩, cs)
  else if c == '"' then string cs
  else if c.isDigit then number (c :: cs)
  else if isLetter c then word (c :: cs)
  else match c, cs with
    | '/', '/' :: _ => lineComment (c :: cs)
    | '/', '*' :: cs => blockComment cs
    | _, _ =>
      match Token.Kind.ofChar? c with
      | some kind => operator kind c cs
      | none => (⟨.unexpected, [c]⟩, cs)

def newlines (p : Piece) : Nat := p.text.count '\n'

/-- The value of a string is its text between the quotes, the value of a number the nearest double. -/
def literal? (kind : Token.Kind) (text : List Char) : Option Literal :=
  match kind with
  | .string => some (.string (String.ofList text.tail.dropLast))
  | .number =>
    let (whole, fraction) := text.span (· != '.')
    some (.number (Numeral.ofParts whole fraction.tail))
  | _ => none

/-- The token of a lexeme that starts on the given line. -/
def token? (p : Piece) (line : Nat) : Option Token :=
  match p.kind with
  | .lexeme kind => some ⟨kind, String.ofList p.text, line, literal? kind p.text⟩
  | _ => none

end Piece

def piecesWithin : Nat → List Char → List Piece
  | 0, _ => []
  | _, [] => []
  | n + 1, c :: cs =>
    let (p, rest) := Piece.next c cs
    p :: piecesWithin n rest

/-- The pieces of a text. Each takes at least one character, so there are no more of them. -/
def pieces (cs : List Char) : List Piece := piecesWithin cs.length cs

inductive Fault where
  | unexpectedCharacter (c : Char)
  | unterminatedString
  | unterminatedComment
  deriving Repr, DecidableEq

def Fault.message : Fault → String
  | .unexpectedCharacter c => "Unexpected character '" ++ c.toString ++ "'."
  | .unterminatedString => "Unterminated string."
  | .unterminatedComment => "Unterminated comment."

structure Error where
  line : Nat
  fault : Fault
  deriving Repr, DecidableEq

def Error.message (e : Error) : String := reportError e.line .line e.fault.message

/-- The error of a faulty piece that starts on the given line: an unexpected character stands on
that line, and what is unterminated is missed where the text ends. -/
def Piece.error? (p : Piece) (line : Nat) : Option Error :=
  match p.kind, p.text with
  | .unexpected, [c] => some ⟨line, .unexpectedCharacter c⟩
  | .unterminatedString, _ => some ⟨line + p.newlines, .unterminatedString⟩
  | .unterminatedComment, _ => some ⟨line + p.newlines, .unterminatedComment⟩
  | _, _ => none

def tokensFrom (line : Nat) : List Piece → List Token
  | [] => [Token.eof line]
  | p :: ps => (p.token? line).toList ++ tokensFrom (line + p.newlines) ps

def errorsFrom (line : Nat) : List Piece → List Error
  | [] => []
  | p :: ps => (p.error? line).toList ++ errorsFrom (line + p.newlines) ps

end Source

structure Scan where
  tokens : List Token
  errors : List Source.Error

def scan (source : String) : Scan :=
  let ps := Source.pieces source.toList
  ⟨Source.tokensFrom 1 ps, Source.errorsFrom 1 ps⟩

end Lox
