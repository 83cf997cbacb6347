/-!
Tokens: what the text of a program is made of, blanks and comments apart.
-/

namespace Lox

/-- A constant in a program, which is also the value it stands for. -/
inductive Literal where
  | nil
  | bool (b : Bool)
  | number (x : Float)
  | string (s : String)

namespace Token

inductive Kind where
  | leftParen | rightParen | leftBrace | rightBrace
  | comma | dot | minus | plus | semicolon | slash | star | question | colon
  | bang | bangEqual | equal | equalEqual | greater | greaterEqual | less | lessEqual
  | identifier | string | number
  | and | break | «class» | else | false | for | fun | if | nil | or | print | return | super | this
  | true | var | while
  | eof
  deriving Repr, DecidableEq

namespace Kind

/-- The reserved words. -/
def keywords : List (String × Kind) :=
  [("and", .and), ("break", .break), ("class", .class), ("else", .else), ("false", .false),
    ("for", .for), ("fun", .fun), ("if", .if), ("nil", .nil), ("or", .or), ("print", .print),
    ("return", .return), ("super", .super), ("this", .this), ("true", .true), ("var", .var),
    ("while", .while)]

/-- The kind of a word, reserved or not. -/
def ofWord (s : String) : Kind := (keywords.lookup s).getD .identifier

/-- The operator that a single character stands for. -/
def ofChar? : Char → Option Kind
  | '(' => some .leftParen
  | ')' => some .rightParen
  | '{' => some .leftBrace
  | '}' => some .rightBrace
  | ',' => some .comma
  | '.' => some .dot
  | '-' => some .minus
  | '+' => some .plus
  | ';' => some .semicolon
  | '/' => some .slash
  | '*' => some .star
  | '?' => some .question
  | ':' => some .colon
  | '!' => some .bang
  | '=' => some .equal
  | '<' => some .less
  | '>' => some .greater
  | _ => none

/-- The operator written with an `=` behind this one. -/
def withEqual? : Kind → Option Kind
  | .bang => some .bangEqual
  | .equal => some .equalEqual
  | .less => some .lessEqual
  | .greater => some .greaterEqual
  | _ => none

/-- The words that only ever stand at the start of a statement. -/
def startsStatement : Kind → Bool
  | .class | .fun | .var | .for | .if | .while | .print | .break | .return => Bool.true
  | _ => Bool.false

end Kind

end Token

/-- A token as the reader of a program sees it: a kind, the text it was written with and the line
that text starts on. Strings and numbers also carry what they stand for. -/
structure Token where
  kind : Token.Kind
  lexeme : String
  line : Nat
  literal : Option Literal := none

/-- The mark that ends every program. -/
def Token.eof (line : Nat) : Token := ⟨.eof, "", line, none⟩

end Lox
