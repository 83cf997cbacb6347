import Lox.Syntax.Parser
import Mathlib.Data.List.Basic

/-!
The grammar, rule by rule. A derivation says that a list of tokens is a phrase, and which tree that
phrase has; references are numbered in the order of their tokens.

The grammar by itself is ambiguous in two places. Of `if (a) if (b) x; else y;` the `else` may belong
to either `if`, and in `a ? b : c or d` the last branch may be `c` or `c or d`. A derivation is best
if an `else` belongs to the nearest `if` that has none, and if the last branch of a conditional
expression reaches as far as it can.
-/

namespace Lox

namespace Grammar

open Lox.Parser (Level Infix)

/-- The kinds of expressions, by what may stand in them without parentheses. -/
inductive Tier where
  | chain (level : Level)
  | assignment
  | ternary
  | unary
  | call
  | primary
  deriving DecidableEq

/-- The phrases of the grammar. Lists carry how many items they have. -/
inductive Symbol where
  | declarations
  | declaration
  | superclass
  | members
  | function
  | routine
  | parameters (count : Nat)
  | variableDeclaration
  | statement
  | expressionStatement
  | initializer
  | optionalExpression
  | expr (tier : Tier)
  | arguments (count : Nat)

namespace Symbol

abbrev Tree : Symbol → Type
  | .declarations => List (Stmt RefId)
  | .declaration | .variableDeclaration | .statement | .expressionStatement => Stmt RefId
  | .superclass => Option (RefId × Lexeme)
  | .members => List (Definition RefId) × List (Definition RefId)
  | .function => Definition RefId
  | .routine => Routine RefId
  | .parameters _ => List Lexeme
  | .initializer => Option (Stmt RefId)
  | .optionalExpression => Option (Expr RefId)
  | .expr _ => Expr RefId
  | .arguments _ => List (Expr RefId)

abbrev expression : Symbol := .expr (.chain .comma)

end Symbol

/-- The operators of a level. -/
def operators : Level → List (Token.Kind × Infix)
  | .comma => [(.comma, .binary .comma)]
  | .or => [(.or, .logical .or)]
  | .and => [(.and, .logical .and)]
  | .equality => [(.bangEqual, .binary .notEqual), (.equalEqual, .binary .equal)]
  | .comparison => [(.greater, .binary (.numeric .greater)),
      (.greaterEqual, .binary (.numeric .greaterEqual)), (.less, .binary (.numeric .less)),
      (.lessEqual, .binary (.numeric .lessEqual))]
  | .term => [(.minus, .binary (.numeric .subtract)), (.plus, .binary .add)]
  | .factor => [(.slash, .binary (.numeric .divide)), (.star, .binary (.numeric .multiply))]

def unaryOperators : List (Token.Kind × UnaryOp) := [(.bang, .not), (.minus, .negate)]

/-- The words that are constants. -/
def constants : List (Token.Kind × Literal) :=
  [(.false, .bool false), (.true, .bool true), (.nil, .nil)]

/-- What stands between the operators of a level. -/
def operand : Level → Tier
  | .comma => .assignment
  | .or => .chain .and
  | .and => .ternary
  | .equality => .chain .comparison
  | .comparison => .chain .term
  | .term => .chain .factor
  | .factor => .unary

/-- The most parameters or arguments in a list. -/
def listBound : Nat := 255

/-- The loop that a `for` stands for: a block of the first part and a `while`, whose body is a block
of the body and the last part. There is no block where there is but one statement. -/
def forTree (initial : Option (Stmt RefId)) (condition increment : Option (Expr RefId))
    (body : Stmt RefId) : Stmt RefId :=
  let among : List (Stmt RefId) → Stmt RefId
    | [s] => s
    | ss => .block ss
  among (initial.toList ++
    [.while (condition.getD (.literal (.bool true))) (among (body :: increment.toList.map .expr))])

/-- `Derives best n open ts i a j` says that the tokens are a phrase with this tree, whose references
are numbered from `i` up to `j`. An open statement ends in an `if` without `else`, and an open
expression in the last branch of a conditional one. -/
inductive Derives (best : Bool) :
    (n : Symbol) → Bool → List Token → RefId → n.Tree → RefId → Prop where
  | noDeclaration (i : RefId) : Derives best .declarations false [] i [] i
  | declarations {ts us : List Token} {i j k : RefId} {s : Stmt RefId} {ss : List (Stmt RefId)}
      {o o' : Bool} (first : Derives best .declaration o ts i s j)
      (others : Derives best .declarations o' us j ss k) :
      Derives best .declarations false (ts ++ us) i (s :: ss) k
  | classDeclaration {word name opening closing : Token} {ts us : List Token} {i j k : RefId}
      {above : Option (RefId × Lexeme)} {ms cs : List (Definition RefId)} {o o' : Bool}
      (hword : word.kind = .class) (hname : name.kind = .identifier)
      (superclass : Derives best .superclass o ts i above j) (hopening : opening.kind = .leftBrace)
      (members : Derives best .members o' us j (ms, cs) k) (hclosing : closing.kind = .rightBrace) :
      Derives best .declaration false (word :: name :: (ts ++ opening :: (us ++ [closing]))) i
        (.class name.mark above ms cs) k
  | functionDeclaration {word : Token} {ts : List Token} {i j : RefId} {d : Definition RefId}
      {o : Bool} (hword : word.kind = .fun) (function : Derives best .function o ts i d j) :
      Derives best .declaration false (word :: ts) i (.function d) j
  | variableDeclaration {ts : List Token} {i j : RefId} {s : Stmt RefId} {o : Bool}
      (declaration : Derives best .variableDeclaration o ts i s j) :
      Derives best .declaration false ts i s j
  | statement {ts : List Token} {i j : RefId} {s : Stmt RefId} {o : Bool}
      (statement : Derives best .statement o ts i s j) : Derives best .declaration o ts i s j
  | noSuperclass (i : RefId) : Derives best .superclass false [] i none i
  | superclass {sign name : Token} (i : RefId) (hsign : sign.kind = .less)
      (hname : name.kind = .identifier) :
      Derives best .superclass false [sign, name] i (some (i, name.mark)) (i + 1)
  | noMember (i : RefId) : Derives best .members false [] i ([], []) i
  | method {ts us : List Token} {i j k : RefId} {d : Definition RefId}
      {ms cs : List (Definition RefId)} {o o' : Bool} (method : Derives best .function o ts i d j)
      (others : Derives best .members o' us j (ms, cs) k) :
      Derives best .members false (ts ++ us) i (d :: ms, cs) k
  | classMethod {word : Token} {ts us : List Token} {i j k : RefId} {d : Definition RefId}
      {ms cs : List (Definition RefId)} {o o' : Bool} (hword : word.kind = .class)
      (method : Derives best .function o ts i d j)
      (others : Derives best .members o' us j (ms, cs) k) :
      Derives best .members false (word :: (ts ++ us)) i (ms, d :: cs) k
  | function {name : Token} {ts : List Token} {i j : RefId} {r : Routine RefId} {o : Bool}
      (hname : name.kind = .identifier) (routine : Derives best .routine o ts i r j) :
      Derives best .function false (name :: ts) i ⟨name.mark, r⟩ j
  | routine {left right opening closing : Token} {ps ts : List Token} {i j k : RefId}
      {params : List Lexeme} {body : List (Stmt RefId)} {count : Nat} {o o' : Bool}
      (hleft : left.kind = .leftParen) (hcount : count ≤ listBound)
      (parameters : Derives best (.parameters count) o ps i params j)
      (hright : right.kind = .rightParen) (hopening : opening.kind = .leftBrace)
      (statements : Derives best .declarations o' ts j body k)
      (hclosing : closing.kind = .rightBrace) :
      Derives best .routine false (left :: (ps ++ right :: opening :: (ts ++ [closing]))) i
        ⟨params, body⟩ k
  | noParameter (i : RefId) : Derives best (.parameters 0) false [] i [] i
  | parameter {name : Token} (i : RefId) (hname : name.kind = .identifier) :
      Derives best (.parameters 1) false [name] i [name.mark] i
  | parameters {name sign : Token} {ts : List Token} {i j : RefId} {params : List Lexeme}
      {count : Nat} {o : Bool} (hname : name.kind = .identifier) (hsign : sign.kind = .comma)
      (others : Derives best (.parameters (count + 1)) o ts i params j) :
      Derives best (.parameters (count + 2)) false (name :: sign :: ts) i (name.mark :: params) j
  | unassigned {word name sign : Token} (i : RefId) (hword : word.kind = .var)
      (hname : name.kind = .identifier) (hsign : sign.kind = .semicolon) :
      Derives best .variableDeclaration false [word, name, sign] i (.var name.mark none) i
  | assigned {word name equal sign : Token} {ts : List Token} {i j : RefId} {e : Expr RefId}
      {o : Bool} (hword : word.kind = .var) (hname : name.kind = .identifier)
      (hequal : equal.kind = .equal) (initial : Derives best .expression o ts i e j)
      (hsign : sign.kind = .semicolon) :
      Derives best .variableDeclaration false (word :: name :: equal :: (ts ++ [sign])) i
        (.var name.mark (some e)) j
  | expression {ts : List Token} {i j : RefId} {s : Stmt RefId} {o : Bool}
      (expression : Derives best .expressionStatement o ts i s j) :
      Derives best .statement false ts i s j
  | forLoop {word left sign right : Token} {as cs es bs : List Token} {i j k l m : RefId}
      {initial : Option (Stmt RefId)} {condition increment : Option (Expr RefId)}
      {body : Stmt RefId} {o o' o₁ o₂ : Bool} (hword : word.kind = .for)
      (hleft : left.kind = .leftParen) (first : Derives best .initializer o as i initial j)
      (second : Derives best .optionalExpression o' cs j condition k)
      (hsign : sign.kind = .semicolon)
      (last : Derives best .optionalExpression o₁ es k increment l)
      (hright : right.kind = .rightParen) (statement : Derives best .statement o₂ bs l body m) :
      Derives best .statement o₂ (word :: left :: (as ++ (cs ++ sign :: (es ++ right :: bs)))) i
        (forTree initial condition increment body) m
  | ifOnly {word left right : Token} {cs ys : List Token} {i j k : RefId} {c : Expr RefId}
      {y : Stmt RefId} {o o' : Bool} (hword : word.kind = .if) (hleft : left.kind = .leftParen)
      (condition : Derives best .expression o cs i c j) (hright : right.kind = .rightParen)
      (yes : Derives best .statement o' ys j y k) :
      Derives best .statement true (word :: left :: (cs ++ right :: ys)) i (.if c y none) k
  | ifElse {word left right other : Token} {cs ys ns : List Token} {i j k l : RefId}
      {c : Expr RefId} {y n : Stmt RefId} {o o' o₁ : Bool} (hword : word.kind = .if)
      (hleft : left.kind = .leftParen) (condition : Derives best .expression o cs i c j)
      (hright : right.kind = .rightParen) (yes : Derives best .statement o' ys j y k)
      (nearest : best = true → o' = false) (hother : other.kind = .else)
      (no : Derives best .statement o₁ ns k n l) :
      Derives best .statement o₁ (word :: left :: (cs ++ right :: (ys ++ other :: ns))) i
        (.if c y (some n)) l
  | print {word sign : Token} {ts : List Token} {i j : RefId} {e : Expr RefId} {o : Bool}
      (hword : word.kind = .print) (value : Derives best .expression o ts i e j)
      (hsign : sign.kind = .semicolon) :
      Derives best .statement false (word :: (ts ++ [sign])) i (.print e) j
  | answer {word sign : Token} {ts : List Token} {i j : RefId} {e : Option (Expr RefId)}
      {o : Bool} (hword : word.kind = .return)
      (value : Derives best .optionalExpression o ts i e j) (hsign : sign.kind = .semicolon) :
      Derives best .statement false (word :: (ts ++ [sign])) i (.return word.mark e) j
  | leave {word sign : Token} (i : RefId) (hword : word.kind = .break)
      (hsign : sign.kind = .semicolon) :
      Derives best .statement false [word, sign] i (.break word.mark) i
  | whileLoop {word left right : Token} {cs bs : List Token} {i j k : RefId} {c : Expr RefId}
      {body : Stmt RefId} {o o' : Bool} (hword : word.kind = .while)
      (hleft : left.kind = .leftParen) (condition : Derives best .expression o cs i c j)
      (hright : right.kind = .rightParen) (statement : Derives best .statement o' bs j body k) :
      Derives best .statement o' (word :: left :: (cs ++ right :: bs)) i (.while c body) k
  | block {opening closing : Token} {ts : List Token} {i j : RefId} {body : List (Stmt RefId)}
      {o : Bool} (hopening : opening.kind = .leftBrace)
      (statements : Derives best .declarations o ts i body j)
      (hclosing : closing.kind = .rightBrace) :
      Derives best .statement false (opening :: (ts ++ [closing])) i (.block body) j
  | expressionStatement {sign : Token} {ts : List Token} {i j : RefId} {e : Expr RefId} {o : Bool}
      (expression : Derives best .expression o ts i e j) (hsign : sign.kind = .semicolon) :
      Derives best .expressionStatement false (ts ++ [sign]) i (.expr e) j
  | noInitializer {sign : Token} (i : RefId) (hsign : sign.kind = .semicolon) :
      Derives best .initializer false [sign] i none i
  | variableInitializer {ts : List Token} {i j : RefId} {s : Stmt RefId} {o : Bool}
      (declaration : Derives best .variableDeclaration o ts i s j) :
      Derives best .initializer false ts i (some s) j
  | expressionInitializer {ts : List Token} {i j : RefId} {s : Stmt RefId} {o : Bool}
      (expression : Derives best .expressionStatement o ts i s j) :
      Derives best .initializer false ts i (some s) j
  | noExpression (i : RefId) : Derives best .optionalExpression false [] i none i
  | someExpression {ts : List Token} {i j : RefId} {e : Expr RefId} {o : Bool}
      (expression : Derives best .expression o ts i e j) :
      Derives best .optionalExpression false ts i (some e) j
  | operand {level : Level} {ts : List Token} {i j : RefId} {e : Expr RefId} {o : Bool}
      (only : Derives best (.expr (operand level)) o ts i e j) :
      Derives best (.expr (.chain level)) o ts i e j
  | operation {level : Level} {sign : Token} {op : Infix} {ls rs : List Token} {i j k : RefId}
      {l r : Expr RefId} {o o' : Bool} (left : Derives best (.expr (.chain level)) o ls i l j)
      (farthest : best = true → level ≠ .comma → o = false)
      (hsign : (sign.kind, op) ∈ operators level)
      (right : Derives best (.expr (operand level)) o' rs j r k) :
      Derives best (.expr (.chain level)) o' (ls ++ sign :: rs) i (op.apply sign.mark l r) k
  | logic {ts : List Token} {i j : RefId} {e : Expr RefId} {o : Bool}
      (logic : Derives best (.expr (.chain .or)) o ts i e j) :
      Derives best (.expr .assignment) o ts i e j
  | assign {name equal : Token} {ts : List Token} {i j : RefId} {e : Expr RefId} {o : Bool}
      (hname : name.kind = .identifier) (hequal : equal.kind = .equal)
      (value : Derives best (.expr .assignment) o ts (i + 1) e j) :
      Derives best (.expr .assignment) o (name :: equal :: ts) i (.assign i name.mark e) j
  | set {dot name equal : Token} {cs ts : List Token} {i j k : RefId} {object e : Expr RefId}
      {o o' : Bool} (hobject : Derives best (.expr .call) o cs i object j) (hdot : dot.kind = .dot)
      (hname : name.kind = .identifier) (hequal : equal.kind = .equal)
      (value : Derives best (.expr .assignment) o' ts j e k) :
      Derives best (.expr .assignment) o' (cs ++ dot :: name :: equal :: ts) i
        (.set object name.mark e) k
  | equality {ts : List Token} {i j : RefId} {e : Expr RefId} {o : Bool}
      (equality : Derives best (.expr (.chain .equality)) o ts i e j) :
      Derives best (.expr .ternary) false ts i e j
  | ternary {question colon : Token} {cs ys ns : List Token} {i j k l : RefId}
      {c y n : Expr RefId} {o o' o₁ : Bool}
      (condition : Derives best (.expr (.chain .equality)) o cs i c j)
      (hquestion : question.kind = .question) (yes : Derives best .expression o' ys j y k)
      (hcolon : colon.kind = .colon) (no : Derives best (.expr .assignment) o₁ ns k n l) :
      Derives best (.expr .ternary) true (cs ++ question :: (ys ++ colon :: ns)) i
        (.ternary c y n) l
  | call {ts : List Token} {i j : RefId} {e : Expr RefId} {o : Bool}
      (call : Derives best (.expr .call) o ts i e j) : Derives best (.expr .unary) false ts i e j
  | unary {sign : Token} {op : UnaryOp} {ts : List Token} {i j : RefId} {e : Expr RefId} {o : Bool}
      (hsign : (sign.kind, op) ∈ unaryOperators) (operand : Derives best (.expr .unary) o ts i e j) :
      Derives best (.expr .unary) false (sign :: ts) i (.unary op sign.mark e) j
  | primary {ts : List Token} {i j : RefId} {e : Expr RefId} {o : Bool}
      (primary : Derives best (.expr .primary) o ts i e j) :
      Derives best (.expr .call) false ts i e j
  | lambda {word : Token} {ts : List Token} {i j : RefId} {r : Routine RefId} {o : Bool}
      (hword : word.kind = .fun) (routine : Derives best .routine o ts i r j) :
      Derives best (.expr .call) false (word :: ts) i (.lambda word.line r) j
  | apply {left right : Token} {cs as : List Token} {i j k : RefId} {callee : Expr RefId}
      {arguments : List (Expr RefId)} {count : Nat} {o o' : Bool}
      (hcallee : Derives best (.expr .call) o cs i callee j) (hleft : left.kind = .leftParen)
      (hcount : count ≤ listBound) (harguments : Derives best (.arguments count) o' as j arguments k)
      (hright : right.kind = .rightParen) :
      Derives best (.expr .call) false (cs ++ left :: (as ++ [right])) i
        (.call callee arguments right.line) k
  | get {dot name : Token} {cs : List Token} {i j : RefId} {object : Expr RefId} {o : Bool}
      (hobject : Derives best (.expr .call) o cs i object j) (hdot : dot.kind = .dot)
      (hname : name.kind = .identifier) :
      Derives best (.expr .call) false (cs ++ [dot, name]) i (.get object name.mark) j
  | noArgument (i : RefId) : Derives best (.arguments 0) false [] i [] i
  | argument {ts : List Token} {i j : RefId} {e : Expr RefId} {o : Bool}
      (argument : Derives best (.expr .assignment) o ts i e j) :
      Derives best (.arguments 1) false ts i [e] j
  | arguments {sign : Token} {ts us : List Token} {i j k : RefId} {e : Expr RefId}
      {es : List (Expr RefId)} {count : Nat} {o o' : Bool}
      (first : Derives best (.expr .assignment) o ts i e j) (hsign : sign.kind = .comma)
      (others : Derives best (.arguments (count + 1)) o' us j es k) :
      Derives best (.arguments (count + 2)) false (ts ++ sign :: us) i (e :: es) k
  | constant {t : Token} {v : Literal} (i : RefId) (h : (t.kind, v) ∈ constants) :
      Derives best (.expr .primary) false [t] i (.literal v) i
  | literal {t : Token} (i : RefId) (h : t.kind = .number ∨ t.kind = .string) :
      Derives best (.expr .primary) false [t] i (.literal (t.literal.getD .nil)) i
  | this {t : Token} (i : RefId) (h : t.kind = .this) :
      Derives best (.expr .primary) false [t] i (.this i t.mark) (i + 1)
  | identifier {t : Token} (i : RefId) (h : t.kind = .identifier) :
      Derives best (.expr .primary) false [t] i (.variable i t.mark) (i + 1)
  | super {t dot name : Token} (i : RefId) (h : t.kind = .super) (hdot : dot.kind = .dot)
      (hname : name.kind = .identifier) :
      Derives best (.expr .primary) false [t, dot, name] i (.super i t.mark name.mark) (i + 1)
  | group {left right : Token} {ts : List Token} {i j : RefId} {e : Expr RefId} {o : Bool}
      (hleft : left.kind = .leftParen) (inner : Derives best .expression o ts i e j)
      (hright : right.kind = .rightParen) :
      Derives best (.expr .primary) false (left :: (ts ++ [right])) i (.group e) j

end Grammar

end Lox
