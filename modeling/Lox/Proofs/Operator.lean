import Lox.Operator
import Lox.Proofs.Native
import Lox.Syntax.Parser

/-!
Operators by the kinds of their tokens. An operation that is chosen by the kind of a token is not there
for every kind; it is there for the operators that the parser makes of tokens. Results are constants, but
for those of the comma.
-/

namespace Lox

variable {ρ κ : Type}

/-- The kind of the tokens that stand for the operator. -/
def NumericOp.kind : NumericOp → Token.Kind
  | .subtract => .minus
  | .multiply => .star
  | .divide => .slash
  | .less => .less
  | .lessEqual => .lessEqual
  | .greater => .greater
  | .greaterEqual => .greaterEqual

def BinaryOp.kind : BinaryOp → Token.Kind
  | .comma => .comma
  | .equal => .equalEqual
  | .notEqual => .bangEqual
  | .add => .plus
  | .numeric op => op.kind

def LogicalOp.kind : LogicalOp → Token.Kind
  | .and => .and
  | .or => .or

def UnaryOp.kind : UnaryOp → Token.Kind
  | .not => .bang
  | .negate => .minus

namespace Parser

def Infix.kind : Infix → Token.Kind
  | .binary op => op.kind
  | .logical op => op.kind

theorem Level.kind_of_operator? {level : Level} {kind : Token.Kind} {op : Infix}
    (h : level.operator? kind = some op) : op.kind = kind := by
  unfold operator? at h
  split at h <;> cases h <;> rfl

theorem kind_of_unaryOperator? {kind : Token.Kind} {op : UnaryOp}
    (h : unaryOperator? kind = some op) : op.kind = kind := by
  unfold unaryOperator? at h
  split at h <;> cases h <;> rfl

end Parser

namespace Token.Kind

/-- What a token of the kind does to numbers, if it stands between numbers. -/
def applyNumbers? (kind : Kind) (line : Nat) (x y : Float) :
    Option (Except RuntimeError (Value ρ κ)) :=
  match kind with
  | .minus => some (.ok (.number (x - y)))
  | .star => some (.ok (.number (x * y)))
  | .slash => some (if y == 0 then .error ⟨.divisionByZero, some line⟩ else .ok (.number (x / y)))
  | .greater => some (.ok (.bool (x > y)))
  | .greaterEqual => some (.ok (.bool (x >= y)))
  | .less => some (.ok (.bool (x < y)))
  | .lessEqual => some (.ok (.bool (x <= y)))
  | _ => none

/-- What a token of the kind does to its operands. Whatever has no meaning of its own asks for numbers
first, and may have none for them either. -/
def applyBinary? (kind : Kind) (line : Nat) (left right : Value ρ κ) :
    Option (Except RuntimeError (Value ρ κ)) :=
  match kind with
  | .comma => some (.ok right)
  | .equalEqual => some (.ok (.bool (left.equals right)))
  | .bangEqual => some (.ok (.bool (!left.equals right)))
  | .plus => some (left.add line right)
  | _ => match left, right with
    | .number x, .number y => kind.applyNumbers? line x y
    | _, _ => some (.error ⟨.numberOperands, some line⟩)

/-- Whatever is no minus negates a truth value. -/
def applyUnary (kind : Kind) (line : Nat) (v : Value ρ κ) : Except RuntimeError (Value ρ κ) :=
  match kind, v with
  | .minus, .number x => .ok (.number (-x))
  | .minus, _ => .error ⟨.numberOperand, some line⟩
  | _, v => .ok (.bool (!v.truthy))

/-- Whatever is no `or` is an `and`. -/
def decides (kind : Kind) (left : Value ρ κ) : Bool :=
  if kind = .or then left.truthy else !left.truthy

end Token.Kind

theorem NumericOp.applyNumbers?_kind (op : NumericOp) (line : Nat) (x y : Float) :
    op.kind.applyNumbers? line x y = some (op.apply line x y : Except RuntimeError (Value ρ κ)) := by
  cases op <;> rfl

/-- The operation is there for every operator of a tree. -/
theorem BinaryOp.applyBinary?_kind (op : BinaryOp) (line : Nat) (left right : Value ρ κ) :
    op.kind.applyBinary? line left right = some (op.apply line left right) := by
  cases op with
  | numeric op =>
    have numbers : op.kind.applyBinary? line left right = match left, right with
        | .number x, .number y => op.kind.applyNumbers? line x y
        | _, _ => some (.error ⟨.numberOperands, some line⟩) := by
      cases op <;> rfl
    rw [BinaryOp.kind, numbers]
    cases left with
    | number x =>
      cases right with
      | number y => exact op.applyNumbers?_kind line x y
      | _ => rfl
    | _ => rfl
  | _ => rfl

theorem UnaryOp.applyUnary_kind (op : UnaryOp) (line : Nat) (v : Value ρ κ) :
    op.kind.applyUnary line v = op.apply line v := by
  cases op <;> cases v <;> rfl

theorem LogicalOp.decides_kind (op : LogicalOp) (left : Value ρ κ) :
    op.kind.decides left = op.decides left := by
  cases op <;> rfl

/-! Results. -/

theorem Value.ofLiteral_ofBare (l : Literal) :
    ∃ b : Value Unit Unit, (.ofLiteral l : Value ρ κ) = b.ofBare := by
  cases l with
  | nil => exact ⟨.nil, rfl⟩
  | bool b => exact ⟨.bool b, rfl⟩
  | number x => exact ⟨.number x, rfl⟩
  | string s => exact ⟨.string s, rfl⟩

section Results

variable {line : Nat} {u v w : Value ρ κ}

theorem UnaryOp.apply_ofBare {op : UnaryOp} (h : op.apply line v = .ok w) :
    ∃ b : Value Unit Unit, w = b.ofBare := by
  cases op with
  | not =>
    cases h
    exact ⟨.bool _, rfl⟩
  | negate =>
    cases v with
    | number x =>
      cases h
      exact ⟨.number _, rfl⟩
    | _ => cases h

theorem NumericOp.apply_ofBare {op : NumericOp} {x y : Float} (h : op.apply line x y = .ok w) :
    ∃ b : Value Unit Unit, w = b.ofBare := by
  cases op with
  | divide =>
    simp only [NumericOp.apply] at h
    split at h
    · cases h
    · cases h
      exact ⟨.number _, rfl⟩
  | subtract | multiply =>
    cases h
    exact ⟨.number _, rfl⟩
  | _ =>
    cases h
    exact ⟨.bool _, rfl⟩

theorem Value.add_ofBare (h : v.add line w = .ok u) : ∃ b : Value Unit Unit, u = b.ofBare := by
  unfold Value.add at h
  split at h
  · cases h
    exact ⟨.number _, rfl⟩
  · cases h
    exact ⟨.string _, rfl⟩
  · cases h
    exact ⟨.string _, rfl⟩
  · cases h
    exact ⟨.string _, rfl⟩
  · cases h

/-- Only the comma hands on an operand, the right one. -/
theorem BinaryOp.apply_ofBare {op : BinaryOp} (h : op.apply line v w = .ok u) :
    u = w ∨ ∃ b : Value Unit Unit, u = b.ofBare := by
  cases op with
  | comma =>
    cases h
    exact .inl rfl
  | equal | notEqual =>
    cases h
    exact .inr ⟨.bool _, rfl⟩
  | add => exact .inr (Value.add_ofBare h)
  | numeric op =>
    simp only [BinaryOp.apply] at h
    split at h
    · exact .inr (NumericOp.apply_ofBare h)
    · cases h

end Results

end Lox
