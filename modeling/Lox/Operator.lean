import Lox.RuntimeError

/-!
What operators make of the values of their operands.
-/

namespace Lox

variable {ρ κ : Type}

def NumericOp.apply (op : NumericOp) (line : Nat) (x y : Float) :
    Except RuntimeError (Value ρ κ) :=
  match op with
  | .subtract => .ok (.number (x - y))
  | .multiply => .ok (.number (x * y))
  | .divide => if y == 0 then .error ⟨.divisionByZero, some line⟩ else .ok (.number (x / y))
  | .less => .ok (.bool (x < y))
  | .lessEqual => .ok (.bool (x <= y))
  | .greater => .ok (.bool (x > y))
  | .greaterEqual => .ok (.bool (x >= y))

/-- The sum of numbers, or the texts of strings and numbers put together. -/
def Value.add (line : Nat) : Value ρ κ → Value ρ κ → Except RuntimeError (Value ρ κ)
  | .number x, .number y => .ok (.number (x + y))
  | .string s, .string t => .ok (.string (s ++ t))
  | .string s, .number y => .ok (.string (s ++ Numeral.display y))
  | .number x, .string t => .ok (.string (Numeral.display x ++ t))
  | _, _ => .error ⟨.addOperands, some line⟩

/-- The line is that of the operator. -/
def BinaryOp.apply (op : BinaryOp) (line : Nat) (left right : Value ρ κ) :
    Except RuntimeError (Value ρ κ) :=
  match op with
  | .comma => .ok right
  | .equal => .ok (.bool (left.equals right))
  | .notEqual => .ok (.bool (!left.equals right))
  | .add => left.add line right
  | .numeric op => match left, right with
    | .number x, .number y => op.apply line x y
    | _, _ => .error ⟨.numberOperands, some line⟩

def UnaryOp.apply (op : UnaryOp) (line : Nat) (v : Value ρ κ) :
    Except RuntimeError (Value ρ κ) :=
  match op, v with
  | .not, v => .ok (.bool (!v.truthy))
  | .negate, .number x => .ok (.number (-x))
  | .negate, _ => .error ⟨.numberOperand, some line⟩

/-- Does the left operand alone decide? -/
def LogicalOp.decides (op : LogicalOp) (left : Value ρ κ) : Bool :=
  match op with
  | .or => left.truthy
  | .and => !left.truthy

end Lox
