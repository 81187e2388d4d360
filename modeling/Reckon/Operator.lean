import Reckon.Binary64.Power
import Reckon.Binary64.Remainder

/-!
# Binary operators

The six operators of the calculator, their symbols and their arithmetic. `Operator.apply` is the
only place where arithmetic is given a meaning: evaluation and constant folding both use it.
-/

namespace Reckon

/-- A binary operator. -/
inductive Operator where
  | add
  | sub
  | mul
  | div
  /-- Remainder of the truncated quotient. -/
  | mod
  | pow
deriving DecidableEq, Repr

namespace Operator

/-- All operators, in their conventional order. -/
def all : List Operator :=
  [.add, .sub, .mul, .div, .mod, .pow]

/-- The symbol an operator is written with. -/
def symbol : Operator → String
  | .add => "+"
  | .sub => "-"
  | .mul => "*"
  | .div => "/"
  | .mod => "%"
  | .pow => "^"

/-- The operator with a given symbol. -/
def ofSymbol? (symbol : String) : Option Operator :=
  all.find? (·.symbol == symbol)

/-- Whether the right operand is a divisor, for which zero is suspect. -/
def isDivision : Operator → Bool
  | .div | .mod => true
  | .add | .sub | .mul | .pow => false

/-- The value of an operator at two numbers. Division by zero, overflow and the like are values as
any other, infinite or NaN. -/
def apply : Operator → Binary64 → Binary64 → Binary64
  | .add, x, y => x + y
  | .sub, x, y => x - y
  | .mul, x, y => x * y
  | .div, x, y => x / y
  | .mod, x, y => x.remainder y
  | .pow, x, y => x.power y

theorem mem_all (op : Operator) : op ∈ all := by
  cases op <;> decide

theorem all_nodup : all.Nodup := by
  decide

@[simp]
theorem ofSymbol?_symbol (op : Operator) : ofSymbol? op.symbol = some op := by
  cases op <;> decide

end Operator

end Reckon
