import Reckon.Operator

/-!
# Values

The value of an expression is a number, or nothing: an expression that could not be read, or a name
that is not defined yet, has no value without being an error.

* `Value.operate`: what an operator makes of two values when an expression is evaluated.
* `Value.fold`: what it makes of two values known beforehand.
* `Value.equal`: equality of values as numbers.
-/

namespace Reckon

/-- A number, or no value. -/
abbrev Value := Option Binary64

namespace Value

/-- An operator between two values. Without a right operand the left one stays as it is, and a
missing left operand counts as NaN. -/
def operate (op : Operator) (left : Value) : (right : Value) → Value
  | none => left
  | some right => some (op.apply (left.getD .nan) right)

/-- An operator between two values that are known beforehand, `none` standing for an unknown one. The
result is known if both operands are and no division by zero is involved. -/
def fold (op : Operator) (left right : Value) : Value :=
  match left, right with
  | some x, some y => if op.isDivision && y.isZero then none else some (op.apply x y)
  | _, _ => none

/-- Equality of values: that of numbers, and no value equals no value. -/
def equal : Value → Value → Bool
  | some x, some y => x.equal y
  | none, none => true
  | _, _ => false

/-- A fold is known if both operands are, unless it divides by zero. -/
theorem fold_eq_some {op : Operator} {left right : Value} {z : Binary64} :
    fold op left right = some z ↔
      ∃ x y, left = some x ∧ right = some y ∧ (op.isDivision && y.isZero) = false ∧
        op.apply x y = z := by
  cases left <;> cases right <;> simp [fold]

/-- A fold is unknown if an operand is, or if it divides by zero. -/
theorem fold_eq_none {op : Operator} {left right : Value} :
    fold op left right = none ↔
      left = none ∨ right = none ∨ op.isDivision = true ∧ right.any Binary64.isZero = true := by
  cases left <;> cases right <;> simp [fold]

/-- A fold that is known is what evaluation gives. -/
theorem operate_eq_of_fold {op : Operator} {left right : Value} {z : Binary64}
    (h : fold op left right = some z) : operate op left right = some z := by
  unfold fold at h
  split at h <;> grind [operate]

end Value

end Reckon
