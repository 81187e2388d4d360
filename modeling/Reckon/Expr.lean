import Reckon.Node
import Reckon.Operator

/-!
# Expressions

An expression is one node: it names its operands and arguments by index. A document keeps all
expressions in one table, so that several expressions may share a part.

* `Expr`: the four kinds of expression. Two expressions are equal if they are the same node:
  numbers by bit pattern, parts by index.
* `CallTarget`: what a call was linked to.
* `Expr.children`: the parts of an expression, in the order of a walk.
-/

namespace Reckon

/-- What the name in a call was linked to. -/
inductive CallTarget where
  | definition (id : DefId)
  /-- A parameter, by its place in the parameter list of a definition. -/
  | parameter (id : DefId) (index : Nat)
deriving DecidableEq, Repr

/-- The definition that a target is or belongs to. -/
def CallTarget.owner : CallTarget → DefId
  | .definition id => id
  | .parameter id _ => id

/-- An expression node. -/
inductive Expr where
  | binary (op : Operator) (left right : ExprId)
  | number (value : Binary64)
  /-- A call of a function or a mention of a variable or parameter, which has no arguments. The
  target is absent if no definition was found. -/
  | call (target : Option CallTarget) (args : List ExprId)
  /-- Stands where no expression could be read. -/
  | error
deriving DecidableEq, Repr

namespace Expr

/-- The literal value, of a literal. -/
def value? : Expr → Option Binary64
  | .number value => some value
  | _ => none

/-- Operands from left to right, or arguments in order. -/
def children : Expr → List ExprId
  | .binary _ left right => [left, right]
  | .call _ args => args
  | .number _ | .error => []

end Expr

end Reckon
