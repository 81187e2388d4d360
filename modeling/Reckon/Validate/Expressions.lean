import Reckon.Diagnostic.Basic
import Reckon.Document.Walk
import Reckon.Fold

/-!
# Checks on expressions

Every expression is checked each time a walk comes by, before its parts are visited.

* `Document.divisionDiagnostic`, `Document.arityDiagnostic`: the two errors.
* `Document.checkExpr`: the error of an expression, if any: a division whose right operand folds to
  zero, or a call that is linked to a definition with another number of parameters.
* `Document.exprDiagnostics`: the errors of a document, in the order of the walk. One memory of folds
  serves the whole walk.
-/

namespace Reckon

namespace Document

/-- The error about a constant zero on the right of an operator. -/
def divisionDiagnostic (id : ExprId) (op : Operator) : Diagnostic :=
  (Diagnostic.error .zeroDivisor id.node)
    |>.withMessage "Division by zero is detected."
    |>.withProperty "right"
    |>.withNote s!"`{op.symbol}` by a constant zero yields infinity or NaN"

/-- The error about a call with the wrong number of arguments. -/
def arityDiagnostic (id : ExprId) (name : String) (expected got : Nat) : Diagnostic :=
  (Diagnostic.error .wrongArgumentCount id.node)
    |>.withMessage s!"Function '{name}' expects {expected} argument(s) but got {got}."

/-- The error of a call, by the definition it is linked to. A call of a parameter, or of nothing in
the document, has none. -/
def checkArity (doc : Document) (id : ExprId) (target : Option CallTarget) (got : Nat) :
    Option Diagnostic :=
  match target with
  | some (.definition callee) =>
    match doc.definition? callee with
    | some definition =>
      if definition.arity = got then none
      else some (arityDiagnostic id (doc.text definition.name) definition.arity got)
    | none => none
  | _ => none

/-- The error of an operator with this right operand. Only a divisor is folded. -/
def checkDivision (doc : Document) (id : ExprId) (op : Operator) (right : ExprId) :
    Folder (Option Diagnostic) := do
  if op.isDivision then
    let divisor ← doc.foldNext right
    return if divisor.any Binary64.isZero then some (divisionDiagnostic id op) else none
  else
    return none

/-- The error of an expression. -/
def checkExpr (doc : Document) (id : ExprId) : Expr → Folder (Option Diagnostic)
  | .binary op _ right => doc.checkDivision id op right
  | .call target args => return doc.checkArity id target args.length
  | .number _ | .error => return none

/-- What is known while expressions are checked. -/
structure ExprCheck where
  cache : FoldCache := ∅
  diagnostics : Array Diagnostic := #[]

/-- Checks what a walk visits. -/
def checkVisit (doc : Document) : ExprCheck → Visit → Except Fault ExprCheck
  | { cache, diagnostics }, .expr id expr => do
    let (found, cache) ← (doc.checkExpr id expr).run cache
    return { cache, diagnostics := diagnostics ++ found.toArray }
  | state, .definition .. | state, .evaluation .. => return state

/-- The errors in expressions, in the order of a walk. -/
def exprDiagnostics (doc : Document) : Except Fault (List Diagnostic) :=
  return (← doc.walk doc.checkVisit {}).diagnostics.toList

end Document

end Reckon
