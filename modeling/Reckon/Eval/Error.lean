import Reckon.Diagnostic.Basic
import Reckon.Fault
import Reckon.Value

/-!
# Evaluation errors

Three things end the evaluation of an expression with an error: a call with the wrong number of
arguments, a call that was never linked, and calls nested too deeply. Infinities and NaN are values.

* `EvalError`: the causes, all at a call; `EvalError.message` their wording and
  `EvalError.toDiagnostic` the diagnostic.
* `Stop`: an error, or a fault of the document that no policy catches.
* `Outcome`: a value or an error, with `Outcome.value` and `Outcome.error?`.
-/

namespace Reckon

/-- Why an expression has no outcome. -/
inductive EvalError where
  /-- The function called takes another number of arguments. -/
  | arityMismatch (name : String) (definition : DefId) (call : ExprId) (expected got : Nat)
  /-- The call has no target, or one that is not in the document. -/
  | unlinkedReference (call : ExprId)
  /-- The call would have been nested deeper than `depth`. -/
  | recursionLimit (name : String) (call : ExprId) (depth : Nat)
deriving DecidableEq, Repr

namespace EvalError

/-- The call at which the error arose. -/
def call : EvalError → ExprId
  | .arityMismatch _ _ call _ _ => call
  | .unlinkedReference call => call
  | .recursionLimit _ call _ => call

/-- The code of the error. -/
def code : EvalError → Code
  | .arityMismatch .. => .arityMismatch
  | .unlinkedReference .. => .unlinkedReference
  | .recursionLimit .. => .recursionLimit

/-- The text of the error. -/
def message : EvalError → String
  | .arityMismatch name _ _ expected got =>
    s!"`{name}` expects {expected} argument(s) but got {got}"
  | .unlinkedReference _ => "call refers to a definition that was never resolved"
  | .recursionLimit name _ depth =>
    s!"maximum recursion depth of {depth} exceeded calling `{name}`"

/-- The error as a diagnostic on its call. -/
def toDiagnostic (error : EvalError) : Diagnostic :=
  (Diagnostic.error error.code error.call.node).withMessage error.message

end EvalError

/-- What an evaluation comes to: a value, or the error that ended it. -/
abbrev Outcome := Except EvalError Value

/-- Equality of outcomes, with values compared as numbers. -/
def Outcome.equal : Outcome → Outcome → Bool
  | .ok v, .ok w => v.equal w
  | .error e, .error f => e = f
  | _, _ => false

/-- The value that is left of an outcome: an error leaves none. -/
def Outcome.value : Outcome → Value
  | .ok value => value
  | .error _ => none

/-- The error of an outcome, if it is one. -/
def Outcome.error? : Outcome → Option EvalError
  | .ok _ => none
  | .error error => some error

/-- Why an evaluation stops before its end. -/
inductive Stop where
  /-- An error of the calculation. -/
  | error (error : EvalError)
  /-- An index of the document that points nowhere. -/
  | fault (fault : Fault)
deriving DecidableEq, Repr

end Reckon
