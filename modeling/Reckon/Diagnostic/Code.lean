/-!
# Diagnostic codes

Every diagnostic carries a code that stays the same when its wording changes: a letter for the
severity it is reported with, and a number whose first digit tells the stage that reports it.
-/

namespace Reckon

/-- What a diagnostic is about. -/
inductive Code where
  /-- A person name starts with a character that has an uppercase form. -/
  | uncapitalizedName
  /-- A person is greeted again. -/
  | repeatedGreeting
  /-- A call is written with the wrong number of arguments. -/
  | wrongArgumentCount
  /-- A divisor is a constant zero. -/
  | zeroDivisor
  /-- A call was evaluated with the wrong number of arguments. -/
  | arityMismatch
  /-- A call without a definition was evaluated. -/
  | unlinkedReference
  /-- Calls were nested too deeply. -/
  | recursionLimit
deriving DecidableEq, Repr

namespace Code

/-- All codes, in ascending order within each stage. -/
def all : List Code :=
  [.uncapitalizedName, .repeatedGreeting, .wrongArgumentCount, .zeroDivisor, .arityMismatch,
    .unlinkedReference, .recursionLimit]

/-- The code as it is shown. -/
def text : Code → String
  | .uncapitalizedName => "W1001"
  | .repeatedGreeting => "E1001"
  | .wrongArgumentCount => "E2001"
  | .zeroDivisor => "E2002"
  | .arityMismatch => "E6001"
  | .unlinkedReference => "E6002"
  | .recursionLimit => "E6003"

/-- What the code means, in general. -/
def description : Code → String
  | .uncapitalizedName => "person name should start with a capital"
  | .repeatedGreeting => "person greeted more than once"
  | .wrongArgumentCount | .arityMismatch => "wrong number of arguments in call"
  | .zeroDivisor => "division or modulo by a constant zero"
  | .unlinkedReference => "call refers to an unresolved definition"
  | .recursionLimit => "recursion limit exceeded"

/-- The code with a given text. -/
def ofText? (text : String) : Option Code :=
  all.find? (·.text == text)

theorem mem_all (code : Code) : code ∈ all := by
  cases code <;> decide

theorem all_nodup : all.Nodup := by
  decide

@[simp]
theorem ofText?_text (code : Code) : ofText? code.text = some code := by
  cases code <;> decide

end Code

end Reckon
