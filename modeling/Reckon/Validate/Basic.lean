import Reckon.Validate.Declarations
import Reckon.Validate.Expressions

/-!
# Validation

A document is validated without being evaluated. The diagnostics come in three groups: names of
persons, greetings, and expressions.
-/

namespace Reckon

/-- All diagnostics of a document, with the characters that have an uppercase form as given. -/
def Document.validate (doc : Document) (changes : Char → Bool) : Except Fault (List Diagnostic) :=
  return doc.nameDiagnostics changes ++ (← doc.greetingDiagnostics) ++ (← doc.exprDiagnostics)

end Reckon
